import ExprLowering.Proofs.AlikeStores
import ExprLowering.Proofs.Arithmetic
import ExprLowering.Proofs.StepSimulation

/-!
# Runs of trees that are alike

Trees that are alike, run from stores that are alike, end alike (`Prim.Alike.follows`). For roots of the same
form this is put together from their parts. A checked increment sets temporaries of its own for the old and
the new value, for which no cell of the right store stands; if it succeeds, the new value is the one that the
wrapping increment finds.
-/

namespace ExprLowering

open Correspondence

variable {σ : Type} {L : Prop} {R : Pairing → σ → σ → Prop} {m : Machine} {host : Host σ} {enter : Enter σ}
  {w : Pairing} {Γ : Naming} {scopes scopes' : List Scope}

/-- Evaluating the trees gives values that are alike. -/
abbrev EvalFollows (L : Prop) (R : Pairing → σ → σ → Prop) (m : Machine) (host : Host σ) (enter : Enter σ)
    (w : Pairing) (scopes scopes' : List Scope) (p q : Prim) : Prop :=
  Follows L R m w (m.evalWith host id enter scopes p) (m.evalWith host id enter scopes' q) (Value.Alike L m)

theorem EvalFollows.stores {temps temps' : List Temp} (htemps : List.Forall₂ (Temp.SameForm Γ) temps temps')
    (hΓ : Γ.Paired m w scopes scopes')
    (h : List.Forall₂ (fun t t' => EvalFollows L R m host enter w scopes scopes' t.init t'.init) temps temps') :
    List.Forall₂ (EvalFollows L R m host enter w scopes scopes') (Temp.stores temps) (Temp.stores temps') := by
  rw [Temp.stores, Temp.stores, List.forall₂_map_left_iff, List.forall₂_map_right_iff]
  induction htemps with
  | nil => exact .nil
  | cons ht _ ih =>
    rcases h with _ | ⟨hinit, h⟩
    refine .cons ?_ (ih h)
    rw [EvalFollows, Machine.evalWith_assign, Machine.evalWith_assign]
    exact .assign ((Place.SameForm.var ht.2).runs (.inr fun _ _ => trivial) hΓ .nil) hinit

/-! ### Checked increments -/

section
variable {s s' : Store σ} {op : IncDec} {ty : Ty} {one : Constant} {place : Place Prim} {old new : Var} {c d : CellId}

theorem evalWith_assignVar {x : Var} (hx : m.lookup scopes x = some c) (p : Prim) :
    m.evalWith host id enter scopes (.assign (.var x) p) =
      m.evalWith host id enter scopes p >>= fun v => Eval.store v (.cell c) >>= fun _ => pure v := by
  simp only [Machine.evalWith, Machine.locate, Machine.cell, hx, pure_bind]

theorem run_assignVar {x : Var} (hx : m.lookup scopes x = some c) {p : Prim} {v : Value}
    (h : (m.evalWith host id enter scopes p).run s = (.ok v, s')) :
    (m.evalWith host id enter scopes (.assign (.var x) p)).run s = (.ok v, s'.setAt v (.cell c)) := by
  rw [evalWith_assignVar hx, run_bind_of_ok h, run_bind_of_ok (run_store v _ s')]
  rfl

theorem run_assignVar_eq_ok {x : Var} {p : Prim} {v : Value} (hx : m.lookup scopes x = some c)
    (h : (m.evalWith host id enter scopes (.assign (.var x) p)).run s = (.ok v, s')) :
    ∃ s₁, (m.evalWith host id enter scopes p).run s = (.ok v, s₁) ∧ s' = s₁.setAt v (.cell c) := by
  rw [evalWith_assignVar hx] at h
  obtain ⟨v₁, s₁, h₁, h⟩ := run_bind_eq_ok.1 h
  cases h
  exact ⟨s₁, h₁, rfl⟩

theorem run_readPlace_eq_ok (htrivial : ∀ p ∈ place.parts, p.isTrivial = true) {v : Value}
    (h : (m.evalWith host id enter scopes place.read).run s = (.ok v, s')) :
    s = s' ∧ ∃ l, (m.locate host id enter scopes place).run s = (.ok l, s) ∧ v = s.valueAt l := by
  rw [Machine.evalWith_read] at h
  obtain ⟨l, t, hloc, h⟩ := run_bind_eq_ok.1 h
  rw [run_load] at h
  cases h
  obtain ⟨r, hr, -⟩ : ∃ r, (m.locate host id enter scopes place).run s = (r, s) ∧ ∀ l, r = .ok l →
      (∀ a i, l = .element a i → _) → (m.locate host id enter scopes place).run s = (.ok l, s) :=
    run_locate_trivial htrivial fun _ _ _ _ => rfl
  obtain ⟨-, rfl⟩ := Prod.mk.inj (hloc.symm.trans hr)
  exact ⟨rfl, l, hloc, rfl⟩

theorem run_arithOne (op : ArithOp) (one : Constant) (hold : m.lookup scopes old = some c) :
    (m.evalWith host id enter scopes (.arith op true (.read old) (.const one))).run s =
      (Value.arith op true (s.cells.getD c .null) (.ofConstant one), s) := by
  rw [Machine.evalWith, run_bind_of_ok (run_read hold), Machine.evalWith, pure_bind, run_liftM]

theorem run_assignPlace {l : Location} (hloc : (m.locate host id enter scopes place).run s = (.ok l, s))
    (hnew : m.lookup scopes new = some d) :
    (m.evalWith host id enter scopes (.assign place (.read new))).run s =
      (.ok (s.cells.getD d .null), s.setAt (s.cells.getD d .null) l) := by
  rw [Machine.evalWith_assign, run_bind_of_ok hloc, run_bind_of_ok (run_read hnew), run_bind_of_ok (run_store _ l s)]
  rfl

theorem Store.cell_setAt_self {v : Value} (hc : c < s.cells.size) : (s.setAt v (.cell c)).cells.getD c .null = v :=
  (getD_setIfInBounds ..).trans (if_pos ⟨rfl, hc⟩)

/-- The statements of a checked increment after those that set the parts of its location. -/
def incrementSteps (op : IncDec) (one : Constant) (place : Place Prim) (old new : Var) : List Prim :=
  [.assign (.var old) place.read, .assign (.var new) (.arith op.arith true (.read old) (.const one)),
    .assign place (.read new)]

/-- A checked increment at a location that has been found. It sets the temporary for the old value; if the sum is
in range, it sets the one for the new value and stores it at the location, which is found again. -/
theorem run_incrementSteps {l : Location} (op : IncDec) (one : Constant) (hold : m.lookup scopes old = some c)
    (hnew : m.lookup scopes new = some d) (hcd : c ≠ d) (hc : c < s.cells.size) (hd : d < s.cells.size)
    (htrivial : ∀ p ∈ place.parts, p.isTrivial = true)
    (hreads : ∀ x, .read x ∈ place.parts → ∀ e, m.lookup scopes x = some e → e ≠ c ∧ e ≠ d)
    (hloc : (m.locate host id enter scopes place).run s = (.ok l, s)) (hlc : l ≠ .cell c) (hld : l ≠ .cell d) :
    (runThen ((incrementSteps op one place old new).map (m.evalWith host id enter scopes))
        (m.evalWith host id enter scopes (if op.yieldsNew then .read new else .read old))).run s =
      match Value.arith op.arith true (s.valueAt l) (.ofConstant one) with
      | .error f => (.error f, s.setAt (s.valueAt l) (.cell c))
      | .ok next => (.ok (if op.yieldsNew then next else s.valueAt l),
          ((s.setAt (s.valueAt l) (.cell c)).setAt next (.cell d)).setAt next l) := by
  -- The old value is read from the location.
  have hread : (m.evalWith host id enter scopes place.read).run s = (.ok (s.valueAt l), s) := by
    rw [Machine.evalWith_read, run_bind_of_ok hloc, run_load]
  refine (run_bind_of_ok (run_assignVar hold hread)).trans ?_
  -- The new value is found from the old one.
  have harith : (m.evalWith host id enter scopes (.arith op.arith true (.read old) (.const one))).run
      (s.setAt (s.valueAt l) (.cell c)) =
        (Value.arith op.arith true (s.valueAt l) (.ofConstant one), s.setAt (s.valueAt l) (.cell c)) := by
    rw [run_arithOne op.arith one hold, Store.cell_setAt_self hc]
  cases hnext : Value.arith op.arith true (s.valueAt l) (.ofConstant one) with
  | error f =>
    rw [hnext] at harith
    refine run_bind_of_error ?_
    rw [evalWith_assignVar hnew, run_bind_of_error harith]
  | ok next =>
    rw [hnext] at harith
    refine (run_bind_of_ok (run_assignVar hnew harith)).trans ?_
    -- The location is found again: only the two temporaries were set.
    have hcells : ∀ x, .read x ∈ place.parts → ∀ e, m.lookup scopes x = some e →
        ((s.setAt (s.valueAt l) (.cell c)).setAt next (.cell d)).cells.getD e .null = s.cells.getD e .null := by
      intro x hx e he
      obtain ⟨hec, hed⟩ := hreads x hx e he
      rw [Store.cell_setAt_of_ne fun heq => hed (Location.cell.inj heq).symm,
        Store.cell_setAt_of_ne fun heq => hec (Location.cell.inj heq).symm]
    obtain ⟨r, hr, hagain⟩ : ∃ r, (m.locate host id enter scopes place).run s = (r, s) ∧ _ :=
      run_locate_trivial htrivial hcells
    have hloc₂ := hagain l (Prod.mk.inj (hr.symm.trans hloc)).1 fun _ _ _ => rfl
    refine (run_bind_of_ok (run_assignPlace hloc₂ hnew)).trans ?_
    rw [Store.cell_setAt_self (by simpa using hd)]
    have hdc : Location.cell d ≠ .cell c := fun heq => hcd (Location.cell.inj heq).symm
    show (m.evalWith host id enter scopes (if op.yieldsNew then .read new else .read old)).run _ =
      (.ok (if op.yieldsNew then next else s.valueAt l), _)
    by_cases hy : op.yieldsNew = true
    · rw [if_pos hy, if_pos hy]
      refine (run_read hnew).trans ?_
      rw [Store.cell_setAt_of_ne hld, Store.cell_setAt_self (by simpa using hd)]
    · rw [if_neg hy, if_neg hy]
      refine (run_read hold).trans ?_
      rw [Store.cell_setAt_of_ne hlc, Store.cell_setAt_of_ne hdc, Store.cell_setAt_self hc]

/-- What a checked increment has done if it succeeds: it has set its two temporaries, and has stored at the
location the value that the wrapping increment finds. -/
theorem run_incrementSteps_eq_ok (hone : Constant.one? ty = some one) (hold : m.lookup scopes old = some c)
    (hnew : m.lookup scopes new = some d) (hcd : c ≠ d) (hc : c < s.cells.size) (hd : d < s.cells.size)
    (htrivial : ∀ p ∈ place.parts, p.isTrivial = true)
    (hreads : ∀ x, .read x ∈ place.parts → ∀ e, m.lookup scopes x = some e → e ≠ c ∧ e ≠ d)
    (hplace : ∀ l, (m.locate host id enter scopes place).run s = (.ok l, s) → l ≠ .cell c ∧ l ≠ .cell d) {v : Value}
    (h : (runThen ((incrementSteps op one place old new).map (m.evalWith host id enter scopes))
      (m.evalWith host id enter scopes (if op.yieldsNew then .read new else .read old))).run s = (.ok v, s')) :
    ∃ l one' next, (m.locate host id enter scopes place).run s = (.ok l, s) ∧ (s.valueAt l).oneLike = .ok one' ∧
      Value.arith op.arith false (s.valueAt l) one' = .ok next ∧
      s' = Store.setAt ((s.setAt (s.valueAt l) (.cell c)).setAt next (.cell d)) next l ∧
      v = if op.yieldsNew then next else s.valueAt l := by
  obtain ⟨v₁, s₁, h₁, -⟩ := run_bind_eq_ok.1 h
  obtain ⟨t₁, hread, -⟩ := run_assignVar_eq_ok hold h₁
  obtain ⟨-, l, hloc, -⟩ := run_readPlace_eq_ok htrivial hread
  obtain ⟨hlc, hld⟩ := hplace l hloc
  rw [run_incrementSteps op one hold hnew hcd hc hd htrivial hreads hloc hlc hld] at h
  cases hnext : Value.arith op.arith true (s.valueAt l) (.ofConstant one) with
  | error f =>
    rw [hnext] at h
    cases h
  | ok next =>
    rw [hnext] at h
    obtain ⟨one', hone', hwrap⟩ := Value.arith_oneLike hone hnext
    obtain ⟨hv, hs⟩ := Prod.mk.inj h
    exact ⟨l, one', next, hloc, hone', hwrap, hs.symm, (Except.ok.inj hv).symm⟩

theorem run_step {l : Location} {one new : Value} (hone : (s.valueAt l).oneLike = .ok one)
    (hnew : Value.arith op.arith false (s.valueAt l) one = .ok new) :
    (Machine.step op l).run s = (.ok (if op.yieldsNew then new else s.valueAt l), s.setAt new l) := by
  rw [Machine.step, run_bind_of_ok (run_load l s), hone]
  refine (run_bind_of_ok (run_liftM _ s)).trans ?_
  rw [hnew]
  refine (run_bind_of_ok (run_liftM _ s)).trans ?_
  rw [run_bind_of_ok (run_store new l s)]
  rfl

end

theorem paired_of_read {ps qs : List Prim} (h : List.Forall₂ (Prim.Alike L Γ) ps qs)
    (hΓ : Γ.Paired m w scopes scopes') {x : Var} (hx : .read x ∈ ps) {e : CellId} (he : m.lookup scopes x = some e) :
    ∃ e', w e e' := by
  induction h with
  | nil => cases hx
  | @cons p q ps qs hpq _ ih =>
    rcases List.mem_cons.1 hx with rfl | hx
    · obtain ⟨y, hxy⟩ := hpq.read_left
      have hc := hΓ _ _ hxy
      rw [Machine.lookup_eq] at he
      rw [he] at hc
      generalize m.cell? scopes' y = d at hc
      cases hc with
      | some hc => exact ⟨_, hc⟩
    · exact ih hx

theorem Follow.increment {s t : Store σ} {op : IncDec} {ty : Ty} {one : Constant} {place place' : Place Prim}
    {old new : Var} {c d : CellId} (hL : L) (hone : Constant.one? ty = some one) (hold : m.lookup scopes old = some c)
    (hnew : m.lookup scopes new = some d) (hcd : c ≠ d) (hc : c < s.cells.size ∧ ∀ e, ¬ w c e)
    (hd : d < s.cells.size ∧ ∀ e, ¬ w d e) (htrivial : ∀ p ∈ place.parts, p.isTrivial = true)
    (hform : place.SameForm Γ place') (hΓ : Γ.Paired m w scopes scopes')
    (hparts : List.Forall₂ (Prim.Alike L Γ) place.parts place'.parts)
    (hfollow : List.Forall₂ (EvalFollows L R m host enter w scopes scopes') place.parts place'.parts)
    (hs : s.Alike L R m w t) :
    Follow L R m w s t
      (runThen ((incrementSteps op one place old new).map (m.evalWith host id enter scopes))
        (m.evalWith host id enter scopes (if op.yieldsNew then .read new else .read old)))
      (m.evalWith host id enter scopes' (.step op place')) (Value.Alike L m) := by
  rcases hrun : (runThen ((incrementSteps op one place old new).map (m.evalWith host id enter scopes))
    (m.evalWith host id enter scopes (if op.yieldsNew then .read new else .read old))).run s with ⟨f | v, s'⟩
  · exact .inl ⟨hL, f, by rw [hrun]⟩
  have hlocate : Follow L R m w s t (m.locate host id enter scopes place) (m.locate host id enter scopes' place')
      Location.Alike := (hform.runs (.inr fun _ _ => trivial) hΓ hfollow).runsFrom hs
  -- The cells of the two temporaries stay out of the pairing.
  have hne : ∀ {e}, e < s.cells.size ∧ (∀ e', ¬ w e e') → ∀ l,
      (m.locate host id enter scopes place).run s = (.ok l, s) → l ≠ .cell e := by
    rintro e he l hloc rfl
    obtain ⟨w', l', t', -, hgrow, -, hl⟩ := hlocate.eq_ok hloc
    rcases hl with hw | _
    exact hgrow.unpaired he.1 he.2 _ hw
  obtain ⟨l, one', next, hloc, hone', hnext, rfl, rfl⟩ := run_incrementSteps_eq_ok hone hold hnew hcd hc.1 hd.1 htrivial
    (fun x hx e he => by
      obtain ⟨e', hw⟩ := paired_of_read hparts hΓ hx he
      exact ⟨fun heq => hc.2 e' (heq ▸ hw), fun heq => hd.2 e' (heq ▸ hw)⟩)
    (fun l hloc => ⟨hne hc l hloc, hne hd l hloc⟩) hrun
  obtain ⟨w', l', t', hloc', hgrow, hs', hl⟩ := hlocate.eq_ok hloc
  have hvalue := hs'.valueAt hl
  have honeAlike : one'.Alike L m w' one' := (Value.isScalar_of_oneLike hone').alike
  have hnextAlike : next.Alike L m w' next := (Value.isScalar_of_arith hnext).alike
  have hright : (m.evalWith host id enter scopes' (.step op place')).run t =
      (.ok (if op.yieldsNew then next else t'.valueAt l'), t'.setAt next l') := by
    rw [Machine.evalWith, run_bind_of_ok hloc']
    exact run_step (hvalue.oneLike_eq ▸ hone') (hvalue.arith_eq op.arith false honeAlike ▸ hnext)
  rw [Follow, RunsFrom, hrun, hright]
  refine .inr ⟨w', ?_, ?_, .ok ?_⟩
  · exact ⟨hgrow.le, by simp, by simpa using hgrow.right, hgrow.fresh⟩
  · exact ((hs'.setLeft (hgrow.unpaired hc.1 hc.2)).setLeft (hgrow.unpaired hd.1 hd.2)).setAt hl hnextAlike
  · split_ifs
    · exact hnextAlike
    · exact hvalue

/-! ### Blocks of temporaries -/

theorem extend_append (scope : Scope) (as bs : List (VarId × Value)) :
    (Eval.extend scope (as ++ bs) : Eval σ Scope) = Eval.extend scope as >>= fun scope => Eval.extend scope bs := by
  induction as generalizing scope with
  | nil => rw [List.nil_append, Eval.extend, pure_bind]
  | cons a as ih =>
    rw [List.cons_append, Eval.extend, Eval.extend, bind_assoc]
    congr 1
    funext c
    exact ih _

theorem Follow.sequence {s t : Store σ} {xs ys : List (Eval σ Value)} {z z' : Eval σ Value}
    {Q Q' : Pairing → Value → Value → Prop} (h : List.Forall₂ (fun x y => Follows L R m w x y Q) xs ys)
    (hs : s.Alike L R m w t) (hz : ∀ w₁ s₁ t₁, w.Grows s t w₁ s₁ t₁ → s₁.Alike L R m w₁ t₁ →
      Follow L R m w₁ s₁ t₁ z z' Q') :
    Follow L R m w s t (runThen xs z) (runThen ys z') Q' := by
  induction xs generalizing w s t ys with
  | nil =>
    cases h
    exact hz w s t .refl hs
  | cons x xs ih =>
    rcases h with _ | ⟨hx, h⟩
    refine (hx.runsFrom hs).bind (fun _ => id) fun w₁ s₁ t₁ _ _ hgrow hs₁ _ => ?_
    refine ih (h.imp fun _ _ h => h.mono hgrow.le) hs₁ fun w₂ s₂ t₂ hgrow₂ hs₂ => ?_
    exact hz w₂ s₂ t₂ (hgrow.trans hgrow₂) hs₂

section
variable {s t : Store σ} {op : IncDec} {ty : Ty} {one : Constant} {place place' : Place Prim} {temps temps' : List Temp}
  {old new : Var}

open Prim (Alike incrementNaming)

/-- A checked increment from where its own two variables are made, beside the primitive one. -/
theorem Follow.incrementTemps {scope : Scope} (v u : Value) (hL : L) (hone : Constant.one? ty = some one)
    (hne : old.id ≠ new.id)
    (htemps : List.Forall₂ (Temp.SameForm (incrementNaming Γ temps temps' old new)) temps temps')
    (hinits : ∀ {w scopes scopes'}, (incrementNaming Γ temps temps' old new).Paired m w scopes scopes' →
      List.Forall₂ (fun t t' => EvalFollows L R m host enter w scopes scopes' t.init t'.init) temps temps')
    (hform : place.SameForm (incrementNaming Γ temps temps' old new) place')
    (htrivial : ∀ p ∈ place.parts, p.isTrivial = true)
    (hparts : List.Forall₂ (Alike L (incrementNaming Γ temps temps' old new)) place.parts place'.parts)
    (hfollow : ∀ {w scopes scopes'}, (incrementNaming Γ temps temps' old new).Paired m w scopes scopes' →
      List.Forall₂ (EvalFollows L R m host enter w scopes scopes') place.parts place'.parts)
    (hΓ : (Γ.bindAll (Temp.ids temps) (Temp.ids temps')).Paired m w (scope :: scopes) scopes')
    (hs : s.Alike L R m w t) :
    Follow L R m w s t
      (Eval.extend scope [(old.id, v), (new.id, u)] >>= fun scope =>
        runThen ((Temp.stores temps ++ incrementSteps op one place old new).map
            (m.evalWith host id enter (scope :: scopes)))
          (m.evalWith host id enter (scope :: scopes) (if op.yieldsNew then .read new else .read old)))
      (runThen ((Temp.stores temps').map (m.evalWith host id enter scopes'))
        (m.evalWith host id enter scopes' (.step op place'))) (Value.Alike L m) := by
  have hextend : (Eval.extend scope [(old.id, v), (new.id, u)]).run s =
      (.ok ((new.id, (s.cells.push v).size) :: (old.id, s.cells.size) :: scope),
        { s with cells := (s.cells.push v).push u }) := rfl
  refine .left hextend (.of_size (by simp; omega) (Nat.le_refl _)) ?_
  have hΓ₁ := (hΓ.hide (a := old.id) (c := s.cells.size)).hide (a := new.id) (c := (s.cells.push v).size)
  have hs₁ : Store.Alike L R m w { s with cells := (s.cells.push v).push u } t := hs.pushLeft.pushLeft
  rw [List.map_append, runThen_append]
  refine Follow.sequence (Q := Value.Alike L m) ?_ hs₁ fun w₁ s₁ t₁ hgrow hs₂ => ?_
  · rw [List.forall₂_map_left_iff, List.forall₂_map_right_iff]
    exact EvalFollows.stores htemps hΓ₁ (hinits hΓ₁)
  have hleft := hgrow.left
  simp only [Array.size_push] at hleft
  have hfresh : ∀ {e}, s.cells.size ≤ e → e < s.cells.size + 2 → e < s₁.cells.size ∧ ∀ e', ¬ w₁ e e' := by
    intro e hle hlt
    refine ⟨Nat.lt_of_lt_of_le hlt hleft, hgrow.unpaired ?_ fun e' hw => Nat.not_lt.2 hle (hs.left hw)⟩
    simp only [Array.size_push]
    exact hlt
  have hsize : (s.cells.push v).size = s.cells.size + 1 := Array.size_push ..
  have hnew : m.lookup (((new.id, (s.cells.push v).size) :: (old.id, s.cells.size) :: scope) :: scopes) new =
      some (s.cells.push v).size := by
    rw [Machine.lookup_eq, Machine.cell?_insert, if_pos rfl]
  refine Follow.increment hL hone ?_ hnew (by simp) (hfresh (Nat.le_refl _) (by omega)) (hfresh (by omega) (by omega))
    htrivial hform (hΓ₁.mono hgrow.le) hparts (hfollow (hΓ₁.mono hgrow.le)) hs₂
  rw [Machine.lookup_eq, Machine.cell?_insert, if_neg hne, Machine.cell?_insert, if_pos rfl]

theorem EvalFollows.increment (hh : host.Opaque L R m) (hL : L) (hone : Constant.one? ty = some one)
    (hne : old.id ≠ new.id)
    (htemps : List.Forall₂ (Temp.SameForm (incrementNaming Γ temps temps' old new)) temps temps')
    (hinits : ∀ {w scopes scopes'}, (incrementNaming Γ temps temps' old new).Paired m w scopes scopes' →
      List.Forall₂ (fun t t' => EvalFollows L R m host enter w scopes scopes' t.init t'.init) temps temps')
    (hform : place.SameForm (incrementNaming Γ temps temps' old new) place')
    (htrivial : ∀ p ∈ place.parts, p.isTrivial = true)
    (hparts : List.Forall₂ (Alike L (incrementNaming Γ temps temps' old new)) place.parts place'.parts)
    (hfollow : ∀ {w scopes scopes'}, (incrementNaming Γ temps temps' old new).Paired m w scopes scopes' →
      List.Forall₂ (EvalFollows L R m host enter w scopes scopes') place.parts place'.parts)
    (hΓ : Γ.Paired m w scopes scopes') :
    EvalFollows L R m host enter w scopes scopes' (Prim.checkedIncrement op one place temps old new)
      (Temp.scope temps' [] (.step op place')) := by
  have hsteps : Temp.stores (temps ++ [⟨old, place.read⟩] ++ [⟨new, .arith op.arith true (.read old) (.const one)⟩]) ++
      [.assign place (.read new)] = Temp.stores temps ++ incrementSteps op one place old new := by
    simp [Temp.stores, incrementSteps]
  have hentries : ∀ next : Prim, Temp.entries (temps ++ [⟨old, place.read⟩] ++ [⟨new, next⟩]) =
      Temp.entries temps ++ [(old.id, .defaultOf old.ty), (new.id, .defaultOf new.ty)] := by
    intro next
    simp [Temp.entries]
  have hnil : Γ.Paired m w ([] :: scopes) ([] :: scopes') := hΓ
  rw [EvalFollows, Prim.checkedIncrement, evalWith_scope (by simp), hsteps, hentries, extend_append, bind_assoc]
  intro w₁ s t hle hs
  by_cases hempty : temps' = []
  · subst hempty
    obtain rfl := List.forall₂_nil_right_iff.1 htemps
    have hscope : m.evalWith host id enter scopes' (Temp.scope [] [] (.step op place')) =
        runThen ((Temp.stores []).map (m.evalWith host id enter scopes'))
          (m.evalWith host id enter scopes' (.step op place')) := rfl
    have hextend : (Eval.extend [] (Temp.entries []) : Eval σ Scope) = pure [] := rfl
    rw [hscope, hextend, pure_bind]
    exact Follow.incrementTemps _ _ hL hone hne .nil hinits hform htrivial hparts hfollow (hnil.mono hle) hs
  · have hdefaults : List.Forall₂ (fun e e' : VarId × Value => e.2.Alike L m w₁ e'.2) (Temp.entries temps)
        (Temp.entries temps') := by
      rw [Temp.entries, Temp.entries, List.forall₂_map_left_iff, List.forall₂_map_right_iff]
      refine htemps.imp fun t t' ht => ?_
      rw [ht.1]
      exact .defaultOf t'.var.ty
    rw [evalWith_scope hempty, List.append_nil]
    refine ((Runs.extend hh.hosts (hnil.mono hle) (.inr fun _ _ => trivial) hdefaults).runsFrom hs).bind (fun _ => id)
      fun w₂ s₂ t₂ scope scope' _ hs₂ hscope => ?_
    rw [Temp.map_fst_entries, Temp.map_fst_entries] at hscope
    exact Follow.incrementTemps _ _ hL hone hne htemps hinits hform htrivial hparts hfollow hscope hs₂

end

/-- Trees that are alike, run from stores that are alike, end alike. -/
theorem Prim.Alike.follows (hh : host.Opaque L R m) (hf : EnterFollows L R m enter) {p q : Prim} (h : p.Alike L Γ q) :
    ∀ {w scopes scopes'}, Γ.Paired m w scopes scopes' → EvalFollows L R m host enter w scopes scopes' p q := by
  induction h with
  | node hform hparts ih =>
    intro w scopes scopes' hΓ
    refine hform.runs hh.hosts hf (.inr fun _ _ => trivial) hΓ (fun hp hq => ?_) (fun hp hq => ?_) fun hΓ' => ?_
    · subst hp hq
      cases hform
      exact ⟨_, ⟨rfl, rfl, hparts _ _ List.mem_cons_self⟩, hΓ.capture⟩
    · subst hp hq
      cases hform
      exact ⟨rfl, rfl, hparts _ _ List.mem_cons_self⟩
    · exact List.forall₂_iff_zip.2 ⟨hform.length_parts, fun hmem => ih _ _ hmem hΓ'⟩
  | increment hL hone hne htemps hinits hform htrivial hparts ihinits ihparts =>
    intro w scopes scopes' hΓ
    refine .increment hh hL hone hne htemps (fun hΓ' => ?_) hform htrivial ?_ (fun hΓ' => ?_) hΓ
    · exact List.forall₂_iff_zip.2 ⟨htemps.length_eq, fun hmem => ihinits _ _ hmem hΓ'⟩
    · exact List.forall₂_iff_zip.2 ⟨hform.length_parts, hparts _ _⟩
    · exact List.forall₂_iff_zip.2 ⟨hform.length_parts, fun hmem => ihparts _ _ hmem hΓ'⟩

theorem enterFollows (hh : host.Opaque L R m) (depth : Nat) : EnterFollows L R m (m.enter host depth) := by
  induction depth with
  | zero => exact fun _ _ _ => .throw
  | succ depth ih =>
    rintro w ⟨signature, params, body⟩ ⟨_, _, body'⟩ captured captured' args args' ⟨Γ, hcode, hc⟩ hlen hargs
    obtain ⟨rfl : signature = _, rfl : params = _, hbody⟩ := hcode
    rw [Machine.enter]
    exact (Runs.frame hh.hosts hc hlen hargs).bind fun w₁ frame frame' _ hframe => hbody.follows hh ih hframe

end ExprLowering
