import ExprLowering.Proofs.CallRuns
import ExprLowering.Proofs.Effects
import ExprLowering.Proofs.Preservation
import ExprLowering.Proofs.Restoration

/-!
# Runs of increments

An increment or decrement first finds the location of its operand: the array and the indices are evaluated once
each, in order, and kept in temporaries where they are more than constants and variables (`Machine.settle`). What
follows depends on the value at the location alone. A step that wraps is one operation of the machine. A checked
one reads the old value, adds to it and stores the sum, with the place found twice; it fails before the store, and
so has changed nothing but its temporaries when it does.
-/

namespace ExprLowering

variable {σ : Type}

/-! ### The next integer -/

namespace IncDec

/-- What is added to the old value. -/
def delta (op : IncDec) : Int :=
  if op.increments then 1 else -1

/-- The integer of the kind that has no next one. -/
def limit (op : IncDec) (k : IntKind) : Int :=
  if op.increments then k.high else k.low

theorem onInt_one (op : IncDec) (n : Int) : op.arith.onInt n 1 = n + op.delta := by
  cases op <;> rfl

theorem inRange_iff (op : IncDec) (w : Word) :
    (w.kind.low ≤ w.val + op.delta ∧ w.val + op.delta ≤ w.kind.high) ↔ w.val ≠ op.limit w.kind := by
  have hlow := w.low_le
  have hhigh := w.le_high
  unfold delta limit
  split <;> omega

end IncDec

/-- The integer that a step puts in the place of `old`. -/
structure StepKind.Next (k : StepKind) (old new : Word) : Prop where
  kind : new.kind = old.kind
  val : new.val = if k.checked then old.val + k.op.delta else old.kind.wrap (old.val + k.op.delta)

namespace Value
variable {α : Type} {k : StepKind} {old : Word}

theorem arith_one (op : IncDec) (checked : Bool) (old : Word) :
    arith (α := α) op.arith checked (.ofWord old) (.ofWord (.one old.kind)) =
      ofExact checked old.kind (old.val + op.delta) := by
  rw [← op.onInt_one]
  exact if_pos rfl

/-- The check refuses the step from the last integer of the kind. -/
theorem arith_one_of_limit (hk : k.checked = true) (h : old.val = k.op.limit old.kind) :
    arith (α := α) k.op.arith k.checked (.ofWord old) (.ofWord (.one old.kind)) = .error .overflow := by
  have hrange := mt (k.op.inRange_iff old).1 (not_not.2 h)
  rw [arith_one, ofExact, if_pos hk, Word.ofInt?, dif_neg hrange]

theorem exists_arith_one (h : ¬ (k.checked = true ∧ old.val = k.op.limit old.kind)) :
    ∃ new, k.Next old new ∧
      arith (α := α) k.op.arith k.checked (.ofWord old) (.ofWord (.one old.kind)) = .ok (.ofWord new) := by
  rw [arith_one, ofExact]
  by_cases hk : k.checked = true
  · have hrange := (k.op.inRange_iff old).2 fun hlimit => h ⟨hk, hlimit⟩
    refine ⟨⟨old.kind, _, hrange.1, hrange.2⟩, ⟨rfl, (if_pos hk).symm⟩, ?_⟩
    rw [if_pos hk, Word.ofInt?, dif_pos hrange]
  · exact ⟨.wrap old.kind (old.val + k.op.delta), ⟨rfl, (if_neg hk).symm⟩, if_neg hk⟩

end Value

/-! ### A value stored -/

namespace Store
variable {s t : Store σ} {l : Location} {own : CellId → Prop}

theorem setAt_valueAt (s : Store σ) (l : Location) : s.setAt (s.valueAt l) l = s := by
  cases l with
  | cell c => rw [setAt, valueAt, setIfInBounds_getD]
  | element a i =>
    have hgrid : (s.grids.getD a default).setAt i ((s.grids.getD a default).getAt i) = s.grids.getD a default := by
      rw [Grid.setAt, Grid.getAt, setIfInBounds_getD]
    rw [setAt, valueAt, modify_eq_self hgrid]

/-- A value other than null is at a location that the store has. -/
theorem valueAt_setAt (h : s.valueAt l ≠ .null) (v : Value) : (s.setAt v l).valueAt l = v := by
  cases l with
  | cell c => exact cell_setAt_self (lt_size_of_getD_ne h)
  | element a i =>
    have ha : a < s.grids.size := lt_size_of_getD_ne (d := default) fun ha => h (by rw [valueAt, ha]; rfl)
    rw [valueAt, setAt, getD_modify, if_pos ⟨rfl, ha⟩, Grid.getAt, Grid.setAt, getD_setIfInBounds,
      if_pos ⟨rfl, lt_size_of_getD_ne h⟩]

theorem SameBut.valueAt_setAt {v : Value} (h : (s.setAt v l).SameBut own t) (hne : s.valueAt l ≠ .null)
    (hl : ∀ c, l = .cell c → ¬ own c) : t.valueAt l = v := by
  refine Eq.trans ?_ (Store.valueAt_setAt hne v)
  cases l with
  | cell c =>
    have hc : c < s.cells.size := lt_size_of_getD_ne hne
    exact h.cell c (by simpa using hc) (hl c rfl)
  | element a i => rw [Store.valueAt, h.grids, Store.valueAt]

theorem SameBut.setAt_both (h : s.SameBut own t) (v : Value) (l : Location) :
    (s.setAt v l).SameBut own (t.setAt v l) := by
  cases l with
  | cell c =>
    refine ⟨by simpa using h.size, fun d hd hown => ?_, h.grids, h.closures, h.host⟩
    rw [size_cells_setAt] at hd
    by_cases hc : c = d
    · subst hc
      rw [cell_setAt_self hd, cell_setAt_self (Nat.lt_of_lt_of_le hd h.size)]
    · have hne : Location.cell c ≠ .cell d := fun heq => hc (Location.cell.inj heq)
      rw [cell_setAt_of_ne hne, cell_setAt_of_ne hne]
      exact h.cell d hd hown
  | element a i => exact ⟨h.size, h.cell, congrArg (fun gs => gs.modify a (·.setAt i v)) h.grids, h.closures, h.host⟩

end Store

/-! ### A step at a location that has been found -/

/-- What a step does at the location `l` of the store `s`, `one` being added: it fails where the sum does, and
stores the sum otherwise. Only cells of which `own` holds may change besides. -/
inductive StepRun (k : StepKind) (own : CellId → Prop) (l : Location) (s : Store σ) (one : Value) :
    Except Fault Value × Store σ → Prop
  | failed {f : Fault} {t : Store σ} (h : Value.arith k.op.arith k.checked (s.valueAt l) one = .error f)
      (ht : s.SameBut own t) : StepRun k own l s one (.error f, t)
  | stored {new : Value} {t : Store σ} (h : Value.arith k.op.arith k.checked (s.valueAt l) one = .ok new)
      (ht : (s.setAt new l).SameBut own t) :
      StepRun k own l s one (.ok (if k.op.yieldsNew then new else s.valueAt l), t)

/-- How a step ends at a location that holds the integer `old`. Only a checked step fails, and only where there is
no next integer; then nothing has changed. Otherwise the next integer is stored, and nothing else has changed. -/
structure IntStepEnds (k : StepKind) (own : CellId → Prop) (l : Location) (s : Store σ) (old : Word)
    (out : Except Fault Value × Store σ) : Prop where
  fails_iff : (∃ f, out.1 = .error f) ↔ k.checked = true ∧ old.val = k.op.limit old.kind
  failed : ∀ f, out.1 = .error f → f = .overflow ∧ s.SameBut own out.2
  stored : ∀ v, out.1 = .ok v → ∃ new, k.Next old new ∧ v = .ofWord (if k.op.yieldsNew then new else old) ∧
    out.2.valueAt l = .ofWord new ∧ (s.setAt (.ofWord new) l).SameBut own out.2

/-- How a step ends on an operand of type `ty`, at a location that holds an integer or null. -/
structure StepEnds (k : StepKind) (ty : Ty) (own : CellId → Prop) (l : Location) (s : Store σ)
    (out : Except Fault Value × Store σ) : Prop where
  int : ∀ old : Word, ty.nonNullable = .int old.kind → s.valueAt l = .ofWord old → IntStepEnds k own l s old out
  null : s.valueAt l = .null → out.1 = .ok .null ∧ s.SameBut own out.2

namespace StepRun
variable {k : StepKind} {own : CellId → Prop} {l : Location} {s : Store σ} {one : Value}
  {out : Except Fault Value × Store σ}

theorem atInt {old : Word} (h : StepRun k own l s (.ofWord (.one old.kind)) out) (hold : s.valueAt l = .ofWord old)
    (hl : ∀ c, l = .cell c → ¬ own c) : IntStepEnds k own l s old out := by
  have hne : s.valueAt l ≠ .null := by simp [hold, Value.ofWord]
  by_cases hlimit : k.checked = true ∧ old.val = k.op.limit old.kind
  · have harith := Value.arith_one_of_limit (α := Prim) hlimit.1 hlimit.2
    rw [← hold] at harith
    rcases h with ⟨h, ht⟩ | ⟨h, -⟩
    · cases h.symm.trans harith
      refine ⟨⟨fun _ => hlimit, fun _ => ⟨_, rfl⟩⟩, fun f hf => ⟨(Except.error.inj hf).symm, ht⟩, fun v hv => ?_⟩
      cases hv
    · cases h.symm.trans harith
  · obtain ⟨new, hnext, harith⟩ := Value.exists_arith_one (α := Prim) hlimit
    rw [← hold] at harith
    rcases h with ⟨h, -⟩ | ⟨h, ht⟩
    · cases h.symm.trans harith
    · cases h.symm.trans harith
      refine ⟨⟨?_, fun h => absurd h hlimit⟩, ?_, fun v hv => ⟨new, hnext, ?_, ht.valueAt_setAt hne hl, ht⟩⟩
      · rintro ⟨f, hf⟩
        cases hf
      · intro f hf
        cases hf
      · rw [← Except.ok.inj hv, hold]
        split <;> rfl

theorem atNull (h : StepRun k own l s one out) (hnull : s.valueAt l = .null) :
    out.1 = .ok .null ∧ s.SameBut own out.2 := by
  have harith : Value.arith k.op.arith k.checked (s.valueAt l) one = .ok .null := by
    rw [hnull]
    rfl
  rcases h with ⟨h, -⟩ | ⟨h, ht⟩
  · cases h.symm.trans harith
  · cases h.symm.trans harith
    rw [← hnull, Store.setAt_valueAt] at ht
    exact ⟨by rw [hnull, ite_self], ht⟩

/-- A step as one operation of the machine, which adds the one of the value found. -/
theorem primitive (hk : k.checked = false) (own : CellId → Prop) (hone : (s.valueAt l).oneLike = .ok one) :
    StepRun k own l s one ((Machine.step k.op l).run s) := by
  cases hnew : Value.arith k.op.arith false (s.valueAt l) one with
  | error f =>
    have hrun : (Machine.step k.op l).run s = (.error f, s) := by
      rw [Machine.step, run_bind_of_ok (run_load l s), hone]
      refine (run_bind_of_ok (run_liftM _ s)).trans ?_
      rw [hnew]
      exact run_bind_of_error (run_liftM _ s)
    rw [hrun]
    exact .failed (hk ▸ hnew) .refl
  | ok new =>
    rw [run_step hone hnew]
    exact .stored (hk ▸ hnew) .refl

end StepRun

theorem StepEnds.primitive {k : StepKind} {own : CellId → Prop} {l : Location} (hk : k.checked = false) (ty : Ty)
    (hl : ∀ c, l = .cell c → ¬ own c) (s : Store σ) : StepEnds k ty own l s ((Machine.step k.op l).run s) where
  int old _ hold := (StepRun.primitive hk own (by rw [hold]; rfl)).atInt hold hl
  null hnull := (StepRun.primitive hk own (by rw [hnull]; rfl)).atNull hnull

section
variable {m : Machine} {host : Host σ} {enter : Enter σ} {scopes : List Scope} {own : CellId → Prop} {k : StepKind}
  {l : Location} {s : Store σ} {ty : Ty} {one : Constant} {place : Place Prim} {old new : Var} {c d : CellId}

/-- A checked step, as reading, adding and storing, with temporaries for the two values. -/
theorem StepEnds.checked (hk : k.checked = true) (hone : Constant.one? ty = some one)
    (hold : m.lookup scopes old = some c) (hnew : m.lookup scopes new = some d) (hcd : c ≠ d) (hc : own c) (hd : own d)
    (hsize : ∀ e, own e → e < s.cells.size) (htrivial : ∀ p ∈ place.parts, p.isTrivial = true)
    (hreads : ∀ x, .read x ∈ place.parts → ∀ e, m.lookup scopes x = some e → e ≠ c ∧ e ≠ d)
    (hloc : (m.locate host id enter scopes place).run s = (.ok l, s)) (hl : ∀ e, l = .cell e → ¬ own e) :
    StepEnds k ty own l s
      ((runThen ((incrementSteps k.op one place old new).map (m.evalWith host id enter scopes))
        (m.evalWith host id enter scopes (if k.op.yieldsNew then .read new else .read old))).run s) := by
  have hrun : StepRun k own l s (.ofConstant one) ((runThen ((incrementSteps k.op one place old new).map
      (m.evalWith host id enter scopes))
      (m.evalWith host id enter scopes (if k.op.yieldsNew then .read new else .read old))).run s) := by
    rw [run_incrementSteps k.op one hold hnew hcd (hsize c hc) (hsize d hd) htrivial hreads hloc
      (fun heq => hl c heq hc) (fun heq => hl d heq hd)]
    cases hnext : Value.arith k.op.arith true (s.valueAt l) (.ofConstant one) with
    | error f => exact .failed (hk ▸ hnext) (.setAt hc _)
    | ok next =>
      have hset : s.SameBut own ((s.setAt (s.valueAt l) (.cell c)).setAt next (.cell d)) :=
        (Store.SameBut.setAt hc _).trans (.setAt hd _)
      exact .stored (hk ▸ hnext) (hset.setAt_both next l)
  refine ⟨fun old hty hold => ?_, fun hnull => hrun.atNull hnull⟩
  have hword : Value.ofConstant (α := Prim) one = .ofWord (.one old.kind) := by
    rw [Constant.one?, hty] at hone
    cases hone
    rfl
  rw [hword] at hrun
  exact hrun.atInt hold hl

end

/-! ### Finding the location -/

/-- Finds the location of a step's operand: sets the temporaries that the array and the indices are kept in, and
then finds the place. -/
def Machine.settle (host : Host σ) (m : Machine) (enter : Enter σ) (scopes : List Scope) (temps : List Temp)
    (place : Place Prim) : Eval σ Location :=
  runThen ((Temp.stores temps).map (m.evalWith host id enter scopes)) (m.locate host id enter scopes place)

theorem Machine.var_of_locate_cell {m : Machine} {host : Host σ} {enter : Enter σ} {scopes : List Scope}
    {s s₁ : Store σ} {place : Place Prim} {c : CellId}
    (h : (m.locate host id enter scopes place).run s = (.ok (.cell c), s₁)) :
    ∃ v, place = .var v ∧ m.lookup scopes v = some c := by
  cases place with
  | var v =>
    rw [Machine.locate, Machine.cell] at h
    cases hv : m.lookup scopes v with
    | none =>
      rw [hv] at h
      cases h
    | some d =>
      rw [hv] at h
      cases h
      exact ⟨v, rfl, hv⟩
  | element array indices =>
    rw [Machine.locate] at h
    obtain ⟨v, s₁, -, h⟩ := run_bind_eq_ok.1 h
    obtain ⟨is, s₂, -, h⟩ := run_bind_eq_ok.1 h
    obtain ⟨a, s₃, -, h⟩ := run_bind_eq_ok.1 h
    obtain ⟨g, s₄, -, h⟩ := run_bind_eq_ok.1 h
    obtain ⟨i, s₅, -, h⟩ := run_bind_eq_ok.1 h
    cases h

/-! ### The two forms of a lowered step -/

namespace Place.Settled
variable {m : Machine} {host : Host σ} {enter : Enter σ} {n : Nat} {scopes scopes₁ : List Scope} {s s₁ t t' : Store σ}
  {u u₁ : Supply} {operand : Expr} {place place' : Place Prim} {temps : List Temp} {pinned : Bool} {k : StepKind}

theorem not_own {vars : List Var} {l : Location} (h : place.Settled pinned operand place' temps u u₁)
    (hb : operand.Below n) (hin : m.Entered n scopes s scopes₁ s₁ vars)
    (hvars : ∀ x : VarId, x.val < n → ∀ c, m.cell? scopes x = some c → c < s.cells.size)
    (hloc : (m.locate host id enter scopes₁ place').run t = (.ok l, t')) (c : CellId) (hl : l = .cell c) :
    ¬ (s.cells.size ≤ c ∧ c < s₁.cells.size) := by
  subst hl
  obtain ⟨v, rfl, hv⟩ := Machine.var_of_locate_cell hloc
  cases h with
  | var => exact (hin.outside hvars _ (hb _ List.mem_cons_self) c hv).2

theorem reads_ne {vars : List Var} {v x : Var} {c e : CellId} (h : place.Settled pinned operand place' temps u u₁)
    (hread : ∀ x, .read x ∈ place.parts → x.id.val < n) (hin : m.Entered n scopes s scopes₁ s₁ vars)
    (hvars : ∀ x : VarId, x.val < n → ∀ c, m.cell? scopes x = some c → c < s.cells.size)
    (htemps : ∀ t ∈ temps, t.var ∈ vars) (hv : v ∈ vars) (hlater : u₁.var ≤ v.id.val) (hc : m.lookup scopes₁ v = some c)
    (hx : .read x ∈ place'.parts) (he : m.lookup scopes₁ x = some e) : e ≠ c := by
  rcases (h.uses hread _ hx).2 x rfl with ⟨t, ht, rfl⟩ | hlt
  · have hmem : t.var.id ∈ u.taken u₁ := h.ids_eq ▸ List.mem_map_of_mem ht
    have hlt : t.var.id.val < u₁.var := (Supply.mem_taken.1 hmem).2
    exact hin.placed.cell_ne (htemps t ht) hv (by omega) he hc
  · obtain ⟨d, hd, hown⟩ := hin.placed.cell v hv
    cases hc.symm.trans hd
    exact fun heq => (hin.outside hvars _ hlt e he).2 (heq ▸ hown)

theorem ends_primitive (h : place.Settled pinned operand place' temps u u₁) (hb : operand.Below n) (hn : n ≤ u.var)
    (hk : k.checked = false) (ty : Ty) (host : Host σ) (enter : Enter σ)
    (hvars : ∀ x : VarId, x.val < n → ∀ c, m.cell? scopes x = some c → c < s.cells.size) :
    ∃ scopes₁ s₁, m.Entered n scopes s scopes₁ s₁ (temps.map (·.var)) ∧
      ∀ l t, (m.settle host enter scopes₁ temps place').run s₁ = (.ok l, t) →
        StepEnds k ty (fun c => s.cells.size ≤ c ∧ c < s₁.cells.size) l t
          ((m.evalWith host id enter scopes (Temp.scope temps [] (.step k.op place'))).run s) := by
  obtain ⟨scopes₁, s₁, hin, hrun⟩ :=
    Machine.entered_scope host enter [] (.step k.op place') (fun _ => rfl) h.ids_eq hn scopes s
  refine ⟨scopes₁, s₁, hin, fun l t hset => ?_⟩
  obtain ⟨t', hloc, hthen⟩ := run_runThen_eq_ok hset
  rw [hrun, List.append_nil, hthen, Machine.evalWith, run_bind_of_ok hloc]
  exact .primitive hk ty (h.not_own hb hin hvars hloc) t

theorem ends_checked {ty : Ty} {one : Constant} {old new : Var} {u₂ u₃ : Supply}
    (h : place.Settled pinned operand place' temps u u₁) (hread : ∀ x, .read x ∈ place.parts → x.id.val < n)
    (hb : operand.Below n) (hn : n ≤ u.var) (hk : k.checked = true) (hone : Constant.one? ty = some one)
    (ho : u₁.fresh "__old" ty = (old, u₂)) (hw : u₂.fresh "__new" ty = (new, u₃))
    (hgrows : ∀ scopes s, s.cells.size ≤ ((m.settle host enter scopes temps place').run s).2.cells.size)
    (hvars : ∀ x : VarId, x.val < n → ∀ c, m.cell? scopes x = some c → c < s.cells.size) :
    ∃ scopes₁ s₁, m.Entered n scopes s scopes₁ s₁ (temps.map (·.var)) ∧
      ∀ l t, (m.settle host enter scopes₁ temps place').run s₁ = (.ok l, t) →
        StepEnds k ty (fun c => s.cells.size ≤ c ∧ c < s₁.cells.size) l t
          ((m.evalWith host id enter scopes (Temp.scope
            (temps ++ [⟨old, place'.read⟩] ++ [⟨new, .arith k.op.arith true (.read old) (.const one)⟩])
            [.assign place' (.read new)] (if k.op.yieldsNew then .read new else .read old))).run s) := by
  have hids := Temp.ids_append_old_new h.ids_eq h.le ho hw place'.read (.arith k.op.arith true (.read old) (.const one))
  obtain ⟨scopes₁, s₁, hin, hrun⟩ := Machine.entered_scope host enter [.assign place' (.read new)]
    (if k.op.yieldsNew then .read new else .read old) (fun hnil => absurd hnil (by simp)) hids hn scopes s
  refine ⟨scopes₁, s₁, hin.subset (by simp +contextual), fun l t hset => ?_⟩
  have hstores : Temp.stores (temps ++ [⟨old, place'.read⟩] ++
      [⟨new, .arith k.op.arith true (.read old) (.const one)⟩]) ++ [.assign place' (.read new)] =
        Temp.stores temps ++ incrementSteps k.op one place' old new := by simp [Temp.stores, incrementSteps]
  have htrivial : ∀ p ∈ place'.parts, p.isTrivial = true := fun p hp => (h.uses hread p hp).1
  -- Finding the place changes nothing, so it is found in the store from which the step goes on.
  obtain ⟨t', hloc, hthen⟩ := run_runThen_eq_ok hset
  obtain ⟨r, hr, -⟩ : ∃ r, (m.locate host id enter scopes₁ place').run t' = (r, t') ∧ _ :=
    run_locate_trivial htrivial fun _ _ _ _ => rfl
  obtain ⟨-, rfl⟩ := Prod.mk.inj (hloc.symm.trans hr)
  have hsize := hgrows scopes₁ s₁
  rw [hset] at hsize
  obtain ⟨c, hlc, hc⟩ := hin.placed.cell old (by simp)
  obtain ⟨d, hld, hd⟩ := hin.placed.cell new (by simp)
  have hval : old.id.val = u₁.var ∧ new.id.val = u₁.var + 1 := by
    cases ho
    cases hw
    exact ⟨rfl, rfl⟩
  have hcd : c ≠ d := hin.placed.cell_ne (by simp) (by simp) (by omega) hlc hld
  have htemps : ∀ t ∈ temps, t.var ∈ List.map (·.var) (temps ++ [⟨old, place'.read⟩] ++
      [⟨new, .arith k.op.arith true (.read old) (.const one)⟩]) :=
    fun t ht => List.mem_map_of_mem (List.mem_append_left _ (List.mem_append_left _ ht))
  have hreads : ∀ x, .read x ∈ place'.parts → ∀ e, m.lookup scopes₁ x = some e → e ≠ c ∧ e ≠ d := fun x hx e he =>
    ⟨h.reads_ne hread hin hvars htemps (by simp) (by omega) hlc hx he,
      h.reads_ne hread hin hvars htemps (by simp) (by omega) hld hx he⟩
  rw [hrun, hstores, List.map_append, runThen_append, hthen]
  exact .checked hk hone hlc hld hcd hc hd (fun e he => Nat.lt_of_lt_of_le he.2 hsize) htrivial hreads hloc
    (h.not_own hb hin hvars hloc)

end Place.Settled

/-! ### Beside a direct evaluation -/

section
variable {τ : Type} {R : World → τ → σ → Prop} {m : Machine} {w : World} {direct : Store τ Code} {s t : Store σ}

/-- New cells do not matter to a direct evaluation. -/
theorem Store.SameBut.agrees (h : s.SameBut (fun _ => False) t) (hs : direct.Agrees R m w s) :
    direct.Agrees R m w t where
  globals := hs.globals
  size := hs.size
  nodup := hs.nodup
  lt c hc := Nat.lt_of_lt_of_le (hs.lt c hc) h.size
  cell c c' hc := by
    rw [h.cell c' (hs.lt c' hc.mem) id]
    exact hs.cell c c' hc
  grids := h.grids ▸ hs.grids
  closures := hs.closures.trans h.closures.symm
  host := h.host ▸ hs.host

variable {host : Host τ Code} {host' : Host σ} {n : Nat} {scopes scopes' scopes₁ : List Scope} {s₁ : Store σ}
  {o : LowerOptions} {u u₁ u₂ : Supply} {operand : Expr} {place place' : Place Prim} {temps : List Temp}

/-- The location is found as in a direct evaluation of the operand's array and indices. -/
theorem Place.Settled.settle_sim (h : place.Settled false operand place' temps u₁ u₂)
    (hp : PlaceRel (LoweredTo o) operand place u u₁) (hparts : ∀ e ∈ operand.parts, e.WellMade)
    (hb : operand.Below n) (hn : n ≤ u.var) (hh : host.Agrees R host') (depth : Nat)
    (hsc : w.SameScopes (fun x => x.val < n) scopes scopes')
    (hin : m.Entered n scopes' s scopes₁ s₁ (temps.map (·.var))) (hs : direct.Agrees R m w s) :
    Sim R m (· < s.cells.size) w direct s₁
      (operand.operandLocation host m .split (Code.enter host m .split depth) scopes none)
      (m.settle host' (m.enter host' depth) scopes₁ temps place') fun w _ l l' => l.Agrees w l' := by
  have hmirrors : PlaceRel (Mirrors R m host host' (Code.enter host m .split depth) (m.enter host' depth)) operand
      place u u₁ :=
    hp.imp fun e he _ _ _ h => (mirrors_rules hh (enterAgrees hh depth) o).of_loweredTo (hparts e he) h
  have hsc₁ : w.SameScopes (fun x => x.val < n) scopes scopes₁ := fun x hx => hin.outer x hx ▸ hsc x hx
  have hown : Owned m scopes₁ s.cells.size w s₁ (temps.map (·.var)) :=
    hin.placed.imp fun c hc => ⟨hc.1, hc.2, fun hw => Nat.not_lt.2 hc.1 (hs.lt c hw)⟩
  rw [← bind_pure (operand.operandLocation host m .split (Code.enter host m .split depth) scopes none)]
  refine h.sim rfl hmirrors hb hn hsc₁ hown (h.ids_eq ▸ Supply.nodup_taken) (hin.same.agrees hs) (fun _ hc => hc) ?_
  intro w₁ t t' r _ _ hloc
  rw [bind_pure]
  exact hloc.imp (fun _ _ => True.intro) fun _ _ _ _ hl => hl

end

/-! ### Lowered steps -/

theorem Machine.settle_grows (host : Host σ) (m : Machine) (depth : Nat) (scopes : List Scope) (temps : List Temp)
    (place : Place Prim) (s : Store σ) :
    s.cells.size ≤
      ((m.settle host (m.enter host (m.maxCallDepth - depth)) scopes temps place).run s).2.cells.size := by
  have hR := StepRelation.grows host
  have hentry : Exec.EntryRestores (fun s t => s.cells.size ≤ t.cells.size) m depth (Exec.enter host m.maxCallDepth)
      (m.enter host (m.maxCallDepth - depth)) := Exec.enter_restores hR (Nat.le_add_left _ _)
  have hkeeps : Exec.Keeps (fun s t : Store σ => s.cells.size ≤ t.cells.size)
      (m.settle host (m.enter host (m.maxCallDepth - depth)) scopes temps place) := by
    unfold settle
    induction Temp.stores temps with
    | nil => exact fun s => (Exec.resolveWith_restores hR hentry place scopes s).2
    | cons p ps ih => exact .bind hR (fun s => (Exec.evalWith_restores hR hentry p scopes s).2) fun _ => ih
  exact hkeeps s

/-- An increment or decrement without an operator method, run on any host, at any depth of calls and in scopes whose
variables have cells. The array and the indices of the operand are evaluated once each, and the location is found,
as in a direct evaluation. If it then holds an integer of the operand's type, a checked step fails just at the last
integer in its direction, for overflow and without any change; any other step stores the next integer and yields the
old or the new one, without any other change. If it holds null, so does the result, and nothing changes. -/
theorem Lowerer.eval_lower_step {l l' : Lowerer} {stamp : Stamp} {k : StepKind} {operand : Expr} {p : Prim}
    {supply supply' : Supply} (he : (Expr.node stamp (.step k none) [operand]).Obtained)
    (hb : (Expr.node stamp (.step k none) [operand]).Below supply.var)
    (h : l.lower (.node stamp (.step k none) [operand]) supply = (.ok p, l', supply')) :
    ∃ place place' temps u₁ u₂, PlaceRel (LoweredTo l.options) operand place supply u₁ ∧
      place.Settled false operand place' temps u₁ u₂ ∧
      ∀ {σ : Type} (host : Host σ) (m : Machine) (depth : Nat) (scopes : List Scope) (s : Store σ),
        (∀ x : VarId, x.val < supply.var → ∀ c, m.cell? scopes x = some c → c < s.cells.size) →
        ∃ scopes₁ s₁, m.Entered supply.var scopes s scopes₁ s₁ (temps.map (·.var)) ∧
          (∀ loc t, (m.settle host (m.enter host (m.maxCallDepth - depth)) scopes₁ temps place').run s₁ = (.ok loc, t) →
            StepEnds k operand.ty (fun c => s.cells.size ≤ c ∧ c < s₁.cells.size) loc t
              ((m.evalWith host id (m.enter host (m.maxCallDepth - depth)) scopes p).run s)) ∧
          ∀ {τ : Type} {R : World → τ → σ → Prop} {ref : Host τ Code} {w : World} {direct : Store τ Code}
            {outer : List Scope}, ref.Agrees R host → direct.Agrees R m w s →
            w.SameScopes (fun x => x.val < supply.var) outer scopes →
            Sim R m (· < s.cells.size) w direct s₁
              (operand.operandLocation ref m .split (Code.enter ref m .split (m.maxCallDepth - depth)) outer none)
              (m.settle host (m.enter host (m.maxCallDepth - depth)) scopes₁ temps place')
              fun w _ l l' => l.Agrees w l' := by
  have hwell := he.wellMade
  have hoperand : operand.Below supply.var := hb.part _ List.mem_cons_self
  cases (loweredTo h).form hwell with
  | @step _ _ _ _ place _ _ u₁ _ hplace hform =>
    have hparts : ∀ e ∈ operand.parts, e.WellMade := (hwell.part operand List.mem_cons_self).part
    have hneat : PlaceRel LowersNeatly operand place supply u₁ :=
      hplace.imp fun e he _ _ _ h => (lowersNeatly_rules _).of_loweredTo (hparts e he) h
    obtain ⟨hneat, -, -⟩ := LowersNeatly.placeRel hneat hoperand (Nat.le_refl _)
    have hle : supply.var ≤ u₁.var := hneat.fresh.le
    cases hform with
    | primitive _ hk hsettled =>
      refine ⟨place, _, _, u₁, _, hplace, hsettled, fun host m depth scopes s hvars => ?_⟩
      obtain ⟨scopes₁, s₁, hin, hends⟩ := hsettled.ends_primitive hoperand hle hk operand.ty host
        (m.enter host (m.maxCallDepth - depth)) hvars
      exact ⟨scopes₁, s₁, hin, hends, fun hh hs hsc =>
        hsettled.settle_sim hplace hparts hoperand (Nat.le_refl _) hh _ hsc hin hs⟩
    | functional hnext hsettled ho hw =>
      cases hnext with
      | checked hk hone =>
        have hread : ∀ x, .read x ∈ place.parts → x.id.val < supply.var := by
          intro x hx
          have hfree : x.id ∈ Prim.freeAll place.parts := Prim.mem_freeAll.2 ⟨_, hx, by simp [Prim.free]⟩
          exact LowersNeatly.lt_of_mem_freeAll hoperand.part ((hneat.free x.id).1 hfree)
        refine ⟨place, _, _, u₁, _, hplace, hsettled, fun host m depth scopes s hvars => ?_⟩
        obtain ⟨scopes₁, s₁, hin, hends⟩ := hsettled.ends_checked hread hoperand hle hk hone ho hw
          (fun scopes => m.settle_grows host depth scopes _ _) hvars
        exact ⟨scopes₁, s₁, hin, hends, fun hh hs hsc =>
          hsettled.settle_sim hplace hparts hoperand (Nat.le_refl _) hh _ hsc hin hs⟩

/-! ### An increment that overflows -/

namespace OverflowingIncrement
open Increment (machine)

/-- The greatest integer. -/
def last : Word := ⟨.i32, 2147483647, by decide, by decide⟩

/-- The array `xs` has the greatest integer as its element. -/
def store : Store Nat :=
  { Increment.store [1] with grids := #[⟨.int .i32, [1], #[.ofWord last]⟩] }

theorem store_closed : store.Closed machine where
  globals := by simp [machine, store, Increment.store]
  cells := by simp [store, Increment.store, Value.Within]
  grids := by simp [store, Value.Within, Value.ofWord]

theorem lt_size_of_cell (x : VarId) (_ : x.val < 2) (c : CellId) (hc : machine.cell? [] x = some c) :
    c < store.cells.size := by
  obtain ⟨l₁, l₂, h, -⟩ := List.lookup_eq_some_iff.1 (show machine.globals.lookup x = some c from hc)
  exact store_closed.globals (x, c) (by simp [h])

theorem expr_below : CheckedIncrement.expr.Below 2 := by
  simp [Expr.Below, CheckedIncrement.expr, CheckedIncrement.location, CheckedIncrement.callF, CheckedIncrement.xs,
    CheckedIncrement.f, Expr.vars, Expr.varsAll, Expr.binders]

end OverflowingIncrement

open OverflowingIncrement in
open Increment (counter counter_agrees machine) in
/-- In `checked(xs[f()]++)` the function `f` is called before the sum overflows; the element stays. -/
theorem Lowerer.eval_lower_step_overflow :
    ∃ p, lower {} CheckedIncrement.expr { var := 2 } = (.ok p, {}, { var := 6 }) ∧
      ((machine.eval counter p).run store).1 = .error .overflow ∧
      ((machine.eval counter p).run store).2.host = 1 ∧
      ((machine.eval counter p).run store).2.valueAt (.element 0 0) = .ofWord last := by
  obtain ⟨p, hp⟩ : ∃ p, lower {} CheckedIncrement.expr { var := 2 } = (.ok p, {}, { var := 6 }) := ⟨_, rfl⟩
  obtain ⟨_, place, temps, _, _, -, -, hall⟩ := eval_lower_step CheckedIncrement.expr_obtained expr_below hp
  obtain ⟨scopes₁, s₁, -, hends, hsim⟩ := hall counter machine 0 [] _ lt_size_of_cell
  -- The direct evaluation finds the location, so the machine finds it, and the same value there.
  have hdirect : (CheckedIncrement.location.operandLocation counter machine .split
      (Code.enter counter machine .split (machine.maxCallDepth - 0)) [] none).run (store.embed 0) =
        (.ok (.element 0 0), { store.embed 0 with host := 1 }) := by with_unfolding_all rfl
  have hstart : (store.embed 0).Agrees (fun _ => Eq) machine _ store := store_closed.agrees rfl
  obtain ⟨w, -, hagrees, hfound⟩ := sim_iff.1 (hsim counter_agrees hstart .nil)
  rcases hset : (machine.settle counter (machine.enter counter (machine.maxCallDepth - 0)) scopes₁ temps place).run s₁
    with ⟨r, t⟩
  rw [hdirect, hset] at hagrees hfound
  obtain ⟨⟨⟩ | hw⟩ := hfound
  have hvalue : t.valueAt (.element 0 0) = .ofWord last := by
    have helement : ((store.embed 0).grids.getD 0 default).getAt 0 = .ofWord last := by with_unfolding_all rfl
    have hagree : (((store.embed 0).grids.getD 0 default).getAt 0).Agrees w (t.valueAt (.element 0 0)) :=
      (hagrees.grids.grid 0 _ (List.getElem?_eq_getElem hw)).1.value 0
    rw [helement] at hagree
    generalize t.valueAt (.element 0 0) = v at hagree
    cases hagree
    rfl
  have hint := (hends _ _ hset).int last rfl hvalue
  obtain ⟨f, hf⟩ := hint.fails_iff.2 ⟨rfl, by decide⟩
  obtain ⟨rfl, hsame⟩ := hint.failed f hf
  refine ⟨p, hp, hf, hsame.host.trans hagrees.host.symm, ?_⟩
  exact (congrArg (fun gs => (gs.getD 0 default).getAt 0) hsame.grids).trans hvalue

end ExprLowering
