import ExprLowering.Proofs.Simulation
import ExprLowering.Proofs.TempBlocks

/-!
# Temporaries in a simulation

The machine's run of a block of temporaries, beside a direct evaluation that has no temporaries. The cells of
the temporaries belong to the machine alone (`Owned`); evaluating the parts of an expression one after the
other corresponds to setting the temporaries one after the other, after which the trees used in their place
are `Ready` to give the values.
-/

namespace ExprLowering

open Correspondence

variable {σ σ' α β γ δ : Type}

/-- Runs the computations in order, and then `y`. -/
def runThen (xs : List (Run σ α β)) (y : Run σ α γ) : Run σ α γ :=
  xs.foldr (fun x rest => x >>= fun _ => rest) y

theorem mapM_getLastD {ι : Type} (f : ι → Run σ α β) (as : List ι) (a : ι) (d : β) :
    (do
      let vs ← (as ++ [a]).mapM f
      return vs.getLastD d) = runThen (as.map f) (f a) := by
  induction as generalizing d with
  | nil => simp [runThen]
  | cons b as ih =>
    simp only [List.cons_append, List.mapM_cons, bind_assoc, pure_bind, List.getLastD_cons, List.map_cons,
      runThen, List.foldr_cons]
    congr 1
    funext v
    exact ih v

theorem runThen_append (xs ys : List (Run σ α β)) (y : Run σ α γ) :
    runThen (xs ++ ys) y = runThen xs (runThen ys y) := by
  rw [runThen, List.foldr_append]
  rfl

theorem run_runThen_eq_ok {xs : List (Run σ α β)} {y : Run σ α γ} {s t : Store σ α} {c : γ}
    (h : (runThen xs y).run s = (.ok c, t)) :
    ∃ s', y.run s' = (.ok c, t) ∧ ∀ {δ : Type} (z : Run σ α δ), (runThen xs z).run s = z.run s' := by
  induction xs generalizing s with
  | nil => exact ⟨s, h, fun _ => rfl⟩
  | cons x xs ih =>
    obtain ⟨b, s₁, hx, hrest⟩ := run_bind_eq_ok.1 h
    obtain ⟨s', hy, hz⟩ := ih hrest
    exact ⟨s', hy, fun z => (run_bind_of_ok hx).trans (hz z)⟩

/-! ### Cells of the machine's own -/

/-- The variables have different cells, of which `P` holds. -/
structure Placed (m : Machine) (scopes : List Scope) (P : CellId → Prop) (vars : List Var) : Prop where
  cell : ∀ v ∈ vars, ∃ c, m.lookup scopes v = some c ∧ P c
  inj : ∀ v ∈ vars, ∀ v' ∈ vars, m.lookup scopes v = m.lookup scopes v' → v.id = v'.id

namespace Placed
variable {m : Machine} {scopes : List Scope} {P P' : CellId → Prop} {vars vars' : List Var}

theorem imp (h : Placed m scopes P vars) (hP : ∀ c, P c → P' c) : Placed m scopes P' vars where
  cell v hv := by
    obtain ⟨c, hl, hc⟩ := h.cell v hv
    exact ⟨c, hl, hP c hc⟩
  inj := h.inj

theorem subset (h : Placed m scopes P vars) (hsub : ∀ v ∈ vars', v ∈ vars) : Placed m scopes P vars' :=
  ⟨fun v hv => h.cell v (hsub v hv), fun v hv v' hv' => h.inj v (hsub v hv) v' (hsub v' hv')⟩

theorem cell_ne {v v' : Var} {c d : CellId} (h : Placed m scopes P vars) (hv : v ∈ vars) (hv' : v' ∈ vars)
    (hne : v.id.val ≠ v'.id.val) (hc : m.lookup scopes v = some c) (hd : m.lookup scopes v' = some d) : c ≠ d := by
  rintro rfl
  exact hne (congrArg VarId.val (h.inj v hv v' hv' (hc.trans hd.symm)))

end Placed

/-- The variables have cells of their own, from number `k` on, which stand for no cell of the direct
evaluation. -/
def Owned (m : Machine) (scopes : List Scope) (k : Nat) (w : World) (s : Store σ') (vars : List Var) : Prop :=
  Placed m scopes (fun c => k ≤ c ∧ c < s.cells.size ∧ c ∉ w.cells) vars

theorem Owned.frame {m : Machine} {scopes : List Scope} {k : Nat} {K : CellId → Prop} {w w' : World}
    {s t : Store σ'} {vars : List Var} (h : Owned m scopes k w s vars) (hf : Frame K w s w' t) :
    Owned m scopes k w' t vars :=
  h.imp fun c hc => ⟨hc.1, Nat.lt_of_lt_of_le hc.2.1 hf.size, hf.fresh c hc.2.1 hc.2.2⟩

/-- New cells for the variables: what holds of the store and is kept when a cell is added holds after it. -/
theorem run_extend {P : Store σ' → Prop} (hpush : ∀ t v, P t → P { t with cells := t.cells.push v })
    {entries : List (VarId × Value)} (scope : Scope) (hn : (entries.map (·.1)).Nodup) {s : Store σ'} (hs : P s) :
    ∃ scope' t, (Eval.extend scope entries).run s = (.ok scope', t) ∧ P t ∧ s.cells.size ≤ t.cells.size ∧
      (∀ x, x ∉ entries.map (·.1) → scope'.lookup x = scope.lookup x) ∧
      (∀ x ∈ entries.map (·.1), ∃ c, scope'.lookup x = some c ∧ s.cells.size ≤ c ∧ c < t.cells.size) ∧
      ∀ x ∈ entries.map (·.1), ∀ y ∈ entries.map (·.1), scope'.lookup x = scope'.lookup y → x = y := by
  induction entries generalizing s scope with
  | nil => exact ⟨scope, s, rfl, hs, Nat.le_refl _, by simp⟩
  | cons e entries ih =>
    obtain ⟨x, v⟩ := e
    rw [List.map_cons, List.nodup_cons] at hn
    obtain ⟨scope', t, hrun, ht, hsize, hout, hin, hinj⟩ := ih ((x, s.cells.size) :: scope) hn.2 (hpush s v hs)
    rw [Array.size_push] at hsize
    have hx : scope'.lookup x = some s.cells.size := by rw [hout x hn.1, List.lookup_cons_self]
    have htail : ∀ y ∈ entries.map (·.1), ∃ c, scope'.lookup y = some c ∧ s.cells.size < c ∧ c < t.cells.size := by
      intro y hy
      obtain ⟨c, hc, hle, hlt⟩ := hin y hy
      rw [Array.size_push] at hle
      exact ⟨c, hc, hle, hlt⟩
    refine ⟨scope', t, hrun, ht, Nat.le_of_succ_le hsize, fun y hy => ?_, fun y hy => ?_, fun y hy z hz h => ?_⟩
    · simp only [List.map_cons, List.mem_cons, not_or] at hy
      rw [hout y hy.2, List.lookup_cons, beq_false_of_ne hy.1]
    · rcases List.mem_cons.1 hy with rfl | hy
      · exact ⟨_, hx, Nat.le_refl _, hsize⟩
      · obtain ⟨c, hc, hle, hlt⟩ := htail y hy
        exact ⟨c, hc, Nat.le_of_lt hle, hlt⟩
    · rcases List.mem_cons.1 hy with rfl | hy
      · rcases List.mem_cons.1 hz with rfl | hz
        · rfl
        · obtain ⟨c, hc, hle, -⟩ := htail z hz
          rw [hx, hc] at h
          exact absurd (Option.some.inj h) (Nat.ne_of_lt hle)
      · rcases List.mem_cons.1 hz with rfl | hz
        · obtain ⟨c, hc, hle, -⟩ := htail y ‹_›
          rw [hx, hc] at h
          exact absurd (Option.some.inj h).symm (Nat.ne_of_lt hle)
        · exact hinj y ‹_› z hz h

/-! ### Blocks of temporaries -/

/-- The cells of temporaries, which start at the default of their type. -/
def Temp.entries (temps : List Temp) : List (VarId × Value) :=
  temps.map fun t => (t.var.id, .defaultOf t.var.ty)

theorem Temp.map_fst_entries (temps : List Temp) : (entries temps).map (·.1) = ids temps := by
  simp [entries, ids, Function.comp_def]

section
variable {m : Machine} {host' : Host σ'} {enter' : Enter σ'} {scopes' : List Scope} {temps : List Temp}
  {statements : List Prim} {result : Prim}

theorem evalWith_scope (hne : temps ≠ []) (statements : List Prim) (result : Prim) :
    Machine.evalWith host' m id enter' scopes' (Temp.scope temps statements result) =
      Eval.extend [] (Temp.entries temps) >>= fun scope =>
        runThen ((Temp.stores temps ++ statements).map (Machine.evalWith host' m id enter' (scope :: scopes')))
          (Machine.evalWith host' m id enter' (scope :: scopes') result) := by
  rw [Temp.scope_of_ne_nil hne, Machine.evalWith, Temp.entries, List.map_map]
  congr 1
  funext scope
  rw [Machine.evalAll_eq_mapM, mapM_getLastD]

/-- The run of a block of temporaries: their cells are made, they are set, and then the statements and the result
are run. -/
theorem run_scope (host' : Host σ') (enter' : Enter σ') {P : Store σ' → Prop}
    (hpush : ∀ t v, P t → P { t with cells := t.cells.push v }) (hst : temps = [] → statements = [])
    (hn : (Temp.ids temps).Nodup) {s' : Store σ'} (hs : P s') :
    ∃ scopes t, (Machine.evalWith host' m id enter' scopes' (Temp.scope temps statements result)).run s' =
        (runThen ((Temp.stores temps ++ statements).map (Machine.evalWith host' m id enter' scopes))
          (Machine.evalWith host' m id enter' scopes result)).run t ∧
      P t ∧ s'.cells.size ≤ t.cells.size ∧
      (∀ x, x ∉ Temp.ids temps → scopes.findSome? (·.lookup x) = scopes'.findSome? (·.lookup x)) ∧
      Placed m scopes (fun c => s'.cells.size ≤ c ∧ c < t.cells.size) (temps.map (·.var)) := by
  by_cases hne : temps = []
  · subst hne
    rw [hst rfl]
    exact ⟨scopes', s', rfl, hs, Nat.le_refl _, fun _ _ => rfl, by simp, by simp⟩
  · obtain ⟨scope, t, hrun, ht, hsize, hout, hin, hinj⟩ :=
      run_extend hpush [] ((Temp.map_fst_entries temps).symm ▸ hn) hs
    rw [Temp.map_fst_entries] at hout hin hinj
    have hmem {v : Var} (hv : v ∈ temps.map (·.var)) : v.id ∈ Temp.ids temps := by
      obtain ⟨t, ht, rfl⟩ := List.mem_map.1 hv
      exact List.mem_map.2 ⟨t, ht, rfl⟩
    have hlookup {v : Var} (hv : v ∈ temps.map (·.var)) : m.lookup (scope :: scopes') v = scope.lookup v.id := by
      obtain ⟨c, hc, -⟩ := hin v.id (hmem hv)
      rw [Machine.lookup, findSome?_lookup_cons, hc]
      rfl
    refine ⟨scope :: scopes', t, ?_, ht, hsize, fun x hx => ?_, fun v hv => ?_, fun v hv v' hv' heq => ?_⟩
    · rw [evalWith_scope hne, run_bind_of_ok hrun]
    · rw [findSome?_lookup_cons, hout x hx]
      rfl
    · rw [hlookup hv]
      exact hin v.id (hmem hv)
    · rw [hlookup hv, hlookup hv'] at heq
      exact hinj _ (hmem hv) _ (hmem hv') heq

end

section
variable {R : World → σ → σ' → Prop} {m : Machine} {w : World} {s : Store σ Code} {s' : Store σ'}
  {host' : Host σ'} {enter' : Enter σ'} {x : Run σ Code α} {scopes scopes' : List Scope}

theorem Sim.scope {temps : List Temp} {statements : List Prim} {result : Prim}
    {Q : World → Store σ' → α → Value → Prop} (hs : s.Agrees R m w s') (hst : temps = [] → statements = [])
    (hn : (Temp.ids temps).Nodup)
    (h : ∀ scopes t', (∀ x, x ∉ Temp.ids temps →
        scopes.findSome? (·.lookup x) = scopes'.findSome? (·.lookup x)) →
      Owned m scopes s'.cells.size w t' (temps.map (·.var)) → s.Agrees R m w t' →
      Sim R m (· < s'.cells.size) w s t' x
        (runThen ((Temp.stores temps ++ statements).map (Machine.evalWith host' m id enter' scopes))
          (Machine.evalWith host' m id enter' scopes result)) Q) :
    Sim R m (fun _ => True) w s s' x
      (Machine.evalWith host' m id enter' scopes' (Temp.scope temps statements result)) Q := by
  have hpush (t : Store σ') (v : Value) (ht : s.Agrees R m w t ∧ Frame (fun _ => True) w s' w t) :
      s.Agrees R m w { t with cells := t.cells.push v } ∧
        Frame (fun _ => True) w s' w { t with cells := t.cells.push v } := by
    refine ⟨ht.1.pushOwn, ht.2.trans ⟨le_refl _, by simp, fun _ _ h => h, fun c hc _ _ => ?_⟩⟩
    exact (getD_push ..).trans (if_neg (Nat.ne_of_lt hc))
  obtain ⟨scopes, t', hrun, ⟨ha, hf⟩, -, hout, hplaced⟩ := run_scope host' enter' hpush hst hn ⟨hs, .refl⟩
  have hown : Owned m scopes s'.cells.size w t' (temps.map (·.var)) :=
    hplaced.imp fun c hc => ⟨hc.1, hc.2, fun hw => absurd (hs.lt c hw) (Nat.not_lt.2 hc.1)⟩
  refine .of_run rfl hrun (fun hf₁ => ?_) (fun _ _ _ _ => id) (h scopes t' hout hown ha)
  have hall := (hf.imp fun _ _ => trivial).trans hf₁
  exact ⟨hall.le, hall.size, hall.fresh, fun c hc _ => hall.kept c hc hc⟩

/-- Evaluating the tree gives a value that agrees with `v`, without any effect. -/
inductive Ready (m : Machine) (scopes : List Scope) (w : World) (t : Store σ') : Prim → Value Code → Prop
  | const {c : Constant} {v : Value Code} (h : v.Agrees w (.ofConstant c)) : Ready m scopes w t (.const c) v
  | read {x : Var} {c : CellId} {v : Value Code} (hl : m.lookup scopes x = some c)
      (h : v.Agrees w (t.cells.getD c .null)) : Ready m scopes w t (.read x) v

theorem Ready.run {p : Prim} {v : Value Code} (h : Ready m scopes w s' p v) :
    ∃ v', (Machine.evalWith host' m id enter' scopes p).run s' = (.ok v', s') ∧ v.Agrees w v' := by
  cases h with
  | const h => exact ⟨_, rfl, h⟩
  | read hl h =>
    refine ⟨_, ?_, h⟩
    rw [Machine.evalWith, Machine.cell, hl]
    rfl

theorem Frame.setOwn {K : CellId → Prop} {c : CellId} (hc : ¬ K c) (v : Value) :
    Frame K w s' w { s' with cells := s'.cells.setIfInBounds c v } := by
  refine ⟨le_refl _, Nat.le_of_eq Array.size_setIfInBounds.symm, fun _ _ h => h, fun d _ hd _ => ?_⟩
  have hne : c ≠ d := fun heq => hc (heq ▸ hd)
  exact (getD_setIfInBounds ..).trans (if_neg fun heq => hne heq.1)

theorem Sim.setTemp {K : CellId → Prop} {v : Var} {c : CellId} {init : Prim} {f : α → Run σ Code γ}
    {y : Run σ' Prim δ} {Q₀ : World → Store σ' → α → Value → Prop} {Q : World → Store σ' → γ → δ → Prop}
    (hl : m.lookup scopes v = some c) (hlt : c < s'.cells.size) (hw : c ∉ w.cells) (hK : ¬ K c)
    (hx : Sim R m (fun _ => True) w s s' x (Machine.evalWith host' m id enter' scopes init) Q₀)
    (h : ∀ w₁ t t' a b, Frame (fun _ => True) w s' w₁ t' → Q₀ w₁ t' a b →
      t.Agrees R m w₁ { t' with cells := t'.cells.setIfInBounds c b } →
      Sim R m K w₁ t { t' with cells := t'.cells.setIfInBounds c b } (f a) y Q) :
    Sim R m K w s s' (x >>= f)
      (Machine.evalWith host' m id enter' scopes (.assign (.var v) init) >>= fun _ => y) Q := by
  simp only [Machine.evalWith, Machine.locate, Machine.cell, hl, pure_bind, bind_assoc]
  refine hx.bind (fun _ _ => trivial) fun w₁ t t' a b hf ht hQ => ?_
  have hfresh := hf.fresh c hlt hw
  exact .right rfl (.setOwn hK b) (h w₁ t t' a b hf hQ (ht.setOwn hfresh))

/-- Evaluating expressions in order, beside setting the temporaries that keep their values. -/
theorem Temp.Kept.sim {labels : List (String × Ty)} {values ps : List Prim} {temps : List Temp} {u u' : Supply}
    {ι : Type} {es : List ι} {f : ι → Run σ Code (Value Code)} {K : CellId → Prop} {k : Nat}
    {F : List (Value Code) → Run σ Code γ} {y : Run σ' Prim δ} {Q : World → Store σ' → γ → δ → Prop}
    (hk : Kept labels values ps temps u u')
    (hes : List.Forall₂ (fun e p => Sims R m w (f e) (Machine.evalWith host' m id enter' scopes p) Value.Agrees)
      es values)
    (hown : Owned m scopes k w s' (temps.map (·.var))) (hn : (ids temps).Nodup) (hs : s.Agrees R m w s')
    (hK : ∀ c, K c → c < k)
    (hF : ∀ w₁ t t' vs, Frame (fun c => ∀ t ∈ temps, m.lookup scopes t.var ≠ some c) w s' w₁ t' →
      t.Agrees R m w₁ t' → List.Forall₂ (Ready m scopes w₁ t') ps vs → Sim R m K w₁ t t' (F vs) y Q) :
    Sim R m K w s s' (es.mapM f >>= F)
      (runThen ((stores temps).map (Machine.evalWith host' m id enter' scopes)) y) Q := by
  induction hk generalizing w s s' es F with
  | nil =>
    cases hes
    rw [List.mapM_nil, pure_bind]
    exact hF w s s' [] .refl hs .nil
  | @const _ _ _ c _ _ _ _ _ _ ih =>
    cases hes with
    | cons he hes =>
      simp only [List.mapM_cons, bind_assoc, pure_bind]
      -- the machine does nothing for a constant
      refine RunsFrom.bind (y := pure (Value.ofConstant c)) (g := fun _ => runThen _ y)
        (he.runsFrom hs).with_run (fun _ _ => trivial) fun w₁ t t' v v' hf ht ⟨hv, hrun⟩ => ?_
      cases hrun
      refine ih (Runs.forall₂_mono hes hf.le) (hown.frame hf) hn ht fun w₂ t₂ t₂' vs hf₂ ht₂ hvs => ?_
      exact hF w₂ t₂ t₂' _ ((hf.imp fun _ _ => trivial).trans hf₂) ht₂ (.cons (.const (hv.mono hf₂.le)) hvs)
  | @held name ty _ _ _ _ temps u _ _ _ ih =>
    cases hes with
    | cons he hes =>
      simp only [List.mapM_cons, bind_assoc, pure_bind]
      obtain ⟨c, hl, hkc, hlt, hw⟩ := hown.cell (u.fresh name ty).1 (by simp)
      refine Sim.setTemp hl hlt hw (fun hc => absurd (hK c hc) (Nat.not_lt.2 hkc))
        (he.runsFrom hs) fun w₁ t t' v v' hf hv ht => ?_
      have hset : Frame (· ≠ c) w₁ t' w₁ { t' with cells := t'.cells.setIfInBounds c v' } :=
        .setOwn (fun hne => hne rfl) v'
      have hrest : Owned m scopes k w s' (temps.map (·.var)) := hown.subset fun v hv => List.mem_cons_of_mem _ hv
      have hn := List.nodup_cons.1 hn
      refine ih (Runs.forall₂_mono hes hf.le) ((hrest.frame hf).frame hset) hn.2 ht
        fun w₂ t₂ t₂' vs hf₂ ht₂ hvs => hF w₂ t₂ t₂' _ ?_ ht₂ (.cons (.read hl ?_) hvs)
      · refine ((hf.imp fun _ _ => trivial).trans (hset.imp fun d hd heq => ?_)).trans
          (hf₂.imp fun d hd t ht => hd t (List.mem_cons_of_mem _ ht))
        exact hd _ List.mem_cons_self (heq ▸ hl)
      · have hlt' := Nat.lt_of_lt_of_le hlt hf.size
        -- no other temporary has this cell
        have hother : ∀ t ∈ _, m.lookup scopes (Temp.var t) ≠ some c := fun t ht heq =>
          hn.1 (List.mem_map.2 ⟨t, ht, hown.inj _ (List.mem_map.2 ⟨t, List.mem_cons_of_mem _ ht, rfl⟩) _
            (by simp) (heq.trans hl.symm)⟩)
        rw [hf₂.kept c (Nat.lt_of_lt_of_le hlt' hset.size) hother (hf.fresh c hlt hw), getD_setIfInBounds,
          if_pos ⟨rfl, hlt'⟩]
        exact hv.mono hf₂.le

end

end ExprLowering
