import ExprLowering.Proofs.Agreement
import ExprLowering.Proofs.CoupledRuns

/-!
# Simulation of runs

A direct evaluation and the machine's, from stores that agree: that stores agree is a coupling of the two
(`agreement`). `Sim` compares a run of a direct evaluation from one store with a run of the machine from a store that
agrees with it; `Sims` is the same from all stores that agree, in every larger world. The frame says what the machine
left alone: its own cells, those that stand for no cell of the direct evaluation, are not touched by code that does
not know them.
-/

namespace ExprLowering

variable {σ σ' α β γ δ : Type}

/-- From `w` and `s` to `w'` and `t`: cells that the world does not know stay out of it, and those in `K` keep
their values. -/
structure Frame (K : CellId → Prop) (w : World) (s : Store σ') (w' : World) (t : Store σ') : Prop where
  le : w ≤ w'
  size : s.cells.size ≤ t.cells.size
  fresh : ∀ c < s.cells.size, c ∉ w.cells → c ∉ w'.cells
  kept : ∀ c < s.cells.size, K c → c ∉ w.cells → t.cells.getD c .null = s.cells.getD c .null

namespace Frame
variable {K K' : CellId → Prop} {w w₁ w₂ : World} {s t t' : Store σ'}

theorem refl : Frame K w s w s :=
  ⟨le_refl _, Nat.le_refl _, fun _ _ h => h, fun _ _ _ _ => rfl⟩

theorem trans (h : Frame K w s w₁ t) (h' : Frame K w₁ t w₂ t') : Frame K w s w₂ t' where
  le := le_trans h.le h'.le
  size := Nat.le_trans h.size h'.size
  fresh c hc hw := h'.fresh c (Nat.lt_of_lt_of_le hc h.size) (h.fresh c hc hw)
  kept c hc hK hw :=
    (h'.kept c (Nat.lt_of_lt_of_le hc h.size) hK (h.fresh c hc hw)).trans (h.kept c hc hK hw)

theorem imp (h : Frame K w s w₁ t) (hK : ∀ c, K' c → K c) : Frame K' w s w₁ t :=
  ⟨h.le, h.size, h.fresh, fun c hc hK' => h.kept c hc (hK c hK')⟩

theorem of_cells_eq (hle : w ≤ w₁) (hw : w₁.cells = w.cells) (hc : t.cells = s.cells) : Frame K w s w₁ t :=
  ⟨hle, Nat.le_of_eq (by rw [hc]), fun _ _ h => by rwa [hw], fun _ _ _ _ => by rw [hc]⟩

end Frame

/-! ### Agreement as a coupling -/

section
variable {R : World → σ → σ' → Prop} {m : Machine} {w : World} {P : VarId → Prop} {scopes scopes' : List Scope}

/-- Stores that agree. Variables have the same names on both sides. -/
def agreement (R : World → σ → σ' → Prop) (m : Machine) : Coupling World m σ σ' Code Prim where
  Cells := World.SameCell
  Arrays w a := a < w.shapes.length
  Shaped w a bounds := w.shapes[a]? = some bounds
  Closures := World.SameClosure
  Quotes _ code _ code' := ∃ P, code.Agrees P code'
  Scopes w Γ scopes scopes' := Γ ≤ Eq ∧ w.SameScopes (fun x => Γ x x) scopes scopes'
  Stores w s s' := s.Agrees R m w s'
  Moves K w _ s' w' _ t' := Frame K w s' w' t'
  Faults := Eq
  Lenient := False
  cells_mono hle h := h.mono hle
  arrays_mono hle h := Nat.lt_of_lt_of_le h (World.shapes_length_le hle)
  arrays_of_shaped h := (List.getElem?_eq_some_iff.1 h).1
  closures_mono hle h := h.mono hle
  closures_params := by
    rintro _ _ _ _ _ ⟨_, hcode, -⟩
    exact hcode.params
  scopes_mono hle h := ⟨h.1, h.2.mono hle⟩
  scopes_anti hΓ h := ⟨le_trans hΓ h.1, fun x hx => h.2 x (hΓ x x hx)⟩
  scopes_nil h := h
  scopes_insert := by
    rintro w Γ scope scopes scope' scopes' a b c d ⟨hΓ, h⟩ hc hsame
    obtain rfl : a = b := hsame.resolve_right Fault.not_forall_eq
    refine ⟨Naming.bind_le_eq hΓ a, fun x hx => h.insert hc x ?_⟩
    exact hx.imp And.left fun hx => hx.2.2
  lookup := by
    rintro w s t Γ scopes scopes' x y hs ⟨hΓ, h⟩ hxy
    cases hΓ x y hxy
    exact World.sameCell?_or (h x hxy) (hs.globals x)
  faults_refl _ := rfl
  moves_refl := .refl
  moves_trans h h' := h.trans h'
  moves_imp hK h := h.imp hK
  moves_le h := h.le
  moves_of_cells _ ht := .of_cells_eq (le_refl _) rfl ht
  valueAt := by
    rintro w s s' _ _ hs (hc | ha)
    · exact hs.cell _ _ hc
    · exact (hs.grids.grid _ _ (List.getElem?_eq_getElem ha)).1.value _
  setAt := by
    rintro w s s' _ _ v v' hs (@⟨c, c', hc⟩ | @⟨a, i, ha⟩) hv
    · refine ⟨hs.setCell hc hv, fun K => ⟨le_refl _, ?_, fun _ _ h => h, fun d _ _ hd => ?_⟩⟩
      · exact Nat.le_of_eq (s'.size_cells_setAt v' (.cell c')).symm
      · refine Store.cell_setAt_of_ne fun heq => hd ?_
        cases heq
        exact hc.mem
    · exact ⟨{ hs with grids := hs.grids.modify hv a i }, fun K => .of_cells_eq (le_refl _) rfl rfl⟩
  bounds_eq hs ha := (hs.grids.grid _ _ (List.getElem?_eq_getElem ha)).1.bounds
  closures_eq hs := hs.closures
  nextClosure hs := { hs with closures := congrArg (· + 1) hs.closures }

/-- The run of `x` from `s` and the machine's run of `y` from `s'` end in the same way, in stores that agree. -/
abbrev Sim (R : World → σ → σ' → Prop) (m : Machine) (K : CellId → Prop) (w : World) (s : Store σ Code)
    (s' : Store σ') (x : Run σ Code α) (y : Run σ' Prim β) (Q : World → Store σ' → α → β → Prop) : Prop :=
  (agreement R m).RunsFrom K w s s' x y Q

theorem sim_iff {K : CellId → Prop} {s : Store σ Code} {s' : Store σ'} {x : Run σ Code α} {y : Run σ' Prim β}
    {Q : World → Store σ' → α → β → Prop} :
    Sim R m K w s s' x y Q ↔ ∃ w', Frame K w s' w' (y.run s').2 ∧ (x.run s).2.Agrees R m w' (y.run s').2 ∧
      SameResult (Q w' (y.run s').2) (x.run s).1 (y.run s').1 :=
  or_iff_right fun h => h.1

/-- In every world from `w` on the runs from stores that agree simulate each other. -/
abbrev Sims (R : World → σ → σ' → Prop) (m : Machine) (w : World) (x : Run σ Code α) (y : Run σ' Prim β)
    (Q : World → α → β → Prop) : Prop :=
  (agreement R m).Runs w x y Q

/-- Locations that stand for each other. -/
def Location.Agrees (w : World) : Location → Location → Prop :=
  Location.Rel w.SameCell (· < w.shapes.length)

theorem Location.Agrees.mono {w' : World} {l l' : Location} (h : l.Agrees w l') (hle : w ≤ w') : l.Agrees w' l' :=
  Location.Rel.imp h (fun h => h.mono hle) fun h => Nat.lt_of_lt_of_le h (World.shapes_length_le hle)

/-- Entering closures that agree gives results that agree. -/
abbrev EnterAgrees (R : World → σ → σ' → Prop) (m : Machine) (enter : Enter σ Code) (enter' : Enter σ') : Prop :=
  (agreement R m).Enters enter enter'

theorem Host.Agrees.hosts {host : Host σ Code} {host' : Host σ'} (hh : host.Agrees R host') :
    (agreement R m).Hosts host host' where
  newCell {w s s' _ _} hs hv := by
    refine sim_iff.2 ⟨_, ?_, hs.pushCell hh.mono hv, .ok ?_⟩
    · refine ⟨⟨List.prefix_append _ _, List.prefix_refl _⟩, ?_, fun c hc hw hmem => ?_, fun c hc _ _ => ?_⟩
      · exact Nat.le_of_lt (by simp [Eval.newCell, run_mk])
      · rcases List.mem_append.1 hmem with hmem | hmem
        · exact hw hmem
        · exact Nat.ne_of_lt hc (List.mem_singleton.1 hmem)
      · exact (getD_push ..).trans (if_neg (Nat.ne_of_lt hc))
    · show (w.cells ++ [s'.cells.size])[s.cells.size]? = some s'.cells.size
      rw [hs.size]
      exact List.getElem?_concat_length
  newGrid {w s s' g _} hs hg := by
    refine sim_iff.2 ⟨{ w with shapes := w.shapes ++ [g.bounds] }, .of_cells_eq ?_ rfl rfl,
      hs.pushGrid hh.mono hg, .ok ?_⟩
    · exact ⟨List.prefix_refl _, List.prefix_append _ _⟩
    · refine ⟨s.grids.size, rfl, ?_, ?_⟩
      · rw [hs.grids.size, ← hs.grids.size']
      · show (w.shapes ++ [g.bounds])[s.grids.size]? = some g.bounds
        rw [hs.grids.size]
        exact List.getElem?_concat_length
  call f hs h := by
    obtain ⟨w₁, hle, hcells, hr, hgrids, hR⟩ := hh.call f h hs.grids hs.host
    refine sim_iff.2 ⟨w₁, .of_cells_eq hle hcells rfl, ?_, hr⟩
    exact {
      globals := fun x => World.sameCell?_mono (hs.globals x) hle
      size := hcells ▸ hs.size
      nodup := hcells ▸ hs.nodup
      lt := fun c hc => hs.lt c (hcells ▸ hc)
      cell := fun c c' hc => (hs.cell c c' (by rwa [World.SameCell, ← hcells])).mono hle
      grids := hgrids
      closures := hs.closures
      host := hR }

/-! ### Scopes -/

/-- The variables in `P`, by their names. -/
def Naming.on (P : VarId → Prop) : Naming :=
  fun x y => x = y ∧ P x

theorem World.SameScopes.named (h : w.SameScopes P scopes scopes') : (agreement R m).Scopes w (.on P) scopes scopes' :=
  ⟨fun _ _ hxy => hxy.1, fun x hx => h x hx.2⟩

/-- The variables in `P` keep their names where further ones are bound. -/
theorem World.SameScopes.of_bindAll {ids : List VarId}
    (h : (agreement R m).Scopes w (Naming.bindAll (.on P) ids ids) scopes scopes') : w.SameScopes P scopes scopes' :=
  fun x hx => h.2 x (Naming.bindAll_self ⟨rfl, hx⟩)

theorem Sims.cell {x : Var} (h : w.SameScopes P scopes scopes') (hx : P x.id) :
    Sims R m w (m.cell scopes x) (m.cell scopes' x) World.SameCell :=
  Correspondence.Runs.cell h.named ⟨rfl, hx⟩ (.inl rfl)

theorem sims_prim {host : Host σ Code} {host' : Host σ'} {enter : Enter σ Code} {enter' : Enter σ'}
    (hh : host.Agrees R host') (henter : EnterAgrees R m enter enter') (p : Prim)
    (hs : w.SameScopes (fun _ => True) scopes scopes') :
    Sims R m w (Machine.evalWith host m Code.prim enter scopes p) (Machine.evalWith host' m id enter' scopes' p)
      Value.Agrees := by
  refine p.runs_self hh.hosts henter (fun code hs => ?_) (fun _ code => ?_) ⟨le_refl _, fun x _ => hs x trivial⟩
  · exact ⟨fun _ => True, ⟨rfl, rfl, .prim _⟩, World.SameScopes.capture fun x _ => hs.2 x rfl⟩
  · exact ⟨fun _ => True, rfl, rfl, .prim _⟩

end

/-! ### Lowered expressions -/

section
variable {R : World → σ → σ' → Prop} {m : Machine} {host : Host σ Code} {host' : Host σ'} {enter : Enter σ Code}
  {enter' : Enter σ'}

/-- The tree is run in the place of the expression, and stays a constant or a variable if the expression is one. -/
structure Mirrors (R : World → σ → σ' → Prop) (m : Machine) (host : Host σ Code) (host' : Host σ')
    (enter : Enter σ Code) (enter' : Enter σ') (e : Expr) (p : Prim) (u u' : Supply) : Prop where
  le : u.var ≤ u'.var
  leaf : (∃ c, e = .const c ∧ p = .const c) ∨ (∃ v, e = .var v ∧ p = .read v) ∨
    e.isLeaf = false ∧ p.isTrivial = false
  sims : ∀ {n : Nat} {w : World} {scopes scopes' : List Scope}, e.Below n → n ≤ u.var →
    w.SameScopes (fun x => x.val < n) scopes scopes' →
    Sims R m w (e.evalWith host m .split enter scopes) (Machine.evalWith host' m id enter' scopes' p) Value.Agrees

variable {n : Nat} {w : World} {scopes scopes' : List Scope} {u u' : Supply}

theorem Mirrors.isTrivial_eq {e : Expr} {p : Prim} (h : Mirrors R m host host' enter enter' e p u u') :
    p.isTrivial = e.isLeaf := by
  rcases h.leaf with ⟨c, rfl, rfl⟩ | ⟨v, rfl, rfl⟩ | ⟨he, hp⟩
  · rfl
  · rfl
  · rw [he, hp]

namespace Threaded
variable {es : List Expr} {ps : List Prim}

theorem sims (h : Threaded (Mirrors R m host host' enter enter') es ps u u') (hb : ∀ e ∈ es, e.Below n)
    (hn : n ≤ u.var) (hs : w.SameScopes (fun x => x.val < n) scopes scopes') :
    List.Forall₂ (fun e p => Sims R m w (e.evalWith host m .split enter scopes)
      (Machine.evalWith host' m id enter' scopes' p) Value.Agrees) es ps := by
  induction h with
  | nil => exact .nil
  | cons h _ ih =>
    rw [List.forall_mem_cons] at hb
    exact .cons (h.sims hb.1 hn hs) (ih hb.2 (Nat.le_trans hn h.le))

theorem all_isTrivial (h : Threaded (Mirrors R m host host' enter enter') es ps u u') :
    ps.all (·.isTrivial) = es.all (·.isLeaf) := by
  induction h with
  | nil => rfl
  | cons h _ ih => rw [List.all_cons, List.all_cons, h.isTrivial_eq, ih]

theorem var_mem (h : Threaded (Mirrors R m host host' enter enter') es ps u u') {v : Var} (hv : .read v ∈ ps) :
    .var v ∈ es := by
  induction h with
  | nil => cases hv
  | cons h _ ih =>
    rcases List.mem_cons.1 hv with rfl | hv
    · rcases h.leaf with ⟨_, _, hp⟩ | ⟨_, rfl, hp⟩ | ⟨_, hp⟩
      · cases hp
      · cases hp
        exact List.mem_cons_self
      · cases hp
    · exact List.mem_cons_of_mem _ (ih hv)

end Threaded

end

end ExprLowering
