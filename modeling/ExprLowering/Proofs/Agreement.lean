import ExprLowering.Proofs.Coupling
import ExprLowering.Proofs.LowerRules
import ExprLowering.Proofs.Meaning
import ExprLowering.Proofs.Mentions

/-!
# Agreement of two stores

A direct evaluation of an expression and the machine's evaluation of its lowering run on two stores. A
`World` says which cell of the machine stands for which cell of the direct evaluation; arrays have the same
number on both sides, and the world keeps their bounds. The machine has further cells, those of temporaries,
which no cell of the direct evaluation corresponds to.

Two values agree in a world if they are the same up to the cells that a closure captured and the code of
functions: where one has an expression the other has a lowering of it (`Code.Agrees`). What agrees in a world
agrees in every larger one.
-/

namespace ExprLowering

structure World where
  /-- The machine's cell for each cell. -/
  cells : List CellId
  /-- The bounds of each array. -/
  shapes : List (List Nat)

namespace World

instance : Preorder World where
  le w w' := w.cells <+: w'.cells ∧ w.shapes <+: w'.shapes
  le_refl w := ⟨List.prefix_refl _, List.prefix_refl _⟩
  le_trans _ _ _ h h' := ⟨h.1.trans h'.1, h.2.trans h'.2⟩

variable {w w' : World}

/-- The cell `c'` of the machine stands for the cell `c`. -/
def SameCell (w : World) (c c' : CellId) : Prop :=
  w.cells[c]? = some c'

theorem SameCell.mono {c c' : CellId} (h : w.SameCell c c') (hle : w ≤ w') : w'.SameCell c c' := by
  obtain ⟨hlt, rfl⟩ := List.getElem?_eq_some_iff.1 h
  exact List.prefix_iff_getElem?.1 hle.1 c hlt

theorem SameCell.mem {c c' : CellId} (h : w.SameCell c c') : c' ∈ w.cells :=
  List.mem_of_getElem? h

theorem shape_mono {a : GridId} {bounds : List Nat} (h : w.shapes[a]? = some bounds) (hle : w ≤ w') :
    w'.shapes[a]? = some bounds := by
  obtain ⟨hlt, rfl⟩ := List.getElem?_eq_some_iff.1 h
  exact List.prefix_iff_getElem?.1 hle.2 a hlt

theorem shapes_length_le (hle : w ≤ w') : w.shapes.length ≤ w'.shapes.length :=
  hle.2.length_le

/-- Where both sides have a cell or none, the cells correspond. -/
abbrev SameCell? (w : World) : Option CellId → Option CellId → Prop :=
  Option.Rel w.SameCell

theorem sameCell?_mono {c c' : Option CellId} (h : w.SameCell? c c') (hle : w ≤ w') : w'.SameCell? c c' := by
  cases h with
  | some h => exact .some (h.mono hle)
  | none => exact .none

theorem sameCell?_or {c d c' d' : Option CellId} (h : w.SameCell? c c') (h' : w.SameCell? d d') :
    w.SameCell? (c.or d) (c'.or d') := by
  cases h with
  | some h => exact .some h
  | none => exact h'

/-- The scopes have corresponding cells for the variables in `P`. -/
def SameScopes (w : World) (P : VarId → Prop) (scopes scopes' : List Scope) : Prop :=
  ∀ x, P x → w.SameCell? (scopes.findSome? (·.lookup x)) (scopes'.findSome? (·.lookup x))

end World

namespace World.SameScopes
variable {w w' : World} {P : VarId → Prop} {scope scope' : Scope} {scopes scopes' : List Scope}

theorem mono (h : w.SameScopes P scopes scopes') (hle : w ≤ w') : w'.SameScopes P scopes scopes' :=
  fun x hx => sameCell?_mono (h x hx) hle

theorem nil : w.SameScopes P [] [] :=
  fun _ _ => .none

theorem insert {x : VarId} {c c' : CellId} (h : w.SameScopes P (scope :: scopes) (scope' :: scopes'))
    (hc : w.SameCell c c') :
    w.SameScopes (fun y => y = x ∨ P y) (((x, c) :: scope) :: scopes) (((x, c') :: scope') :: scopes') := by
  intro y hy
  simp only [findSome?_lookup_cons, List.lookup_cons]
  by_cases hyx : y = x
  · subst hyx
    rw [beq_self_eq_true]
    exact .some hc
  · rw [beq_false_of_ne hyx, ← findSome?_lookup_cons, ← findSome?_lookup_cons]
    exact h y (hy.resolve_left hyx)

theorem capture (h : w.SameScopes P scopes scopes') :
    w.SameScopes P [Machine.capture scopes] [Machine.capture scopes'] := by
  intro x hx
  simp only [findSome?_lookup_cons, List.findSome?_nil, Option.or_none, lookup_capture]
  exact h x hx

end World.SameScopes

/-! ### Values -/

/-- The tree `p` is run in the place of `c`, which mentions no variables but those in `P`. -/
inductive Code.Agrees : (VarId → Prop) → Code → Prim → Prop
  | prim (p : Prim) : Agrees (fun _ => True) (.prim p) p
  | expr {o : LowerOptions} {e : Expr} {p : Prim} {u u' : Supply} {n : Nat} (he : e.WellMade) (hb : e.Below n)
      (hn : n ≤ u.var) (h : LoweredTo o e p u u') : Agrees (fun x => x.val < n) (.expr e) p

/-- Functions with the same signature and parameters whose bodies agree. -/
structure Lambda.Agrees (P : VarId → Prop) (code : Lambda Code) (code' : Lambda Prim) : Prop where
  signature : code.signature = code'.signature
  params : code.params = code'.params
  body : code.body.Agrees P code'.body

/-- Closures of functions that agree, with corresponding cells for the variables of the bodies. -/
def World.SameClosure (w : World) (code : Lambda Code) (captured : Scope) (code' : Lambda Prim)
    (captured' : Scope) : Prop :=
  ∃ P, code.Agrees P code' ∧ w.SameScopes P [captured] [captured']

/-- Quotations carry their own stamps: that of the node, and that of the lowered tree. -/
def Value.Agrees (w : World) : Value Code → Value → Prop :=
  Value.Rel (· < w.shapes.length) w.SameClosure fun _ code _ code' => ∃ P, code.Agrees P code'

theorem World.SameClosure.mono {w w' : World} {code : Lambda Code} {captured captured' : Scope} {code' : Lambda Prim}
    (h : w.SameClosure code captured code' captured') (hle : w ≤ w') :
    w'.SameClosure code captured code' captured' := by
  obtain ⟨P, hcode, hc⟩ := h
  exact ⟨P, hcode, hc.mono hle⟩

theorem Value.Agrees.mono {w w' : World} {v : Value Code} {v' : Value} (h : v.Agrees w v') (hle : w ≤ w') :
    v.Agrees w' v' :=
  Value.Rel.imp h (fun h => Nat.lt_of_lt_of_le h (World.shapes_length_le hle)) (fun h => h.mono hle) id

/-! ### Stores -/

abbrev Grid.Agrees (w : World) (g : Grid Code) (g' : Grid) : Prop :=
  g.Rel (Value.Agrees w) g'

/-- The arrays of the world, with its bounds, and no others. -/
structure GridsAgree (w : World) (gs : Array (Grid Code)) (gs' : Array Grid) : Prop where
  size : gs.size = w.shapes.length
  size' : gs'.size = w.shapes.length
  grid : ∀ a bounds, w.shapes[a]? = some bounds →
    (gs.getD a default).Agrees w (gs'.getD a default) ∧ (gs.getD a default).bounds = bounds

/-- The stores agree as the world says. `R` relates the states of the two hosts. -/
structure Store.Agrees {σ σ' : Type} (R : World → σ → σ' → Prop) (m : Machine) (w : World) (s : Store σ Code)
    (s' : Store σ') : Prop where
  globals : ∀ x, w.SameCell? (m.globals.lookup x) (m.globals.lookup x)
  size : s.cells.size = w.cells.length
  nodup : w.cells.Nodup
  lt : ∀ c ∈ w.cells, c < s'.cells.size
  cell : ∀ c c', w.SameCell c c' → (s.cells.getD c .null).Agrees w (s'.cells.getD c' .null)
  grids : GridsAgree w s.grids s'.grids
  closures : s.closures = s'.closures
  host : R w s.host s'.host

/-- The two hosts do the same: a call with arguments that agree gives results that agree, and arrays that
agree, each with the bounds that it had. -/
structure Host.Agrees {σ σ' : Type} (R : World → σ → σ' → Prop) (host : Host σ Code) (host' : Host σ') : Prop where
  mono : ∀ (w w' : World) (a : σ) (b : σ'), w ≤ w' → R w a b → R w' a b
  call : ∀ {w : World} {args : List (Value Code)} {args' : List Value} {gs : Array (Grid Code)}
    {gs' : Array Grid} {a : σ} {b : σ'} (f : NativeFn), List.Forall₂ (Value.Agrees w) args args' →
    GridsAgree w gs gs' → R w a b → ∃ w', w ≤ w' ∧ w'.cells = w.cells ∧
      SameResult (Value.Agrees w') (host.call f args gs a).1 (host'.call f args' gs' b).1 ∧
      GridsAgree w' (host.call f args gs a).2.1 (host'.call f args' gs' b).2.1 ∧
      R w' (host.call f args gs a).2.2 (host'.call f args' gs' b).2.2

/-! ### Changes to both stores -/

theorem Grid.Agrees.mono {w w' : World} {g : Grid Code} {g' : Grid} (h : g.Agrees w g') (hle : w ≤ w') :
    g.Agrees w' g' :=
  Grid.Rel.imp h fun _ _ h => h.mono hle

namespace GridsAgree
variable {w w' : World} {gs : Array (Grid Code)} {gs' : Array Grid}

theorem bounds_eq (h : GridsAgree w gs gs') {a : GridId} {bounds : List Nat} (ha : w.shapes[a]? = some bounds) :
    (gs'.getD a default).bounds = bounds := by
  obtain ⟨hg, hb⟩ := h.grid a bounds ha
  rw [← hg.bounds, hb]

theorem mono (h : GridsAgree w gs gs') (hle : w ≤ w') (hs : w'.shapes = w.shapes) : GridsAgree w' gs gs' where
  size := by rw [h.size, hs]
  size' := by rw [h.size', hs]
  grid a bounds ha := by
    obtain ⟨hg, hb⟩ := h.grid a bounds (hs ▸ ha)
    exact ⟨hg.mono hle, hb⟩

theorem push (h : GridsAgree w gs gs') {g : Grid Code} {g' : Grid} (hg : g.Agrees w g')
    (hle : w ≤ w') (hs : w'.shapes = w.shapes ++ [g.bounds]) : GridsAgree w' (gs.push g) (gs'.push g') where
  size := by simp [h.size, hs]
  size' := by simp [h.size', hs]
  grid a bounds ha := by
    rw [getD_push, getD_push, h.size, h.size']
    split
    · next heq =>
      rw [hs, heq, List.getElem?_concat_length] at ha
      exact ⟨hg.mono hle, Option.some.inj ha⟩
    · next hne =>
      rw [hs, List.getElem?_append] at ha
      split at ha
      · obtain ⟨hg, hb⟩ := h.grid a bounds ha
        exact ⟨hg.mono hle, hb⟩
      · next hlt =>
        obtain ⟨hlt', -⟩ := List.getElem?_eq_some_iff.1 ha
        simp only [List.length_singleton] at hlt'
        omega

theorem modify (h : GridsAgree w gs gs') {v : Value Code} {v' : Value} (hv : v.Agrees w v') (a i : Nat) :
    GridsAgree w (gs.modify a (·.setAt i v)) (gs'.modify a (·.setAt i v')) where
  size := by rw [Array.size_modify, h.size]
  size' := by rw [Array.size_modify, h.size']
  grid b bounds hb := by
    obtain ⟨hg, hbounds⟩ := h.grid b bounds hb
    rw [getD_modify, getD_modify, h.size, h.size']
    split
    · exact ⟨hg.setAt hv i, hbounds⟩
    · exact ⟨hg, hbounds⟩

end GridsAgree

namespace Store.Agrees
variable {σ σ' : Type} {R : World → σ → σ' → Prop} {m : Machine} {w : World} {s : Store σ Code} {s' : Store σ'}
  {c c' : CellId} {v : Value Code} {v' : Value}

theorem setCell (h : s.Agrees R m w s') (hc : w.SameCell c c') (hv : v.Agrees w v') :
    Agrees R m w { s with cells := s.cells.setIfInBounds c v }
      { s' with cells := s'.cells.setIfInBounds c' v' } where
  globals := h.globals
  size := by simp [h.size]
  nodup := h.nodup
  lt := by simpa using h.lt
  cell d d' hd := by
    have hlt : c < w.cells.length := (List.getElem?_eq_some_iff.1 hc).1
    have hiff : c = d ↔ c' = d' := by
      constructor
      · rintro rfl
        exact Option.some.inj (hc.symm.trans hd)
      · rintro rfl
        exact (List.getElem?_inj hlt h.nodup).1 (hc.trans hd.symm)
    simp only [getD_setIfInBounds, h.size, hlt, h.lt _ hc.mem, and_true, hiff]
    split
    · exact hv
    · exact h.cell d d' hd
  grids := h.grids
  closures := h.closures
  host := h.host

theorem setOwn (h : s.Agrees R m w s') (hc : c' ∉ w.cells) :
    s.Agrees R m w { s' with cells := s'.cells.setIfInBounds c' v' } where
  globals := h.globals
  size := h.size
  nodup := h.nodup
  lt := by simpa using h.lt
  cell d d' hd := by
    have hne : c' ≠ d' := fun hcd => hc (hcd ▸ hd.mem)
    rw [getD_setIfInBounds, if_neg fun hcd => hne hcd.1]
    exact h.cell d d' hd
  grids := h.grids
  closures := h.closures
  host := h.host

theorem pushOwn (h : s.Agrees R m w s') : s.Agrees R m w { s' with cells := s'.cells.push v' } where
  globals := h.globals
  size := h.size
  nodup := h.nodup
  lt d hd := by
    rw [Array.size_push]
    exact Nat.lt_succ_of_lt (h.lt d hd)
  cell d d' hd := by
    rw [getD_push, if_neg (Nat.ne_of_lt (h.lt d' hd.mem))]
    exact h.cell d d' hd
  grids := h.grids
  closures := h.closures
  host := h.host

variable (hR : ∀ (w w' : World) (a : σ) (b : σ'), w ≤ w' → R w a b → R w' a b)
include hR

theorem pushCell (h : s.Agrees R m w s') (hv : v.Agrees w v') :
    Agrees R m { w with cells := w.cells ++ [s'.cells.size] } { s with cells := s.cells.push v }
      { s' with cells := s'.cells.push v' } := by
  have hle : w ≤ { w with cells := w.cells ++ [s'.cells.size] } :=
    ⟨List.prefix_append _ _, List.prefix_refl _⟩
  exact {
    globals := fun x => World.sameCell?_mono (h.globals x) hle
    size := by simp [h.size]
    nodup := by
      rw [List.nodup_append]
      refine ⟨h.nodup, List.nodup_singleton _, fun c hc d hd => ?_⟩
      rw [List.mem_singleton.1 hd]
      exact Nat.ne_of_lt (h.lt c hc)
    lt := fun d hd => by
      rw [Array.size_push]
      rcases List.mem_append.1 hd with hd | hd
      · exact Nat.lt_succ_of_lt (h.lt d hd)
      · rw [List.mem_singleton.1 hd]
        exact Nat.lt_succ_self _
    cell := fun d d' hd => by
      rw [World.SameCell, List.getElem?_append] at hd
      rw [getD_push, getD_push, h.size]
      split at hd
      · next hlt =>
        have hd : w.SameCell d d' := hd
        rw [if_neg (Nat.ne_of_lt hlt), if_neg (Nat.ne_of_lt (h.lt d' hd.mem))]
        exact (h.cell d d' hd).mono hle
      · next hlt =>
        obtain ⟨hlt', heq⟩ := List.getElem?_eq_some_iff.1 hd
        simp only [List.length_singleton, List.getElem_singleton] at hlt' heq
        rw [if_pos (by omega), if_pos heq.symm]
        exact hv.mono hle
    grids := h.grids.mono hle rfl
    closures := h.closures
    host := hR _ _ _ _ hle h.host }

theorem pushGrid (h : s.Agrees R m w s') {g : Grid Code} {g' : Grid} (hg : g.Agrees w g') :
    Agrees R m { w with shapes := w.shapes ++ [g.bounds] } { s with grids := s.grids.push g }
      { s' with grids := s'.grids.push g' } := by
  have hle : w ≤ { w with shapes := w.shapes ++ [g.bounds] } :=
    ⟨List.prefix_refl _, List.prefix_append _ _⟩
  exact {
    globals := fun x => World.sameCell?_mono (h.globals x) hle
    size := h.size
    nodup := h.nodup
    lt := h.lt
    cell := fun d d' hd => (h.cell d d' hd).mono hle
    grids := h.grids.push hg hle rfl
    closures := h.closures
    host := hR _ _ _ _ hle h.host }

end Store.Agrees

end ExprLowering
