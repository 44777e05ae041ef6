import ExprLowering.Proofs.Arithmetic
import ExprLowering.Proofs.CoupledRuns

/-!
# Stores that are alike

Two runs of the machine, of trees that are alike, use cells of their own for their variables. A `Pairing` says
which cell of the right store stands for which one of the left store; arrays have the same number on both
sides. Values are alike if they are the same up to the names and cells of variables, the stamps of quotations
and the code of functions, which is alike (`Value.Alike`). What is alike in a pairing is alike in every larger
one.

That stores are alike is a coupling of the two runs (`likeness`). `Follow` compares two runs from stores that are
alike: they end in the same way, in stores that are alike in a larger pairing, unless the right run may be more
lenient and the left one fails. `Follows` is the same from all stores that are alike.
-/

namespace ExprLowering

/-- Which cell of the right store stands for which cell of the left one. -/
abbrev Pairing := CellId → CellId → Prop

/-! ### Scopes -/

/-- Variables that stand for each other have cells that do, or have none. -/
def Naming.Paired (m : Machine) (w : Pairing) (Γ : Naming) (scopes scopes' : List Scope) : Prop :=
  ∀ x y, Γ x y → Option.Rel w (m.cell? scopes x) (m.cell? scopes' y)

namespace Naming.Paired
variable {m : Machine} {w w' : Pairing} {Γ : Naming} {scopes scopes' : List Scope} {scope scope' : Scope}

theorem mono (h : Γ.Paired m w scopes scopes') (hle : w ≤ w') : Γ.Paired m w' scopes scopes' := by
  intro x y hxy
  have hc := h x y hxy
  revert hc
  generalize m.cell? scopes x = c, m.cell? scopes' y = d
  intro hc
  cases hc with
  | some hc => exact .some (hle _ _ hc)
  | none => exact .none

theorem insert {a b : VarId} {c d : CellId} (h : Γ.Paired m w (scope :: scopes) (scope' :: scopes')) (hc : w c d) :
    (Γ.bind a b).Paired m w (((a, c) :: scope) :: scopes) (((b, d) :: scope') :: scopes') := by
  intro x y hxy
  rw [Machine.cell?_insert, Machine.cell?_insert]
  rcases hxy with ⟨rfl, rfl⟩ | ⟨hx, hy, hxy⟩
  · rw [if_pos rfl, if_pos rfl]
    exact .some hc
  · rw [if_neg hx, if_neg hy]
    exact h x y hxy

theorem hide {a : VarId} {c : CellId} (h : Γ.Paired m w (scope :: scopes) scopes') :
    (Γ.hide a).Paired m w (((a, c) :: scope) :: scopes) scopes' := by
  intro x y hxy
  rw [Machine.cell?_insert, if_neg hxy.1]
  exact h x y hxy.2

theorem capture (h : Γ.Paired m w scopes scopes') :
    Γ.Paired m w [Machine.capture scopes] [Machine.capture scopes'] := by
  intro x y hxy
  rw [Machine.cell?_capture, Machine.cell?_capture]
  exact h x y hxy

end Naming.Paired

/-! ### Values -/

/-- Functions with the same signature and parameters whose bodies are alike. -/
structure Lambda.Alike (L : Prop) (Γ : Naming) (code code' : Lambda Prim) : Prop where
  signature : code.signature = code'.signature
  params : code.params = code'.params
  body : code.body.Alike L (Γ.bindAll (code.params.map (·.id)) (code.params.map (·.id))) code'.body

/-- Closures of functions that are alike, with paired cells for the variables that stand for each other. -/
def Pairing.SameClosure (L : Prop) (m : Machine) (w : Pairing) (code : Lambda Prim) (captured : Scope)
    (code' : Lambda Prim) (captured' : Scope) : Prop :=
  ∃ Γ, code.Alike L Γ code' ∧ Γ.Paired m w [captured] [captured']

def Value.Alike (L : Prop) (m : Machine) (w : Pairing) : Value → Value → Prop :=
  Value.Rel (fun _ => True) (w.SameClosure L m) fun _ code _ code' => code.Alike L Eq code'

theorem Pairing.SameClosure.mono {L : Prop} {m : Machine} {w w' : Pairing} {code code' : Lambda Prim}
    {captured captured' : Scope} (h : w.SameClosure L m code captured code' captured') (hle : w ≤ w') :
    w'.SameClosure L m code captured code' captured' := by
  obtain ⟨Γ, hcode, hc⟩ := h
  exact ⟨Γ, hcode, hc.mono hle⟩

theorem Value.IsScalar.alike {L : Prop} {m : Machine} {w : Pairing} {v : Value} (h : v.IsScalar) :
    v.Alike L m w v := by
  rcases h with rfl | ⟨l, rfl⟩
  · exact .null
  · exact .lit l

namespace Value.Alike
variable {L : Prop} {m : Machine} {w w' : Pairing} {v v' u u' : Value}

theorem mono (h : v.Alike L m w v') (hle : w ≤ w') : v.Alike L m w' v' :=
  Value.Rel.imp h id (fun h => h.mono hle) id

theorem oneLike_eq (h : v.Alike L m w v') : v.oneLike = v'.oneLike :=
  (h.oneLike.imp fun _ _ => SameAtom.eq).eq

theorem arith_eq (op : ArithOp) (checked : Bool) (h : v.Alike L m w v') (hu : u.Alike L m w u') :
    Value.arith op checked v u = Value.arith op checked v' u' :=
  ((Value.Rel.arith op checked h hu).imp fun _ _ => SameAtom.eq).eq

end Value.Alike

/-! ### Stores -/

abbrev Grid.Alike (L : Prop) (m : Machine) (w : Pairing) (g g' : Grid) : Prop :=
  g.Rel (Value.Alike L m w) g'

structure GridsAlike (L : Prop) (m : Machine) (w : Pairing) (gs gs' : Array Grid) : Prop where
  size : gs.size = gs'.size
  grid : ∀ a, (gs.getD a default).Alike L m w (gs'.getD a default)

/-- Cells that stand for each other hold values that are alike, and no cell stands for two. `R` relates the
states of the host. -/
structure Store.Alike {σ : Type} (L : Prop) (R : Pairing → σ → σ → Prop) (m : Machine) (w : Pairing)
    (s t : Store σ) : Prop where
  left : ∀ {c d}, w c d → c < s.cells.size
  right : ∀ {c d}, w c d → d < t.cells.size
  inj : ∀ {c d c' d'}, w c d → w c' d' → (c = c' ↔ d = d')
  cell : ∀ {c d}, w c d → (s.cells.getD c .null).Alike L m w (t.cells.getD d .null)
  grids : GridsAlike L m w s.grids t.grids
  closures : s.closures = t.closures
  host : R w s.host t.host

/-- The host cannot tell values from values that are like them. -/
structure Host.Opaque {σ : Type} (L : Prop) (R : Pairing → σ → σ → Prop) (m : Machine) (host : Host σ) : Prop where
  mono : ∀ {w w' : Pairing} {a b : σ}, w ≤ w' → R w a b → R w' a b
  call : ∀ {w : Pairing} {args args' : List Value} {gs gs' : Array Grid} {a b : σ} (f : NativeFn),
    List.Forall₂ (Value.Alike L m w) args args' → GridsAlike L m w gs gs' → R w a b →
      EndAlike (Value.Alike L m w) (host.call f args gs a).1 (host.call f args' gs' b).1 ∧
      GridsAlike L m w (host.call f args gs a).2.1 (host.call f args' gs' b).2.1 ∧
      R w (host.call f args gs a).2.2 (host.call f args' gs' b).2.2

section
variable {L : Prop} {m : Machine} {w w' : Pairing}

namespace GridsAlike
variable {gs gs' : Array Grid} {g g' : Grid}

theorem mono (h : GridsAlike L m w gs gs') (hle : w ≤ w') : GridsAlike L m w' gs gs' :=
  ⟨h.size, fun a => (h.grid a).imp fun _ _ h => h.mono hle⟩

theorem push (h : GridsAlike L m w gs gs') (hg : g.Alike L m w g') : GridsAlike L m w (gs.push g) (gs'.push g') := by
  refine ⟨by simp [h.size], fun a => ?_⟩
  rw [getD_push, getD_push, h.size]
  split_ifs
  · exact hg
  · exact h.grid a

theorem modify (h : GridsAlike L m w gs gs') {v v' : Value} (hv : v.Alike L m w v') (a i : Nat) :
    GridsAlike L m w (gs.modify a (·.setAt i v)) (gs'.modify a (·.setAt i v')) := by
  refine ⟨by simp [h.size], fun b => ?_⟩
  rw [getD_modify, getD_modify, h.size]
  split_ifs
  · exact (h.grid b).setAt hv i
  · exact h.grid b

end GridsAlike

/-- One more pair of cells. -/
def Pairing.insert (w : Pairing) (c d : CellId) : Pairing :=
  fun a b => a = c ∧ b = d ∨ w a b

theorem Pairing.le_insert {c d : CellId} : w ≤ w.insert c d :=
  fun _ _ h => .inr h

end

namespace Store.Alike
variable {σ : Type} {L : Prop} {R : Pairing → σ → σ → Prop} {m : Machine} {w : Pairing} {s t : Store σ}
  {c d : CellId} {v v' : Value}

theorem setCell (h : s.Alike L R m w t) (hc : w c d) (hv : v.Alike L m w v') :
    Alike L R m w { s with cells := s.cells.setIfInBounds c v } { t with cells := t.cells.setIfInBounds d v' } where
  left ha := by simpa using h.left ha
  right ha := by simpa using h.right ha
  inj := h.inj
  cell ha := by
    simp only [getD_setIfInBounds, h.left hc, h.right hc, and_true, h.inj hc ha]
    split_ifs
    · exact hv
    · exact h.cell ha
  grids := h.grids
  closures := h.closures
  host := h.host

theorem setLeft (h : s.Alike L R m w t) (hc : ∀ d, ¬ w c d) :
    Alike L R m w { s with cells := s.cells.setIfInBounds c v } t where
  left ha := by simpa using h.left ha
  right := h.right
  inj := h.inj
  cell := by
    intro a b hab
    have hne : c ≠ a := by
      rintro rfl
      exact hc b hab
    rw [getD_setIfInBounds, if_neg fun hca => hne hca.1]
    exact h.cell hab
  grids := h.grids
  closures := h.closures
  host := h.host

theorem pushLeft (h : s.Alike L R m w t) : Alike L R m w { s with cells := s.cells.push v } t where
  left ha := by
    rw [Array.size_push]
    exact Nat.lt_succ_of_lt (h.left ha)
  right := h.right
  inj := h.inj
  cell ha := by
    rw [getD_push, if_neg (Nat.ne_of_lt (h.left ha))]
    exact h.cell ha
  grids := h.grids
  closures := h.closures
  host := h.host

theorem pushCell (h : s.Alike L R m w t) (hR : R (w.insert s.cells.size t.cells.size) s.host t.host)
    (hv : v.Alike L m w v') :
    Alike L R m (w.insert s.cells.size t.cells.size) { s with cells := s.cells.push v }
      { t with cells := t.cells.push v' } where
  left := by
    rintro a b (⟨rfl, rfl⟩ | hab)
    · simp
    · rw [Array.size_push]
      exact Nat.lt_succ_of_lt (h.left hab)
  right := by
    rintro a b (⟨rfl, rfl⟩ | hab)
    · simp
    · rw [Array.size_push]
      exact Nat.lt_succ_of_lt (h.right hab)
  inj := by
    rintro a b a' b' (⟨rfl, rfl⟩ | hab) (⟨rfl, rfl⟩ | hab')
    · simp
    · exact iff_of_false (Nat.ne_of_gt (h.left hab')) (Nat.ne_of_gt (h.right hab'))
    · exact iff_of_false (Nat.ne_of_lt (h.left hab)) (Nat.ne_of_lt (h.right hab))
    · exact h.inj hab hab'
  cell := by
    rintro a b (⟨rfl, rfl⟩ | hab)
    · rw [getD_push, getD_push, if_pos rfl, if_pos rfl]
      exact hv.mono Pairing.le_insert
    · rw [getD_push, getD_push, if_neg (Nat.ne_of_lt (h.left hab)), if_neg (Nat.ne_of_lt (h.right hab))]
      exact (h.cell hab).mono Pairing.le_insert
  grids := h.grids.mono Pairing.le_insert
  closures := h.closures
  host := hR

end Store.Alike

/-- Locations that stand for each other. -/
def Location.Alike (w : Pairing) : Location → Location → Prop :=
  Location.Rel w fun _ => True

namespace Store.Alike
variable {σ : Type} {L : Prop} {R : Pairing → σ → σ → Prop} {m : Machine} {w : Pairing} {s t : Store σ}
  {l l' : Location}

theorem valueAt (h : s.Alike L R m w t) (hl : l.Alike w l') : (s.valueAt l).Alike L m w (t.valueAt l') := by
  rcases hl with hc | _
  · exact h.cell hc
  · exact (h.grids.grid _).value _

theorem setAt (h : s.Alike L R m w t) (hl : l.Alike w l') {v v' : Value} (hv : v.Alike L m w v') :
    (s.setAt v l).Alike L R m w (t.setAt v' l') := by
  rcases hl with hc | _
  · exact h.setCell hc hv
  · exact { h with grids := h.grids.modify hv _ _ }

end Store.Alike

namespace Naming.Paired
variable {σ : Type} {L : Prop} {R : Pairing → σ → σ → Prop} {m : Machine} {w : Pairing} {s t : Store σ} {Γ : Naming}
  {scopes scopes' : List Scope} {x y : VarId} {c : CellId}

theorem lt_left (h : Γ.Paired m w scopes scopes') (hs : s.Alike L R m w t) (hxy : Γ x y)
    (hc : m.cell? scopes x = some c) : c < s.cells.size := by
  have hrel := h x y hxy
  rw [hc] at hrel
  generalize m.cell? scopes' y = d at hrel
  cases hrel with
  | some hw => exact hs.left hw

theorem lt_right (h : Γ.Paired m w scopes scopes') (hs : s.Alike L R m w t) (hxy : Γ x y)
    (hc : m.cell? scopes' y = some c) : c < t.cells.size := by
  have hrel := h x y hxy
  rw [hc] at hrel
  generalize m.cell? scopes x = d at hrel
  cases hrel with
  | some hw => exact hs.right hw

end Naming.Paired

/-! ### Runs that follow each other -/

/-- From `s` and `t` to `s'` and `t'` the pairing grows by new cells only. -/
structure Pairing.Grows {σ : Type} (w : Pairing) (s t : Store σ) (w' : Pairing) (s' t' : Store σ) : Prop where
  le : w ≤ w'
  left : s.cells.size ≤ s'.cells.size
  right : t.cells.size ≤ t'.cells.size
  fresh : ∀ {c d}, w' c d → w c d ∨ s.cells.size ≤ c ∧ t.cells.size ≤ d

namespace Pairing.Grows
variable {σ : Type} {w w' w'' : Pairing} {s t s' t' s'' t'' : Store σ}

theorem of_size (hs : s.cells.size ≤ s'.cells.size) (ht : t.cells.size ≤ t'.cells.size) : w.Grows s t w s' t' :=
  ⟨le_refl _, hs, ht, .inl⟩

theorem refl : w.Grows s t w s t :=
  .of_size (Nat.le_refl _) (Nat.le_refl _)

theorem trans (h : w.Grows s t w' s' t') (h' : w'.Grows s' t' w'' s'' t'') : w.Grows s t w'' s'' t'' where
  le := le_trans h.le h'.le
  left := Nat.le_trans h.left h'.left
  right := Nat.le_trans h.right h'.right
  fresh hc := by
    rcases h'.fresh hc with hc | ⟨hc, hd⟩
    · exact h.fresh hc
    · exact .inr ⟨Nat.le_trans h.left hc, Nat.le_trans h.right hd⟩

theorem unpaired (h : w.Grows s t w' s' t') {c : CellId} (hc : c < s.cells.size) (hw : ∀ d, ¬ w c d) (d : CellId) :
    ¬ w' c d := by
  intro hcd
  rcases h.fresh hcd with hcd | ⟨hle, -⟩
  · exact hw d hcd
  · exact Nat.not_le.2 hc hle

end Pairing.Grows

/-! ### Likeness as a coupling -/

variable {σ β γ : Type} {L : Prop} {R : Pairing → σ → σ → Prop} {m : Machine}

/-- Stores that are alike. -/
def likeness (L : Prop) (R : Pairing → σ → σ → Prop) (m : Machine) : Coupling Pairing m σ σ Prim Prim where
  Cells w := w
  Arrays _ _ := True
  Shaped _ _ _ := True
  Closures w := w.SameClosure L m
  Quotes _ code _ code' := code.Alike L Eq code'
  Scopes w Γ scopes scopes' := Γ.Paired m w scopes scopes'
  Stores w s t := s.Alike L R m w t
  Moves _ w s t w' s' t' := w.Grows s t w' s' t'
  Faults _ _ := True
  Lenient := L
  cells_mono hle h := hle _ _ h
  arrays_mono _ _ := trivial
  arrays_of_shaped _ := trivial
  closures_mono hle h := h.mono hle
  closures_params := by
    rintro _ _ _ _ _ ⟨_, hcode, -⟩
    exact hcode.params
  scopes_mono hle h := h.mono hle
  scopes_anti hΓ h x y hxy := h x y (hΓ x y hxy)
  scopes_nil h := h
  scopes_insert h hc _ := h.insert hc
  lookup _ h hxy := h _ _ hxy
  faults_refl _ := trivial
  moves_refl := .refl
  moves_trans h h' := h.trans h'
  moves_imp _ h := h
  moves_le h := h.le
  moves_of_cells hs ht := .of_size (Nat.le_of_eq (by rw [hs])) (Nat.le_of_eq (by rw [ht]))
  valueAt hs hl := hs.valueAt hl
  setAt {_ s t l l' v v'} hs hl hv :=
    ⟨hs.setAt hl hv, fun _ => .of_size (Nat.le_of_eq (s.size_cells_setAt v l).symm)
      (Nat.le_of_eq (t.size_cells_setAt v' l').symm)⟩
  bounds_eq hs _ := (hs.grids.grid _).bounds
  closures_eq hs := hs.closures
  nextClosure hs := { hs with closures := congrArg (· + 1) hs.closures }

/-- The run of `y` from `t` follows that of `x` from `s`. -/
abbrev Follow (L : Prop) (R : Pairing → σ → σ → Prop) (m : Machine) (w : Pairing) (s t : Store σ) (x : Eval σ β)
    (y : Eval σ γ) (Q : Pairing → β → γ → Prop) : Prop :=
  (likeness L R m).RunsFrom (fun _ => True) w s t x y fun w _ => Q w

/-- In every pairing from `w` on the runs from stores that are alike follow each other. -/
abbrev Follows (L : Prop) (R : Pairing → σ → σ → Prop) (m : Machine) (w : Pairing) (x : Eval σ β) (y : Eval σ γ)
    (Q : Pairing → β → γ → Prop) : Prop :=
  (likeness L R m).Runs w x y Q

/-- Entering closures that are alike gives results that are alike. -/
abbrev EnterFollows (L : Prop) (R : Pairing → σ → σ → Prop) (m : Machine) (enter : Enter σ) : Prop :=
  (likeness L R m).Enters enter enter

theorem Host.Opaque.hosts {host : Host σ} (hh : host.Opaque L R m) : (likeness L R m).Hosts host host where
  newCell hs hv := by
    refine .inr ⟨_, ?_, hs.pushCell (hh.mono Pairing.le_insert hs.host) hv, .ok (.inl ⟨rfl, rfl⟩)⟩
    refine ⟨Pairing.le_insert, ?_, ?_, ?_⟩
    · exact Nat.le_of_lt (by simp [Eval.newCell, run_mk])
    · exact Nat.le_of_lt (by simp [Eval.newCell, run_mk])
    · rintro c d (⟨rfl, rfl⟩ | hcd)
      · exact .inr ⟨Nat.le_refl _, Nat.le_refl _⟩
      · exact .inl hcd
  newGrid {w s t _ _} hs hg := by
    refine .inr ⟨w, .of_size (Nat.le_refl _) (Nat.le_refl _), { hs with grids := hs.grids.push hg }, .ok ?_⟩
    exact ⟨s.grids.size, rfl, by rw [hs.grids.size], trivial⟩
  call {w s t _ _} f hs h := by
    obtain ⟨hr, hgrids, hhost⟩ := hh.call f h hs.grids hs.host
    exact .inr ⟨w, .of_size (Nat.le_refl _) (Nat.le_refl _), { hs with grids := hgrids, host := hhost }, hr⟩

end ExprLowering
