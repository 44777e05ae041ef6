import Mathlib.Data.List.Forall2
import Mathlib.Order.Basic
import ExprLowering.Proofs.Alike
import ExprLowering.Proofs.MachineBasics

/-!
# Two evaluations side by side

Evaluations are compared in pairs: that of an expression with that of its lowering, that of a tree with that of a
tree like it, that of a tree on one host with that on another. A `Correspondence` says what stands for what on the
two sides, in a world that grows while both run: cells, arrays, closures, quotations, scopes and stores. Values
correspond if they are the same up to these (`Correspondence.Values`).

`RunsFrom` compares a run on the left with a run on the right, from two stores: they end in the same way, in stores
that correspond in a larger world, unless the right side may be more lenient and the left one fails. `Runs` is the
same from all stores that correspond, in every larger world. Sequences are put together by `Runs.bind`; the laws that
this takes, and those about single changes to the stores, make a correspondence a `Coupling`.
-/

namespace ExprLowering

variable {W σ σ' α α' β β' γ γ' ι κ : Type}

/-! ### Results -/

/-- Both succeed, with results that `Q` relates, or both fail, with faults that `F` relates. -/
inductive EndsAs (F : Fault → Fault → Prop) (Q : β → β' → Prop) : Except Fault β → Except Fault β' → Prop
  | ok {a : β} {b : β'} (h : Q a b) : EndsAs F Q (.ok a) (.ok b)
  | error {f f' : Fault} (h : F f f') : EndsAs F Q (.error f) (.error f')

/-- Both succeed, with related results, or both fail in the same way. -/
abbrev SameResult (Q : β → β' → Prop) : Except Fault β → Except Fault β' → Prop :=
  EndsAs Eq Q

/-- Both succeed, with related results, or both fail. -/
abbrev EndAlike (Q : β → β' → Prop) : Except Fault β → Except Fault β' → Prop :=
  EndsAs (fun _ _ => True) Q

namespace EndsAs
variable {F : Fault → Fault → Prop} {Q Q' : β → β' → Prop} {r : Except Fault β} {r' : Except Fault β'}

theorem imp (h : EndsAs F Q r r') (hQ : ∀ a b, Q a b → Q' a b) : EndsAs F Q' r r' := by
  rcases h with h | h
  · exact .ok (hQ _ _ h)
  · exact .error h

theorem faults (h : SameResult Q r r') (hF : ∀ f, F f f) : EndsAs F Q r r' := by
  rcases h with h | rfl
  · exact .ok h
  · exact .error (hF _)

theorem of_eq {r r' : Except Fault β} (h : r = r') : SameResult Eq r r' := by
  subst h
  cases r with
  | ok => exact .ok rfl
  | error => exact .error rfl

theorem eq {r r' : Except Fault β} (h : SameResult Eq r r') : r = r' := by
  rcases h with rfl | rfl <;> rfl

end EndsAs

/-! ### Values -/

/-- The values are the same up to the number that a quotation carries and what is captured or quoted. Arrays have the
same number, of which `A` holds; `C` relates closures and `D` quotations. -/
inductive Value.Rel (A : GridId → Prop) (C : Lambda α → Scope → Lambda α' → Scope → Prop)
    (D : Stamp → Lambda α → Stamp → Lambda α' → Prop) : Value α → Value α' → Prop
  | null : Rel A C D .null .null
  | lit (l : Literal) : Rel A C D (.lit l) (.lit l)
  | array {a : GridId} (h : A a) : Rel A C D (.array a) (.array a)
  | native (f : NativeFn) : Rel A C D (.native f) (.native f)
  | closure {stamp : Stamp} {code : Lambda α} {code' : Lambda α'} {captured captured' : Scope}
      (h : C code captured code' captured') : Rel A C D (.closure stamp code captured) (.closure stamp code' captured')
  | quoted {stamp stamp' : Stamp} {code : Lambda α} {code' : Lambda α'} (h : D stamp code stamp' code') :
      Rel A C D (.quoted stamp code) (.quoted stamp' code')

/-- The values are one, which names nothing in the stores. -/
def Value.SameAtom : Value α → Value α' → Prop :=
  Value.Rel (fun _ => False) (fun _ _ _ _ => False) fun _ _ _ _ => False

namespace Value.Rel
variable {A A' : GridId → Prop} {C C' : Lambda α → Scope → Lambda α' → Scope → Prop}
  {D D' : Stamp → Lambda α → Stamp → Lambda α' → Prop} {v u : Value α} {v' u' : Value α'}

theorem imp (h : v.Rel A C D v') (hA : ∀ {a}, A a → A' a)
    (hC : ∀ {code captured code' captured'}, C code captured code' captured' → C' code captured code' captured')
    (hD : ∀ {stamp code stamp' code'}, D stamp code stamp' code' → D' stamp code stamp' code') : v.Rel A' C' D' v' := by
  cases h with
  | null => exact .null
  | lit l => exact .lit l
  | array h => exact .array (hA h)
  | native f => exact .native f
  | closure h => exact .closure (hC h)
  | quoted h => exact .quoted (hD h)

theorem of_sameAtom (h : v.SameAtom v') : v.Rel A C D v' :=
  h.imp (fun h => h.elim) (fun h => h.elim) fun h => h.elim

theorem ofConstant (c : Constant) : (Value.ofConstant c).Rel A C D (.ofConstant c) := by
  cases c with
  | null => exact .null
  | lit l => exact .lit l

theorem defaultOf (ty : Ty) : (Value.defaultOf ty).Rel A C D (.defaultOf ty) := by
  cases ty with
  | bool | int | float => exact .lit _
  | _ => exact .null

theorem asIndex_eq (h : v.Rel A C D v') : v.asIndex = v'.asIndex := by
  cases h with
  | lit l => cases l <;> rfl
  | _ => rfl

theorem asBound_eq (h : v.Rel A C D v') : v.asBound = v'.asBound := by
  rw [asBound, asBound, h.asIndex_eq]

theorem asArray (h : v.Rel A C D v') : SameResult (fun a a' => a = a' ∧ A a) v.asArray v'.asArray := by
  cases h with
  | array h => exact .ok ⟨rfl, h⟩
  | lit l => cases l <;> exact .error rfl
  | _ => exact .error rfl

theorem oneLike (h : v.Rel A C D v') : SameResult SameAtom v.oneLike v'.oneLike := by
  cases h with
  | null => exact .ok .null
  | lit l =>
    cases l with
    | int | float => exact .ok (.lit _)
    | _ => exact .error rfl
  | _ => exact .error rfl

theorem ofExact (checked : Bool) (k : IntKind) (n : Int) :
    SameResult (SameAtom : Value α → Value α' → Prop) (Value.ofExact checked k n) (Value.ofExact checked k n) := by
  unfold Value.ofExact
  split
  · split
    · exact .ok (.lit _)
    · exact .error rfl
  · exact .ok (.lit _)

theorem arith (op : ArithOp) (checked : Bool) (h : v.Rel A C D v') (hu : u.Rel A C D u') :
    SameResult SameAtom (Value.arith op checked v u) (Value.arith op checked v' u') := by
  cases h with
  | null => exact .ok .null
  | lit l =>
    cases hu with
    | lit l' =>
      cases l with
      | int a =>
        cases l' with
        | int b =>
          simp only [Value.arith]
          split
          · exact ofExact ..
          · exact .error rfl
        | _ => exact .error rfl
      | float a =>
        cases l' with
        | float b =>
          simp only [Value.arith]
          split
          · exact .ok (.lit _)
          · exact .error rfl
        | _ => exact .error rfl
      | _ => cases l' <;> exact .error rfl
    | null => cases l <;> exact .ok .null
    | _ => cases l <;> exact .error rfl
  | _ =>
    cases hu with
    | null => exact .ok .null
    | lit l => cases l <;> exact .error rfl
    | _ => exact .error rfl

end Value.Rel

theorem Value.SameAtom.eq {v v' : Value α} (h : v.SameAtom v') : v = v' := by
  cases h with
  | null | lit | native => rfl
  | array h | closure h | quoted h => exact h.elim

theorem forall₂_getLastD {Q : β → β' → Prop} {as : List β} {bs : List β'} (h : List.Forall₂ Q as bs) {a : β} {b : β'}
    (hab : Q a b) : Q (as.getLastD a) (bs.getLastD b) := by
  induction h generalizing a b with
  | nil => exact hab
  | cons h _ ih =>
    rw [List.getLastD_cons, List.getLastD_cons]
    exact ih h

/-! ### Arrays -/

/-- Arrays of one type and with the same bounds, whose values `V` relates. -/
structure Grid.Rel (V : Value α → Value α' → Prop) (g : Grid α) (g' : Grid α') : Prop where
  element : g.element = g'.element
  bounds : g.bounds = g'.bounds
  size : g.data.size = g'.data.size
  value : ∀ i, V (g.getAt i) (g'.getAt i)

namespace Grid.Rel
variable {V V' : Value α → Value α' → Prop} {g : Grid α} {g' : Grid α'}

theorem imp (h : g.Rel V g') (hV : ∀ v v', V v v' → V' v v') : g.Rel V' g' :=
  ⟨h.element, h.bounds, h.size, fun i => hV _ _ (h.value i)⟩

theorem setAt (h : g.Rel V g') {v : Value α} {v' : Value α'} (hv : V v v') (i : Nat) :
    (g.setAt i v).Rel V (g'.setAt i v') where
  element := h.element
  bounds := h.bounds
  size := by simp [Grid.setAt, h.size]
  value j := by
    have hj := h.value j
    simp only [Grid.getAt, Grid.setAt, getD_setIfInBounds, h.size] at hj ⊢
    split
    · exact hv
    · exact hj

theorem ofValues (element : Ty) (bounds : List Nat) (hnull : V .null .null) {vs : List (Value α)}
    {vs' : List (Value α')} (h : List.Forall₂ V vs vs') :
    Grid.Rel V ⟨element, bounds, vs.toArray⟩ ⟨element, bounds, vs'.toArray⟩ where
  element := rfl
  bounds := rfl
  size := by simp [h.length_eq]
  value i := by
    simp only [Grid.getAt, Array.getD_eq_getD_getElem?, List.getElem?_toArray]
    induction h generalizing i with
    | nil => exact hnull
    | cons hv _ ih =>
      cases i with
      | zero => exact hv
      | succ i => simpa using ih i

end Grid.Rel

section
variable {V : Value α → Value α' → Prop} (element : Ty) (bounds : List Nat)

theorem Grid.new_rel (hnull : V .null .null) (hdefault : V (.defaultOf element) (.defaultOf element)) :
    SameResult (fun g g' => Grid.Rel V g g' ∧ g.bounds = bounds) (Grid.new element bounds)
      (Grid.new element bounds) := by
  unfold Grid.new Grid.size
  cases Shape.size? bounds with
  | none => exact .error rfl
  | some n =>
    refine .ok ⟨⟨rfl, rfl, by simp, fun i => ?_⟩, rfl⟩
    simp only [Grid.getAt, Array.getD_eq_getD_getElem?, Array.getElem?_replicate]
    split
    · exact hdefault
    · exact hnull

theorem Grid.ofRowMajor_rel (hnull : V .null .null) {vs : List (Value α)} {vs' : List (Value α')}
    (h : List.Forall₂ V vs vs') :
    SameResult (Grid.Rel V) (Grid.ofRowMajor element bounds vs) (Grid.ofRowMajor element bounds vs') := by
  unfold Grid.ofRowMajor Grid.size
  rw [h.length_eq]
  cases Shape.size? bounds with
  | none => exact .error rfl
  | some n =>
    show SameResult _ (if _ = n then _ else _) (if _ = n then _ else _)
    split
    · exact .ok (.ofValues element bounds hnull h)
    · exact .error rfl

end

/-- The locations are cells that `P` relates, or one element of an array of which `A` holds. -/
inductive Location.Rel (P : CellId → CellId → Prop) (A : GridId → Prop) : Location → Location → Prop
  | cell {c c' : CellId} (h : P c c') : Rel P A (.cell c) (.cell c')
  | element {a : GridId} {i : Nat} (h : A a) : Rel P A (.element a i) (.element a i)

theorem Location.Rel.imp {P P' : CellId → CellId → Prop} {A A' : GridId → Prop} {l l' : Location} (h : l.Rel P A l')
    (hP : ∀ {c c'}, P c c' → P' c c') (hA : ∀ {a}, A a → A' a) : l.Rel P' A' l' := by
  rcases h with h | h
  · exact .cell (hP h)
  · exact .element (hA h)

/-! ### Correspondences -/

/-- What stands for what on the two sides, in each world. -/
structure Correspondence (W σ σ' α α' : Type) where
  Cells : W → CellId → CellId → Prop
  /-- Both sides have the array. -/
  Arrays : W → GridId → Prop
  /-- Both sides have the array, with these bounds. -/
  Shaped : W → GridId → List Nat → Prop
  Closures : W → Lambda α → Scope → Lambda α' → Scope → Prop
  Quotes : Stamp → Lambda α → Stamp → Lambda α' → Prop
  /-- The variables that stand for each other have cells that do, as far as they have any in the scopes. -/
  Scopes : W → Naming → List Scope → List Scope → Prop
  Stores : W → Store σ α → Store σ' α' → Prop
  /-- What becomes of the world while the stores change, where the right side keeps those cells of its own that are
  in a set. -/
  Moves : (CellId → Prop) → W → Store σ α → Store σ' α' → W → Store σ α → Store σ' α' → Prop
  Faults : Fault → Fault → Prop
  /-- The right side may go on where the left one fails. -/
  Lenient : Prop

namespace Correspondence
variable (C : Correspondence W σ σ' α α')

def Values (w : W) : Value α → Value α' → Prop :=
  Value.Rel (C.Arrays w) (C.Closures w) C.Quotes

def Locations (w : W) : Location → Location → Prop :=
  Location.Rel (C.Cells w) (C.Arrays w)

/-- Any fault may stand for another. As faults tell the names of variables, only then can these differ. -/
def Renames : Prop :=
  ∀ f f', C.Faults f f'

/-- The run of `x` from `s` and that of `y` from `t` end in the same way, in stores that correspond. -/
def RunsFrom (K : CellId → Prop) (w : W) (s : Store σ α) (t : Store σ' α') (x : Run σ α β) (y : Run σ' α' β')
    (Q : W → Store σ' α' → β → β' → Prop) : Prop :=
  (C.Lenient ∧ ∃ f, (x.run s).1 = .error f) ∨
    ∃ w', C.Moves K w s t w' (x.run s).2 (y.run t).2 ∧ C.Stores w' (x.run s).2 (y.run t).2 ∧
      EndsAs C.Faults (Q w' (y.run t).2) (x.run s).1 (y.run t).1

/-- In every world from `w` on the runs from stores that correspond end in the same way. -/
def Runs [LE W] (w : W) (x : Run σ α β) (y : Run σ' α' β') (Q : W → β → β' → Prop) : Prop :=
  ∀ w₁ s t, w ≤ w₁ → C.Stores w₁ s t → C.RunsFrom (fun _ => True) w₁ s t x y fun w _ => Q w

end Correspondence

theorem Fault.not_forall_eq : ¬ ∀ f f' : Fault, f = f' := by
  intro h
  cases h .overflow .sizeOverflow

theorem Naming.bind_le_eq {Γ : Naming} (h : Γ ≤ Eq) (a : VarId) : Γ.bind a a ≤ Eq := by
  rintro x y (⟨rfl, rfl⟩ | ⟨-, -, hxy⟩)
  · rfl
  · exact h x y hxy

/-- A correspondence for the machine `m` that every change to the stores respects. -/
structure Coupling (W : Type) [Preorder W] (m : Machine) (σ σ' α α' : Type) extends
    Correspondence W σ σ' α α' where
  cells_mono : ∀ {w w' c c'}, w ≤ w' → Cells w c c' → Cells w' c c'
  arrays_mono : ∀ {w w' a}, w ≤ w' → Arrays w a → Arrays w' a
  arrays_of_shaped : ∀ {w a bounds}, Shaped w a bounds → Arrays w a
  closures_mono : ∀ {w w' code captured code' captured'}, w ≤ w' → Closures w code captured code' captured' →
    Closures w' code captured code' captured'
  closures_params : ∀ {w code captured code' captured'}, Closures w code captured code' captured' →
    code.params = code'.params
  scopes_mono : ∀ {w w' Γ scopes scopes'}, w ≤ w' → Scopes w Γ scopes scopes' → Scopes w' Γ scopes scopes'
  scopes_anti : ∀ {w} {Γ Γ' : Naming} {scopes scopes'}, Γ' ≤ Γ → Scopes w Γ scopes scopes' → Scopes w Γ' scopes scopes'
  scopes_nil : ∀ {w Γ scopes scopes'}, Scopes w Γ scopes scopes' → Scopes w Γ ([] :: scopes) ([] :: scopes')
  scopes_insert : ∀ {w Γ scope scopes scope' scopes' a b c d}, Scopes w Γ (scope :: scopes) (scope' :: scopes') →
    Cells w c d → a = b ∨ toCorrespondence.Renames →
    Scopes w (Γ.bind a b) (((a, c) :: scope) :: scopes) (((b, d) :: scope') :: scopes')
  lookup : ∀ {w s t Γ scopes scopes' x y}, Stores w s t → Scopes w Γ scopes scopes' → Γ x y →
    Option.Rel (Cells w) (m.cell? scopes x) (m.cell? scopes' y)
  faults_refl : ∀ f, Faults f f
  moves_refl : ∀ {K w s t}, Moves K w s t w s t
  moves_trans : ∀ {K w s t w₁ s₁ t₁ w₂ s₂ t₂}, Moves K w s t w₁ s₁ t₁ → Moves K w₁ s₁ t₁ w₂ s₂ t₂ →
    Moves K w s t w₂ s₂ t₂
  moves_imp : ∀ {K K' : CellId → Prop} {w s t w₁ s₁ t₁}, (∀ c, K' c → K c) → Moves K w s t w₁ s₁ t₁ →
    Moves K' w s t w₁ s₁ t₁
  moves_le : ∀ {K w s t w₁ s₁ t₁}, Moves K w s t w₁ s₁ t₁ → w ≤ w₁
  moves_of_cells : ∀ {K w s t s₁ t₁}, s₁.cells = s.cells → t₁.cells = t.cells → Moves K w s t w s₁ t₁
  valueAt : ∀ {w s t l l'}, Stores w s t → toCorrespondence.Locations w l l' →
    toCorrespondence.Values w (s.valueAt l) (t.valueAt l')
  setAt : ∀ {w s t l l' v v'}, Stores w s t → toCorrespondence.Locations w l l' → toCorrespondence.Values w v v' →
    Stores w (s.setAt v l) (t.setAt v' l') ∧ ∀ K, Moves K w s t w (s.setAt v l) (t.setAt v' l')
  bounds_eq : ∀ {w s t a}, Stores w s t → Arrays w a →
    (s.grids.getD a default).bounds = (t.grids.getD a default).bounds
  closures_eq : ∀ {w s t}, Stores w s t → s.closures = t.closures
  nextClosure : ∀ {w s t}, Stores w s t →
    Stores w { s with closures := s.closures + 1 } { t with closures := t.closures + 1 }

section
variable [Preorder W] {m : Machine} {C : Coupling W m σ σ' α α'} {K K₁ : CellId → Prop} {w w₁ : W} {s s₁ : Store σ α}
  {t t₁ : Store σ' α'} {x : Run σ α β} {y : Run σ' α' β'} {f : β → Run σ α γ} {g : β' → Run σ' α' γ'}

namespace Correspondence

theorem Values.mono {v : Value α} {v' : Value α'} (h : C.Values w v v') (hle : w ≤ w₁) : C.Values w₁ v v' :=
  Value.Rel.imp h (C.arrays_mono hle) (C.closures_mono hle) id

theorem Locations.mono {l l' : Location} (h : C.Locations w l l') (hle : w ≤ w₁) : C.Locations w₁ l l' :=
  Location.Rel.imp h (C.cells_mono hle) (C.arrays_mono hle)

/-! ### Runs from two stores -/

namespace RunsFrom
variable {Q : W → Store σ' α' → β → β' → Prop} {Q' : W → Store σ' α' → γ → γ' → Prop}

theorem pure {a : β} {b : β'} (hs : C.Stores w s t) (h : Q w t a b) : C.RunsFrom K w s t (pure a) (pure b) Q :=
  .inr ⟨w, C.moves_refl, hs, .ok h⟩

theorem throw {e : Fault} (hs : C.Stores w s t) : C.RunsFrom K w s t (throw e) (throw e) Q :=
  .inr ⟨w, C.moves_refl, hs, .error (C.faults_refl e)⟩

/-- Two sequences. The first steps may leave more alone than the whole. -/
theorem bind (hx : C.RunsFrom K₁ w s t x y Q) (hK : ∀ c, K c → K₁ c)
    (h : ∀ w₁ s₁ t₁ a b, C.Moves K₁ w s t w₁ s₁ t₁ → C.Stores w₁ s₁ t₁ → Q w₁ t₁ a b →
      C.RunsFrom K w₁ s₁ t₁ (f a) (g b) Q') :
    C.RunsFrom K w s t (x >>= f) (y >>= g) Q' := by
  rcases hxr : x.run s with ⟨r, s₁⟩
  rcases hyr : y.run t with ⟨r', t₁⟩
  rw [RunsFrom, hxr, hyr] at hx
  rcases hx with ⟨hL, e, he⟩ | ⟨w₁, hmoves, hs, hr⟩
  · have he : r = .error e := he
    subst he
    exact .inl ⟨hL, e, by rw [run_bind_of_error hxr]⟩
  · rcases hr with hQ | hf
    · have hrest := h w₁ s₁ t₁ _ _ hmoves hs hQ
      rw [RunsFrom, run_bind_of_ok hxr, run_bind_of_ok hyr]
      rcases hrest with herror | ⟨w₂, hmoves₂, hs₂, hr₂⟩
      · exact .inl herror
      · exact .inr ⟨w₂, C.moves_trans (C.moves_imp hK hmoves) hmoves₂, hs₂, hr₂⟩
    · rw [RunsFrom, run_bind_of_error hxr, run_bind_of_error hyr]
      exact .inr ⟨w₁, C.moves_imp hK hmoves, hs, .error hf⟩

theorem of_run {x' : Run σ α β} {y' : Run σ' α' β'} {Q₁ : W → Store σ' α' → β → β' → Prop}
    (hx : x.run s = x'.run s₁) (hy : y.run t = y'.run t₁)
    (hmoves : ∀ {w₂ s₂ t₂}, C.Moves K₁ w₁ s₁ t₁ w₂ s₂ t₂ → C.Moves K w s t w₂ s₂ t₂)
    (hQ : ∀ w t a b, Q₁ w t a b → Q w t a b) (h : C.RunsFrom K₁ w₁ s₁ t₁ x' y' Q₁) : C.RunsFrom K w s t x y Q := by
  rw [RunsFrom, hx, hy]
  rcases h with herror | ⟨w₂, hmoves₂, hs, hr⟩
  · exact .inl herror
  · exact .inr ⟨w₂, hmoves hmoves₂, hs, hr.imp (hQ _ _)⟩

theorem imp {Q₁ : W → Store σ' α' → β → β' → Prop} (h : C.RunsFrom K₁ w s t x y Q₁) (hK : ∀ c, K c → K₁ c)
    (hQ : ∀ w t a b, Q₁ w t a b → Q w t a b) : C.RunsFrom K w s t x y Q :=
  of_run rfl rfl (C.moves_imp hK) hQ h

theorem left {y : Run σ' α' γ'} {a : β} (hx : x.run s = (.ok a, s₁)) (hmoves : C.Moves K w s t w s₁ t)
    (h : C.RunsFrom K w s₁ t (f a) y Q') : C.RunsFrom K w s t (x >>= f) y Q' :=
  of_run (run_bind_of_ok hx) rfl (C.moves_trans hmoves) (fun _ _ _ _ => id) h

theorem right {x : Run σ α γ} {b : β'} (hy : y.run t = (.ok b, t₁)) (hmoves : C.Moves K w s t w s t₁)
    (h : C.RunsFrom K w s t₁ x (g b) Q') : C.RunsFrom K w s t x (y >>= g) Q' :=
  of_run rfl (run_bind_of_ok hy) (C.moves_trans hmoves) (fun _ _ _ _ => id) h

/-- The right side finds a value without any effect. -/
theorem of_value {a : β} {b : β'} (hs : C.Stores w s t) (hy : y.run t = (.ok b, t)) (h : Q w t a b) :
    C.RunsFrom K w s t (Pure.pure a) y Q := by
  have hy : y.run t = (Pure.pure b : Run σ' α' β').run t := hy
  exact of_run rfl hy id (fun _ _ _ _ => id) (.pure hs h)

theorem eq_ok {a : β} (h : C.RunsFrom K w s t x y Q) (hx : x.run s = (.ok a, s₁)) :
    ∃ w₁ b t₁, y.run t = (.ok b, t₁) ∧ C.Moves K w s t w₁ s₁ t₁ ∧ C.Stores w₁ s₁ t₁ ∧ Q w₁ t₁ a b := by
  rcases hy : y.run t with ⟨r, t₁⟩
  rw [RunsFrom, hx, hy] at h
  rcases h with ⟨-, f, hf⟩ | ⟨w₁, hmoves, hs, hr⟩
  · cases hf
  · cases hr with
    | ok hQ => exact ⟨w₁, _, t₁, rfl, hmoves, hs, hQ⟩

/-- What is known of the run on the right is known of its result. -/
theorem with_run (h : C.RunsFrom K w s t x y Q) :
    C.RunsFrom K w s t x y fun w₁ t₁ a b => Q w₁ t₁ a b ∧ y.run t = (.ok b, t₁) := by
  rcases h with herror | ⟨w₁, hmoves, hs, hr⟩
  · exact .inl herror
  · refine .inr ⟨w₁, hmoves, hs, ?_⟩
    clear hmoves hs
    generalize y.run t = o, (x.run s).1 = r at hr
    obtain ⟨r', t₁⟩ := o
    rcases hr with hQ | hf
    · exact .ok ⟨hQ, rfl⟩
    · exact .error hf

end RunsFrom

/-! ### Runs from all stores that correspond -/

namespace Runs
variable {Q : W → β → β' → Prop} {Q' : W → γ → γ' → Prop}

theorem mono (h : C.Runs w x y Q) (hle : w ≤ w₁) : C.Runs w₁ x y Q :=
  fun w₂ s t hle' => h w₂ s t (le_trans hle hle')

theorem runsFrom (h : C.Runs w x y Q) (hs : C.Stores w s t) : C.RunsFrom K w s t x y fun w _ => Q w :=
  (h w s t (le_refl _) hs).imp (fun _ _ => trivial) fun _ _ _ _ => id

theorem imp {Q₁ : W → β → β' → Prop} (h : C.Runs w x y Q) (hQ : ∀ w a b, Q w a b → Q₁ w a b) : C.Runs w x y Q₁ :=
  fun w₁ s t hle hs => (h w₁ s t hle hs).imp (fun _ => id) fun w _ => hQ w

theorem pure {a : β} {b : β'} (h : ∀ w₁, w ≤ w₁ → Q w₁ a b) : C.Runs w (pure a) (pure b) Q :=
  fun w₁ _ _ hle hs => .pure hs (h w₁ hle)

theorem throw {e : Fault} : C.Runs w (throw e) (throw e) Q :=
  fun _ _ _ _ hs => .throw hs

theorem bind (hx : C.Runs w x y Q) (h : ∀ w₁ a b, w ≤ w₁ → Q w₁ a b → C.Runs w₁ (f a) (g b) Q') :
    C.Runs w (x >>= f) (y >>= g) Q' := by
  intro w₁ s t hle hs
  refine (hx w₁ s t hle hs).bind (fun _ => id) fun w₂ s₂ t₂ a b hmoves hs₂ hQ => ?_
  exact (h w₂ a b (le_trans hle (C.moves_le hmoves)) hQ).runsFrom hs₂

theorem lift {r : Except Fault β} {r' : Except Fault β'} (h : ∀ w₁, w ≤ w₁ → SameResult (Q w₁) r r') :
    C.Runs w (liftM r) (liftM r') Q :=
  fun w₁ _ _ hle hs => .inr ⟨w₁, C.moves_refl, hs, (h w₁ hle).faults C.faults_refl⟩

theorem forall₂_mono {f : ι → Run σ α β} {g : κ → Run σ' α' β'} {as : List ι} {bs : List κ}
    (h : List.Forall₂ (fun a b => C.Runs w (f a) (g b) Q) as bs) (hle : w ≤ w₁) :
    List.Forall₂ (fun a b => C.Runs w₁ (f a) (g b) Q) as bs :=
  h.imp fun _ _ h => h.mono hle

theorem mapM {f : ι → Run σ α β} {g : κ → Run σ' α' β'} {as : List ι} {bs : List κ}
    (hQ : ∀ {w w' a b}, w ≤ w' → Q w a b → Q w' a b) (h : List.Forall₂ (fun a b => C.Runs w (f a) (g b) Q) as bs) :
    C.Runs w (as.mapM f) (bs.mapM g) fun w => List.Forall₂ (Q w) := by
  induction h with
  | nil =>
    rw [List.mapM_nil, List.mapM_nil]
    exact .pure fun _ _ => .nil
  | cons h _ ih =>
    rw [List.mapM_cons, List.mapM_cons]
    refine h.bind fun w₁ v v' hle hv => (ih.mono hle).bind fun w₂ vs vs' hle' hvs => ?_
    exact .pure fun w₃ hle₃ => .cons (hQ (le_trans hle' hle₃) hv) (hvs.imp fun _ _ => hQ hle₃)

end Runs

end Correspondence

end

end ExprLowering
