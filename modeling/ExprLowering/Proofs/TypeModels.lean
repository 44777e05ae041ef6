import ExprLowering.Proofs.TypeSystems

/-!
# Models of the types

A `TypeModel` says what the types mean: which values a type has in a store type, which scopes a context describes, and
which faults may occur. Its laws are about single values and scopes. From them follows what a run does to a store whose
cells and arrays have their types (`TypeModel.Typed`): it leaves such a store, of a larger store type, and ends in a
value of the expected type or in a fault that may occur (`TypeModel.Runs`). Runs are put together by `Runs.bind`, there
is a rule for each operation of the machine, and so a model gives a type system for the trees (`TypeModel.typeSystem`).
The machine evaluates a lowered expression to a value of its type (`TypeModel.runs_lower`).
-/

namespace ExprLowering

/-- The faults that no types of values rule out. -/
inductive Fault.Dynamic : Fault → Prop
  | unbound (x : Var) : Dynamic (.unbound x)
  | undefinedMethod (name : String) : Dynamic (.undefinedMethod name)
  | indexOutOfRange (dimension : Nat) (index : Int) (bound : Nat) : Dynamic (.indexOutOfRange dimension index bound)
  | stackOverflow (limit : Nat) : Dynamic (.stackOverflow limit)

def Value.isFunction : Value → Bool
  | native _ | closure .. => true
  | _ => false

/-- What a call by the signature of this identity can meet. -/
inductive Value.CalledBy (V : Vocabulary) (Used : NativeFn → SigId → Prop) (Env : Ctx → List Scope → Prop)
    (Allowed : Fault → Prop) (id : SigId) : Value → Prop
  | native {f : NativeFn} (h : Used f id) : CalledBy V Used Env Allowed id (.native f)
  | closure {stamp : Stamp} {code : Lambda Prim} {captured : Scope} {Γ : Ctx} (hid : code.signature.id = id)
      (hcode : code.LoweredFrom V Γ) (hc : Env Γ [captured]) :
      CalledBy V Used Env Allowed id (.closure stamp code captured)
  | other {v : Value} (hv : v.isFunction = false) (h : Allowed (.notCallable v.typeName)) :
      CalledBy V Used Env Allowed id v

structure TypeModel (σ : Type) (V : Vocabulary) where
  /-- The machines that the model is about. -/
  Serves : Machine → Prop
  /-- The value has the type. -/
  Has : StoreTy → NominalTy → Value → Prop
  /-- The scopes and the globals of the machine bind the variables as the context says. -/
  Env : Machine → StoreTy → Ctx → List Scope → Prop
  /-- The types that elements of arrays may have. -/
  Element : NominalTy → Prop
  /-- The faults that may occur. -/
  Allowed : Fault → Prop
  /-- The host functions that are used at the signature of this identity. -/
  Used : NativeFn → SigId → Prop
  /-- The values that the host keeps are as the store type says. -/
  Inv : StoreTy → σ → Prop
  registered : ∀ {m method f}, Serves m → V.Operator method → m.methods.lookup method.name = some f →
    Used f method.signature.id
  dynamic : ∀ {f}, Fault.Dynamic f → Allowed f
  has_mono : ∀ {W W' t v}, W ≤ W' → Has W t v → Has W' t v
  env_mono : ∀ {m W W' Γ scopes}, W ≤ W' → Env m W Γ scopes → Env m W' Γ scopes
  inv_mono : ∀ {W W' a}, W ≤ W' → Inv W a → Inv W' a
  -- Which values have a type.
  null : ∀ {W t}, Has W t .null
  const : ∀ {W} c, Has W (Constant.ty c).nominal (.ofConstant c)
  one : ∀ {W ty c}, Constant.one? ty = some c → Has W ty.nominal (.ofConstant c)
  paramDefault : ∀ {W s f c}, V.Known s → f ∈ s.params → f.default = some c → Has W f.ty.nominal (.ofConstant c)
  defaultOf : ∀ {W} ty, Has W (Ty.nominal ty) (.defaultOf ty)
  array : ∀ {W a t r}, W.grids[a]? = some (t, r) → Has W (.array t r) (.array a)
  closure : ∀ {m W Γ scopes stamp code}, Lambda.LoweredFrom V Γ code → Env m W Γ scopes →
    Has W (.fn code.signature.id) (.closure stamp code (Machine.capture scopes))
  quoted : ∀ {W} stamp code, Has W (.quoted (.fn (Lambda.signature code).id)) (.quoted stamp code)
  of_accepts : ∀ {W target source v}, Ty.accepts target source = true → Has W source.nominal v →
    Has W target.nominal v
  void : ∀ {W t v}, Has W t v → Has W .void v
  element : ∀ {ty}, (ty == Ty.void) = false → Element ty.nominal
  -- What can be done with the values of a type.
  asArray : ∀ {W t r v}, Has W (.array t r) v → Ends Allowed (fun a => W.grids[a]? = some (t, r)) v.asArray
  asIndex : ∀ {W v}, Has W (.int .i32) v → Ends Allowed (fun _ => True) v.asIndex
  oneLike : ∀ {W ty v}, Ty.isArithmetic ty = true → Has W ty.nominal v → Ends Allowed (Has W ty.nominal) v.oneLike
  arith : ∀ {W ty v u} op checked, Ty.isArithmetic ty = true → Has W ty.nominal v → Has W ty.nominal u →
    Ends Allowed (Has W ty.nominal) (Value.arith op checked v u)
  callee : ∀ {m W Γ scopes id v}, Env m W Γ scopes → Has W (.fn id) v →
    Value.CalledBy V Used (Env m W) Allowed id v
  -- Scopes.
  env_cell : ∀ {m W Γ scopes x c}, Serves m → Env m W Γ scopes → m.lookup scopes x = some c →
    W.cells[c]? = some (Γ x.id)
  env_nil : ∀ {m W Γ scopes}, Env m W Γ scopes → Env m W Γ ([] :: scopes)
  env_insert : ∀ {m W Γ scope scopes x c t}, Env m W Γ (scope :: scopes) → W.cells[c]? = some t →
    Env m W (Function.update Γ x t) (((x, c) :: scope) :: scopes)

namespace TypeModel
variable {σ : Type} {V : Vocabulary}

/-! ### Typed stores -/

section
variable (M : TypeModel σ V) (W : StoreTy)

structure GridTyped (t : NominalTy) (r : Nat) (g : Grid) : Prop where
  element : g.element.nominal = t
  admitted : M.Element t
  rank : g.bounds.length = r
  value : ∀ i, M.Has W t (g.getAt i)

structure GridsTyped (gs : Array Grid) : Prop where
  size : gs.size = W.grids.length
  grid : ∀ a t r, W.grids[a]? = some (t, r) → M.GridTyped W t r (gs.getD a default)

/-- Every cell and every array element has the type that the store type gives it. -/
structure Typed (s : Store σ) : Prop where
  size : s.cells.size = W.cells.length
  cell : ∀ c t, W.cells[c]? = some t → M.Has W t (s.cells.getD c .null)
  grids : M.GridsTyped W s.grids
  host : M.Inv W s.host

/-- From every typed store the run ends in a typed store and in a value as described, or in a fault that may
occur. -/
def Runs {α : Type} (x : Eval σ α) (Q : StoreTy → α → Prop) : Prop :=
  ∀ W₁, W ≤ W₁ → ∀ s, M.Typed W₁ s → ∃ W₂, W₁ ≤ W₂ ∧ M.Typed W₂ (x.run s).2 ∧ Ends M.Allowed (Q W₂) (x.run s).1

/-- The location holds values of the type. -/
def LocationHas (t : NominalTy) : Location → Prop
  | .cell c => W.cells[c]? = some t
  | .element a _ => ∃ r, W.grids[a]? = some (t, r)

end

/-- The host functions respect the signatures that they are used at. -/
def Obeys (M : TypeModel σ V) (host : Host σ) : Prop :=
  ∀ {W : StoreTy} {s : Signature} {f : NativeFn} {args : List Value} {gs : Array Grid} {a : σ}, V.Known s →
    M.Used f s.id → List.Forall₂ (fun (p : Formal) v => M.Has W p.ty.nominal v) s.params args → M.GridsTyped W gs →
    M.Inv W a → ∃ W', W ≤ W' ∧ W'.cells = W.cells ∧ M.GridsTyped W' (host.call f args gs a).2.1 ∧
      M.Inv W' (host.call f args gs a).2.2 ∧ Ends M.Allowed (M.Has W' s.result.nominal) (host.call f args gs a).1

/-- Closures that come from a lambda can be entered with arguments of the types of its signature. -/
def Enters (M : TypeModel σ V) (m : Machine) (enter : Enter σ) : Prop :=
  ∀ {W : StoreTy} {Γ : Ctx} {code : Lambda Prim} {captured : Scope} {args : List Value}, code.LoweredFrom V Γ →
    M.Env m W Γ [captured] →
    List.Forall₂ (fun (p : Formal) u => M.Has W p.ty.nominal u) code.signature.params args →
    M.Runs W (enter code captured args) fun W u => M.Has W code.signature.result.nominal u

section
variable {M : TypeModel σ V} {W W₁ : StoreTy} {t : NominalTy} {r : Nat} {v : Value}

theorem GridTyped.mono {g : Grid} (h : M.GridTyped W t r g) (hle : W ≤ W₁) : M.GridTyped W₁ t r g :=
  ⟨h.element, h.admitted, h.rank, fun i => M.has_mono hle (h.value i)⟩

theorem GridTyped.setAt {g : Grid} (h : M.GridTyped W t r g) (hv : M.Has W t v) (i : Nat) :
    M.GridTyped W t r (g.setAt i v) := by
  refine ⟨h.element, h.admitted, h.rank, fun j => ?_⟩
  rw [Grid.getAt, Grid.setAt, getD_setIfInBounds]
  split
  · exact hv
  · exact h.value j

theorem GridTyped.ofValues {element : Ty} {bounds : List Nat} {data : Array Value} (he : M.Element element.nominal)
    (h : ∀ u ∈ data, M.Has W element.nominal u) :
    M.GridTyped W element.nominal bounds.length ⟨element, bounds, data⟩ := by
  refine ⟨rfl, he, rfl, fun i => ?_⟩
  rw [Grid.getAt, Array.getD_eq_getD_getElem?]
  cases hu : data[i]? with
  | none => exact M.null
  | some u => exact h u (Array.mem_of_getElem? hu)

namespace GridsTyped
variable {gs : Array Grid}

theorem mono (h : M.GridsTyped W gs) (hle : W ≤ W₁) (hg : W₁.grids = W.grids) : M.GridsTyped W₁ gs where
  size := hg ▸ h.size
  grid a t r ha := (h.grid a t r (hg ▸ ha)).mono hle

theorem modify (h : M.GridsTyped W gs) {a : GridId} (ha : W.grids[a]? = some (t, r)) (hv : M.Has W t v) (i : Nat) :
    M.GridsTyped W (gs.modify a (·.setAt i v)) where
  size := Array.size_modify.trans h.size
  grid b t' r' hb := by
    rw [getD_modify]
    split
    · rename_i heq
      cases heq.1
      cases ha.symm.trans hb
      exact (h.grid a _ _ ha).setAt hv i
    · exact h.grid b t' r' hb

theorem push (h : M.GridsTyped W gs) {g : Grid} (hg : M.GridTyped W t r g)
    (hle : W ≤ { W with grids := W.grids ++ [(t, r)] }) :
    M.GridsTyped { W with grids := W.grids ++ [(t, r)] } (gs.push g) where
  size := by simp [h.size]
  grid a t' r' ha := by
    rw [getD_push, h.size]
    split
    · rename_i heq
      rw [heq, List.getElem?_concat_length] at ha
      cases ha
      exact hg.mono hle
    · rename_i hne
      refine (h.grid a t' r' ?_).mono hle
      have hlt : a < (W.grids ++ [(t, r)]).length := (List.getElem?_eq_some_iff.1 ha).1
      rw [List.length_append, List.length_singleton] at hlt
      rwa [List.getElem?_append_left (Nat.lt_of_le_of_ne (Nat.le_of_lt_succ hlt) hne)] at ha

end GridsTyped

theorem LocationHas.mono {l : Location} (h : LocationHas W t l) (hle : W ≤ W₁) : LocationHas W₁ t l := by
  cases l with
  | cell c => exact StoreTy.cell_mono h hle
  | element a i =>
    obtain ⟨r, h⟩ := h
    exact ⟨r, StoreTy.grid_mono h hle⟩

/-! ### Runs -/

namespace Runs
variable {α β : Type} {x : Eval σ α} {f : α → Eval σ β} {Q Q₁ : StoreTy → α → Prop} {Q' : StoreTy → β → Prop}

theorem mono (h : M.Runs W x Q) (hle : W ≤ W₁) : M.Runs W₁ x Q :=
  fun W₂ hle' => h W₂ (le_trans hle hle')

theorem imp (h : M.Runs W x Q) (hQ : ∀ W a, Q W a → Q₁ W a) : M.Runs W x Q₁ := by
  intro W₁ hle s hs
  obtain ⟨W₂, hle₂, hs₂, hr⟩ := h W₁ hle s hs
  exact ⟨W₂, hle₂, hs₂, hr.imp (hQ W₂)⟩

theorem lift {r : Except Fault α} (h : ∀ W₁, W ≤ W₁ → Ends M.Allowed (Q W₁) r) : M.Runs W (liftM r) Q :=
  fun W₁ hle _ hs => ⟨W₁, le_refl _, hs, h W₁ hle⟩

theorem of_run {a : α} (hx : ∀ s, x.run s = (.ok a, s)) (h : ∀ W₁, W ≤ W₁ → Q W₁ a) : M.Runs W x Q := by
  intro W₁ hle s hs
  rw [hx]
  exact ⟨W₁, le_refl _, hs, .ok (h W₁ hle)⟩

theorem pure {a : α} (h : ∀ W₁, W ≤ W₁ → Q W₁ a) : M.Runs W (pure a) Q :=
  fun W₁ hle _ hs => ⟨W₁, le_refl _, hs, .ok (h W₁ hle)⟩

theorem throw {e : Fault} (h : M.Allowed e) : M.Runs W (throw e) Q :=
  fun W₁ _ _ hs => ⟨W₁, le_refl _, hs, .error h⟩

theorem bind (hx : M.Runs W x Q) (h : ∀ W₁ a, W ≤ W₁ → Q W₁ a → M.Runs W₁ (f a) Q') : M.Runs W (x >>= f) Q' := by
  intro W₁ hle s hs
  obtain ⟨W₂, hle₂, hs₂, hr⟩ := hx W₁ hle s hs
  rcases hrun : x.run s with ⟨r, t⟩
  rw [hrun] at hs₂ hr
  cases hr with
  | ok hQ =>
    obtain ⟨W₃, hle₃, hs₃, hr₃⟩ := h W₂ _ (le_trans hle hle₂) hQ W₂ (le_refl _) t hs₂
    rw [run_bind_of_ok hrun]
    exact ⟨W₃, le_trans hle₂ hle₃, hs₃, hr₃⟩
  | error hf =>
    rw [run_bind_of_error hrun]
    exact ⟨W₂, hle₂, hs₂, .error hf⟩

theorem mapM {ι κ : Type} {f : ι → Eval σ α} {as : List ι} {ts : List κ} {Q : StoreTy → κ → α → Prop}
    (hQ : ∀ {W W' t a}, W ≤ W' → Q W t a → Q W' t a)
    (h : List.Forall₂ (fun t a => M.Runs W (f a) fun W => Q W t) ts as) :
    M.Runs W (as.mapM f) fun W => List.Forall₂ (Q W) ts := by
  induction h with
  | nil =>
    rw [List.mapM_nil]
    exact .pure fun _ _ => .nil
  | cons h _ ih =>
    rw [List.mapM_cons]
    refine h.bind fun W₁ v hle hv => (ih.mono hle).bind fun W₂ vs hle₂ hvs => ?_
    exact .pure fun W₃ hle₃ => .cons (hQ (le_trans hle₂ hle₃) hv) (hvs.imp fun _ _ => hQ hle₃)

/-! ### Cells and arrays -/

variable {m : Machine} {Γ : Ctx} {scopes : List Scope} {l : Location}

theorem cell {x : Var} (hm : M.Serves m) (h : M.Env m W Γ scopes) :
    M.Runs W (m.cell scopes x) fun W c => W.cells[c]? = some (Γ x.id) := by
  rw [Machine.cell]
  cases hc : m.lookup scopes x with
  | none => exact .throw (M.dynamic (.unbound x))
  | some c => exact .pure fun W₁ hle => StoreTy.cell_mono (M.env_cell hm h hc) hle

theorem load (h : LocationHas W t l) : M.Runs W (Eval.load l) fun W v => M.Has W t v := by
  intro W₁ hle s hs
  refine ⟨W₁, le_refl _, ?_, ?_⟩
  · cases l <;> exact hs
  · cases l with
    | cell c => exact .ok (hs.cell c t (StoreTy.cell_mono h hle))
    | element a i =>
      obtain ⟨r, h⟩ := h
      exact .ok ((hs.grids.grid a t r (StoreTy.grid_mono h hle)).value i)

theorem store (h : LocationHas W t l) (hv : M.Has W t v) : M.Runs W (Eval.store v l) fun _ _ => True := by
  intro W₁ hle s hs
  refine ⟨W₁, le_refl _, ?_, ?_⟩
  · have hv := M.has_mono hle hv
    cases l with
    | cell c =>
      refine { hs with size := Array.size_setIfInBounds.trans hs.size, cell := fun d t' hd => ?_ }
      refine (getD_setIfInBounds ..) ▸ ?_
      split
      · rename_i heq
        cases heq.1
        cases (StoreTy.cell_mono h hle).symm.trans hd
        exact hv
      · exact hs.cell d t' hd
    | element a i =>
      obtain ⟨r, h⟩ := h
      exact { hs with grids := hs.grids.modify (StoreTy.grid_mono h hle) hv i }
  · cases l <;> exact .ok trivial

theorem newCell (hv : M.Has W t v) : M.Runs W (Eval.newCell v) fun W c => W.cells[c]? = some t := by
  intro W₁ hle s hs
  have hle₁ : W₁ ≤ { W₁ with cells := W₁.cells ++ [t] } := ⟨List.prefix_append _ _, List.prefix_refl _⟩
  refine ⟨_, hle₁, ⟨?_, fun c t' hc => ?_, hs.grids.mono hle₁ rfl, M.inv_mono hle₁ hs.host⟩, .ok ?_⟩
  · simp [Eval.newCell, run_mk, hs.size]
  · refine (getD_push ..) ▸ ?_
    rw [hs.size]
    split
    · rename_i heq
      rw [heq, List.getElem?_concat_length] at hc
      cases hc
      exact M.has_mono (le_trans hle hle₁) hv
    · rename_i hne
      refine M.has_mono hle₁ (hs.cell c t' ?_)
      have hlt : c < (W₁.cells ++ [t]).length := (List.getElem?_eq_some_iff.1 hc).1
      rw [List.length_append, List.length_singleton] at hlt
      rwa [List.getElem?_append_left (Nat.lt_of_le_of_ne (Nat.le_of_lt_succ hlt) hne)] at hc
  · show (W₁.cells ++ [t])[s.cells.size]? = some t
    rw [hs.size]
    exact List.getElem?_concat_length

theorem newGrid {g : Grid} (hg : M.GridTyped W t r g) :
    M.Runs W (Eval.newGrid g) fun W v => M.Has W (.array t r) v := by
  intro W₁ hle s hs
  have hle₁ : W₁ ≤ { W₁ with grids := W₁.grids ++ [(t, r)] } := ⟨List.prefix_refl _, List.prefix_append _ _⟩
  refine ⟨_, hle₁, ⟨hs.size, fun c t' hc => M.has_mono hle₁ (hs.cell c t' hc), ?_, M.inv_mono hle₁ hs.host⟩,
    .ok (M.array ?_)⟩
  · exact hs.grids.push (hg.mono hle) hle₁
  · show (W₁.grids ++ [(t, r)])[s.grids.size]? = some (t, r)
    rw [hs.grids.size]
    exact List.getElem?_concat_length

theorem newClosure {code : Lambda Prim} (hcode : code.LoweredFrom V Γ) (h : M.Env m W Γ scopes) :
    M.Runs W (Eval.newClosure code (Machine.capture scopes)) fun W v => M.Has W (.fn code.signature.id) v :=
  fun W₁ hle _ hs => ⟨W₁, le_refl _, { hs with }, .ok (M.closure hcode (M.env_mono hle h))⟩

theorem grid {a : GridId} (h : W.grids[a]? = some (t, r)) : M.Runs W (Eval.grid a) fun W g => M.GridTyped W t r g :=
  fun W₁ hle _ hs => ⟨W₁, le_refl _, hs, .ok (hs.grids.grid a t r (StoreTy.grid_mono h hle))⟩

end Runs

theorem GridTyped.offset {g : Grid} {is : List Int} (h : M.GridTyped W t r g) (hr : is.length = r) :
    Ends M.Allowed (fun _ => True) (g.offset is) := by
  rw [Grid.offset, Shape.offset, if_pos (hr.trans h.rank.symm)]
  rcases Shape.offsetFrom_outcome g.bounds is 0 0 with ⟨i, hi⟩ | ⟨d, i, b, hi⟩
  · rw [hi]
    exact .ok trivial
  · rw [hi]
    exact .error (M.dynamic (.indexOutOfRange d i b))

namespace Runs
variable {m : Machine} {Γ : Ctx} {scopes : List Scope} {l : Location}

theorem elementLocation {is : List Int} (h : M.Has W (.array t r) v) (hr : is.length = r) :
    M.Runs W (Machine.elementLocation v is) fun W l => LocationHas W t l := by
  rw [Machine.elementLocation]
  refine Runs.bind (.lift fun _ hle => M.asArray (M.has_mono hle h)) fun W₁ a _ ha => ?_
  refine (grid ha).bind fun W₂ g hle₂ hg => ?_
  refine Runs.bind (.lift fun _ _ => hg.offset hr) fun W₃ i hle₃ _ => ?_
  exact .pure fun W₄ hle₄ => ⟨r, StoreTy.grid_mono ha (le_trans hle₂ (le_trans hle₃ hle₄))⟩

theorem arith {u : Value} {ty : Ty} (op : ArithOp) (checked : Bool) (ht : ty.isArithmetic = true)
    (hv : M.Has W ty.nominal v) (hu : M.Has W ty.nominal u) :
    M.Runs W (liftM (Value.arith op checked v u)) fun W v => M.Has W ty.nominal v :=
  .lift fun _ hle => M.arith op checked ht (M.has_mono hle hv) (M.has_mono hle hu)

theorem step {ty : Ty} (op : IncDec) (ht : ty.isArithmetic = true) (h : LocationHas W ty.nominal l) :
    M.Runs W (Machine.step op l) fun W v => M.Has W ty.nominal v := by
  refine (load h).bind fun W₁ old hle hold => ?_
  refine Runs.bind (.lift fun W₂ hle => M.oneLike ht (M.has_mono hle hold)) fun W₂ one hle₂ hone => ?_
  refine (arith op.arith false ht (M.has_mono hle₂ hold) hone).bind fun W₃ new hle₃ hnew => ?_
  refine (store (h.mono (le_trans hle (le_trans hle₂ hle₃))) hnew).bind fun W₄ _ hle₄ _ => ?_
  refine .pure fun W₅ hle₅ => ?_
  cases op.yieldsNew with
  | true => exact M.has_mono (le_trans hle₄ hle₅) hnew
  | false => exact M.has_mono (le_trans hle₂ (le_trans hle₃ (le_trans hle₄ hle₅))) hold

/-! ### New scopes and calls -/

theorem extend {scope : Scope} {entries : List (VarId × Value)} {bs : List (VarId × NominalTy)}
    (hb : M.Env m W Γ (scope :: scopes)) (h : List.Forall₂ (fun b e => b.1 = e.1 ∧ M.Has W b.2 e.2) bs entries) :
    M.Runs W (Eval.extend scope entries) fun W scope => M.Env m W (Γ.extend bs) (scope :: scopes) := by
  induction bs generalizing W Γ scope entries with
  | nil =>
    cases h
    exact .pure fun _ hle => M.env_mono hle hb
  | cons b bs ih =>
    cases h with
    | @cons _ e _ entries he h =>
      obtain ⟨x, t⟩ := b
      obtain ⟨_, v⟩ := e
      obtain ⟨rfl, hv⟩ := he
      refine (newCell hv).bind fun W₁ c hle hc => ?_
      exact ih (M.env_insert (M.env_mono hle hb) hc) (h.imp fun _ _ h => ⟨h.1, M.has_mono hle h.2⟩)

variable {host : Host σ} {s : Signature} {args : List Value}

theorem callHost (hh : M.Obeys host) {f : NativeFn} (hs : V.Known s) (hf : M.Used f s.id)
    (h : List.Forall₂ (fun (p : Formal) u => M.Has W p.ty.nominal u) s.params args) :
    M.Runs W (Machine.callHost host f args) fun W u => M.Has W s.result.nominal u := by
  intro W₁ hle st hst
  obtain ⟨W₂, hle₂, hcells, hgrids, hinv, hr⟩ := hh hs hf (h.imp fun _ _ h => M.has_mono hle h) hst.grids hst.host
  exact ⟨W₂, hle₂, ⟨hcells ▸ hst.size, fun c t hc => M.has_mono hle₂ (hst.cell c t (hcells ▸ hc)), hgrids, hinv⟩, hr⟩

theorem apply (hh : M.Obeys host) {enter : Enter σ} (henter : M.Enters m enter) (hs : V.Known s)
    (hb : M.Env m W Γ scopes) (hv : M.Has W (.fn s.id) v)
    (h : List.Forall₂ (fun (p : Formal) u => M.Has W p.ty.nominal u) s.params args) :
    M.Runs W (Machine.apply host enter v args) fun W u => M.Has W s.result.nominal u := by
  cases M.callee hb hv with
  | native hf => exact callHost hh hs hf h
  | closure hid hcode hc =>
    cases V.unique hcode.known hs hid
    rw [Machine.apply, if_pos (h.length_eq.symm.trans hcode.params.length_eq)]
    exact henter hcode hc h
  | other hv ha =>
    cases v with
    | native | closure => cases hv
    | _ => exact .throw ha

end Runs
end

/-! ### Typed trees -/

section
variable (M : TypeModel σ V) (host : Host σ) (m : Machine) (enter : Enter σ) (Γ : Ctx)

/-- In scopes that bind the variables as the context says, the tree runs to values of the type. -/
def HasTy (t : NominalTy) (p : Prim) : Prop :=
  ∀ ⦃W : StoreTy⦄ ⦃scopes : List Scope⦄, M.Env m W Γ scopes →
    M.Runs W (Machine.evalWith host m id enter scopes p) fun W v => M.Has W t v

/-- The location of the place holds values of the type. -/
def Holds (t : NominalTy) (place : Place Prim) : Prop :=
  ∀ ⦃W : StoreTy⦄ ⦃scopes : List Scope⦄, M.Env m W Γ scopes →
    M.Runs W (Machine.locate host m id enter scopes place) fun W l => LocationHas W t l

end

section
variable {M : TypeModel σ V} {host : Host σ} {m : Machine} {enter : Enter σ} {Γ : Ctx} {W : StoreTy}
  {scopes : List Scope} {t : NominalTy} {p : Prim} {place : Place Prim}

theorem has_getLastD {vs : List Value} {ts : List NominalTy} (h : List.Forall₂ (M.Has W) ts vs) {d : NominalTy} :
    M.Has W (ts.getLastD d) (vs.getLastD .null) := by
  induction h generalizing d with
  | nil => exact M.null
  | @cons t v ts vs hv hvs ih =>
    cases hvs with
    | nil => exact hv
    | cons => simpa using ih (d := d)

theorem runs_trees {ps : List Prim} {ts : List NominalTy} (h : List.Forall₂ (M.HasTy host m enter Γ) ts ps)
    (hb : M.Env m W Γ scopes) :
    M.Runs W (Machine.evalAll host m id enter scopes ps) fun W => List.Forall₂ (M.Has W) ts := by
  rw [Machine.evalAll_eq_mapM]
  exact .mapM (fun hle h => M.has_mono hle h) (h.imp fun _ _ h => h hb)

theorem runs_indices {ps : List Prim} (h : ∀ p ∈ ps, M.HasTy host m enter Γ (.int .i32) p) (hb : M.Env m W Γ scopes) :
    M.Runs W (Machine.evalInts host m id enter scopes Value.asIndex ps) fun _ is => is.length = ps.length := by
  rw [Machine.evalInts_eq_mapM]
  have hps : List.Forall₂ (fun (_ : Prim) p => M.Runs W (Machine.evalWith host m id enter scopes p >>= fun v =>
      liftM v.asIndex) fun _ _ => True) ps ps := by
    refine List.forall₂_same.2 fun p hp => (h p hp hb).bind fun W₁ v _ hv => ?_
    exact .lift fun W₂ hle => M.asIndex (M.has_mono hle hv)
  exact (Runs.mapM (Q := fun _ _ _ => True) (fun _ h => h) hps).imp fun _ is his => his.length_eq.symm

theorem Holds.var {v : Var} (hm : M.Serves m) (h : Γ v.id = t) : M.Holds host m enter Γ t (.var v) := by
  intro W scopes hb
  rw [Machine.locate]
  exact (Runs.cell hm hb).bind fun W₁ c _ hc => .pure fun W₂ hle => StoreTy.cell_mono (h ▸ hc) hle

theorem Holds.element {array : Prim} {indices : List Prim} (ha : M.HasTy host m enter Γ (.array t indices.length) array)
    (hi : ∀ i ∈ indices, M.HasTy host m enter Γ (.int .i32) i) : M.Holds host m enter Γ t (.element array indices) := by
  intro W scopes hb
  rw [Machine.locate]
  refine (ha hb).bind fun W₁ v hle hv => ?_
  refine (runs_indices hi (M.env_mono hle hb)).bind fun W₂ is hle₂ his => ?_
  exact .elementLocation (M.has_mono hle₂ hv) his

namespace HasTy

theorem ofConstant {c : Constant} (h : ∀ W, M.Has W t (.ofConstant c)) : M.HasTy host m enter Γ t (.const c) := by
  intro W scopes _
  rw [Machine.evalWith]
  exact .pure fun W₁ _ => h W₁

theorem ofPlace (h : M.Holds host m enter Γ t place) : M.HasTy host m enter Γ t place.read := by
  intro W scopes hb
  rw [Machine.evalWith_read]
  exact (h hb).bind fun W₁ l _ hl => .load hl

theorem assign (hl : M.Holds host m enter Γ t place) (hp : M.HasTy host m enter Γ t p) :
    M.HasTy host m enter Γ t (.assign place p) := by
  intro W scopes hb
  rw [Machine.evalWith]
  refine (hl hb).bind fun W₁ l hle hl => (hp (M.env_mono hle hb)).bind fun W₂ v hle₂ hv => ?_
  refine (Runs.store (hl.mono hle₂) hv).bind fun W₃ _ hle₃ _ => ?_
  exact .pure fun W₄ hle₄ => M.has_mono (le_trans hle₃ hle₄) hv

theorem arith {left right : Prim} {ty : Ty} (op : ArithOp) (checked : Bool) (ht : ty.isArithmetic = true)
    (hl : M.HasTy host m enter Γ ty.nominal left) (hr : M.HasTy host m enter Γ ty.nominal right) :
    M.HasTy host m enter Γ ty.nominal (.arith op checked left right) := by
  intro W scopes hb
  rw [Machine.evalWith]
  refine (hl hb).bind fun W₁ v hle hv => (hr (M.env_mono hle hb)).bind fun W₂ u hle₂ hu => ?_
  exact .arith op checked ht (M.has_mono hle₂ hv) hu

theorem step {ty : Ty} (op : IncDec) (ht : ty.isArithmetic = true) (hl : M.Holds host m enter Γ ty.nominal place) :
    M.HasTy host m enter Γ ty.nominal (.step op place) := by
  intro W scopes hb
  rw [Machine.evalWith]
  exact (hl hb).bind fun W₁ l _ hl => .step op ht hl

theorem newArray {element : Ty} {bounds : List Nat} {sizes : List Prim} {n : Nat} (hvoid : (element == .void) = false)
    (hs : bounds.mapM indexConstant? = some sizes) (hn : Shape.size? bounds = some n) :
    M.HasTy host m enter Γ (.array element.nominal bounds.length) (.newArray element sizes) := by
  intro W scopes _
  rw [Machine.evalWith]
  refine Runs.bind (.of_run (Q := fun _ ns => ns = bounds.map Int.ofNat) (run_boundConstants hs) fun _ _ => rfl) ?_
  rintro W₁ ns - rfl
  have hmap : (bounds.map Int.ofNat).map Int.toNat = bounds := by simp [Function.comp_def]
  have hnew : Grid.new (α := Prim) element bounds = .ok ⟨element, bounds, Array.replicate n (.defaultOf element)⟩ := by
    rw [Grid.new, Grid.size, hn]
    rfl
  rw [hmap, hnew]
  refine Runs.newGrid (.ofValues (M.element hvoid) fun u hu => ?_)
  rw [Array.mem_replicate] at hu
  exact hu.2 ▸ M.defaultOf element

theorem constArray {element : Ty} {bounds : List Nat} {values : List Constant} (hvoid : (element == .void) = false)
    (hn : Shape.size? bounds = some values.length) (hv : ∀ c ∈ values, element.accepts c.ty = true) :
    M.HasTy host m enter Γ (.array element.nominal bounds.length) (.constArray element bounds values) := by
  intro W scopes _
  have hgrid : Grid.ofRowMajor (α := Prim) element bounds (values.map Value.ofConstant) =
      .ok ⟨element, bounds, (values.map Value.ofConstant).toArray⟩ := by
    rw [Grid.ofRowMajor, Grid.size, hn]
    exact if_pos (List.length_map _)
  rw [Machine.evalWith, hgrid]
  refine Runs.newGrid (.ofValues (M.element hvoid) fun u hu => ?_)
  obtain ⟨c, hc, rfl⟩ := List.mem_map.1 (List.mem_toArray.1 hu)
  exact M.of_accepts (hv c hc) (M.const c)

theorem call (hh : M.Obeys host) (henter : M.Enters m enter) {callee : Prim} {args : List Prim} {s : Signature}
    (hs : V.Known s) (hc : M.HasTy host m enter Γ (.fn s.id) callee)
    (ha : List.Forall₂ (fun (f : Formal) p => M.HasTy host m enter Γ f.ty.nominal p) s.params args) :
    M.HasTy host m enter Γ s.result.nominal (.call callee args) := by
  intro W scopes hb
  rw [Machine.evalWith]
  refine (hc hb).bind fun W₁ v hle hv => ?_
  refine (runs_trees (List.forall₂_map_left_iff.2 ha) (M.env_mono hle hb)).bind fun W₂ vs hle₂ hvs => ?_
  exact .apply hh henter hs (M.env_mono (le_trans hle hle₂) hb) (M.has_mono hle₂ hv) (List.forall₂_map_left_iff.1 hvs)

theorem callMethod (hm : M.Serves m) (hh : M.Obeys host) {method : Method} {args : List Prim}
    (ho : V.Operator method) (hs : V.Known method.signature)
    (ha : List.Forall₂ (fun (f : Formal) p => M.HasTy host m enter Γ f.ty.nominal p) method.signature.params args) :
    M.HasTy host m enter Γ method.signature.result.nominal (.callMethod method args) := by
  intro W scopes hb
  rw [Machine.evalWith]
  cases hf : m.methods.lookup method.name with
  | none => exact .throw (M.dynamic (.undefinedMethod _))
  | some f =>
    refine (runs_trees (List.forall₂_map_left_iff.2 ha) hb).bind fun W₁ vs _ hvs => ?_
    exact .callHost hh hs (M.registered hm ho hf) (List.forall₂_map_left_iff.1 hvs)

theorem lambda {code : Lambda Prim} (h : code.LoweredFrom V Γ) :
    M.HasTy host m enter Γ (.fn code.signature.id) (.lambda code) := by
  intro W scopes hb
  rw [Machine.evalWith]
  exact .newClosure h hb

theorem quote (stamp : Stamp) (code : Lambda Prim) :
    M.HasTy host m enter Γ (.quoted (.fn code.signature.id)) (.quote stamp code) := by
  intro W scopes _
  rw [Machine.evalWith]
  exact .pure fun _ _ => M.quoted stamp code

theorem block {locals : List Var} {body : List Prim} {ts : List NominalTy}
    (h : List.Forall₂ (M.HasTy host m enter (Γ.bind locals)) ts body) :
    M.HasTy host m enter Γ (ts.getLastD .void) (.block locals body) := by
  intro W scopes hb
  have hlocals : List.Forall₂ (fun b e => b.1 = e.1 ∧ M.Has W b.2 e.2)
      (locals.map fun v => (v.id, v.ty.nominal)) (locals.map fun v => (v.id, Value.defaultOf v.ty)) := by
    rw [List.forall₂_map_left_iff, List.forall₂_map_right_iff, List.forall₂_same]
    exact fun v _ => ⟨rfl, M.defaultOf v.ty⟩
  rw [Machine.evalWith]
  refine (Runs.extend (M.env_nil hb) hlocals).bind fun W₁ scope hle hscope => ?_
  refine (runs_trees h hscope).bind fun W₂ vs hle₂ hvs => ?_
  exact .pure fun W₃ hle₃ => M.has_mono hle₃ (has_getLastD hvs)

end HasTy

/-- The typing rules hold in every model. -/
def typeSystem (hm : M.Serves m) (hh : M.Obeys host) (henter : M.Enters m enter) : TypeSystem V where
  HasTy := M.HasTy host m enter
  Holds := M.Holds host m enter
  var := .var hm
  element := .element
  of_accepts ha h _ _ hb := (h hb).imp fun _ _ hv => M.of_accepts ha hv
  const c := .ofConstant fun _ => M.const c
  one h := .ofConstant fun _ => M.one h
  default hs hf hc := .ofConstant fun _ => M.paramDefault hs hf hc
  ofPlace := .ofPlace
  assign := .assign
  arith := .arith
  step := .step
  newArray := .newArray
  constArray := .constArray
  call := .call hh henter
  callMethod := .callMethod hm hh
  lambda := .lambda
  quote := .quote
  block := .block

/-! ### Lowered expressions -/

theorem frame {ps : List Formal} {xs : List Var} {args : List Value}
    (hp : List.Forall₂ (fun (p : Formal) (x : Var) => p.ty == x.ty) ps xs)
    (ha : List.Forall₂ (fun (p : Formal) u => M.Has W p.ty.nominal u) ps args) :
    List.Forall₂ (fun b e => b.1 = e.1 ∧ M.Has W b.2 e.2) (xs.map fun x => (x.id, x.ty.nominal))
      ((xs.map (·.id)).zip args) := by
  induction hp generalizing args with
  | nil => exact .nil
  | @cons p x ps xs heq _ ih =>
    cases ha with
    | @cons _ u _ args hu ha =>
      have hu : M.Has W x.ty.nominal u := Ty.beq_iff.1 heq ▸ hu
      exact .cons ⟨rfl, hu⟩ (ih ha)

theorem enters (hm : M.Serves m) (hh : M.Obeys host) (depth : Nat) : M.Enters m (Machine.enter host m depth) := by
  -- `depth` is the number of calls that may still be nested.
  induction depth with
  | zero => exact fun _ _ _ => .throw (M.dynamic (.stackOverflow _))
  | succ depth ih =>
    intro W Γ code captured args hcode hc hargs
    have hframe := frame hcode.params hargs
    obtain ⟨stamp, body, o, u, u', he, hco, hb, hlow⟩ := hcode
    have hparams : Γ.bind code.params = Γ := by
      cases hco with
      | node hl _ _ _ => exact Ctx.bind_eq_self hl
    rw [Machine.enter]
    refine (Runs.extend (M.env_nil hc) hframe).bind fun W₁ frame hle hscopes => ?_
    rw [← Ctx.bind, hparams] at hscopes
    have hbody := ((typeSystem hm hh ih).lowers_rules o).of_loweredTo (he.part _ (List.mem_singleton.2 rfl)) hlow
    refine Runs.imp (hbody.hasTy hb (Nat.le_refl _) (hco.part _ (List.mem_singleton.2 rfl)) hscopes) fun W₂ v hv => ?_
    cases he.allows with
    | lambda _ hresult =>
      rcases hresult with hvoid | haccepts
      · rw [Ty.beq_iff.1 hvoid]
        exact M.void hv
      · exact M.of_accepts haccepts hv

/-- The machine evaluates a lowered expression to a value of its type. -/
theorem runs_lower (hm : M.Serves m) (hh : M.Obeys host) {l l' : Lowerer} {e : Expr} {supply supply' : Supply}
    (he : e.Obtained) (hb : e.Below supply.var) (hc : e.Coherent V Γ)
    (h : l.lower e supply = (.ok p, l', supply')) (hg : M.Env m W Γ []) :
    M.Runs W (m.eval host p) fun W v => M.Has W e.ty.nominal v := by
  have hrules := (typeSystem hm hh (enters hm hh m.maxCallDepth)).lowers_rules l.options
  exact (hrules.of_loweredTo he.wellMade (Lowerer.loweredTo h)).hasTy hb (Nat.le_refl _) hc hg

end

end TypeModel

end ExprLowering
