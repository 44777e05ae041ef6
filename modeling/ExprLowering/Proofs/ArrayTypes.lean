import ExprLowering.Proofs.Arithmetic
import ExprLowering.Proofs.TypeModels

/-!
# Types of arrays

A model of the types in which scalars suit every type and only references count: an array or a function suits a
place if the place takes references of its type (`NominalTy.Takes`). Nothing that the code does can then go wrong for
a scalar of the wrong type, so nothing is asked of the defaults of parameters, and every fault may occur.

Closures may outlive a change of the globals. `Interface.Scoped` therefore speaks about the scopes alone and gives the
variables that are in none of them the types that all expressions agree on.
-/

namespace ExprLowering

namespace NominalTy

/-- The type without `nullable` around it. -/
def core : NominalTy → NominalTy
  | nullable t => t.core
  | t => t

/-- A place of type `t` may hold references of type `u`. -/
def Takes (t u : NominalTy) : Prop :=
  t = .void ∨ t.core = .object ∨ t.core = u

theorem Takes.self {t : NominalTy} (h : t.core = t) : t.Takes t :=
  .inr (.inr h)

theorem Takes.array_eq {t u : NominalTy} {r : Nat} (h : (array t r).Takes u) : array t r = u := by
  rcases h with h | h | h
  · cases h
  · cases h
  · exact h

theorem Takes.fn_eq {id : SigId} {u : NominalTy} (h : (fn id).Takes u) : fn id = u := by
  rcases h with h | h | h
  · cases h
  · cases h
  · exact h

theorem Takes.of_accepts {target source : Ty} {u : NominalTy} (ha : target.accepts source = true)
    (h : source.nominal.Takes u) : target.nominal.Takes u := by
  rw [Ty.accepts, Bool.or_eq_true, Bool.and_eq_true, Ty.beq_iff, Ty.beq_iff] at ha
  rcases ha with heq | ⟨heq, -⟩
  · rwa [heq]
  · rw [heq]
    exact .inr (.inl rfl)

end NominalTy

/-- What the expressions of a session agree on: the types of the variables, the signatures, and the functions of the
host. -/
structure Interface (σ : Type) extends Vocabulary where
  types : Ctx
  methods : List (String × NativeFn)
  /-- The host functions that are used at the signature of this identity. -/
  Used : NativeFn → SigId → Prop
  registered : ∀ {method f}, Operator method → methods.lookup method.name = some f → Used f method.signature.id
  /-- The values that the host keeps are as the store type says. -/
  Inv : StoreTy → σ → Prop
  inv_mono : ∀ {W W' a}, W ≤ W' → Inv W a → Inv W' a

namespace Interface
variable {σ : Type}

section
variable (I : Interface σ) (W : StoreTy)

/-- The variables in scope have cells of the types of `Γ`; the others have their own types in it. -/
structure Scoped (Γ : Ctx) (scopes : List Scope) : Prop where
  cell : ∀ {x : VarId} {c : CellId}, scopes.findSome? (·.lookup x) = some c → W.cells[c]? = some (Γ x)
  rest : ∀ {x : VarId}, scopes.findSome? (·.lookup x) = none → Γ x = I.types x

/-- The globals of the machine have cells of their types. -/
def Globals (m : Machine) : Prop :=
  ∀ (x : VarId) (c : CellId), m.globals.lookup x = some c → W.cells[c]? = some (I.types x)

/-- A place of type `t` may hold the value. -/
def Suits (t : NominalTy) : Value → Prop
  | .array a => ∃ u r, W.grids[a]? = some (u, r) ∧ t.Takes (.array u r)
  | .native f => ∃ id, I.Used f id ∧ t.Takes (.fn id)
  | .closure _ code captured => t.Takes (.fn code.signature.id) ∧
      ∃ Γ, code.LoweredFrom I.toVocabulary Γ ∧ I.Scoped W Γ [captured]
  | _ => True

end

variable {I : Interface σ} {W W' : StoreTy} {Γ : Ctx} {scope : Scope} {scopes : List Scope}

namespace Scoped

theorem mono (h : I.Scoped W Γ scopes) (hle : W ≤ W') : I.Scoped W' Γ scopes :=
  ⟨fun hc => StoreTy.cell_mono (h.cell hc) hle, h.rest⟩

theorem congr {scopes' : List Scope} (h : I.Scoped W Γ scopes)
    (heq : ∀ x : VarId, scopes'.findSome? (·.lookup x) = scopes.findSome? (·.lookup x)) : I.Scoped W Γ scopes' :=
  ⟨fun hc => h.cell ((heq _).symm.trans hc), fun hn => h.rest ((heq _).symm.trans hn)⟩

theorem capture (h : I.Scoped W Γ scopes) : I.Scoped W Γ [Machine.capture scopes] := by
  refine h.congr fun x => ?_
  rw [findSome?_lookup_cons, List.findSome?_nil, Option.or_none, lookup_capture]

theorem insert {x : VarId} {c : CellId} {t : NominalTy} (h : I.Scoped W Γ (scope :: scopes))
    (hc : W.cells[c]? = some t) : I.Scoped W (Function.update Γ x t) (((x, c) :: scope) :: scopes) := by
  have hlookup : ∀ y : VarId, y ≠ x →
      ((((x, c) :: scope) :: scopes).findSome? (·.lookup y)) = (scope :: scopes).findSome? (·.lookup y) := by
    intro y hne
    rw [findSome?_lookup_cons, findSome?_lookup_cons, List.lookup_cons, beq_eq_false_iff_ne.2 hne]
  have hself : (((x, c) :: scope) :: scopes).findSome? (·.lookup x) = some c := by
    rw [findSome?_lookup_cons, List.lookup_cons, beq_self_eq_true]
    rfl
  constructor
  · intro y d hd
    by_cases hxy : y = x
    · subst hxy
      rw [hself] at hd
      cases hd
      rwa [Function.update_self]
    · rw [Function.update_of_ne hxy]
      exact h.cell ((hlookup y hxy).symm.trans hd)
  · intro y hy
    by_cases hxy : y = x
    · subst hxy
      rw [hself] at hy
      cases hy
    · rw [Function.update_of_ne hxy]
      exact h.rest ((hlookup y hxy).symm.trans hy)

end Scoped

theorem Globals.mono {m : Machine} (h : I.Globals W m) (hle : W ≤ W') : I.Globals W' m :=
  fun x c hc => StoreTy.cell_mono (h x c hc) hle

theorem Globals.cell {m : Machine} {x : Var} {c : CellId} (hg : I.Globals W m) (h : I.Scoped W Γ scopes)
    (hc : m.lookup scopes x = some c) : W.cells[c]? = some (Γ x.id) := by
  rw [Machine.lookup] at hc
  cases hs : scopes.findSome? (·.lookup x.id) with
  | some d =>
    rw [hs] at hc
    cases hc
    exact h.cell hs
  | none =>
    rw [hs] at hc
    rw [h.rest hs]
    exact hg _ _ hc

namespace Suits
variable {t : NominalTy} {v : Value}

theorem mono (h : I.Suits W t v) (hle : W ≤ W') : I.Suits W' t v := by
  cases v with
  | array a =>
    obtain ⟨u, r, ha, ht⟩ := h
    exact ⟨u, r, StoreTy.grid_mono ha hle, ht⟩
  | closure stamp code captured =>
    obtain ⟨ht, Γ, hcode, hc⟩ := h
    exact ⟨ht, Γ, hcode, hc.mono hle⟩
  | _ => exact h

theorem imp {t' : NominalTy} (h : I.Suits W t v) (ht : ∀ u, t.Takes u → t'.Takes u) : I.Suits W t' v := by
  cases v with
  | array a =>
    obtain ⟨u, r, ha, hu⟩ := h
    exact ⟨u, r, ha, ht _ hu⟩
  | native f =>
    obtain ⟨id, hf, hid⟩ := h
    exact ⟨id, hf, ht _ hid⟩
  | closure => exact ⟨ht _ h.1, h.2⟩
  | _ => trivial

theorem ofScalar (h : v.IsScalar) : I.Suits W t v := by
  rcases h with rfl | ⟨l, rfl⟩
  · trivial
  · trivial

theorem ofConstant (c : Constant) : I.Suits W t (.ofConstant c) := by
  cases c with
  | null => trivial
  | lit => trivial

theorem defaultOf (ty : Ty) : I.Suits W t (.defaultOf ty) := by
  cases ty <;> trivial

theorem asArray {r : Nat} (h : I.Suits W (.array t r) v) :
    Ends (fun _ => True) (fun a => W.grids[a]? = some (t, r)) v.asArray := by
  cases v with
  | array a =>
    obtain ⟨u, q, ha, ht⟩ := h
    cases ht.array_eq
    exact .ok ha
  | _ => exact .error trivial

theorem calledBy {m : Machine} {id : SigId} (hg : I.Globals W m) (h : I.Suits W (.fn id) v) :
    v.CalledBy I.toVocabulary I.Used (fun Γ scopes => I.Scoped W Γ scopes ∧ I.Globals W m) (fun _ => True) id := by
  cases v with
  | native f =>
    obtain ⟨id', hf, ht⟩ := h
    cases ht.fn_eq
    exact .native hf
  | closure stamp code captured =>
    obtain ⟨ht, Γ, hcode, hc⟩ := h
    exact .closure (NominalTy.fn.inj ht.fn_eq).symm hcode ⟨hc, hg⟩
  | _ => exact .other rfl trivial

end Suits

/-- The types as sets of values whose references are of the type. -/
def model (I : Interface σ) : TypeModel σ I.toVocabulary where
  Serves m := m.methods = I.methods
  Has := I.Suits
  Env m W Γ scopes := I.Scoped W Γ scopes ∧ I.Globals W m
  Element t := t ≠ .void
  Allowed _ := True
  Used := I.Used
  Inv := I.Inv
  registered hm ho hf := I.registered ho (hm ▸ hf)
  dynamic _ := trivial
  has_mono hle h := h.mono hle
  env_mono hle h := ⟨h.1.mono hle, h.2.mono hle⟩
  inv_mono := I.inv_mono
  null := trivial
  const c := .ofConstant c
  one _ := .ofConstant _
  paramDefault _ _ _ := .ofConstant _
  defaultOf ty := .defaultOf ty
  array h := ⟨_, _, h, .self rfl⟩
  closure hcode h := ⟨.self rfl, _, hcode, h.1.capture⟩
  quoted _ _ := trivial
  of_accepts ha h := h.imp fun _ => .of_accepts ha
  void h := h.imp fun _ _ => .inl rfl
  element h hv := by
    rw [Ty.beq_iff.2 hv] at h
    cases h
  asArray := Suits.asArray
  asIndex _ := Ends.of_ok fun _ _ => trivial
  oneLike _ _ := Ends.of_ok fun _ h => .ofScalar (Value.isScalar_of_oneLike h)
  arith _ _ _ _ _ := Ends.of_ok fun _ h => .ofScalar (Value.isScalar_of_arith h)
  callee h hv := hv.calledBy h.2
  env_cell _ h hc := h.2.cell h.1 hc
  env_nil h := ⟨h.1.congr fun _ => rfl, h.2⟩
  env_insert h hc := ⟨h.1.insert hc, h.2⟩

end Interface

end ExprLowering
