import Mathlib.Order.Defs.PartialOrder
import ExprLowering.Proofs.LowerRules
import ExprLowering.Proofs.MachineBasics
import ExprLowering.Proofs.Mentions

/-!
# Typed stores

Types are compared by name, so they are used in their nominal form. A `StoreTy` gives a type to each cell and
an element type and a rank to each array. A value fits a type (`Value.Fits`) by what it is and by the type of
the array that it names; a closure is sound (`Value.Sound`) if it was lowered from a lambda and its captured
cells have the types of the lambda's variables. What holds in a store type holds in every larger one.

Expressions are taken to be coherent (`Expr.Coherent`): their variables have the types of a context, and their
signatures and operators belong to a vocabulary in which the identity of a signature determines it. `Setting` says
what else the code relies on: that defaults can be passed for their parameters, and which host functions are used at
which signatures.
-/

namespace ExprLowering

/-- The types of the variables. -/
abbrev Ctx := VarId → NominalTy

/-- The types of the cells, and the element types and ranks of the arrays. -/
structure StoreTy where
  cells : List NominalTy
  grids : List (NominalTy × Nat)

namespace StoreTy

instance : Preorder StoreTy where
  le W W' := W.cells <+: W'.cells ∧ W.grids <+: W'.grids
  le_refl W := ⟨List.prefix_refl _, List.prefix_refl _⟩
  le_trans _ _ _ h h' := ⟨h.1.trans h'.1, h.2.trans h'.2⟩

variable {W W' : StoreTy}

theorem cell_mono {c : CellId} {t : NominalTy} (h : W.cells[c]? = some t) (hle : W ≤ W') :
    W'.cells[c]? = some t := by
  obtain ⟨hlt, rfl⟩ := List.getElem?_eq_some_iff.1 h
  exact List.prefix_iff_getElem?.1 hle.1 c hlt

theorem grid_mono {a : GridId} {g : NominalTy × Nat} (h : W.grids[a]? = some g) (hle : W ≤ W') :
    W'.grids[a]? = some g := by
  obtain ⟨hlt, rfl⟩ := List.getElem?_eq_some_iff.1 h
  exact List.prefix_iff_getElem?.1 hle.2 a hlt

/-- Every variable that is bound has a cell of its type. -/
def Binds (W : StoreTy) (m : Machine) (Γ : Ctx) (scopes : List Scope) : Prop :=
  ∀ v c, m.lookup scopes v = some c → W.cells[c]? = some (Γ v.id)

theorem Binds.mono {m : Machine} {Γ : Ctx} {scopes : List Scope} (h : W.Binds m Γ scopes) (hle : W ≤ W') :
    W'.Binds m Γ scopes :=
  fun v c hc => cell_mono (h v c hc) hle

theorem Binds.capture {m : Machine} {Γ : Ctx} {scopes : List Scope} (h : W.Binds m Γ scopes) :
    W.Binds m Γ [Machine.capture scopes] := by
  intro v c hc
  refine h v c ?_
  rwa [Machine.lookup, findSome?_lookup_cons, List.findSome?_nil, Option.or_none, lookup_capture] at hc

end StoreTy

/-! ### Coherent expressions -/

/-- The signatures and the operators in use. -/
structure Vocabulary where
  Known : Signature → Prop
  unique : ∀ {s t}, Known s → Known t → s.id = t.id → s = t
  Operator : Method → Prop

namespace Head

/-- The variables that the head binds. -/
def locals : Head → List Var
  | .block locals => locals
  | .lambda _ params => params
  | _ => []

/-- The signatures that a node calls by or gives to a function. -/
def signatures : Head → List Expr → List Signature
  | .call, callee :: _ | .invoke _, callee :: _ => callee.ty.signature?.toList
  | .lambda s _, _ => [s]
  | .step _ (some m), _ => [m.signature]
  | _, _ => []

def methods : Head → List Method
  | .step _ (some m) => [m]
  | _ => []

end Head

/-- The variables have the types of `Γ`, and the signatures and operators are in the vocabulary. -/
inductive Expr.Coherent (V : Vocabulary) (Γ : Ctx) : Expr → Prop
  | const (c : Constant) : Coherent V Γ (.const c)
  | var {v : Var} (h : Γ v.id = v.ty.nominal) : Coherent V Γ (.var v)
  | node {stamp : Stamp} {head : Head} {parts : List Expr} (locals : ∀ v ∈ head.locals, Γ v.id = v.ty.nominal)
      (known : ∀ s ∈ head.signatures parts, V.Known s) (operators : ∀ m ∈ head.methods, V.Operator m)
      (coherent : ∀ p ∈ parts, Coherent V Γ p) : Coherent V Γ (.node stamp head parts)

/-- The code was lowered from a lambda that is coherent in `Γ`. -/
def Lambda.LoweredFrom (V : Vocabulary) (Γ : Ctx) (code : Lambda Prim) : Prop :=
  ∃ stamp body o u u', Expr.WellMade (.node stamp (.lambda code.signature code.params) [body]) ∧
    Expr.Coherent V Γ (.node stamp (.lambda code.signature code.params) [body]) ∧ body.Below u.var ∧
    LoweredTo o body code.body u u'

/-- What typed code relies on. -/
structure Setting (σ : Type) extends Vocabulary where
  machine : Machine
  default : ∀ {s f c}, Known s → f ∈ s.params → f.default = some c → f.ty.accepts c.ty = true
  /-- The host functions that are used at the signature of this identity. -/
  Used : NativeFn → SigId → Prop
  registered : ∀ {method f}, Operator method → machine.methods.lookup method.name = some f →
    Used f method.signature.id
  /-- The values that the host keeps are as the store type says. -/
  Inv : StoreTy → σ → Prop
  inv_mono : ∀ {W W' a}, W ≤ W' → Inv W a → Inv W' a
  /-- The faults that host functions report. -/
  Reports : Fault → Prop

/-! ### Values -/

def Value.isReference : Value → Bool
  | lit (.str _) | array _ | native _ | closure .. | quoted .. => true
  | _ => false

inductive Value.Fits {σ : Type} (E : Setting σ) (W : StoreTy) : NominalTy → Value → Prop
  | null {t : NominalTy} : Fits E W t .null
  | bool {b : Bool} : Fits E W .bool (.lit (.bool b))
  | int {k : IntKind} {w : Word} (h : w.kind = k) : Fits E W (.int k) (.lit (.int w))
  | float {k : FloatKind} {x : FloatBits} (h : x.kind = k) : Fits E W (.float k) (.lit (.float x))
  | str {s : String} : Fits E W .str (.lit (.str s))
  | array {t : NominalTy} {r : Nat} {a : GridId} (h : W.grids[a]? = some (t, r)) : Fits E W (.array t r) (.array a)
  | native {id : SigId} {f : NativeFn} (h : E.Used f id) : Fits E W (.fn id) (.native f)
  | closure {id : SigId} {stamp : Stamp} {code : Lambda Prim} {captured : Scope} (h : code.signature.id = id) :
      Fits E W (.fn id) (.closure stamp code captured)
  | quoted {id : SigId} {stamp : Stamp} {code : Lambda Prim} (h : code.signature.id = id) :
      Fits E W (.quoted (.fn id)) (.quoted stamp code)
  | nullable {t : NominalTy} {v : Value} (h : Fits E W t v) : Fits E W (.nullable t) v
  | object {v : Value} (h : v.isReference = true) : Fits E W .object v
  | void {v : Value} : Fits E W .void v

/-- A closure comes from a lambda, and its captured cells have the types of the lambda's variables. -/
def Value.Sound {σ : Type} (E : Setting σ) (W : StoreTy) : Value → Prop
  | closure _ code captured => ∃ Γ, code.LoweredFrom E.toVocabulary Γ ∧ W.Binds E.machine Γ [captured]
  | _ => True

structure Value.Has {σ : Type} (E : Setting σ) (W : StoreTy) (t : NominalTy) (v : Value) : Prop where
  fits : v.Fits E W t
  sound : v.Sound E W

section
variable {σ : Type} {E : Setting σ} {W W' : StoreTy} {t : NominalTy} {v u : Value}

namespace Value

theorem Fits.mono (h : v.Fits E W t) (hle : W ≤ W') : v.Fits E W' t := by
  induction h with
  | null => exact .null
  | bool => exact .bool
  | int h => exact .int h
  | float h => exact .float h
  | str => exact .str
  | array h => exact .array (StoreTy.grid_mono h hle)
  | native h => exact .native h
  | closure h => exact .closure h
  | quoted h => exact .quoted h
  | nullable _ ih => exact .nullable ih
  | object h => exact .object h
  | void => exact .void

theorem Sound.mono (h : v.Sound E W) (hle : W ≤ W') : v.Sound E W' := by
  cases v with
  | closure stamp code captured =>
    obtain ⟨Γ, hcode, hc⟩ := h
    exact ⟨Γ, hcode, hc.mono hle⟩
  | _ => trivial

namespace Has

theorem mono (h : v.Has E W t) (hle : W ≤ W') : v.Has E W' t :=
  ⟨h.fits.mono hle, h.sound.mono hle⟩

theorem null : (Value.null).Has E W t :=
  ⟨.null, trivial⟩

theorem ofLit (l : Literal) : (Value.lit l).Has E W l.ty.nominal := by
  refine ⟨?_, trivial⟩
  cases l with
  | bool => exact .bool
  | int => exact .int rfl
  | float => exact .float rfl
  | str => exact .str

theorem ofConstant (c : Constant) : (Value.ofConstant c).Has E W c.ty.nominal := by
  cases c with
  | null => exact .null
  | lit l => exact .ofLit l

theorem defaultOf (ty : Ty) : (Value.defaultOf ty).Has E W ty.nominal := by
  cases ty with
  | bool => exact .ofLit (.bool false)
  | int k => exact .ofLit (.int (.zero k))
  | float k =>
    refine ⟨.float ?_, trivial⟩
    cases k <;> rfl
  | _ => exact .null

theorem of_accepts {target source : Ty} (ha : target.accepts source = true) (h : v.Has E W source.nominal) :
    v.Has E W target.nominal := by
  rw [Ty.accepts, Bool.or_eq_true, Bool.and_eq_true, Ty.beq_iff, Ty.beq_iff] at ha
  rcases ha with heq | ⟨heq, href⟩
  · exact heq ▸ h
  · rw [heq]
    refine ⟨?_, h.sound⟩
    obtain ⟨hfits, -⟩ := h
    cases source with
    | str | array | fn =>
      cases hfits with
      | null => exact .null
      | _ => exact .object rfl
    | object => exact hfits
    | quoted inner =>
      rw [Ty.nominal] at hfits
      generalize inner.nominal = n at hfits
      cases hfits with
      | null => exact .null
      | quoted => exact .object rfl
    | _ => cases href

end Has
end Value

end

/-! ### Faults and arithmetic -/

/-- A value as described, or a fault that may occur. -/
inductive Ends (Allowed : Fault → Prop) {α : Type} (Q : α → Prop) : Except Fault α → Prop
  | ok {a : α} (h : Q a) : Ends Allowed Q (.ok a)
  | error {f : Fault} (h : Allowed f) : Ends Allowed Q (.error f)

theorem Ends.imp {Allowed : Fault → Prop} {α : Type} {Q Q' : α → Prop} {r : Except Fault α} (h : Ends Allowed Q r)
    (hQ : ∀ a, Q a → Q' a) : Ends Allowed Q' r := by
  cases h with
  | ok h => exact .ok (hQ _ h)
  | error h => exact .error h

theorem Ends.of_ok {α : Type} {Q : α → Prop} {r : Except Fault α} (h : ∀ a, r = .ok a → Q a) :
    Ends (fun _ => True) Q r := by
  cases r with
  | ok a => exact .ok (h a rfl)
  | error => exact .error trivial

section
variable {σ : Type} {E : Setting σ} {W : StoreTy} {v u : Value}

/-- The faults of typed code. Three of them are due to a null. -/
inductive Fault.Allowed (E : Setting σ) : Fault → Prop
  | overflow : Allowed E .overflow
  | unbound (x : Var) : Allowed E (.unbound x)
  | undefinedMethod (name : String) : Allowed E (.undefinedMethod name)
  | indexOutOfRange (dimension : Nat) (index : Int) (bound : Nat) : Allowed E (.indexOutOfRange dimension index bound)
  | stackOverflow (limit : Nat) : Allowed E (.stackOverflow limit)
  | host {f : Fault} (h : E.Reports f) : Allowed E f
  | nullIndex : Allowed E (.type (.notAnIndex (Value.typeName (α := Prim) .null)))
  | nullArray : Allowed E (.type (.notAnArray (Value.typeName (α := Prim) .null)))
  | nullCallee : Allowed E (.notCallable (Value.typeName (α := Prim) .null))

namespace Value.Has
variable {ty : Ty}

theorem nonNullable_iff : v.Has E W ty.nonNullable.nominal ↔ v.Has E W ty.nominal := by
  cases ty with
  | nullable ty =>
    refine ⟨fun h => ⟨.nullable h.fits, h.sound⟩, fun h => ⟨?_, h.sound⟩⟩
    cases h.fits with
    | null => exact .null
    | nullable h => exact h
  | _ => rfl

theorem one {c : Constant} (h : Constant.one? ty = some c) : (Value.ofConstant c).Has E W ty.nominal := by
  rw [← nonNullable_iff]
  rw [Constant.one?] at h
  generalize ty.nonNullable = t at h ⊢
  cases t with
  | int k => cases h; exact .ofLit (.int (.one k))
  | float k =>
    cases h
    refine ⟨.float ?_, trivial⟩
    cases k <;> rfl
  | _ => cases h

theorem oneLike (ht : ty.isArithmetic = true) (h : v.Has E W ty.nominal) :
    Ends (Fault.Allowed E) (Has E W ty.nominal) v.oneLike := by
  rw [← nonNullable_iff] at h
  refine Ends.imp ?_ fun _ => nonNullable_iff.1
  rw [Ty.isArithmetic] at ht
  generalize ty.nonNullable = t at h ht ⊢
  cases t with
  | int k =>
    cases h.fits with
    | null => exact .ok .null
    | int hk => exact .ok ⟨.int hk, trivial⟩
  | float k =>
    cases h.fits with
    | null => exact .ok .null
    | @float _ x hk =>
      refine .ok ⟨.float (Eq.trans ?_ hk), trivial⟩
      cases x <;> rfl
  | _ => cases ht

theorem onFloat {x y : FloatBits} (op : ArithOp) (h : x.kind = y.kind) :
    ∃ z, op.onFloat x y = some z ∧ z.kind = y.kind := by
  cases x <;> cases y <;> cases h <;> cases op <;> exact ⟨_, rfl, rfl⟩

theorem ofExact (checked : Bool) (k : IntKind) (n : Int) :
    Ends (Fault.Allowed E) (Has E W (.int k)) (Value.ofExact checked k n) := by
  rw [Value.ofExact]
  cases checked with
  | true =>
    rw [if_pos rfl, Word.ofInt?]
    split
    · rename_i hw
      split at hw
      · cases hw
        exact .ok ⟨.int rfl, trivial⟩
      · cases hw
    · exact .error .overflow
  | false => exact .ok ⟨.int rfl, trivial⟩

theorem arith (op : ArithOp) (checked : Bool) (ht : ty.isArithmetic = true) (h : v.Has E W ty.nominal)
    (hu : u.Has E W ty.nominal) : Ends (Fault.Allowed E) (Has E W ty.nominal) (Value.arith op checked v u) := by
  rw [← nonNullable_iff] at h hu
  refine Ends.imp ?_ fun _ => nonNullable_iff.1
  rw [Ty.isArithmetic] at ht
  generalize ty.nonNullable = t at h hu ht ⊢
  cases t with
  | int k =>
    cases h.fits with
    | null => exact .ok .null
    | @int _ x hx =>
      cases hu.fits with
      | null => exact .ok .null
      | int hy =>
        simp only [Value.arith, hx, hy, if_true]
        exact ofExact checked k _
  | float k =>
    cases h.fits with
    | null => exact .ok .null
    | @float _ x hx =>
      cases hu.fits with
      | null => exact .ok .null
      | float hy =>
        obtain ⟨z, hz, hk⟩ := onFloat op (hx.trans hy.symm)
        simp only [Value.arith, hz]
        exact .ok ⟨.float (hk.trans hy), trivial⟩
  | _ => cases ht

end Value.Has

end

end ExprLowering
