import ExprLowering.Literal
import ExprLowering.Text.Quoted

/-!
# Types, signatures and constants

A function type names a signature, a signature lists formal parameters with their types and
defaults, a default is a constant, and a null constant carries a type; so the four are defined
together.

Signatures are nominal: each has an identity, and two function types are the same type exactly when
the identities of their signatures agree. `Ty.nominal` is the view of a type in which this is plain
equality, and `==` on types compares that view.
-/

namespace ExprLowering

/-- The identity of a signature. -/
structure SigId where
  text : String
deriving DecidableEq, Repr

mutual

inductive Ty where
  | void
  | bool
  | int (kind : IntKind)
  | float (kind : FloatKind)
  | str
  | object
  | array (element : Ty) (rank : Nat)
  /-- A callable value. -/
  | fn (signature : Signature)
  /-- A lambda kept as data; the inner type is the lambda's function type. -/
  | quoted (inner : Ty)
  | nullable (inner : Ty)

/-- A typed literal, or the null of a type. -/
inductive Constant where
  | null (ty : Ty)
  | lit (value : Literal)

/-- A formal parameter; one with a default may be left out of a call. It belongs to the signature in
whose list it stands, at its position there: a document, which writes both for every parameter, is
read only if it says the same. -/
structure Formal where
  name : String
  ty : Ty
  default : Option Constant

structure Signature where
  id : SigId
  name : String
  params : List Formal
  result : Ty

end

instance : Inhabited Ty := ⟨.void⟩

/-- A type with each signature replaced by its identity. -/
inductive NominalTy where
  | void
  | bool
  | int (kind : IntKind)
  | float (kind : FloatKind)
  | str
  | object
  | array (element : NominalTy) (rank : Nat)
  | fn (signature : SigId)
  | quoted (inner : NominalTy)
  | nullable (inner : NominalTy)
deriving DecidableEq

namespace Ty

def nominal : Ty → NominalTy
  | void => .void
  | bool => .bool
  | int k => .int k
  | float k => .float k
  | str => .str
  | object => .object
  | array e r => .array e.nominal r
  | fn s => .fn s.id
  | quoted t => .quoted t.nominal
  | nullable t => .nullable t.nominal

instance : BEq Ty := ⟨fun t u => t.nominal == u.nominal⟩

theorem beq_iff {t u : Ty} : t == u ↔ t.nominal = u.nominal := by
  simp only [BEq.beq, decide_eq_true_eq]

/-- The type under one layer of `nullable`. -/
def nonNullable : Ty → Ty
  | nullable t => t
  | t => t

def isNullable : Ty → Bool
  | nullable _ => true
  | _ => false

def isInteger : Ty → Bool
  | int _ => true
  | _ => false

def isFloat : Ty → Bool
  | float _ => true
  | _ => false

def isNumeric (t : Ty) : Bool :=
  t.isInteger || t.isFloat

/-- Numeric, or nullable of a numeric type. -/
def isArithmetic (t : Ty) : Bool :=
  t.nonNullable.isNumeric

def isReference : Ty → Bool
  | str | object | array _ _ | fn _ | quoted _ => true
  | _ => false

/-- Whether a place of type `t` takes a value of type `source`: the same type, or any reference
for `object`. -/
def accepts (t source : Ty) : Bool :=
  t == source || (t == object && source.isReference)

def signature? : Ty → Option Signature
  | fn s => some s
  | _ => none

/-- Element type and rank of an array type. -/
def element? : Ty → Option (Ty × Nat)
  | array e r => some (e, r)
  | _ => none

end Ty

mutual

def Ty.text : Ty → String
  | .void => "void"
  | .bool => "bool"
  | .int k => k.name
  | .float k => k.name
  | .str => "str"
  | .object => "object"
  | .array e r => e.text ++ "[" ++ String.ofList (List.replicate (r - 1) ',') ++ "]"
  | .fn s => s.text
  | .quoted t => "quote<" ++ t.text ++ ">"
  | .nullable t => t.text ++ "?"

def Signature.text : Signature → String
  | ⟨_, name, params, result⟩ =>
    name ++ "(" ++ ", ".intercalate (Formal.tyTexts params) ++ ") -> " ++ result.text

def Formal.tyTexts : List Formal → List String
  | [] => []
  | ⟨_, ty, _⟩ :: params => ty.text :: Formal.tyTexts params

end

/-- Signatures are equal when their identities are. -/
instance : BEq Signature := ⟨fun s t => s.id == t.id⟩

namespace Literal

def ty : Literal → Ty
  | bool _ => .bool
  | int w => .int w.kind
  | float x => .float x.kind
  | str _ => .str

end Literal

namespace Constant

def ty : Constant → Ty
  | null t => t
  | lit l => l.ty

/-- Equality with floats compared as numbers: a NaN differs from itself. -/
def numEq : Constant → Constant → Bool
  | null t, null u => t == u
  | lit a, lit b => a.numEq b
  | _, _ => false

/-- Equality with floats compared by their bits. -/
def identical : Constant → Constant → Bool
  | null t, null u => t == u
  | lit a, lit b => a == b
  | _, _ => false

/-- The number one of an arithmetic type. -/
def one? (t : Ty) : Option Constant :=
  match t.nonNullable with
  | .int k => some (.lit (.int (.one k)))
  | .float k => some (.lit (.float (.one k)))
  | _ => none

/-- The text of a constant: integers and floats are followed by their kind, except for the default
kind, and text is quoted. -/
def text : Constant → String
  | null _ => "null"
  | lit (.int w) => if w.kind = .i32 then w.text else w.text ++ w.kind.name
  | lit (.float x) => x.text ++ x.kind.name
  | lit (.str s) => Text.quoted s
  | lit l => l.text

end Constant

end ExprLowering
