import ExprLowering.Ty

/-!
# Parameter descriptors

A caller names the parameter that it binds by a descriptor. The signature's own descriptors are
`held`; a `copy` carries fields of its own, which may differ from those of the declared parameter.
A signature declares a descriptor when it holds it, or when the descriptor's fields equal those of
the parameter at its position. What another signature holds is not its own, also if the two go by one
identity: to hold a descriptor, the signature has to be equal in everything (`Signature.equals`).
-/

namespace ExprLowering

mutual

def Ty.equals : Ty → Ty → Bool
  | .void, .void | .bool, .bool | .str, .str | .object, .object => true
  | .int k, .int l => k == l
  | .float k, .float l => k == l
  | .array e r, .array f q => e.equals f && r == q
  | .fn s, .fn t => s.equals t
  | .quoted t, .quoted u => t.equals u
  | .nullable t, .nullable u => t.equals u
  | _, _ => false
termination_by structural t => t

def Constant.equals : Constant → Constant → Bool
  | .null t, .null u => t.equals u
  | .lit a, .lit b => a == b
  | _, _ => false
termination_by structural c => c

def Constant.defaultEquals : Option Constant → Option Constant → Bool
  | none, none => true
  | some c, some d => c.equals d
  | _, _ => false
termination_by structural c => c

def Formal.equalsAll : List Formal → List Formal → Bool
  | [], [] => true
  | ⟨name, t, c⟩ :: fs, ⟨name', u, d⟩ :: gs =>
    name == name' && t.equals u && Constant.defaultEquals c d && Formal.equalsAll fs gs
  | _, _ => false
termination_by structural fs => fs

/-- Equality in everything, down to the signatures that types mention. -/
def Signature.equals : Signature → Signature → Bool
  | ⟨id, name, params, result⟩, ⟨id', name', params', result'⟩ =>
    id == id' && name == name' && Formal.equalsAll params params' && result.equals result'
termination_by structural s => s

end

/-- What a descriptor says about a parameter. -/
structure Parameter where
  owner : SigId
  position : Nat
  name : String
  ty : Ty
  default : Option Constant

namespace Parameter

/-- Whether two parameters are at the same position of the same signature. -/
def same (p q : Parameter) : Bool :=
  p.owner == q.owner && p.position == q.position

def isOptional (p : Parameter) : Bool :=
  p.default.isSome

/-- Equality of two defaults, with floats compared as numbers. -/
def defaultEq : Option Constant → Option Constant → Bool
  | none, none => true
  | some c, some d => c.numEq d
  | _, _ => false

instance : BEq Parameter := ⟨fun p q =>
  p.owner == q.owner && p.position == q.position && p.name == q.name && p.ty == q.ty &&
    defaultEq p.default q.default⟩

end Parameter

namespace Signature

/-- The parameter at position `i`. -/
def param (s : Signature) (i : Fin s.params.length) : Parameter :=
  let f := s.params.get i
  ⟨s.id, i, f.name, f.ty, f.default⟩

def param? (s : Signature) (i : Nat) : Option Parameter :=
  if h : i < s.params.length then some (s.param ⟨i, h⟩) else none

/-- All parameters, in declaration order. -/
def parameters (s : Signature) : List Parameter :=
  (List.finRange s.params.length).map s.param

def owns (s : Signature) (p : Parameter) : Bool :=
  p.owner == s.id

end Signature

/-- A descriptor of a parameter. -/
inductive Descriptor where
  /-- The descriptor that the signature itself holds. -/
  | held (signature : Signature) (i : Fin signature.params.length)
  /-- A descriptor made on its own. -/
  | copy (p : Parameter)

namespace Descriptor

def parameter : Descriptor → Parameter
  | held s i => s.param i
  | copy p => p

def position (d : Descriptor) : Nat :=
  d.parameter.position

def name (d : Descriptor) : String :=
  d.parameter.name

def ty (d : Descriptor) : Ty :=
  d.parameter.ty

def isHeldBy (s : Signature) : Descriptor → Bool
  | held t _ => t.equals s
  | copy _ => false

end Descriptor

namespace Signature

/-- The descriptor at position `i`. -/
def descriptor? (s : Signature) (i : Nat) : Option Descriptor :=
  if h : i < s.params.length then some (.held s ⟨i, h⟩) else none

/-- The first descriptor with the given name. -/
def find? (s : Signature) (name : String) : Option Descriptor :=
  (s.params.findIdx? (·.name == name)).bind s.descriptor?

/-- The declared parameter that the descriptor stands for. -/
def declared? (s : Signature) (d : Descriptor) : Option Parameter :=
  (s.param? d.position).filter fun p => d.isHeldBy s || p == d.parameter

end Signature

/-- A user-defined operator: its implementation is found by name when it runs. -/
structure Method where
  name : String
  signature : Signature

namespace Method

instance : BEq Method := ⟨fun m n => m.name == n.name && m.signature == n.signature⟩

def text (m : Method) : String :=
  m.name ++ ": " ++ m.signature.text

end Method

end ExprLowering
