import ExprLowering.Expr.Basic
import ExprLowering.Expr.Error

/-!
# Binding arguments to parameters

A call may name the parameter of each argument by a descriptor. `Signature.checkBound` accepts a list
of descriptors when each is declared, no position repeats, and every parameter without a default is
bound. `Signature.slots?` then says where the argument of each declared parameter comes from.
-/

namespace ExprLowering

/-- A value bound to a parameter that takes it. -/
structure Binding where
  param : Descriptor
  value : Expr
  accepts : param.ty.accepts value.ty = true

namespace Binding

/-- Binds `value` to `param`. -/
def make (param : Descriptor) (value : Expr) : Except BuildError Binding :=
  if h : param.ty.accepts value.ty = true then .ok ⟨param, value, h⟩
  else .error (.typeMismatch param.ty value.ty)

def same (a b : Binding) : Bool :=
  a.param.parameter.same b.param.parameter && a.value.same b.value

/-- The binding with another value; the binding itself if the value is the same. -/
def update (b : Binding) (value : Expr) : Except BuildError Binding :=
  if value.same b.value then .ok b else make b.param value

end Binding

/-- Where the argument of a declared parameter comes from. -/
inductive Slot where
  /-- The value of the binding at this index. -/
  | bound (i : Nat)
  | default (c : Constant)

namespace Signature

/-- Goes through the descriptors in order, `bound` being the positions already taken. -/
def checkMembers (s : Signature) (bound : List Nat) : List Descriptor → Except BuildError (List Nat)
  | [] => .ok bound
  | d :: ds =>
    if (s.declared? d).isNone then .error (.notAMember d.name s.name)
    else if bound.contains d.position then .error (.duplicateBinding d.name)
    else s.checkMembers (d.position :: bound) ds

/-- The first parameter that is neither bound nor has a default. -/
def firstUnbound? (s : Signature) (bound : List Nat) : Option Parameter :=
  s.parameters.find? fun p => !bound.contains p.position && !p.isOptional

def checkBound (s : Signature) (ds : List Descriptor) : Except BuildError Unit :=
  match s.checkMembers [] ds with
  | .error e => .error e
  | .ok bound =>
    match s.firstUnbound? bound with
    | some p => .error (.unboundRequired p.name)
    | none => .ok ()

/-- The first binding at the parameter's position, or else the parameter's default. -/
def slot? (ds : List Descriptor) (p : Parameter) : Option Slot :=
  match ds.findIdx? (·.position == p.position) with
  | some i => some (.bound i)
  | none => p.default.map .default

/-- One slot for each parameter, in declaration order. -/
def slots? (s : Signature) (ds : List Descriptor) : Option (List Slot) :=
  s.parameters.mapM (slot? ds)

end Signature

namespace Descriptor

/-- Whether positions increase along the list. -/
def inOrder : List Descriptor → Bool
  | d :: e :: ds => d.position < e.position && inOrder (e :: ds)
  | _ => true

end Descriptor

end ExprLowering
