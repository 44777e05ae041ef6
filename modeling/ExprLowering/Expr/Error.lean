import ExprLowering.Expr.Kind
import ExprLowering.Ty

/-!
# Why a node cannot be made

One constructor for each cause, and its message.
-/

namespace ExprLowering

/-- Why a method cannot serve as the operator of an increment or decrement. -/
inductive OperatorDefect where
  | arity (found : Nat)
  | operand (param operand : Ty)
  | result (result operand : Ty)

def OperatorDefect.message : OperatorDefect → String
  | arity found => s!"expected exactly one parameter, found {found}"
  | operand p t => s!"parameter of type {p.text} does not accept operand of type {t.text}"
  | result r t => s!"result of type {r.text} cannot be stored into {t.text}"

inductive BuildError where
  | missingArgument (argument : String)
  | rankMismatch (expected found : Nat)
  | indexOutOfRange (dimension : Nat) (index : Int) (bound : Nat)
  | boundNegative (dimension : Nat) (bound : Int)
  | emptyBounds
  | boundsOverflow
  | elementCount (expected found : Nat)
  | voidElement
  | elementType (position : Nat) (element expected : Ty)
  | duplicateBinding (parameter : String)
  | unboundRequired (parameter : String)
  | notAMember (parameter callee : String)
  | notAssignable (kind : NodeKind)
  | notCallable (ty : Ty)
  | notAnArray (ty : Ty)
  | notALambda (kind : NodeKind)
  | typeMismatch (expected found : Ty)
  | argumentCount (expected found : Nat)
  | notDefined (kind : NodeKind) (ty : Ty)
  | badOperator (method : String) (defect : OperatorDefect)
  /-- The parts do not have the form that the head asks for. -/
  | malformed (reason : String)

def BuildError.message : BuildError → String
  | missingArgument argument => s!"missing required argument `{argument}`"
  | rankMismatch expected found => s!"rank mismatch: expected {expected} indices, got {found}"
  | indexOutOfRange dimension index bound =>
    s!"index {index} out of range for dimension {dimension} (bound {bound})"
  | boundNegative dimension bound => s!"bound {bound} of dimension {dimension} is negative"
  | emptyBounds => "array bounds must have at least one dimension"
  | boundsOverflow => "product of array bounds overflows"
  | elementCount expected found => s!"array bounds require {expected} elements, got {found}"
  | voidElement => "array element type cannot be void"
  | elementType position element expected =>
    s!"element {position} of type {element.text} cannot initialize an array of {expected.text}"
  | duplicateBinding parameter => s!"parameter `{parameter}` is bound more than once"
  | unboundRequired parameter => s!"required parameter `{parameter}` is not bound"
  | notAMember parameter callee => s!"parameter `{parameter}` is not a member of `{callee}`"
  | notAssignable kind => s!"{kind.title} is not an assignable location"
  | notCallable ty => s!"expression of type {ty.text} is not callable"
  | notAnArray ty => s!"expression of type {ty.text} is not an array"
  | notALambda kind => s!"{kind.title} is not a lambda and cannot be quoted"
  | typeMismatch expected found =>
    s!"type mismatch: expected {expected.text}, found {found.text}"
  | argumentCount expected found =>
    s!"argument count mismatch: expected {expected}, found {found}"
  | notDefined kind ty => s!"{kind.title} is not defined for type {ty.text}"
  | badOperator method defect =>
    s!"method `{method}` cannot implement a unary assignment: {defect.message}"
  | malformed reason => s!"internal error: {reason}"

end ExprLowering
