import ExprLowering.Operator
import ExprLowering.Var

/-!
# What can go wrong at run time

One constructor for each cause, and its message.
-/

namespace ExprLowering

/-- A value of the wrong type was met. Types of values are given by name. -/
inductive TypeFault where
  | notAnIndex (found : String)
  | notAnArray (found : String)
  | notANumber (found : String)
  | operands (op : ArithOp) (left right : String)
  | rank (rank indices : Nat)
  /-- Reported by a host function. -/
  | host (message : String)

def TypeFault.message : TypeFault → String
  | notAnIndex found => s!"expected an integer index, found {found}"
  | notAnArray found => s!"expected an array, found {found}"
  | notANumber found => s!"cannot increment or decrement {found}"
  | operands op left right => s!"cannot {op.name} {left} and {right}"
  | rank r n => s!"array of rank {r} indexed with {n} indices"
  | host message => message

inductive Fault where
  | overflow
  | unbound (v : Var)
  | undefinedMethod (name : String)
  | indexOutOfRange (dimension : Nat) (index : Int) (bound : Nat)
  | negativeBound (bound : Int)
  | notCallable (found : String)
  | argumentCount (expected found : Nat)
  | type (fault : TypeFault)
  /-- Reported by the host function `name`. -/
  | native (name message : String)
  | stackOverflow (limit : Nat)
  | sizeOverflow
  | elementCount (expected found : Nat)

namespace Fault

def message : Fault → String
  | overflow => "arithmetic overflow"
  | unbound v => s!"unbound variable: {v.text}"
  | undefinedMethod name => s!"undefined method: {name}"
  | indexOutOfRange dimension index bound =>
    s!"index {index} out of range for dimension {dimension} (bound {bound})"
  | negativeBound bound => s!"negative array bound: {bound}"
  | notCallable found => s!"value of type {found} is not callable"
  | argumentCount expected found =>
    s!"argument count mismatch: expected {expected}, found {found}"
  | type fault => s!"type error at runtime: {fault.message}"
  | native name message => s!"native function `{name}` failed: {message}"
  | stackOverflow limit => s!"stack overflow: call depth exceeded {limit}"
  | sizeOverflow => "array size overflows"
  | elementCount expected found =>
    s!"array of {found} elements cannot fill bounds holding {expected}"

def isOverflow : Fault → Bool
  | overflow => true
  | _ => false

end Fault

end ExprLowering
