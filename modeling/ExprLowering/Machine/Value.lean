import ExprLowering.Machine.Fault
import ExprLowering.Prim

/-!
# Values

Scalars are values themselves. Arrays live in a store and are known by their number there, host
functions by the number that the host gave them, and closures and quoted code by a number that no
other closure or quotation has; equality of these is equality of the numbers.

What the body of a function is made of is left open. The machine's own functions have primitive
trees for bodies.
-/

namespace ExprLowering

/-- The number of a variable cell in a store. -/
abbrev CellId := Nat

/-- The number of an array in a store. -/
abbrev GridId := Nat

/-- The cells of the variables of one scope; of two entries for a variable the first counts. -/
abbrev Scope := List (VarId × CellId)

/-- A function of the host. -/
structure NativeFn where
  id : Nat
  name : String
deriving DecidableEq, Repr

inductive Value (α : Type := Prim) where
  | null
  | lit (l : Literal)
  | array (a : GridId)
  | native (f : NativeFn)
  /-- A lambda together with the cells of the variables that were in scope where it was made. -/
  | closure (stamp : Stamp) (code : Lambda α) (captured : Scope)
  | quoted (stamp : Stamp) (code : Lambda α)

namespace Value
variable {α : Type}

instance : Inhabited (Value α) := ⟨null⟩

def ofConstant : Constant → Value α
  | .null _ => null
  | .lit l => lit l

def ofWord (w : Word) : Value α :=
  lit (.int w)

/-- What a variable or array element of the type starts with. -/
def defaultOf : Ty → Value α
  | .bool => lit (.bool false)
  | .int k => lit (.int (.zero k))
  | .float k => lit (.float (.zero k))
  | _ => null

def typeName : Value α → String
  | null => "null"
  | lit (.bool _) => "bool"
  | lit (.int w) => w.kind.name
  | lit (.float x) => x.kind.name
  | lit (.str _) => "str"
  | array _ => "array"
  | native _ | closure .. => "fn"
  | quoted .. => "quote"

/-- Equality of values: floats as numbers, and arrays, functions and quoted code by identity. -/
def eq : Value α → Value α → Bool
  | null, null => true
  | lit a, lit b => a.numEq b
  | array a, array b => a == b
  | native f, native g => f.id == g.id
  | closure s _ _, closure t _ _ => s == t
  | quoted s _, quoted t _ => s == t
  | _, _ => false

/-- The value as an array index or bound. -/
def asIndex (v : Value α) : Except Fault Int :=
  match v with
  | lit (.int w) =>
    match w.kind with
    | .i32 | .i64 | .u32 => .ok w.val
    | _ => .error (.type (.notAnIndex v.typeName))
  | _ => .error (.type (.notAnIndex v.typeName))

/-- The value as an array bound, which is not negative. -/
def asBound (v : Value α) : Except Fault Int := do
  let n ← v.asIndex
  if n < 0 then throw (.negativeBound n) else return n

def asArray (v : Value α) : Except Fault GridId :=
  match v with
  | array a => .ok a
  | _ => .error (.type (.notAnArray v.typeName))

end Value

end ExprLowering
