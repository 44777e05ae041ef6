import ExprLowering.Operator
import ExprLowering.Signature
import ExprLowering.Var

/-!
# Primitive trees

The closed set of operations that expressions are lowered to. The parts of a node are evaluated from
left to right and the statements of a block from top to bottom.

A quotation yields its lambda as data. Quoted code is compared by identity, so a quotation carries a
stamp.
-/

namespace ExprLowering

/-- A storage location. -/
inductive Place (α : Type) where
  | var (v : Var)
  | element (array : α) (indices : List α)

/-- A function: its signature, its parameters and its body. -/
structure Lambda (α : Type) where
  signature : Signature
  params : List Var
  body : α

/-- The function with a body made from its own. -/
def Lambda.map {α β : Type} (f : α → β) (code : Lambda α) : Lambda β :=
  ⟨code.signature, code.params, f code.body⟩

inductive Prim where
  | const (c : Constant)
  | read (v : Var)
  /-- Stores a value and yields it. -/
  | assign (target : Place Prim) (value : Prim)
  /-- Makes locals, which start at the default of their type, and yields the last statement. -/
  | block (locals : List Var) (body : List Prim)
  | arith (op : ArithOp) (checked : Bool) (left right : Prim)
  /-- Wrapping increment or decrement of a location, which is evaluated once. -/
  | step (op : IncDec) (target : Place Prim)
  /-- A new array of default elements. -/
  | newArray (element : Ty) (bounds : List Prim)
  /-- A new array of constants in row-major order. -/
  | constArray (element : Ty) (bounds : List Nat) (values : List Constant)
  | element (array : Prim) (indices : List Prim)
  | call (callee : Prim) (args : List Prim)
  | callMethod (method : Method) (args : List Prim)
  | lambda (code : Lambda Prim)
  | quote (stamp : Stamp) (code : Lambda Prim)

/-- The value at a location. -/
def Place.read : Place Prim → Prim
  | .var v => .read v
  | .element array indices => .element array indices

namespace Prim

instance : Inhabited Prim := ⟨block [] []⟩

/-- Constants and variables: evaluating them has no effect. -/
def isTrivial : Prim → Bool
  | const _ | read _ => true
  | _ => false

mutual

/-- All nodes, each before its parts, including the bodies of lambdas. -/
def preorder : Prim → List Prim
  | const c => [const c]
  | read v => [read v]
  | assign target value => assign target value :: (placePreorder target ++ preorder value)
  | block locals body => block locals body :: listPreorder body
  | arith op checked left right =>
    arith op checked left right :: (preorder left ++ preorder right)
  | step op target => step op target :: placePreorder target
  | newArray e bounds => newArray e bounds :: listPreorder bounds
  | constArray e bounds values => [constArray e bounds values]
  | element array indices => element array indices :: (preorder array ++ listPreorder indices)
  | call callee args => call callee args :: (preorder callee ++ listPreorder args)
  | callMethod method args => callMethod method args :: listPreorder args
  | lambda code => lambda code :: codePreorder code
  | quote stamp code => quote stamp code :: codePreorder code

def placePreorder : Place Prim → List Prim
  | .var _ => []
  | .element array indices => preorder array ++ listPreorder indices

def codePreorder : Lambda Prim → List Prim
  | ⟨_, _, body⟩ => preorder body

def listPreorder : List Prim → List Prim
  | [] => []
  | p :: ps => preorder p ++ listPreorder ps

end

end Prim

end ExprLowering
