import ExprLowering.Expr.Kind
import ExprLowering.Signature
import ExprLowering.Var

/-!
# Expressions

An expression is a constant, a variable, or a composite node: a head, which holds all of the node's
data but its subexpressions, applied to the subexpressions in evaluation order. A composite node
also carries a stamp, its identity. Two occurrences of one node are the `same` expression; two nodes
that were made one after the other are not, however alike they look.

The parts of each head, in order:

* `index`: the array, then one index for each dimension
* `binary`, `assign`: the left and the right side
* `call`: the callee, then the arguments
* `invoke`: the callee, then one value for each descriptor
* `block`, `array`: the statements, the elements
* `lambda`, `quote`, `step`: one part
-/

namespace ExprLowering

inductive Head where
  | index
  | binary (op : ArithOp) (checked : Bool)
  | call
  | assign
  | block (locals : List Var)
  | lambda (signature : Signature) (params : List Var)
  | quote
  /-- Increment or decrement of a location, by one or by a user-defined operator. -/
  | step (kind : StepKind) (method : Option Method)
  /-- An array with its elements listed in row-major order. -/
  | array (element : Ty) (bounds : List Int32)
  /-- A call whose arguments are bound to parameters by descriptor. -/
  | invoke (params : List Descriptor)

def Head.kind : Head → NodeKind
  | index => .index
  | binary _ _ => .binary
  | call => .call
  | assign => .assign
  | block _ => .block
  | lambda _ _ => .lambda
  | quote => .quote
  | step k _ => .step k
  | array _ _ => .arrayInit
  | invoke _ => .invoke

inductive Expr where
  | const (c : Constant)
  | var (v : Var)
  | node (stamp : Stamp) (head : Head) (parts : List Expr)

namespace Expr

def kind : Expr → NodeKind
  | const _ => .const
  | var _ => .var
  | node _ head _ => head.kind

/-- What the node was applied to. -/
def parts : Expr → List Expr
  | const _ | var _ => []
  | node _ _ parts => parts

/-- The direct subexpressions, in evaluation order. -/
def children : Expr → List Expr
  | const _ | var _ => []
  | node _ .index (array :: indices) => array :: indices
  | node _ (.binary _ _) [left, right] => [left, right]
  | node _ .call (callee :: args) => callee :: args
  | node _ .assign [target, value] => [target, value]
  | node _ (.block _) body => body
  | node _ (.lambda _ _) [body] => [body]
  | node _ .quote [operand] => [operand]
  | node _ (.step _ _) [operand] => [operand]
  | node _ (.array _ _) elements => elements
  | node _ (.invoke _) (callee :: values) => callee :: values
  | node _ _ _ => []

/-- Variables and array elements can be stored to. -/
def isLocation : Expr → Bool
  | var _ | node _ .index _ => true
  | _ => false

def isLambda : Expr → Bool
  | node _ (.lambda _ _) _ => true
  | _ => false

/-- The result type of a callable type. -/
def resultTy (callee : Ty) : Ty :=
  match callee.signature? with
  | some s => s.result
  | none => .void

/-- The element type of an array type. -/
def elementTy (array : Ty) : Ty :=
  match array.element? with
  | some (e, _) => e
  | none => .void

mutual

/-- The static type. -/
def ty : Expr → Ty
  | const c => c.ty
  | var v => v.ty
  | node _ .index (array :: _) => elementTy array.ty
  | node _ (.binary _ _) (left :: _) => left.ty
  | node _ .call (callee :: _) => resultTy callee.ty
  | node _ .assign (target :: _) => target.ty
  | node _ (.block _) body => lastTy body
  | node _ (.lambda signature _) _ => .fn signature
  | node _ .quote (operand :: _) => .quoted operand.ty
  | node _ (.step _ _) (operand :: _) => operand.ty
  | node _ (.array element bounds) _ => .array element bounds.length
  | node _ (.invoke _) (callee :: _) => resultTy callee.ty
  | node _ _ [] => .void

/-- The type of the last expression of a list. -/
def lastTy : List Expr → Ty
  | [] => .void
  | [e] => e.ty
  | _ :: e :: es => lastTy (e :: es)

end

/-- The same node, or an equal leaf. -/
def same : Expr → Expr → Bool
  | const c, const d => c.identical d
  | var v, var w => v == w
  | node s _ _, node t _ _ => s == t
  | _, _ => false

/-- Whether two lists are of one length and pairwise the same. -/
def sameAll : List Expr → List Expr → Bool
  | [], [] => true
  | d :: ds, e :: es => d.same e && sameAll ds es
  | _, _ => false

end Expr

end ExprLowering
