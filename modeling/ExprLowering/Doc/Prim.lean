import ExprLowering.Doc.Ty
import ExprLowering.Prim

/-!
# Primitive trees as documents

Each node is a record with one field, whose name is the form of the node. The identity of quoted code
is not written; a quotation that is read gets a new one.
-/

namespace ExprLowering

def ArithOp.tag : ArithOp → String
  | add => "Add"
  | sub => "Sub"
  | mul => "Mul"

def ArithOp.ofTag? (s : String) : Option ArithOp :=
  all.find? (·.tag == s)

def IncDec.ofTitle? (s : String) : Option IncDec :=
  all.find? (·.title == s)

mutual

def Prim.toDoc : Prim → Doc
  | .const c => .tagged "Const" c.toDoc
  | .read v => .tagged "Read" v.toDoc
  | .assign target value =>
    .tagged "Assign" (.record [("target", placeDoc target), ("value", value.toDoc)])
  | .block locals body =>
    .tagged "Block" (.record [("locals", .list (locals.map Var.toDoc)), ("body", .list (toDocs body))])
  | .arith op checked left right =>
    .tagged "Arith" (.record [("op", .str op.tag), ("checked", .bool checked),
      ("left", left.toDoc), ("right", right.toDoc)])
  | .step op target =>
    .tagged "UnaryAssign" (.record [("op", .str op.title), ("target", placeDoc target)])
  | .newArray ty bounds =>
    .tagged "NewArrayBounds" (.record [("element", ty.toDoc), ("bounds", .list (toDocs bounds))])
  | .constArray ty bounds values =>
    .tagged "ConstArray" (.record [("element", ty.toDoc),
      ("bounds", .list (bounds.map fun (n : Nat) => .int n)),
      ("values", .list (values.map Constant.toDoc))])
  | .element array indices =>
    .tagged "Element" (.record [("array", array.toDoc), ("indices", .list (toDocs indices))])
  | .call callee args =>
    .tagged "Call" (.record [("callee", callee.toDoc), ("args", .list (toDocs args))])
  | .callMethod method args =>
    .tagged "CallMethod" (.record [("method", method.toDoc), ("args", .list (toDocs args))])
  | .lambda code => .tagged "Lambda" (codeDoc code)
  | .quote _ code => .tagged "Quote" (codeDoc code)

def Prim.placeDoc : Place Prim → Doc
  | .var v => .tagged "Var" v.toDoc
  | .element array indices =>
    .tagged "Element" (.record [("array", array.toDoc), ("indices", .list (toDocs indices))])

def Prim.codeDoc : Lambda Prim → Doc
  | ⟨signature, params, body⟩ => .record [("signature", signature.toDoc),
    ("params", .list (params.map Var.toDoc)), ("body", body.toDoc)]

def Prim.toDocs : List Prim → List Doc
  | [] => []
  | p :: ps => p.toDoc :: toDocs ps

end

/-- Reads a document; the state is the next stamp. -/
abbrev Reader := StateT Stamp Option

def Reader.freshStamp : Reader Stamp :=
  fun s => some (s, s + 1)

/-- Reads each of the documents. -/
def Reader.all {α : Type} (f : Doc → Option α) (ds : List Doc) : Reader (List α) :=
  liftM (ds.mapM f)

/-- A bound of a constant array. -/
def Doc.nat? : Doc → Option Nat
  | .int (.ofNat n) => some n
  | _ => none

section
variable (read : FloatReader)

mutual

def Prim.ofDocWith? : Doc → Reader Prim
  | .record [("Const", c)] => do return .const (← Constant.ofDocWith? read c)
  | .record [("Read", v)] => do return .read (← Var.ofDocWith? read v)
  | .record [("Assign", .record [("target", target), ("value", value)])] => do
    let target ← placeOfDocWith? target
    let value ← ofDocWith? value
    return .assign target value
  | .record [("Block", .record [("locals", .list locals), ("body", .list body)])] => do
    let locals ← Reader.all (Var.ofDocWith? read) locals
    let body ← ofDocsWith? body
    return .block locals body
  | .record [("Arith", .record [("op", .str op), ("checked", .bool checked), ("left", left),
      ("right", right)])] => do
    let op ← ArithOp.ofTag? op
    let left ← ofDocWith? left
    let right ← ofDocWith? right
    return .arith op checked left right
  | .record [("UnaryAssign", .record [("op", .str op), ("target", target)])] => do
    let op ← IncDec.ofTitle? op
    let target ← placeOfDocWith? target
    return .step op target
  | .record [("NewArrayBounds", .record [("element", ty), ("bounds", .list bounds)])] => do
    let ty ← Ty.ofDocWith? read ty
    let bounds ← ofDocsWith? bounds
    return .newArray ty bounds
  | .record [("ConstArray", .record [("element", ty), ("bounds", .list bounds),
      ("values", .list values)])] => do
    let ty ← Ty.ofDocWith? read ty
    let bounds ← Reader.all Doc.nat? bounds
    let values ← Reader.all (Constant.ofDocWith? read) values
    return .constArray ty bounds values
  | .record [("Element", .record [("array", array), ("indices", .list indices)])] => do
    let array ← ofDocWith? array
    let indices ← ofDocsWith? indices
    return .element array indices
  | .record [("Call", .record [("callee", callee), ("args", .list args)])] => do
    let callee ← ofDocWith? callee
    let args ← ofDocsWith? args
    return .call callee args
  | .record [("CallMethod", .record [("method", method), ("args", .list args)])] => do
    let method ← Method.ofDocWith? read method
    let args ← ofDocsWith? args
    return .callMethod method args
  | .record [("Lambda", code)] => do return .lambda (← codeOfDocWith? code)
  | .record [("Quote", code)] => do
    let code ← codeOfDocWith? code
    return .quote (← Reader.freshStamp) code
  | _ => failure

def Prim.placeOfDocWith? : Doc → Reader (Place Prim)
  | .record [("Var", v)] => do return .var (← Var.ofDocWith? read v)
  | .record [("Element", .record [("array", array), ("indices", .list indices)])] => do
    let array ← ofDocWith? array
    let indices ← ofDocsWith? indices
    return .element array indices
  | _ => failure

def Prim.codeOfDocWith? : Doc → Reader (Lambda Prim)
  | .record [("signature", signature), ("params", .list params), ("body", body)] => do
    let signature ← Signature.ofDocWith? read signature
    let params ← Reader.all (Var.ofDocWith? read) params
    let body ← ofDocWith? body
    return ⟨signature, params, body⟩
  | _ => failure

def Prim.ofDocsWith? : List Doc → Reader (List Prim)
  | [] => pure []
  | d :: ds => do
    let p ← ofDocWith? d
    let ps ← ofDocsWith? ds
    return p :: ps

end

end

/-- Reads a document that was written from a tree. -/
def Prim.ofDoc? : Doc → Reader Prim :=
  ofDocWith? fun k n => n.toFloat? k

end ExprLowering
