import ExprLowering.Expr.Check

/-!
# Making expressions

`Expr.make` checks a head against its parts and gives the new node a stamp of its own. The functions
after it are the ways to make each kind of node. `Expr.update` replaces the parts of a node, and
gives the very same node back when they did not change.
-/

namespace ExprLowering

/-- A computation that makes nodes: it draws stamps, and may fail. -/
abbrev Build := StateT Stamp (Except BuildError)

/-- A lambda among the elements of an array of quoted code is quoted on the way in. -/
def needsQuote (element : Ty) (e : Expr) : Bool :=
  match element with
  | .quoted inner => e.isLambda && e.ty == inner
  | _ => false

namespace Expr

def freshStamp : Build Stamp :=
  fun s => .ok (s, s + 1)

def tryQuote (element : Ty) (e : Expr) : Build (Option Expr) :=
  if needsQuote element e then do return some (.node (← freshStamp) .quote [e])
  else pure none

/-- Goes through the elements `given`, of which the first `position` are done. They are copied on
write: there is no copy until an element has to be quoted, and from then on the copy gets every
element. -/
def convertFrom (element : Ty) (given : List Expr) (position : Nat) (copy : Option (Array Expr)) :
    List Expr → Build (Option (Array Expr))
  | [] => pure copy
  | e :: rest =>
    if element.accepts e.ty then
      convertFrom element given (position + 1) (copy.map (·.push e)) rest
    else do
      let some quoted ← tryQuote element e | throw (.elementType position e.ty element)
      let copied := copy.getD (given.take position).toArray
      convertFrom element given (position + 1) (some (copied.push quoted)) rest

/-- The elements that an array of `element` holds: those given, if none of them had to be quoted. -/
def storeAll (element : Ty) (given : List Expr) : Build (List Expr) := do
  match ← convertFrom element given 0 none given with
  | some copy => return copy.toList
  | none => return given

/-- A new node, if the head applies to the parts. -/
def make (head : Head) (parts : List Expr) : Build Expr := do
  head.check parts
  let parts ← match head with
    | .array element _ => storeAll element parts
    | _ => pure parts
  return .node (← freshStamp) head parts

def mkIndex (array : Expr) (indices : List Expr) : Build Expr :=
  make .index (array :: indices)

def mkBinary (op : ArithOp) (checked : Bool) (left right : Expr) : Build Expr :=
  make (.binary op checked) [left, right]

def mkCall (callee : Expr) (args : List Expr) : Build Expr :=
  make .call (callee :: args)

def mkAssign (target value : Expr) : Build Expr :=
  make .assign [target, value]

def mkBlock (locals : List Var) (body : List Expr) : Build Expr :=
  make (.block locals) body

def mkLambda (signature : Signature) (params : List Var) (body : Expr) : Build Expr :=
  make (.lambda signature params) [body]

def mkQuote (operand : Expr) : Build Expr :=
  make .quote [operand]

def mkStep (kind : StepKind) (operand : Expr) (method : Option Method) : Build Expr :=
  make (.step kind method) [operand]

def mkArray (element : Ty) (bounds : List Int32) (elements : List Expr) : Build Expr :=
  make (.array element bounds) elements

def mkInvoke (callee : Expr) (bindings : List Binding) : Build Expr :=
  make (.invoke (bindings.map (·.param))) (callee :: bindings.map (·.value))

/-- The node with other parts. -/
def update (e : Expr) (parts : List Expr) : Build Expr :=
  match e with
  | node _ head old => if sameAll parts old then pure e else make head parts
  | _ => pure e

/-- Whether two lists of descriptors are of one length and pairwise at the same position of the same
signature. -/
def sameParams : List Descriptor → List Descriptor → Bool
  | [], [] => true
  | d :: ds, e :: es => d.parameter.same e.parameter && sameParams ds es
  | _, _ => false

/-- The invocation with another callee and other bindings, given by their descriptors and values. -/
def updateInvoke (e callee : Expr) (params : List Descriptor) (values : List Expr) : Build Expr :=
  match e with
  | node _ (.invoke oldParams) oldParts =>
    if sameParams params oldParams && sameAll (callee :: values) oldParts then pure e
    else make (.invoke params) (callee :: values)
  | _ => make (.invoke params) (callee :: values)

/-- The element of an array node at a multi-index. -/
def getElement (e : Expr) (indices : List Int) : Except BuildError Expr :=
  match e with
  | node _ (.array _ bounds) elements =>
    match Shape.offset (bounds.map (·.toInt.toNat)) indices with
    | .ok i =>
      match elements[i]? with
      | some e => .ok e
      | none => .error (.malformed "element is missing")
    | .error (.rank expected found) => .error (.rankMismatch expected found)
    | .error (.range dimension index bound) => .error (.indexOutOfRange dimension index bound)
  | _ => .error (.malformed "not an array node")

end Expr

/-! ### Making a node piece by piece -/

/-- The pieces of an array node; all are required. -/
structure ArrayPieces where
  element : Option Ty := none
  bounds : Option (List Int32) := none
  elements : Option (List Expr) := none

def ArrayPieces.build (p : ArrayPieces) : Build Expr := do
  let some element := p.element | throw (.missingArgument "element_type")
  let some bounds := p.bounds | throw (.missingArgument "bounds")
  let some elements := p.elements | throw (.missingArgument "initializers")
  Expr.mkArray element bounds elements

/-- The pieces of an invocation; both are required, and bindings add up. -/
structure InvokePieces where
  callee : Option Expr := none
  bindings : Option (List Binding) := none

namespace InvokePieces

def bind (p : InvokePieces) (bindings : List Binding) : InvokePieces :=
  { p with bindings := some (p.bindings.getD [] ++ bindings) }

def build (p : InvokePieces) : Build Expr := do
  let some callee := p.callee | throw (.missingArgument "callee")
  let some bindings := p.bindings | throw (.missingArgument "bindings")
  Expr.mkInvoke callee bindings

end InvokePieces

end ExprLowering
