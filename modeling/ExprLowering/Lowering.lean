import ExprLowering.Expr.Invocation
import ExprLowering.Lowering.Options
import ExprLowering.Prim
import ExprLowering.Shape

/-!
# Lowering expressions to primitive trees

`Expr.lower` gives a primitive tree in which every subexpression is evaluated once and in source
order. An extended node that uses a value more than once, or that passes arguments in another order
than it evaluates them, first stores them in fresh variables, the locals of a block.

Lowering counts how deep it has gone into the expression, and fails when the nesting exceeds the limit
of the options. Variables that were drawn from the supply before a failure stay used.
-/

namespace ExprLowering

inductive LowerError where
  | depthLimit (limit : Nat)
  /-- The expression breaks a rule that every node obeys when it is made. -/
  | malformed (reason : String)
deriving DecidableEq, Repr

def LowerError.message : LowerError → String
  | depthLimit limit => s!"expression nesting exceeds the lowering depth limit of {limit}"
  | malformed reason => s!"internal error: {reason}"

/-- How many levels of the expression are being lowered, and what has not been handed out yet. -/
structure LowerState where
  depth : Nat := 0
  supply : Supply

abbrev LowerM := ExceptT LowerError (StateM LowerState)

namespace LowerM
variable {α : Type}

def freshVar (name : String) (ty : Ty) : LowerM Var :=
  ExceptT.mk fun s => let (v, supply) := s.supply.fresh name ty; (.ok v, { s with supply })

def freshStamp : LowerM Stamp :=
  ExceptT.mk fun s => let (n, supply) := s.supply.freshStamp; (.ok n, { s with supply })

/-- The value, or a failure that no well-made expression brings about. -/
def demand (reason : String) : Option α → LowerM α
  | some a => pure a
  | none => throw (.malformed reason)

/-- Goes one level down, unless the limit is reached, and comes back up, also from a failure. -/
def nested (limit : Nat) (act : LowerM α) : LowerM α :=
  ExceptT.mk fun s =>
    if limit ≤ s.depth then (.error (.depthLimit limit), s)
    else
      let (result, s) := act.run { s with depth := s.depth + 1 }
      (result, { s with depth := s.depth - 1 })

end LowerM

/-! ### Temporaries -/

/-- A fresh variable and the tree whose value it holds. -/
structure Temp where
  var : Var
  init : Prim

namespace Temp

/-- Stores the value of a tree in a fresh variable. -/
def hold (name : String) (ty : Ty) (value : Prim) : LowerM (Prim × List Temp) := do
  let v ← .freshVar name ty
  return (.read v, [⟨v, value⟩])

/-- Like `hold`, but constants are used as they are. -/
def keep (name : String) (ty : Ty) : Prim → LowerM (Prim × List Temp)
  | .const c => pure (.const c, [])
  | value => hold name ty value

/-- Keeps the values in order. -/
def keepAll : List (String × Ty) → List Prim → LowerM (List Prim × List Temp)
  | (name, ty) :: labels, value :: values => do
    let (p, temps) ← keep name ty value
    let (ps, rest) ← keepAll labels values
    return (p :: ps, temps ++ rest)
  | _, _ => pure ([], [])

/-- Sets the temporaries, then runs the statements and yields the result. -/
def scope (temps : List Temp) (statements : List Prim) (result : Prim) : Prim :=
  if temps.isEmpty then result
  else .block (temps.map (·.var))
    (temps.map (fun t => .assign (.var t.var) t.init) ++ statements ++ [result])

end Temp

/-- Makes a lowered location safe to evaluate more than once. One whose parts are all trivial is so
already, unless code of the user may run in between (`pinned`). `operand` is the expression that the
location was lowered from. -/
def Place.settle (pinned : Bool) (operand : Expr) : Place Prim → LowerM (Place Prim × List Temp)
  | .var v => pure (.var v, [])
  | .element array indices =>
    if !pinned && array.isTrivial && indices.all (·.isTrivial) then
      pure (.element array indices, [])
    else
      match operand.parts with
      | [] => throw (.malformed "operand is not a location")
      | arrayExpr :: indexExprs => do
        let (array, temps) ← Temp.keep "__array" arrayExpr.ty array
        let labels := indexExprs.zipIdx.map fun (e, i) => (s!"__index{i}", e.ty)
        let (indices, rest) ← Temp.keepAll labels indices
        return (.element array indices, temps ++ rest)

/-- How an increment or decrement is carried out. -/
inductive Strategy where
  /-- By the primitive wrapping step. -/
  | primitive (op : IncDec)
  /-- By reading, adding or subtracting one with an overflow check, and writing back. -/
  | checked
  /-- By reading, calling the operator, and writing back. -/
  | operator (method : Method)

def StepKind.strategy (k : StepKind) : Option Method → Strategy
  | some m => .operator m
  | none => if k.checked then .checked else .primitive k.op

/-- Reads a location, computes the new value by `next`, stores it, and yields the new or the old
value. -/
def functionalStep (k : StepKind) (ty : Ty) (place : Place Prim) (temps : List Temp)
    (next : Prim → Prim) : LowerM Prim := do
  let (old, holdOld) ← Temp.hold "__old" ty place.read
  let (new, holdNew) ← Temp.hold "__new" ty (next old)
  return Temp.scope (temps ++ holdOld ++ holdNew) [.assign place new]
    (if k.op.yieldsNew then new else old)

/-- An increment or decrement of a lowered location. -/
def lowerStep (k : StepKind) (method : Option Method) (operand : Expr) (place : Place Prim) :
    LowerM Prim := do
  match k.strategy method with
  | .primitive op =>
    let (place, temps) ← place.settle false operand
    return Temp.scope temps [] (.step op place)
  | .checked =>
    let (place, temps) ← place.settle false operand
    let one ← .demand "checked operand is not numeric" (Constant.one? operand.ty)
    functionalStep k operand.ty place temps fun old =>
      .arith k.op.arith true old (.const one)
  | .operator m =>
    let (place, temps) ← place.settle true operand
    functionalStep k operand.ty place temps fun old => .callMethod m [old]

/-! ### Arguments and elements -/

/-- Lays the values of bindings out by slots. A value is taken once: its place is empty afterwards. -/
def Slot.arrange : List Slot → List (Option Prim) → Option (List Prim)
  | [], _ => some []
  | .bound i :: slots, values => do
    let p ← values[i]?.join
    let ps ← arrange slots (values.set i none)
    return p :: ps
  | .default c :: slots, values => do
    let ps ← arrange slots values
    return .const c :: ps

/-- A call with lowered bindings, in binding order, laid out in declaration order. -/
def lowerInvoke (params : List Descriptor) (calleeTy : Ty) (valueTys : List Ty) (callee : Prim)
    (values : List Prim) : LowerM Prim := do
  let slots ← .demand "invocation left a required parameter unbound"
    (calleeTy.signature?.bind (·.slots? params))
  if Descriptor.inOrder params then
    let args ← .demand "binding consumed twice" (Slot.arrange slots (values.map some))
    return .call callee args
  else
    let (callee, temps) ← Temp.keep "__callee" calleeTy callee
    let labels := (params.zip valueTys).map fun (d, ty) => ("__arg_" ++ d.name, ty)
    let (values, rest) ← Temp.keepAll labels values
    let args ← .demand "binding consumed twice" (Slot.arrange slots (values.map some))
    return Temp.scope (temps ++ rest) [] (.call callee args)

/-- The constants that the expressions are, if all of them are. -/
def Expr.constants? (es : List Expr) : Option (List Constant) :=
  es.mapM fun
    | .const c => some c
    | _ => none

/-- A size or an index as a constant of the default integer kind. -/
def indexConstant? (n : Nat) : Option Prim :=
  (Word.ofInt? .i32 n).map fun w => .const (.lit (.int w))

/-- The index constants of the element at a row-major offset. -/
def indexConstants? (bounds : List Nat) (linear : Nat) : Option (List Prim) :=
  (Shape.unflatten bounds linear).mapM indexConstant?

/-- Stores lowered elements one by one, numbered from `linear`. -/
def storeElements? (array : Var) (bounds : List Nat) (linear : Nat) :
    List Prim → Option (List Prim)
  | [] => some []
  | p :: ps => do
    let indices ← indexConstants? bounds linear
    let stores ← storeElements? array bounds (linear + 1) ps
    return .assign (.element (.read array) indices) p :: stores

/-- Makes an array in `array`, stores the lowered elements, and yields it. -/
def arrayBlock? (array : Var) (element : Ty) (bounds : List Nat) (elements : List Prim) :
    Option Prim := do
  let sizes ← bounds.mapM indexConstant?
  let stores ← storeElements? array bounds 0 elements
  return .block [array]
    (.assign (.var array) (.newArray element sizes) :: stores ++ [.read array])

namespace Expr

mutual

/-- Lowers an expression as one more level of nesting. -/
def lowerNode (o : LowerOptions) (e : Expr) : LowerM Prim :=
  .nested o.maxDepth <| match e with
    | const c => pure (.const c)
    | var v => pure (.read v)
    | node _ .index (array :: indices) => do
      let array ← lowerNode o array
      let indices ← lowerAll o indices
      return .element array indices
    | node _ (.binary op checked) [left, right] => do
      let left ← lowerNode o left
      let right ← lowerNode o right
      return .arith op checked left right
    | node _ .call (callee :: args) => do
      let callee ← lowerNode o callee
      let args ← lowerAll o args
      return .call callee args
    | node _ .assign [target, value] => do
      let target ← lowerPlace o target
      let value ← lowerNode o value
      return .assign target value
    | node _ (.block locals) body => do
      let body ← lowerAll o body
      return .block locals body
    | node _ (.lambda signature params) [body] => do
      let body ← lowerNode o body
      return .lambda ⟨signature, params, body⟩
    | node _ .quote [node _ (.lambda signature params) [body]] => do
      let body ← lowerNode o body
      let stamp ← .freshStamp
      return .quote stamp ⟨signature, params, body⟩
    | node _ (.step k method) [operand] => do
      let place ← lowerPlace o operand
      lowerStep k method operand place
    | node _ (.array element bounds) elements =>
      match o.foldConstantArrays, constants? elements with
      | true, some values => pure (.constArray element (bounds.map (·.toInt.toNat)) values)
      | _, _ => do
        let array ← .freshVar "__array" (.array element bounds.length)
        let elements ← lowerAll o elements
        .demand "array bound exceeds the index range"
          (arrayBlock? array element (bounds.map (·.toInt.toNat)) elements)
    | node _ (.invoke params) (callee :: values) => do
      let calleePrim ← lowerNode o callee
      let valuePrims ← lowerAll o values
      lowerInvoke params callee.ty (values.map ty) calleePrim valuePrims
    | node _ _ _ => throw (.malformed "wrong number of parts")

/-- Lowers expressions in order. -/
def lowerAll (o : LowerOptions) : List Expr → LowerM (List Prim)
  | [] => pure []
  | e :: es => do
    let p ← lowerNode o e
    let ps ← lowerAll o es
    return p :: ps

/-- Lowers the parts of a location, which is not itself evaluated. -/
def lowerPlace (o : LowerOptions) : Expr → LowerM (Place Prim)
  | var v => pure (.var v)
  | node _ .index (array :: indices) => do
    let array ← lowerNode o array
    let indices ← lowerAll o indices
    return .element array indices
  | _ => throw (.malformed "target is not a location")

end

end Expr

/-- A lowerer: its options, and how deep it is in an expression. -/
structure Lowerer where
  options : LowerOptions := {}
  depth : Nat := 0

/-- Lowers an expression. The answer comes with what the lowerer and the supply are afterwards. -/
def Lowerer.lower (l : Lowerer) (e : Expr) (supply : Supply) :
    Except LowerError Prim × Lowerer × Supply :=
  let (result, s) := (e.lowerNode l.options).run { depth := l.depth, supply }
  (result, { l with depth := s.depth }, s.supply)

/-- Lowers an expression by a new lowerer. -/
def Expr.lower (o : LowerOptions) (e : Expr) : ExceptT LowerError (StateM Supply) Prim :=
  ExceptT.mk fun supply =>
    let (result, _, supply) := Lowerer.lower { options := o } e supply
    (result, supply)

end ExprLowering
