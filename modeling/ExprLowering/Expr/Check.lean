import ExprLowering.Expr.Invocation
import ExprLowering.Shape

/-!
# When a head applies to parts

`Head.check` holds the rule of every node: it accepts a list of parts, or names the first thing that
is wrong with it. The elements of an array are only counted here; whether each fits is found out when
they are stored.
-/

namespace ExprLowering

def checkAssignable (expected : Ty) (e : Expr) : Except BuildError Unit :=
  if expected.accepts e.ty then .ok () else .error (.typeMismatch expected e.ty)

/-- Each expression is assignable to the type at its position. -/
def checkAll : List Ty → List Expr → Except BuildError Unit
  | t :: ts, e :: es => do
    checkAssignable t e
    checkAll ts es
  | _, _ => .ok ()

def checkCount (expected found : Nat) : Except BuildError Unit :=
  if found = expected then .ok () else .error (.argumentCount expected found)

def checkLocation (e : Expr) : Except BuildError Unit :=
  if e.isLocation then .ok () else .error (.notAssignable e.kind)

/-- Each variable has exactly the type of the formal parameter at its position. -/
def checkParams : List Formal → List Var → Except BuildError Unit
  | f :: fs, v :: vs =>
    if f.ty == v.ty then checkParams fs vs else .error (.typeMismatch f.ty v.ty)
  | _, _ => .ok ()

/-- The method takes one operand of the given type, and its result can be stored there. -/
def Method.checkOperator (m : Method) (operand : Ty) : Except BuildError Unit :=
  match m.signature.params with
  | [p] =>
    if p.ty.accepts operand then
      if operand.accepts m.signature.result then .ok ()
      else .error (.badOperator m.name (.result m.signature.result operand))
    else .error (.badOperator m.name (.operand p.ty operand))
  | params => .error (.badOperator m.name (.arity params.length))

/-- The number of elements, with `size` counted so far and `dimension` bounds seen. -/
def checkBounds (dimension size : Nat) : List Int32 → Except BuildError Nat
  | [] => .ok size
  | b :: bounds =>
    if b < 0 then .error (.boundNegative dimension b.toInt)
    else
      let size := size * b.toInt.toNat
      if size ≤ Shape.maxSize then checkBounds (dimension + 1) size bounds
      else .error .boundsOverflow

/-- Whether the head applies to the parts. -/
def Head.check : Head → List Expr → Except BuildError Unit
  | .index, base :: indices =>
    match base.ty.element? with
    | none => .error (.notAnArray base.ty)
    | some (_, rank) =>
      if indices.length = rank then checkAll (indices.map fun _ => .int .i32) indices
      else .error (.rankMismatch rank indices.length)
  | .binary _ _, [left, right] =>
    if left.ty.isArithmetic then
      if right.ty == left.ty then .ok () else .error (.typeMismatch left.ty right.ty)
    else .error (.notDefined .binary left.ty)
  | .call, callee :: args =>
    match callee.ty.signature? with
    | none => .error (.notCallable callee.ty)
    | some s => do
      checkCount s.params.length args.length
      checkAll (s.params.map (·.ty)) args
  | .assign, [target, value] => do
    checkLocation target
    checkAssignable target.ty value
  | .block _, body => if body.isEmpty then .error (.missingArgument "body") else .ok ()
  | .lambda s params, [body] => do
    checkCount s.params.length params.length
    checkParams s.params params
    if s.result == .void then .ok () else checkAssignable s.result body
  | .quote, [operand] => if operand.isLambda then .ok () else .error (.notALambda operand.kind)
  | .step k method, [operand] => do
    checkLocation operand
    match method with
    | some m => m.checkOperator operand.ty
    | none =>
      if operand.ty.isArithmetic then .ok () else .error (.notDefined (.step k) operand.ty)
  | .array element bounds, elements =>
    if element == .void then .error .voidElement
    else if bounds.isEmpty then .error .emptyBounds
    else do
      let size ← checkBounds 0 1 bounds
      if elements.length = size then .ok () else .error (.elementCount size elements.length)
  | .invoke params, callee :: values =>
    if values.length = params.length then do
      checkAll (params.map (·.ty)) values
      match callee.ty.signature? with
      | none => .error (.notCallable callee.ty)
      | some s => s.checkBound params
    else .error (.malformed "each binding has one value")
  | _, _ => .error (.malformed "wrong number of parts")

end ExprLowering
