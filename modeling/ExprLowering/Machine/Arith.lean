import ExprLowering.Machine.Value

/-!
# Arithmetic on values

Integers of one kind are combined exactly and then reduced into the kind's range, or refused if the
operation is checked. Floats of one width follow the rules of floats. A null makes the result null.
-/

namespace ExprLowering

def ArithOp.onFloat : ArithOp → FloatBits → FloatBits → Option FloatBits
  | add => FloatBits.map₂? (· + ·) (· + ·)
  | sub => FloatBits.map₂? (· - ·) (· - ·)
  | mul => FloatBits.map₂? (· * ·) (· * ·)

namespace Value
variable {α : Type}

/-- The result of kind `k` that stands for the exact result `n`. -/
def ofExact (checked : Bool) (k : IntKind) (n : Int) : Except Fault (Value α) :=
  if checked then
    match Word.ofInt? k n with
    | some w => .ok (ofWord w)
    | none => .error .overflow
  else .ok (ofWord (.wrap k n))

def arith (op : ArithOp) (checked : Bool) (a b : Value α) : Except Fault (Value α) :=
  match a, b with
  | null, _ | _, null => .ok null
  | lit (.int v), lit (.int w) =>
    if v.kind = w.kind then ofExact checked v.kind (op.onInt v.val w.val)
    else .error (.type (.operands op a.typeName b.typeName))
  | lit (.float x), lit (.float y) =>
    match op.onFloat x y with
    | some z => .ok (lit (.float z))
    | none => .error (.type (.operands op a.typeName b.typeName))
  | _, _ => .error (.type (.operands op a.typeName b.typeName))

/-- The one that is added to or taken from a value. -/
def oneLike : Value α → Except Fault (Value α)
  | null => .ok null
  | lit (.int w) => .ok (lit (.int (.one w.kind)))
  | lit (.float x) => .ok (lit (.float (.one x.kind)))
  | v => .error (.type (.notANumber v.typeName))

end Value

end ExprLowering
