import ExprLowering.Proofs.Invocation
import ExprLowering.Proofs.MachineBasics

/-!
# The meaning of expressions

`Expr.evalWith` evaluates an expression as it stands, on the values, cells and arrays of the machine. A
basic node does what the primitive tree of its kind does. An increment or decrement finds its location
once; a new array is filled element by element; an invocation evaluates its bindings in the order in which
they are written and passes them in the order in which they are declared.

A function that was there before, in a cell or an array, still has a primitive tree for its body, so the body
of a function is a `Code`: an expression or a primitive tree.

When the indices of an increment's operand are turned into integers is left to an `IndexRule`: each one before
the next is evaluated, or all after the last, or, by the rule `split`, as the increment requires. Where no
operator is used and the parts of the operand are constants and variables there is nothing to evaluate but
these, and each index is turned into an integer as soon as it is read; otherwise all parts are evaluated first.
-/

namespace ExprLowering

/-- The body of a function. -/
inductive Code where
  | expr (e : Expr)
  | prim (p : Prim)

/-- When the indices of an increment's operand are turned into integers. -/
inductive IndexRule where
  /-- Each before the next part is evaluated. -/
  | early
  /-- After all parts have been evaluated. -/
  | late
  | split

/-- Whether each index is turned into an integer before the next part is evaluated. -/
def IndexRule.isEarly (method : Option Method) (operand : Expr) : IndexRule → Bool
  | early => true
  | late => false
  | split => method.isNone && operand.parts.all Expr.isLeaf

namespace Expr
variable {σ : Type} (host : Host σ Code) (m : Machine)

/-- The value that an increment or decrement stores where it found `old`. -/
def stepValue (k : StepKind) (method : Option Method) (ty : Ty) (old : Value Code) : Run σ Code (Value Code) :=
  match method with
  | some f =>
    match m.methods.lookup f.name with
    | some f => Machine.callHost host f [old]
    | none => throw (.undefinedMethod f.name)
  | none =>
    if k.checked then
      match Constant.one? ty with
      | some one => Value.arith k.op.arith true old (.ofConstant one)
      | none => throw (.type (.notANumber old.typeName))
    else do
      let one ← old.oneLike
      Value.arith k.op.arith false old one

/-- An increment or decrement at a location that has been found. -/
def stepAt (k : StepKind) (method : Option Method) (ty : Ty) (l : Location) : Run σ Code (Value Code) := do
  let old ← Eval.load l
  let new ← stepValue host m k method ty old
  Eval.store new l
  return if k.op.yieldsNew then new else old

/-- The location of an array element, the indices being given as values. -/
def resolve (array : Value Code) (indices : List (Value Code)) : Run σ Code Location := do
  let is ← (indices.mapM Value.asIndex : Except Fault (List Int))
  Machine.elementLocation array is

/-- The arguments of an invocation in declaration order, from the values in binding order. -/
def arguments (params : List Descriptor) (callee : Ty) (values : List (Value Code)) :
    Run σ Code (List (Value Code)) :=
  match callee.signature?.bind (·.slots? params) with
  | some slots => pure (slots.map (Slot.pick .ofConstant values))
  | none => throw (.notCallable "malformed")

mutual

def evalWith (rule : IndexRule) (enter : Enter σ Code) (scopes : List Scope) : Expr → Run σ Code (Value Code)
  | const c => pure (.ofConstant c)
  | var v => do
    let c ← m.cell scopes v
    Eval.load (.cell c)
  | node _ .index (array :: indices) => do
    let v ← evalWith rule enter scopes array
    let is ← evalInts rule enter scopes indices
    let l ← Machine.elementLocation v is
    Eval.load l
  | node _ (.binary op checked) [left, right] => do
    let a ← evalWith rule enter scopes left
    let b ← evalWith rule enter scopes right
    Value.arith op checked a b
  | node _ .call (callee :: args) => do
    let f ← evalWith rule enter scopes callee
    let vs ← evalAll rule enter scopes args
    Machine.apply host enter f vs
  | node _ .assign [target, value] => do
    let l ← locate rule enter scopes target
    let v ← evalWith rule enter scopes value
    Eval.store v l
    return v
  | node _ (.block locals) body => do
    let scope ← Eval.extend [] (locals.map fun v => (v.id, .defaultOf v.ty))
    let values ← evalAll rule enter (scope :: scopes) body
    return values.getLastD .null
  | node _ (.lambda signature params) [body] =>
    Eval.newClosure ⟨signature, params, .expr body⟩ (Machine.capture scopes)
  | node stamp .quote [node _ (.lambda signature params) [body]] =>
    pure (.quoted stamp ⟨signature, params, .expr body⟩)
  | node _ (.step k method) [operand] => do
    let l ← if rule.isEarly method operand then locate rule enter scopes operand
      else locateLate rule enter scopes operand
    stepAt host m k method operand.ty l
  | node _ (.array element bounds) elements => do
    let g ← Grid.new element (bounds.map (·.toInt.toNat))
    let array ← Eval.newGrid g
    let a ← array.asArray
    fill rule enter scopes a 0 elements
    return array
  | node _ (.invoke params) (callee :: values) => do
    let f ← evalWith rule enter scopes callee
    let vs ← evalAll rule enter scopes values
    let args ← arguments params callee.ty vs
    Machine.apply host enter f args
  | node _ _ _ => throw (.notCallable "malformed")

/-- Evaluates the expressions in order. -/
def evalAll (rule : IndexRule) (enter : Enter σ Code) (scopes : List Scope) :
    List Expr → Run σ Code (List (Value Code))
  | [] => pure []
  | e :: es => do
    let v ← evalWith rule enter scopes e
    let vs ← evalAll rule enter scopes es
    return v :: vs

/-- Evaluates the expressions in order, each to an index before the next one. -/
def evalInts (rule : IndexRule) (enter : Enter σ Code) (scopes : List Scope) :
    List Expr → Run σ Code (List Int)
  | [] => pure []
  | e :: es => do
    let v ← evalWith rule enter scopes e
    let n ← v.asIndex
    let ns ← evalInts rule enter scopes es
    return n :: ns

/-- Finds the location of an assignment's target. -/
def locate (rule : IndexRule) (enter : Enter σ Code) (scopes : List Scope) : Expr → Run σ Code Location
  | var v => do
    let c ← m.cell scopes v
    return .cell c
  | node _ .index (array :: indices) => do
    let v ← evalWith rule enter scopes array
    let is ← evalInts rule enter scopes indices
    Machine.elementLocation v is
  | _ => throw (.notCallable "malformed")

/-- Finds the location of an increment's operand: first all its parts are evaluated. -/
def locateLate (rule : IndexRule) (enter : Enter σ Code) (scopes : List Scope) : Expr → Run σ Code Location
  | var v => do
    let c ← m.cell scopes v
    return .cell c
  | node _ .index (array :: indices) => do
    let v ← evalWith rule enter scopes array
    let vs ← evalAll rule enter scopes indices
    resolve v vs
  | _ => throw (.notCallable "malformed")

/-- Evaluates the expressions in order and stores each in the array, from offset `i` on. -/
def fill (rule : IndexRule) (enter : Enter σ Code) (scopes : List Scope) (a : GridId) (i : Nat) :
    List Expr → Run σ Code Unit
  | [] => pure ()
  | e :: es => do
    let v ← evalWith rule enter scopes e
    Eval.store v (.element a i)
    fill rule enter scopes a (i + 1) es

end

end Expr

namespace Code
variable {σ : Type} (host : Host σ Code) (m : Machine)

/-- Runs the body of a function. -/
def evalWith (rule : IndexRule) (enter : Enter σ Code) (scopes : List Scope) : Code → Run σ Code (Value Code)
  | expr e => e.evalWith host m rule enter scopes
  | prim p => Machine.evalWith host m prim enter scopes p

/-- Enters a closure when `depth` more calls may be nested. -/
def enter (rule : IndexRule) : Nat → Enter σ Code
  | 0 => fun _ _ _ => throw (.stackOverflow m.maxCallDepth)
  | depth + 1 => fun code captured args => do
    let frame ← Eval.extend [] ((code.params.map (·.id)).zip args)
    evalWith host m rule (enter rule depth) [frame, captured] code.body

end Code

/-! ### Lists and locations -/

namespace Expr
variable {σ : Type} (host : Host σ Code) (m : Machine) (rule : IndexRule) (enter : Enter σ Code) (scopes : List Scope)

theorem evalAll_eq_mapM (es : List Expr) :
    evalAll host m rule enter scopes es = es.mapM (evalWith host m rule enter scopes) := by
  induction es with
  | nil => rw [evalAll, List.mapM_nil]
  | cons e es ih => rw [evalAll, List.mapM_cons, ih]

theorem evalWith_index (stamp : Stamp) (array : Expr) (indices : List Expr) :
    evalWith host m rule enter scopes (node stamp .index (array :: indices)) =
      locate host m rule enter scopes (node stamp .index (array :: indices)) >>= Eval.load := by
  simp [evalWith, locate]

/-- Finds the location of an increment's operand. -/
def operandLocation (method : Option Method) (operand : Expr) : Run σ Code Location :=
  if rule.isEarly method operand then locate host m rule enter scopes operand
  else locateLate host m rule enter scopes operand

theorem evalWith_step (stamp : Stamp) (k : StepKind) (method : Option Method) (operand : Expr) :
    evalWith host m rule enter scopes (node stamp (.step k method) [operand]) =
      operandLocation host m rule enter scopes method operand >>= stepAt host m k method operand.ty := by
  rw [evalWith, operandLocation]
  split <;> rfl

theorem operandLocation_var (method : Option Method) (v : Var) :
    operandLocation host m rule enter scopes method (var v) = m.cell scopes v >>= fun c => pure (.cell c) := by
  rw [operandLocation, locate, locateLate, ite_self]

/-- Where the indices wait, the array and all of them are evaluated first. -/
theorem operandLocation_of_isEarly_eq_false {method : Option Method} {stamp : Stamp} {array : Expr}
    {indices : List Expr}
    (h : rule.isEarly method (node stamp .index (array :: indices)) = false) :
    operandLocation host m rule enter scopes method (node stamp .index (array :: indices)) =
      (array :: indices).mapM (evalWith host m rule enter scopes) >>= fun vs => resolve (vs.headD .null) vs.tail := by
  rw [operandLocation, h, if_neg Bool.false_ne_true, locateLate, evalAll_eq_mapM, List.mapM_cons]
  simp only [bind_assoc, pure_bind, List.headD_cons, List.tail_cons]

theorem evalInts_eq_mapM (es : List Expr) :
    evalInts host m rule enter scopes es =
      es.mapM (fun e => evalWith host m rule enter scopes e >>= fun v => liftM v.asIndex) := by
  induction es with
  | nil => rw [evalInts, List.mapM_nil]
  | cons e es ih => simp only [evalInts, List.mapM_cons, ih, bind_assoc]

end Expr

/-- Evaluates an expression. -/
def Expr.eval {σ : Type} (host : Host σ Code) (m : Machine) (rule : IndexRule) (e : Expr) : Run σ Code (Value Code) :=
  e.evalWith host m rule (Code.enter host m rule m.maxCallDepth) []

end ExprLowering
