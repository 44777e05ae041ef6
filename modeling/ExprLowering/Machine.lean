import ExprLowering.Machine.Arith
import ExprLowering.Machine.Store

/-!
# The machine

A machine evaluates primitive trees. It has global variables, a table of methods and a limit on the
depth of calls; it calls the functions of its host. Evaluation goes by recursion on the tree, and a
closure is entered with one call less to spare, so that it always ends.

`evalWith` takes from outside how a closure is entered and what becomes of the body of a lambda
(`embed`), so that primitive trees can also run beside functions whose bodies are of another kind.
-/

namespace ExprLowering

/-- The host's side of a call: a function gets its arguments and may change arrays and the state of
the host. It has no machine to run code with, so a closure that it is given can be passed on, kept in
an array or told from others, but not called; and it has no access to cells. -/
structure Host (σ : Type) (α : Type := Prim) where
  call : NativeFn → List (Value α) → Array (Grid α) → σ →
    Except Fault (Value α) × Array (Grid α) × σ

structure Machine where
  maxCallDepth : Nat := 256
  globals : Scope := []
  methods : List (String × NativeFn) := []

/-- How a closure is entered: with its code, the cells that it captured, and the arguments. -/
abbrev Enter (σ : Type) (α : Type := Prim) :=
  Lambda α → Scope → List (Value α) → Run σ α (Value α)

namespace Machine
variable {σ α : Type} (host : Host σ α) (m : Machine)

/-- The cell of a variable: that of the innermost scope that has one, or a global one. -/
def lookup (scopes : List Scope) (v : Var) : Option CellId :=
  (scopes.findSome? (·.lookup v.id)).or (m.globals.lookup v.id)

def cell (scopes : List Scope) (v : Var) : Run σ α CellId :=
  match m.lookup scopes v with
  | some c => pure c
  | none => throw (.unbound v)

/-- The cells that are in scope, as one scope. -/
def capture (scopes : List Scope) : Scope :=
  scopes.flatten

/-- Calls a host function. -/
def callHost (f : NativeFn) (args : List (Value α)) : Run σ α (Value α) :=
  ExceptT.mk fun s =>
    let (result, grids, state) := host.call f args s.grids s.host
    (result, { s with grids, host := state })

/-- Calls a value. -/
def apply (enter : Enter σ α) (callee : Value α) (args : List (Value α)) : Run σ α (Value α) :=
  match callee with
  | .native f => callHost host f args
  | .closure _ code captured =>
    if args.length = code.params.length then enter code captured args
    else throw (.argumentCount code.params.length args.length)
  | v => throw (.notCallable v.typeName)

/-- Increments or decrements the value at a location. -/
def step (op : IncDec) (l : Location) : Run σ α (Value α) := do
  let old ← Eval.load l
  let one ← old.oneLike
  let new ← Value.arith op.arith false old one
  Eval.store new l
  return if op.yieldsNew then new else old

/-- The location of an array element. -/
def elementLocation (array : Value α) (indices : List Int) : Run σ α Location := do
  let a ← array.asArray
  let g ← Eval.grid a
  let i ← g.offset indices
  return .element a i

mutual

def evalWith (embed : Prim → α) (enter : Enter σ α) (scopes : List Scope) : Prim → Run σ α (Value α)
  | .const c => pure (.ofConstant c)
  | .read v => do
    let c ← m.cell scopes v
    Eval.load (.cell c)
  | .assign target value => do
    let l ← locate embed enter scopes target
    let v ← evalWith embed enter scopes value
    Eval.store v l
    return v
  | .block locals body => do
    let scope ← Eval.extend [] (locals.map fun v => (v.id, .defaultOf v.ty))
    let values ← evalAll embed enter (scope :: scopes) body
    return values.getLastD .null
  | .arith op checked left right => do
    let a ← evalWith embed enter scopes left
    let b ← evalWith embed enter scopes right
    Value.arith op checked a b
  | .step op target => do
    let l ← locate embed enter scopes target
    step op l
  | .newArray element bounds => do
    let ns ← evalInts embed enter scopes Value.asBound bounds
    let g ← Grid.new element (ns.map Int.toNat)
    Eval.newGrid g
  | .constArray element bounds values => do
    let g ← Grid.ofRowMajor element bounds (values.map Value.ofConstant)
    Eval.newGrid g
  | .element array indices => do
    let v ← evalWith embed enter scopes array
    let is ← evalInts embed enter scopes Value.asIndex indices
    let l ← elementLocation v is
    Eval.load l
  | .call callee args => do
    let f ← evalWith embed enter scopes callee
    let vs ← evalAll embed enter scopes args
    apply host enter f vs
  | .callMethod method args =>
    match m.methods.lookup method.name with
    | none => throw (.undefinedMethod method.name)
    | some f => do
      let vs ← evalAll embed enter scopes args
      callHost host f vs
  | .lambda code => Eval.newClosure (code.map embed) (capture scopes)
  | .quote stamp code => pure (.quoted stamp (code.map embed))

/-- Evaluates the trees in order. -/
def evalAll (embed : Prim → α) (enter : Enter σ α) (scopes : List Scope) :
    List Prim → Run σ α (List (Value α))
  | [] => pure []
  | p :: ps => do
    let v ← evalWith embed enter scopes p
    let vs ← evalAll embed enter scopes ps
    return v :: vs

/-- Evaluates the trees in order, each to an integer before the next one. -/
def evalInts (embed : Prim → α) (enter : Enter σ α) (scopes : List Scope)
    (toInt : Value α → Except Fault Int) : List Prim → Run σ α (List Int)
  | [] => pure []
  | p :: ps => do
    let v ← evalWith embed enter scopes p
    let n ← toInt v
    let ns ← evalInts embed enter scopes toInt ps
    return n :: ns

/-- Finds the location of a place. -/
def locate (embed : Prim → α) (enter : Enter σ α) (scopes : List Scope) :
    Place Prim → Run σ α Location
  | .var v => do
    let c ← m.cell scopes v
    return .cell c
  | .element array indices => do
    let v ← evalWith embed enter scopes array
    let is ← evalInts embed enter scopes Value.asIndex indices
    elementLocation v is

end

/-- Enters a closure when `depth` more calls may be nested. -/
def enter (host : Host σ) (m : Machine) : Nat → Enter σ
  | 0 => fun _ _ _ => throw (.stackOverflow m.maxCallDepth)
  | depth + 1 => fun code captured args => do
    let frame ← Eval.extend [] ((code.params.map (·.id)).zip args)
    evalWith host m id (enter host m depth) [frame, captured] code.body

/-- Evaluates a tree. -/
def eval (host : Host σ) (m : Machine) (p : Prim) : Eval σ Value :=
  evalWith host m id (enter host m m.maxCallDepth) [] p

/-- Calls a value with arguments. -/
def call (host : Host σ) (m : Machine) (callee : Value) (args : List Value) : Eval σ Value :=
  apply host (enter host m m.maxCallDepth) callee args

/-- Binds a global variable to a new cell. -/
def bind (v : Var) (value : Value α) : Run σ α Machine := do
  let c ← Eval.newCell value
  return { m with globals := (v.id, c) :: m.globals }

/-- The value of a global variable. -/
def get? (s : Store σ α) (v : Var) : Option (Value α) :=
  (m.lookup [] v).map fun c => s.cells.getD c .null

def register (name : String) (f : NativeFn) : Machine :=
  { m with methods := (name, f) :: m.methods }

end Machine

end ExprLowering
