import ExprLowering.Expr.Build

/-!
# Traversals of expressions

`Expr.traverse` goes through an expression in evaluation order: it enters a node, takes its parts
from left to right, and rebuilds the node from what became of them. A `Traversal` says what happens
at each of these points. What it leaves alone is shared: a node whose parts all came back the same is
itself the result.
-/

namespace ExprLowering

/-- The next stamp, and what has been noted so far. -/
structure TraversalState (σ : Type) where
  stamp : Stamp
  notes : σ

/-- A step of a traversal may make nodes, take notes and fail; notes outlive a failure. -/
abbrev TraversalM (σ : Type) := ExceptT BuildError (StateM (TraversalState σ))

namespace TraversalM
variable {σ α : Type}

def ofBuild (b : Build α) : TraversalM σ α :=
  ExceptT.mk fun s =>
    match b s.stamp with
    | .ok (a, stamp) => (.ok a, { s with stamp })
    | .error e => (.error e, s)

def note (f : σ → σ) : TraversalM σ Unit :=
  ExceptT.mk fun s => (.ok (), { s with notes := f s.notes })

end TraversalM

/-- What to do at the points of a traversal; by default, nothing. -/
structure Traversal (σ : Type) where
  /-- Before the parts of a node are taken, and before a leaf is. -/
  enter : Expr → TraversalM σ Unit := fun _ => pure ()
  /-- Before the value bound by the descriptor is taken. -/
  enterBinding : Descriptor → TraversalM σ Unit := fun _ => pure ()
  const : Constant → TraversalM σ Expr := fun c => pure (.const c)
  var : Var → TraversalM σ Expr := fun v => pure (.var v)
  /-- What a node becomes, given what became of its parts. -/
  rebuild : Expr → List Expr → TraversalM σ Expr := fun e parts => .ofBuild (e.update parts)

/-- Takes the parts of a node by `walk`, between entering and rebuilding it. -/
def Traversal.around {σ : Type} (t : Traversal σ) (e : Expr) (walk : TraversalM σ (List Expr)) :
    TraversalM σ Expr := do
  t.enter e
  let new ← walk
  t.rebuild e new

namespace Expr
variable {σ : Type}

/-- The new value of a binding, which the parameter must take unless it is the old value. -/
def rebind (param : Descriptor) (old new : Expr) : TraversalM σ Expr :=
  if new.same old then pure old
  else do
    checkAssignable param.ty new
    return new

mutual

/-- Goes through an expression. Each kind of node has a walk of its own. -/
def traverse (t : Traversal σ) : Expr → TraversalM σ Expr
  | const c => do
    t.enter (const c)
    t.const c
  | var v => do
    t.enter (var v)
    t.var v
  | node stamp .index (array :: indices) =>
    t.around (node stamp .index (array :: indices)) do
      let array ← traverse t array
      let indices ← traverseAll t indices
      return array :: indices
  | node stamp (.binary op checked) [left, right] =>
    t.around (node stamp (.binary op checked) [left, right]) do
      let left ← traverse t left
      let right ← traverse t right
      return [left, right]
  | node stamp .call (callee :: args) =>
    t.around (node stamp .call (callee :: args)) do
      let callee ← traverse t callee
      let args ← traverseAll t args
      return callee :: args
  | node stamp .assign [target, value] =>
    t.around (node stamp .assign [target, value]) do
      let target ← traverse t target
      let value ← traverse t value
      return [target, value]
  | node stamp (.block locals) body =>
    t.around (node stamp (.block locals) body) (traverseAll t body)
  | node stamp (.lambda signature params) [body] =>
    t.around (node stamp (.lambda signature params) [body]) do
      let body ← traverse t body
      return [body]
  | node stamp .quote [operand] =>
    t.around (node stamp .quote [operand]) do
      let operand ← traverse t operand
      return [operand]
  | node stamp (.step kind method) [operand] =>
    t.around (node stamp (.step kind method) [operand]) do
      let operand ← traverse t operand
      return [operand]
  | node stamp (.array element bounds) elements =>
    t.around (node stamp (.array element bounds) elements) (traverseAll t elements)
  | node stamp (.invoke params) (callee :: values) =>
    t.around (node stamp (.invoke params) (callee :: values)) do
      let callee ← traverse t callee
      let values ← traverseBindings t params values
      return callee :: values
  | node _ _ _ => throw (.malformed "wrong number of parts")

/-- Takes the expressions from left to right. -/
def traverseAll (t : Traversal σ) : List Expr → TraversalM σ (List Expr)
  | [] => pure []
  | e :: es => do
    let new ← traverse t e
    let rest ← traverseAll t es
    return new :: rest

/-- Takes the values of bindings from left to right. -/
def traverseBindings (t : Traversal σ) : List Descriptor → List Expr → TraversalM σ (List Expr)
  | [], [] => pure []
  | param :: params, value :: values => do
    t.enterBinding param
    let new ← traverse t value
    let new ← rebind param value new
    let rest ← traverseBindings t params values
    return new :: rest
  | _, _ => throw (.malformed "each binding has one value")

end

end Expr

/-- Runs a traversal from its first notes. -/
def Traversal.run {σ : Type} (t : Traversal σ) (notes : σ) (e : Expr) (stamp : Stamp) :
    Except BuildError Expr × TraversalState σ :=
  (e.traverse t).run ⟨stamp, notes⟩

end ExprLowering
