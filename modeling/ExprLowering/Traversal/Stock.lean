import ExprLowering.Traversal

/-!
# Some traversals

A recorder of the way taken, and four traversals that change an expression and count what they match
before they go into it.
-/

namespace ExprLowering

/-- What a traversal comes past. -/
inductive Event where
  | expr (e : Expr)
  | binding (param : Descriptor)

namespace Traversal

/-- Changes nothing and notes each event, the latest first. -/
def record : Traversal (List Event) where
  enter e := .note (.expr e :: ·)
  enterBinding d := .note (.binding d :: ·)

/-- Counts a match. -/
def count : TraversalM Nat Unit :=
  .note (· + 1)

/-- Drops the overflow check of increments and decrements. -/
def uncheck : Traversal Nat where
  enter
    | .node _ (.step k _) _ => if k.checked then count else pure ()
    | _ => pure ()
  rebuild
    | .node stamp (.step k method) old, parts =>
      if k.checked then .ofBuild (Expr.make (.step k.unchecked method) parts)
      else .ofBuild (Expr.update (.node stamp (.step k method) old) parts)
    | e, parts => .ofBuild (e.update parts)

/-- Reverses the order in which invocations evaluate their bindings. -/
def reverseBindings : Traversal Nat where
  enter
    | .node _ (.invoke _) _ => count
    | _ => pure ()
  rebuild
    | .node stamp (.invoke params) old, callee :: values =>
      .ofBuild (Expr.updateInvoke (.node stamp (.invoke params) old) callee params.reverse
        values.reverse)
    | e, parts => .ofBuild (e.update parts)

/-- Puts an expression in the place of a constant. -/
def replaceConst (c : Constant) (e : Expr) : Traversal Nat where
  const d :=
    if d.identical c then do
      count
      return e
    else pure (.const d)

/-- Puts an expression in the place of a variable. -/
def replaceVar (v : Var) (e : Expr) : Traversal Nat where
  var w :=
    if w == v then do
      count
      return e
    else pure (.var w)

end Traversal

end ExprLowering
