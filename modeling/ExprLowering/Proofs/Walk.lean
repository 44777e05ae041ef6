import ExprLowering.Proofs.Check
import ExprLowering.Traversal

/-!
# Children and walks

Every kind of node says what its children are (`Expr.children`), and has a walk of its own in a traversal. Where the
rule of its head holds, the children of a node are its parts (`Expr.children_of_allows`) and its walk takes them from
left to right (`Expr.traverse_node`); a value that is bound by an invocation comes after the descriptor that it is
bound to.
-/

namespace ExprLowering

/-- The descriptors that the parts of a node are bound to; a part without one is not a bound value. -/
def Head.roles : Head → List (Option Descriptor)
  | .invoke params => none :: params.map some
  | _ => []

namespace Expr
variable {σ : Type} (t : Traversal σ) {stamp : Stamp} {head : Head} {parts : List Expr}

/-- Takes expressions from left to right. -/
def traverseParts (t : Traversal σ) (roles : List (Option Descriptor)) : List Expr → TraversalM σ (List Expr)
  | [] => pure []
  | e :: es => do
    let new ← match roles.head?.join with
      | none => traverse t e
      | some param => do
        t.enterBinding param
        let new ← traverse t e
        rebind param e new
    let rest ← traverseParts t roles.tail es
    return new :: rest

theorem traverseAll_eq (es : List Expr) : traverseAll t es = traverseParts t [] es := by
  induction es with
  | nil => simp only [traverseAll, traverseParts]
  | cons e es ih => simp only [traverseAll, traverseParts, ih, List.head?_nil, Option.join_none, List.tail_nil]

theorem traverseBindings_eq {params : List Descriptor} {values : List Expr} (hl : params.length = values.length) :
    traverseBindings t params values = traverseParts t (params.map some) values := by
  induction params generalizing values with
  | nil =>
    obtain rfl := List.length_eq_zero_iff.1 hl.symm
    simp only [traverseBindings, traverseParts]
  | cons d params ih =>
    cases values with
    | nil => cases hl
    | cons e values =>
      simp only [traverseBindings, traverseParts, ih (Nat.succ.inj hl), List.map_cons, List.head?_cons,
        Option.join_some, List.tail_cons]

theorem children_of_allows (h : head.Allows parts) : (node stamp head parts).children = parts := by
  cases h <;> rfl

/-- The walks of all kinds of nodes are one. -/
theorem traverse_node (h : head.Allows parts) :
    traverse t (node stamp head parts) = t.around (node stamp head parts) (traverseParts t head.roles parts) := by
  cases h with
  | invoke _ hv _ =>
    simp only [traverse, traverseBindings_eq t hv.length_eq, Head.roles, traverseParts, List.head?_cons,
      Option.join_some, List.tail_cons]
  | _ =>
    simp only [traverse, traverseAll_eq, Head.roles, traverseParts, List.head?_nil, Option.join_none, List.tail_nil,
      bind_assoc, pure_bind]

end Expr

end ExprLowering
