import ExprLowering.Traversal.Stock
import ExprLowering.Proofs.LowerRules
import ExprLowering.Proofs.Sharing

/-!
# The order of a traversal

A traversal comes past the nodes of an expression in evaluation order: a node, then its children from left to right. In
an invocation it comes past each binding right before the bound value. `Expr.listing` lists all of this by what
`Expr.children` says, and knows nothing of the walks of a traversal. A traversal that notes what it comes past and
changes nothing notes the listing; one that gives up somewhere has noted the listing up to there
(`Traversal.run_recordUntil`).
-/

namespace ExprLowering

namespace Expr

/-! ### Listings by children -/

theorem children_eq_parts_or_nil (e : Expr) : e.children = e.parts ∨ e.children = [] := by
  unfold children
  split <;> simp [parts]

theorem mem_parts_of_mem_children {e c : Expr} (h : c ∈ e.children) : c ∈ e.parts := by
  rcases e.children_eq_parts_or_nil with heq | heq
  · exact heq ▸ h
  · rw [heq] at h
    cases h

theorem sizeOf_lt_of_mem_children {e c : Expr} (h : c ∈ e.children) : sizeOf c < sizeOf e := by
  have hmem := mem_parts_of_mem_children h
  cases e with
  | const | var => cases hmem
  | node stamp head parts =>
    have hlt : sizeOf c < sizeOf parts := List.sizeOf_lt_of_mem hmem
    simp only [node.sizeOf_spec]
    omega

/-- All nodes, each before its children. A node that is shared is listed wherever it occurs. -/
def preorder (e : Expr) : List Expr :=
  e :: e.children.attach.flatMap fun c => preorder c.1
termination_by sizeOf e
decreasing_by exact sizeOf_lt_of_mem_children c.2

/-- The descriptor that the child at a position is bound to. The callee of an invocation comes first, and then the
bound values. -/
def bindingAt : Expr → Nat → Option Descriptor
  | node _ (.invoke params) _, i + 1 => params[i]?
  | _, _ => none

/-- What a traversal comes past: a node, then what it comes past in each child, after the binding if the child is a
bound value. -/
def listing (e : Expr) : List Event :=
  .expr e :: (e.children.attach.mapIdx fun i c => (e.bindingAt i).toList.map .binding ++ listing c.1).flatten
termination_by sizeOf e
decreasing_by exact sizeOf_lt_of_mem_children c.2

theorem preorder_eq (e : Expr) : e.preorder = e :: e.children.flatMap preorder := by
  rw [preorder]
  simp

theorem listing_eq (e : Expr) : e.listing =
    .expr e :: (e.children.mapIdx fun i c => (e.bindingAt i).toList.map .binding ++ c.listing).flatten := by
  rw [listing]
  congr 2
  exact List.ext_getElem (by simp) fun i _ _ => by simp

@[simp] theorem listing_const (c : Constant) : (const c).listing = [.expr (const c)] := by
  rw [listing_eq]
  rfl

@[simp] theorem listing_var (v : Var) : (var v).listing = [.expr (var v)] := by
  rw [listing_eq]
  rfl

end Expr

/-- The expression that a traversal comes past, unless it is a binding. -/
def Event.expr? : Event → Option Expr
  | expr e => some e
  | binding _ => none

namespace Traversal

/-- Notes an event, and gives up if the notes say so. -/
def heed (stop : List Event → Option BuildError) (event : Event) : TraversalM (List Event) Unit :=
  ExceptT.mk fun s =>
    let notes := event :: s.notes
    ((stop notes).elim (.ok ()) .error, { s with notes })

/-- Changes nothing and notes each event, the latest first, until the notes say to give up. -/
def recordUntil (stop : List Event → Option BuildError) : Traversal (List Event) where
  enter e := heed stop (.expr e)
  enterBinding d := heed stop (.binding d)

theorem record_eq : record = recordUntil fun _ => none :=
  rfl

/-! ### Events one after the other -/

section
variable {stop : List Event → Option BuildError} {stamp : Stamp} {notes : List Event} {event : Event}

theorem run_heed_of_none (h : stop (event :: notes) = none) :
    (heed stop event).run ⟨stamp, notes⟩ = (.ok (), ⟨stamp, event :: notes⟩) := by
  rw [heed, run_mk]
  simp only [h, Option.elim]

theorem run_heed_of_some {err : BuildError} (h : stop (event :: notes) = some err) :
    (heed stop event).run ⟨stamp, notes⟩ = (.error err, ⟨stamp, event :: notes⟩) := by
  rw [heed, run_mk]
  simp only [h, Option.elim]

theorem run_forM_heed (events : List Event) :
    (forM events (heed fun _ => none)).run ⟨stamp, notes⟩ = (.ok (), ⟨stamp, events.reverse ++ notes⟩) := by
  induction events generalizing notes with
  | nil => rfl
  | cons event events ih =>
    rw [List.forM_cons, run_bind_of_ok (run_heed_of_none rfl), ih, List.reverse_cons, List.append_assoc]
    rfl

theorem run_forM_heed_of_some {events : List Event} {i : Nat} {err : BuildError} (hi : i < events.length)
    (hbefore : ∀ j < i, stop ((events.take (j + 1)).reverse ++ notes) = none)
    (hat : stop ((events.take (i + 1)).reverse ++ notes) = some err) :
    (forM events (heed stop)).run ⟨stamp, notes⟩ = (.error err, ⟨stamp, (events.take (i + 1)).reverse ++ notes⟩) := by
  induction events generalizing notes i with
  | nil => cases hi
  | cons event events ih =>
    have htake (j : Nat) :
        ((event :: events).take (j + 1)).reverse ++ notes = (events.take j).reverse ++ event :: notes := by simp
    rw [List.forM_cons]
    cases i with
    | zero => exact run_bind_of_error (run_heed_of_some hat)
    | succ i =>
      have hfirst : stop (event :: notes) = none := hbefore 0 (Nat.succ_pos i)
      rw [run_bind_of_ok (run_heed_of_none hfirst), htake]
      refine ih (Nat.lt_of_succ_lt_succ hi) (fun j hj => ?_) (htake (i + 1) ▸ hat)
      exact htake (j + 1) ▸ hbefore (j + 1) (Nat.succ_lt_succ hj)

end

end Traversal

/-! ### Traversals by their events -/

open Traversal (heed recordUntil)

namespace Expr
variable {stop : List Event → Option BuildError}

/-- The traversal comes past the events and gives the expression back. -/
def ComesPast (stop : List Event → Option BuildError) (e : Expr) : Prop :=
  e.traverse (recordUntil stop) = do
    forM e.listing (heed stop)
    return e

theorem traverseParts_recordUntil {es : List Expr} (roles : List (Option Descriptor))
    (h : ∀ e ∈ es, e.ComesPast stop) :
    traverseParts (recordUntil stop) roles es = do
      forM (es.mapIdx fun i e => (roles[i]?.join).toList.map .binding ++ e.listing).flatten (heed stop)
      return es := by
  induction es generalizing roles with
  | nil => rfl
  | cons e es ih =>
    rw [List.forall_mem_cons] at h
    have he : e.traverse (recordUntil stop) = _ := h.1
    have hrebind (d : Descriptor) : (rebind d e e : TraversalM (List Event) Expr) = pure e := if_pos (same_refl e)
    have hbinding (d : Descriptor) : (recordUntil stop).enterBinding d = heed stop (.binding d) := rfl
    rw [traverseParts, ih roles.tail h.2, List.mapIdx_cons, List.flatten_cons, List.head?_eq_getElem?]
    simp only [List.getElem?_tail, List.forM_append]
    cases roles[0]?.join with
    | none => simp [he]
    | some d => simp [he, hrebind, hbinding]

theorem bindingAt_node (stamp : Stamp) (head : Head) (parts : List Expr) (i : Nat) :
    (node stamp head parts).bindingAt i = head.roles[i]?.join := by
  cases head with
  | invoke params =>
    cases i with
    | zero => rfl
    | succ i =>
      rw [bindingAt, Head.roles, List.getElem?_cons_succ, List.getElem?_map]
      cases params[i]? <;> rfl
  | _ => cases i <;> rfl

theorem comesPast {e : Expr} (he : e.WellMade) : e.ComesPast stop := by
  induction e using induction_parts with
  | const c => simp [ComesPast, traverse, recordUntil]
  | var v => simp [ComesPast, traverse, recordUntil]
  | node stamp head parts ih =>
    have hparts := traverseParts_recordUntil head.roles fun p hp => ih p hp (he.part p hp)
    have hrebuild : (recordUntil stop).rebuild (node stamp head parts) parts = pure (node stamp head parts) := by
      show TraversalM.ofBuild ((node stamp head parts).update parts) = _
      rw [update, if_pos (sameAll_refl parts)]
      rfl
    have henter : (recordUntil stop).enter (node stamp head parts) = heed stop (.expr (node stamp head parts)) := rfl
    rw [ComesPast, traverse_node _ he.allows, Traversal.around, henter, hparts, listing_eq,
      children_of_allows he.allows]
    simp only [bindingAt_node, hrebuild, List.forM_cons, bind_assoc, pure_bind]

/-! ### The nodes that a traversal comes past -/

theorem filterMap_expr (e : Expr) (events : List Event) :
    (Event.expr e :: events).filterMap Event.expr? = e :: events.filterMap Event.expr? := rfl

theorem filterMap_bindings (d? : Option Descriptor) (events : List Event) :
    (d?.toList.map Event.binding ++ events).filterMap Event.expr? = events.filterMap Event.expr? := by
  cases d? <;> rfl

/-- Apart from the bindings, the listing is the listing of nodes. -/
theorem filterMap_listing (e : Expr) : e.listing.filterMap Event.expr? = e.preorder := by
  induction e using induction_parts with
  | const c => rw [listing_const, preorder_eq]; rfl
  | var v => rw [listing_var, preorder_eq]; rfl
  | node stamp head parts ih =>
    rw [listing_eq, preorder_eq, filterMap_expr, List.filterMap_flatten, List.flatMap_def]
    congr 2
    refine List.ext_getElem (by simp) fun i hi hi' => ?_
    rw [List.getElem_map, List.getElem_mapIdx, List.getElem_map, filterMap_bindings]
    exact ih _ (mem_parts_of_mem_children (List.getElem_mem _))

end Expr

namespace Traversal

/-- A traversal that only takes notes comes past the listing of the expression and gives the expression back. The nodes
in the listing are all nodes, each before its children. One that gives up at an event has come past the events up to and
including that one. -/
theorem run_recordUntil {e : Expr} (he : e.Obtained) (stamp : Stamp) :
    record.run [] e stamp = (.ok e, ⟨stamp, e.listing.reverse⟩) ∧
      e.listing.filterMap Event.expr? = e.preorder ∧
      ∀ (stop : List Event → Option BuildError) (i : Nat) (err : BuildError), i < e.listing.length →
        (∀ j < i, stop (e.listing.take (j + 1)).reverse = none) → stop (e.listing.take (i + 1)).reverse = some err →
        (recordUntil stop).run [] e stamp = (.error err, ⟨stamp, (e.listing.take (i + 1)).reverse⟩) := by
  have hrun (stop : List Event → Option BuildError) : (recordUntil stop).run [] e stamp =
      (do forM e.listing (heed stop); return e : TraversalM (List Event) Expr).run ⟨stamp, []⟩ := by
    rw [run, Expr.comesPast he.wellMade]
  refine ⟨?_, Expr.filterMap_listing e, fun stop i err hi hbefore hat => ?_⟩
  · rw [record_eq, hrun, run_bind_of_ok (run_forM_heed e.listing), List.append_nil]
    rfl
  · have hheed : (forM e.listing (heed stop)).run ⟨stamp, []⟩ =
        (.error err, ⟨stamp, (e.listing.take (i + 1)).reverse ++ []⟩) :=
      run_forM_heed_of_some hi (by simpa using hbefore) (by simpa using hat)
    rw [hrun, run_bind_of_error hheed, List.append_nil]

namespace SharedSum

def signature : Signature := ⟨⟨"f"⟩, "f", [⟨"x", .int .i32, none⟩], .int .i32⟩
def f : Var := ⟨⟨0⟩, "f", .fn signature⟩
def y : Var := ⟨⟨1⟩, "y", .int .i32⟩
def param : Descriptor := .held signature ⟨0, by decide⟩

def double : Expr := .node 0 (.binary .add false) [.var y, .var y]
def call : Expr := .node 1 (.invoke [param]) [.var f, double]

/-- `f(x := y + y) + (y + y)`, where both sums are one node -/
def expr : Expr := .node 2 (.binary .add false) [call, double]

theorem expr_obtained : expr.Obtained := by
  have hdouble : Expr.mkBinary .add false (.var y) (.var y) 0 = .ok (double, 1) := rfl
  have hcall : Expr.make (.invoke [param]) [.var f, double] 1 = .ok (call, 2) := rfl
  have hsum : Expr.mkBinary .add false call double 2 = .ok (expr, 3) := rfl
  have hdouble' : double.Obtained := .made (by simp [Expr.Obtained.var]) hdouble
  have hcall' : call.Obtained := .made (by simp [Expr.Obtained.var, hdouble']) hcall
  exact .made (by simp [hdouble', hcall']) hsum

theorem listing_expr : expr.listing = [.expr expr, .expr call, .expr (.var f), .binding param, .expr double,
    .expr (.var y), .expr (.var y), .expr double, .expr (.var y), .expr (.var y)] := by
  have hdouble : double.listing = [.expr double, .expr (.var y), .expr (.var y)] := by
    rw [Expr.listing_eq]
    simp [double, Expr.children, Expr.bindingAt]
  have hcall : call.listing = .expr call :: .expr (.var f) :: .binding param :: double.listing := by
    rw [Expr.listing_eq]
    simp [call, Expr.children, Expr.bindingAt]
  rw [Expr.listing_eq]
  simp [expr, Expr.children, Expr.bindingAt, hcall, hdouble]

end SharedSum

open SharedSum in
/-- The second occurrence of a shared node is the eighth event. -/
theorem run_recordUntil_sharedSum :
    expr.Obtained ∧
      (recordUntil fun notes => if notes.length = 8 then some (.malformed "") else none).run [] expr 3 =
        (.error (.malformed ""), ⟨3, [.expr double, .expr (.var y), .expr (.var y), .expr double, .binding param,
          .expr (.var f), .expr call, .expr expr]⟩) := by
  have hrun := (run_recordUntil expr_obtained 3).2.2
    (fun notes => if notes.length = 8 then some (.malformed "") else none) 7 (.malformed "")
  rw [listing_expr] at hrun
  exact ⟨expr_obtained, hrun (by decide) (by decide) rfl⟩

end Traversal

end ExprLowering
