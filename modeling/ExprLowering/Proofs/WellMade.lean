import ExprLowering.Proofs.ArrayElements
import ExprLowering.Proofs.Walk

/-!
# Well-made expressions

An expression is well made when every node in it passes the check of its head. Whatever comes out of the
operations on expressions is well made (`Obtained.wellMade`): the ways to make a node, the two kinds of
pieces, `update`, and traversals, as long as the steps of the traversal themselves give expressions that
were obtained so.
-/

namespace ExprLowering

namespace Expr

/-- Constants and variables. -/
def isLeaf : Expr → Bool
  | const _ | var _ => true
  | node .. => false

/-! ### Induction -/

mutual

theorem induction_parts {P : Expr → Prop} (const : ∀ c, P (const c)) (var : ∀ v, P (var v))
    (node : ∀ stamp head parts, (∀ e ∈ parts, P e) → P (node stamp head parts)) : ∀ e, P e
  | .const c => const c
  | .var v => var v
  | .node stamp head parts => node stamp head parts (induction_all const var node parts)

theorem induction_all {P : Expr → Prop} (const : ∀ c, P (Expr.const c)) (var : ∀ v, P (Expr.var v))
    (node : ∀ stamp head parts, (∀ e ∈ parts, P e) → P (Expr.node stamp head parts)) :
    ∀ es : List Expr, ∀ e ∈ es, P e
  | [] => fun _ h => absurd h List.not_mem_nil
  | e :: es => List.forall_mem_cons.2
    ⟨induction_parts const var node e, induction_all const var node es⟩

end

/-! ### The predicate -/

end Expr

/-- The elements of an array are held as they fit it, quoted where that was needed. -/
def Head.Fits : Head → List Expr → Prop
  | .array element _, parts => ∀ e ∈ parts, element.accepts e.ty = true
  | _, _ => True

namespace Expr

/-- Every node passes the check of its head. -/
inductive WellMade : Expr → Prop
  | const (c : Constant) : WellMade (const c)
  | var (v : Var) : WellMade (var v)
  | node {stamp : Stamp} {head : Head} {parts : List Expr} (check : head.check parts = .ok ())
      (fits : head.Fits parts) (made : ∀ e ∈ parts, WellMade e) : WellMade (node stamp head parts)

namespace WellMade
variable {stamp : Stamp} {head : Head} {parts : List Expr} {e : Expr}

theorem check (h : WellMade (Expr.node stamp head parts)) : head.check parts = .ok () := by
  cases h; assumption

theorem allows (h : WellMade (Expr.node stamp head parts)) : head.Allows parts :=
  Head.allows_of_check h.check

theorem fits (h : WellMade (Expr.node stamp head parts)) : head.Fits parts := by
  cases h; assumption

theorem part (h : WellMade e) : ∀ p ∈ e.parts, WellMade p := by
  cases h with
  | const | var => intro p hp; cases hp
  | node _ _ made => exact made

end WellMade

/-! ### Making a node -/

theorem forall_mem_of_forall₂ {α β : Type} {R : α → β → Prop} {Q : β → Prop} {as : List α} {bs : List β}
    (h : List.Forall₂ R as bs) (hQ : ∀ a ∈ as, ∀ b, R a b → Q b) : ∀ b ∈ bs, Q b := by
  induction h with
  | nil => exact fun b hb => absurd hb List.not_mem_nil
  | cons hab _ ih =>
    exact List.forall_mem_cons.2 ⟨hQ _ (by simp) _ hab, ih fun a ha => hQ a (by simp [ha])⟩

/-- An element and what is stored for it. -/
def StoredAs (element : Ty) (e e' : Expr) : Prop :=
  element.accepts e.ty = true ∧ e' = e ∨
    element.accepts e.ty = false ∧ needsQuote element e = true ∧ ∃ stamp, e' = .node stamp .quote [e]

theorem storedAs_storedAt {element : Ty} {elements : List Expr} {stamp : Stamp} {e : Expr} (i : Nat)
    (h : ArrayNode.Admits element e) : StoredAs element e (storedAt element elements stamp i e) := by
  rw [StoredAs, storedAt]
  rw [ArrayNode.admits_iff] at h
  cases ha : element.accepts e.ty with
  | true => exact .inl ⟨rfl, rfl⟩
  | false => exact .inr ⟨rfl, by simpa [ha] using h, _, rfl⟩

theorem storedAs_of_storeAll {element : Ty} {es es' : List Expr} {s s' : Stamp}
    (h : storeAll element es s = .ok (es', s')) : List.Forall₂ (StoredAs element) es es' := by
  obtain ⟨hall, rfl, -⟩ := storeAll_eq_ok.1 h
  refine List.forall₂_iff_get.2 ⟨List.length_mapIdx.symm, fun i hi hi' => ?_⟩
  simp only [List.get_eq_getElem, List.getElem_mapIdx]
  exact storedAs_storedAt i (hall _ (List.getElem_mem hi))

end Expr

/-- The parts that a new node holds for the parts it is given. -/
def Head.Holds : Head → List Expr → List Expr → Prop
  | .array element _, given, held => List.Forall₂ (Expr.StoredAs element) given held
  | _, given, held => held = given

namespace Expr
variable {head : Head} {parts : List Expr} {e e' : Expr} {s s' : Stamp}

theorem make_eq_ok (h : make head parts s = .ok (e, s')) :
    head.check parts = .ok () ∧ ∃ stamp held, head.Holds parts held ∧ e = node stamp head held := by
  obtain ⟨_, t, hlift, h⟩ := build_bind_eq_ok.1 h
  obtain ⟨hc, rfl⟩ := build_liftM_eq_ok.1 hlift
  refine ⟨hc, ?_⟩
  cases head with
  | array element bounds =>
    obtain ⟨held, t, hheld, h⟩ := build_bind_eq_ok.1 h
    cases h
    exact ⟨_, held, storedAs_of_storeAll hheld, rfl⟩
  | _ => cases h; exact ⟨_, _, rfl, rfl⟩

theorem make_of_error {b : BuildError} (h : head.check parts = .error b) (s : Stamp) :
    make head parts s = .error b := by
  refine build_bind_of_error ?_
  show (head.check parts >>= fun a => .ok (a, s)) = _
  rw [h]
  rfl

theorem StoredAs.accepts {element : Ty} (h : StoredAs element e e') : element.accepts e'.ty = true := by
  rcases h with ⟨ha, rfl⟩ | ⟨-, hq, stamp, rfl⟩
  · exact ha
  · cases element with
    | quoted inner =>
      simp only [needsQuote, Bool.and_eq_true, Ty.beq_iff] at hq
      simp [Ty.accepts, Ty.beq_iff, ty, Ty.nominal, hq.2]
    | _ => cases hq

theorem StoredAs.wellMade {element : Ty} (h : StoredAs element e e') (he : WellMade e) : WellMade e' := by
  rcases h with ⟨-, rfl⟩ | ⟨-, hq, stamp, rfl⟩
  · exact he
  · refine .node ?_ trivial fun p hp => by rw [List.mem_singleton.1 hp]; exact he
    cases element with
    | quoted inner =>
      simp only [needsQuote, Bool.and_eq_true] at hq
      simp [Head.check, hq.1]
    | _ => cases hq

theorem make_wellMade (h : make head parts s = .ok (e, s')) (hp : ∀ p ∈ parts, WellMade p) : WellMade e := by
  obtain ⟨hc, stamp, held, hh, rfl⟩ := make_eq_ok h
  cases head with
  | array element bounds =>
    have hheld : ∀ e' ∈ held, element.accepts e'.ty = true ∧ WellMade e' :=
      forall_mem_of_forall₂ hh fun e he e' hs => ⟨hs.accepts, hs.wellMade (hp e he)⟩
    refine .node ?_ (fun e' he' => (hheld e' he').1) fun e' he' => (hheld e' he').2
    obtain ⟨hvoid, hbounds, hsize⟩ := check_array_eq_ok.1 hc
    exact check_array_eq_ok.2 ⟨hvoid, hbounds, by rw [hsize, List.Forall₂.length_eq hh]⟩
  | _ => cases hh; exact .node hc trivial hp

/-! ### Other parts for a node -/

theorem update_wellMade (h : e.update parts s = .ok (e', s')) (he : WellMade e)
    (hp : ∀ p ∈ parts, WellMade p) : WellMade e' := by
  cases e with
  | const | var => cases h; exact he
  | node stamp head old =>
    rw [update] at h
    split_ifs at h with hs
    · cases h; exact he
    · exact make_wellMade h hp

theorem updateInvoke_wellMade {callee : Expr} {params : List Descriptor}
    (h : e.updateInvoke callee params parts s = .ok (e', s')) (he : WellMade e) (hc : WellMade callee)
    (hp : ∀ p ∈ parts, WellMade p) : WellMade e' := by
  have hall : ∀ p ∈ callee :: parts, WellMade p := List.forall_mem_cons.2 ⟨hc, hp⟩
  unfold updateInvoke at h
  split at h
  · split_ifs at h with hs
    · cases h; exact he
    · exact make_wellMade h hall
  · exact make_wellMade h hall

theorem getElement_mem {indices : List Int} (h : e.getElement indices = .ok e') : e' ∈ e.parts := by
  unfold getElement at h
  split at h
  · split at h
    · split at h
      · cases h
        exact List.mem_of_getElem? ‹_›
      · cases h
    · cases h
    · cases h
  · cases h

end Expr

/-! ### Traversals -/

/-- Each step of the traversal gives expressions in `Q` from expressions in `Q`. -/
structure Traversal.Keeps {σ : Type} (t : Traversal σ) (Q : Expr → Prop) : Prop where
  const : ∀ {c s e s'}, (t.const c).run s = (.ok e, s') → Q e
  var : ∀ {v s e s'}, (t.var v).run s = (.ok e, s') → Q e
  rebuild : ∀ {e parts s e' s'}, Q e → (∀ p ∈ parts, Q p) → (t.rebuild e parts).run s = (.ok e', s') → Q e'

namespace Expr
variable {σ : Type} {t : Traversal σ} {Q : Expr → Prop}

theorem rebind_keeps {param : Descriptor} {old new e : Expr} {s s' : TraversalState σ}
    (h : (rebind param old new).run s = (.ok e, s')) (ho : Q old) (hn : Q new) : Q e := by
  unfold rebind at h
  split_ifs at h with hs
  · cases h; exact ho
  · obtain ⟨_, _, -, h⟩ := run_bind_eq_ok.1 h
    cases h
    exact hn

theorem traverseParts_keeps {es : List Expr} (hes : ∀ e ∈ es, Q e)
    (ih : ∀ e ∈ es, Q e → ∀ {s e' s'}, (e.traverse t).run s = (.ok e', s') → Q e')
    {roles : List (Option Descriptor)} {s s' : TraversalState σ} {es' : List Expr}
    (h : (traverseParts t roles es).run s = (.ok es', s')) : ∀ e ∈ es', Q e := by
  induction es generalizing roles s es' with
  | nil => cases h; exact hes
  | cons e es ihs =>
    rw [traverseParts] at h
    have he := hes e (by simp)
    have hes' : ∀ e ∈ es, Q e := fun e h => hes e (by simp [h])
    have ih' : ∀ e ∈ es, Q e → ∀ {s e' s'}, (e.traverse t).run s = (.ok e', s') → Q e' :=
      fun e h => ih e (by simp [h])
    cases hr : roles.head?.join with
    | none =>
      simp only [hr] at h
      obtain ⟨new, _, hnew, h⟩ := run_bind_eq_ok.1 h
      obtain ⟨rest, _, hrun, h⟩ := run_bind_eq_ok.1 h
      cases h
      exact List.forall_mem_cons.2 ⟨ih e (by simp) he hnew, ihs hes' ih' hrun⟩
    | some param =>
      simp only [hr] at h
      obtain ⟨_, _, -, h⟩ := run_bind_eq_ok.1 h
      obtain ⟨new, _, hnew, h⟩ := run_bind_eq_ok.1 h
      obtain ⟨bound, _, hbound, h⟩ := run_bind_eq_ok.1 h
      obtain ⟨rest, _, hrun, h⟩ := run_bind_eq_ok.1 h
      cases h
      exact List.forall_mem_cons.2
        ⟨rebind_keeps hbound he (ih e (by simp) he hnew), ihs hes' ih' hrun⟩

/-- A traversal stays in a set of well-made expressions that has the parts of its members, if its steps do. -/
theorem traverse_keeps (ht : t.Keeps Q) (hw : ∀ e, Q e → WellMade e) (hQ : ∀ e, Q e → ∀ p ∈ e.parts, Q p) (e : Expr) :
    Q e → ∀ {s e' s'}, (e.traverse t).run s = (.ok e', s') → Q e' := by
  induction e using induction_parts with
  | const c =>
    intro _ s e' s' h
    rw [traverse] at h
    obtain ⟨_, _, -, h⟩ := run_bind_eq_ok.1 h
    exact ht.const h
  | var v =>
    intro _ s e' s' h
    rw [traverse] at h
    obtain ⟨_, _, -, h⟩ := run_bind_eq_ok.1 h
    exact ht.var h
  | node stamp head parts ih =>
    intro he s e' s' h
    rw [traverse_node t (hw _ he).allows, Traversal.around] at h
    obtain ⟨_, _, -, h⟩ := run_bind_eq_ok.1 h
    obtain ⟨new, _, hnew, h⟩ := run_bind_eq_ok.1 h
    exact ht.rebuild he (traverseParts_keeps (hQ _ he) ih hnew) h

/-! ### What the operations give -/

/-- What can be obtained by the operations on expressions. -/
inductive Obtained : Expr → Prop
  | const (c : Constant) : Obtained (const c)
  | var (v : Var) : Obtained (var v)
  | made {head : Head} {parts : List Expr} {s s' : Stamp} {e : Expr} (hp : ∀ p ∈ parts, Obtained p)
      (h : make head parts s = .ok (e, s')) : Obtained e
  | arrayPieces {pieces : ArrayPieces} {s s' : Stamp} {e : Expr}
      (hp : ∀ p ∈ pieces.elements.getD [], Obtained p) (h : pieces.build s = .ok (e, s')) : Obtained e
  | invokePieces {pieces : InvokePieces} {s s' : Stamp} {e : Expr} (hc : ∀ c ∈ pieces.callee, Obtained c)
      (hp : ∀ b ∈ pieces.bindings.getD [], Obtained b.value) (h : pieces.build s = .ok (e, s')) : Obtained e
  | updated {e e' : Expr} {parts : List Expr} {s s' : Stamp} (he : Obtained e)
      (hp : ∀ p ∈ parts, Obtained p) (h : e.update parts s = .ok (e', s')) : Obtained e'
  | rebound {e e' callee : Expr} {bindings : List Binding} {s s' : Stamp} (he : Obtained e)
      (hc : Obtained callee) (hp : ∀ b ∈ bindings, Obtained b.value)
      (h : e.updateInvoke callee (bindings.map (·.param)) (bindings.map (·.value)) s = .ok (e', s')) :
      Obtained e'
  | part {e p : Expr} (he : Obtained e) (hp : p ∈ e.parts) : Obtained p
  | element {e e' : Expr} {indices : List Int} (he : Obtained e) (h : e.getElement indices = .ok e') :
      Obtained e'
  /-- A traversal may use whatever expressions `Q` its steps keep to, once these are obtained. -/
  | traversed {σ : Type} {t : Traversal σ} {Q : Expr → Prop} {e e' : Expr} {s s' : TraversalState σ}
      (hQ : ∀ x, Q x → Obtained x) (hparts : ∀ x, Q x → ∀ p ∈ x.parts, Q p) (ht : t.Keeps Q) (he : Q e)
      (h : (e.traverse t).run s = (.ok e', s')) : Obtained e'

theorem arrayPieces_wellMade {pieces : ArrayPieces} {s s' : Stamp} {e : Expr}
    (hp : ∀ p ∈ pieces.elements.getD [], WellMade p) (h : pieces.build s = .ok (e, s')) : WellMade e := by
  obtain ⟨_ | element, _ | bounds, _ | elements⟩ := pieces
  case some.some.some => exact make_wellMade h hp
  all_goals cases h

theorem invokePieces_wellMade {pieces : InvokePieces} {s s' : Stamp} {e : Expr}
    (hc : ∀ c ∈ pieces.callee, WellMade c) (hp : ∀ b ∈ pieces.bindings.getD [], WellMade b.value)
    (h : pieces.build s = .ok (e, s')) : WellMade e := by
  obtain ⟨_ | callee, _ | bindings⟩ := pieces
  case some.some =>
    refine make_wellMade h (List.forall_mem_cons.2 ⟨hc _ rfl, ?_⟩)
    simpa using hp
  all_goals cases h

/-- Whatever the operations give is well made. -/
theorem Obtained.wellMade {e : Expr} (h : Obtained e) : WellMade e := by
  induction h with
  | const c => exact .const c
  | var v => exact .var v
  | made _ h ih => exact make_wellMade h ih
  | arrayPieces _ h ih => exact arrayPieces_wellMade ih h
  | invokePieces _ _ h ihc ih => exact invokePieces_wellMade ihc ih h
  | updated _ _ h ihe ih => exact update_wellMade h ihe ih
  | rebound _ _ _ h ihe ihc ih => exact updateInvoke_wellMade h ihe ihc (by simpa using ih)
  | part _ hp ih => exact ih.part _ hp
  | element _ h ih => exact ih.part _ (getElement_mem h)
  | traversed _ hparts ht he h ih => exact ih _ (traverse_keeps ht ih hparts _ he h)

end Expr
end ExprLowering
