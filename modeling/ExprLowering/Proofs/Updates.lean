import ExprLowering.Proofs.ArrayNodes
import ExprLowering.Proofs.Bindings
import ExprLowering.Proofs.Retyping

/-!
# Updating a node and making it anew

`update` gives a node back when the parts it is given are the same as the node's own, and otherwise makes a node of
them, with all the checks. `update_agrees` says that the shortcut is no loophole: the checks would have passed, and
the new node would have been like the old one. For this, parts that are the same have to be of one type, and a stamp
has to stand for one node (`Identified`). Literals that are the same are of one type anyway; variables are if those of
one id have equal types, and nulls are if their types refer to the same signatures.

The same holds of `updateInvoke`, where descriptors are given as well. Descriptors are the same if they are at one
position of one signature, whatever else they say, so there the callee's signature has to declare them.
-/

namespace ExprLowering

namespace Expr

/-- What is the same in both lists is of one type, and is one node if it is a node. -/
structure Identified (ds es : List Expr) : Prop where
  ty : ∀ d ∈ ds, ∀ e ∈ es, d.same e = true → d.ty = e.ty
  node : ∀ d ∈ ds, ∀ e ∈ es, d.same e = true → d.isLeaf = false → d = e

/-! ### The same parts -/

section
variable {d e : Expr} {ds es : List Expr}

theorem same_symm (h : d.same e = true) : e.same d = true := by
  unfold same at h ⊢
  split at h
  · rename_i c c'
    cases c with
    | null t =>
      cases c' with
      | null u => exact Ty.beq_iff.2 (Ty.beq_iff.1 h).symm
      | lit => cases h
    | lit l =>
      cases c' with
      | null => cases h
      | lit l' => exact beq_iff_eq.2 (beq_iff_eq.1 h).symm
  · rename_i v v'
    have hid : v.id = v'.id := beq_iff_eq.1 h
    show (v'.id == v.id) = true
    exact beq_iff_eq.2 hid.symm
  · exact beq_iff_eq.2 (beq_iff_eq.1 h).symm
  · cases h

/-- What is the same can stand in the same place. -/
theorem Identified.suits (h : Identified ds es) (hd : d ∈ ds) (he : e ∈ es) (hs : d.same e = true) : e.Suits d := by
  have hty := h.ty d hd e he hs
  have hnode := h.node d hd e he hs
  cases d with
  | const | var =>
    cases e with
    | const | var => exact ⟨hty, by simp_all [same, isLocation], by simp [isLambda]⟩
    | node => cases hs
  | node =>
    rw [hnode rfl]
    exact ⟨rfl, id, id⟩

theorem Identified.tail (h : Identified (d :: ds) (e :: es)) : Identified ds es where
  ty d hd e he := h.ty d (List.mem_cons_of_mem _ hd) e (List.mem_cons_of_mem _ he)
  node d hd e he := h.node d (List.mem_cons_of_mem _ hd) e (List.mem_cons_of_mem _ he)

theorem forall₂_of_sameAll (h : sameAll ds es = true) : List.Forall₂ (fun d e => d.same e = true) ds es := by
  induction ds generalizing es with
  | nil =>
    cases es with
    | nil => exact .nil
    | cons => cases h
  | cons d ds ih =>
    cases es with
    | nil => cases h
    | cons e es =>
      rw [sameAll, Bool.and_eq_true] at h
      exact .cons h.1 (ih h.2)

theorem Identified.forall₂_suits (h : Identified ds es) (hs : sameAll ds es = true) : List.Forall₂ Suits es ds := by
  have hsame := forall₂_of_sameAll hs
  clear hs
  induction hsame with
  | nil => exact .nil
  | cons hde _ ih => exact .cons (h.suits List.mem_cons_self List.mem_cons_self hde) (ih h.tail)

end

/-- Descriptors are the same if they agree in the signature and the position that they name. -/
theorem sameParams_iff {params params' : List Descriptor} : sameParams params params' = true ↔
    params.map (fun d => (d.parameter.owner, d.position)) = params'.map fun d => (d.parameter.owner, d.position) := by
  induction params generalizing params' with
  | nil => cases params' <;> simp [sameParams]
  | cons d ds ih =>
    cases params' with
    | nil => simp [sameParams]
    | cons d' ds' => simp [sameParams, Parameter.same, Descriptor.position, ih]

theorem positions_of_sameParams {params params' : List Descriptor} (h : sameParams params params' = true) :
    params.map (·.position) = params'.map (·.position) := by
  have hsecond := congrArg (List.map Prod.snd) (sameParams_iff.1 h)
  rw [List.map_map, List.map_map] at hsecond
  exact hsecond

end Expr

/-! ### New nodes -/

namespace Head

/-- The parts that a node made at `s` holds. -/
def held : Head → List Expr → Stamp → List Expr
  | .array element _, parts, s => parts.mapIdx (Expr.storedAt element parts s)
  | _, parts, _ => parts

/-- The elements that an array is given can be held. -/
def Admits : Head → List Expr → Prop
  | .array element _, parts => ∀ e ∈ parts, ArrayNode.Admits element e
  | _, _ => True

/-- How many parts are quoted when a node is made. -/
def quoted : Head → List Expr → Nat
  | .array element _, parts => Expr.quotes element parts
  | _, _ => 0

/-- The same data beside the parts. The descriptors of an invocation are compared by their positions. -/
def SameData : Head → Head → Prop
  | .invoke params, .invoke params' => Expr.sameParams params params' = true
  | head, head' => head = head'

theorem SameData.refl (head : Head) : head.SameData head := by
  cases head with
  | invoke params => exact Expr.sameParams_iff.2 rfl
  | _ => rfl

theorem SameData.kind_eq {head head' : Head} (h : head.SameData head') : head'.kind = head.kind := by
  unfold SameData at h
  split at h
  · rfl
  · rw [h]

end Head

namespace Expr

/-- Whether a node is made does not depend on the stamps. -/
theorem make_cases (head : Head) (parts : List Expr) :
    (∃ b, ∀ s, make head parts s = .error b) ∨ head.Admits parts ∧
      ∀ s, make head parts s =
        .ok (node (s + head.quoted parts) head (head.held parts s), s + head.quoted parts + 1) := by
  cases head with
  | array element bounds =>
    rcases ArrayNode.takes_or_refuses element bounds parts with htakes | ⟨b, hrefuses⟩
    · exact .inr ⟨htakes.admits, htakes.mkArray⟩
    · exact .inl ⟨b, hrefuses.mkArray⟩
  | _ =>
    cases hc : Head.check _ parts with
    | error b => exact .inl ⟨b, make_of_error hc⟩
    | ok => exact .inr ⟨trivial, make_of_check hc trivial⟩

/-- Parts of two results: the same part, or quotes of one lambda that are new in both. -/
def Paired (s s' : Stamp) (d d' : Expr) : Prop :=
  d.same d' = true ∨ ∃ stamp stamp' operand, s ≤ stamp ∧ s' ≤ stamp' ∧ operand.isLambda = true ∧
    d = node stamp .quote [operand] ∧ d' = node stamp' .quote [operand]

def SameData : Expr → Expr → Prop
  | node _ head _, node _ head' _ => head.SameData head'
  | _, _ => False

/-- Two nodes, made from `s` and `s'` on, that differ by their stamps alone. -/
structure Twins (s s' : Stamp) (e e' : Expr) : Prop where
  kind : e'.kind = e.kind
  ty : e'.ty = e.ty
  data : e.SameData e'
  parts : List.Forall₂ (Paired s s') e.parts e'.parts

/-- The results of an update of `n` and of making the node: both succeed, with nodes that are twins, or both fail
with one error, and the update gives `n` just if nothing changes. -/
structure UpdatesAs (s s' : Stamp) (n : Expr) (unchanged : Bool) (updated made : Except BuildError (Expr × Stamp)) :
    Prop where
  succeeds : (∃ r, updated = .ok r) ↔ ∃ r, made = .ok r
  error : ∀ b, updated = .error b ↔ made = .error b
  twins : ∀ e t e' t', updated = .ok (e, t) → made = .ok (e', t') → Twins s s' e e'
  self : (∃ t, updated = .ok (n, t)) ↔ unchanged = true
  same : ∀ e t, updated = .ok (e, t) → e.same n = true → e = n

section
variable {s s' stamp : Stamp} {head : Head} {old parts : List Expr}

theorem forall₂_paired_held (hadmits : head.Admits parts) :
    List.Forall₂ (Paired s s') (head.held parts s) (head.held parts s') := by
  cases head with
  | array element bounds =>
    rw [List.forall₂_iff_get]
    refine ⟨by simp [Head.held], fun i hi hi' => ?_⟩
    simp only [Head.held, List.length_mapIdx] at hi
    simp only [Head.held, List.get_eq_getElem, List.getElem_mapIdx, storedAt]
    split_ifs with ha
    · exact .inl (same_refl _)
    · -- An element that the array does not accept is held because it can be quoted.
      obtain ⟨-, -, hlambda, -⟩ := (hadmits _ (List.getElem_mem hi)).resolve_left ha
      exact .inr ⟨_, _, _, Nat.le_add_right _ _, Nat.le_add_right _ _, hlambda, rfl, rfl⟩
  | _ => exact List.forall₂_same.2 fun e _ => .inl (same_refl e)

theorem ty_held : (node stamp head (head.held parts s)).ty = (node stamp head parts).ty := by
  cases head with
  | array => rfl
  | _ => rfl

/-- Making a node twice gives twins, neither of which was there before. -/
theorem UpdatesAs.remade (hstamp : stamp < s) {head' : Head} :
    UpdatesAs s s' (node stamp head' old) false (make head parts s) (make head parts s') := by
  rcases make_cases head parts with ⟨b, hmake⟩ | ⟨hadmits, hmake⟩
  · rw [hmake, hmake]
    constructor <;> simp
  · -- The old node has its stamp from before `s`, and a new one is stamped after its quotes.
    have hnew : s + head.quoted parts ≠ stamp := Nat.ne_of_gt (Nat.lt_of_lt_of_le hstamp (Nat.le_add_right _ _))
    rw [hmake, hmake]
    refine ⟨by simp, by simp, ?_, ?_, ?_⟩
    · rintro e t e' t' he he'
      cases he
      cases he'
      refine ⟨rfl, ?_, Head.SameData.refl head, forall₂_paired_held hadmits⟩
      rw [ty_held, ty_held]
      exact ty_node_congr (List.forall₂_same.2 fun _ _ => rfl)
    · refine iff_of_false ?_ Bool.false_ne_true
      rintro ⟨t, ht⟩
      cases ht
      exact hnew rfl
    · rintro e t he hsame
      cases he
      exact absurd (beq_iff_eq.1 hsame) hnew

theorem UpdatesAs.kept {n e' : Expr} {t t' : Stamp} (h : Twins s s' n e') :
    UpdatesAs s s' n true (.ok (n, t)) (.ok (e', t')) where
  succeeds := by simp
  error := by simp
  twins := by
    rintro _ _ _ _ he he'
    cases he
    cases he'
    exact h
  self := by simp
  same := by
    rintro _ _ he -
    cases he
    rfl

/-! ### The shortcut -/

/-- The twin that a node would have had, if it was not given back. -/
theorem twins_of_sameAll (hid : Identified parts old) (h : sameAll parts old = true) {head' : Head}
    (hdata : head.SameData head') (hty : (node s' head' parts).ty = (node stamp head parts).ty) :
    Twins s s' (node stamp head old) (node s' head' parts) := by
  refine ⟨hdata.kind_eq, ?_, hdata, ?_⟩
  · rw [hty]
    exact ty_node_congr ((hid.forall₂_suits h).imp fun _ _ h => h.ty)
  · exact (forall₂_of_sameAll h).flip.imp fun _ _ h => .inl (same_symm h)

theorem update_updatesAs (he : (node stamp head old).WellMade) (hid : Identified parts old) (hs : stamp < s) :
    UpdatesAs s s' (node stamp head old) (sameAll parts old) ((node stamp head old).update parts s)
      (make head parts s') := by
  rw [update]
  split_ifs with hsame
  · -- The old node has passed the checks, and these cannot tell the given parts from its own.
    have hsuits := hid.forall₂_suits hsame
    rw [make_of_check (Head.check_of_suits hsuits he.check) (Head.fits_of_suits hsuits he.fits), hsame]
    refine .kept (twins_of_sameAll hid hsame (.refl head) ?_)
    exact ty_node_congr (List.forall₂_same.2 fun _ _ => rfl)
  · rw [Bool.eq_false_iff.2 hsame]
    exact .remade hs

theorem takes_of_check {params : List Descriptor} {callee : Expr} {values : List Expr}
    (h : Head.check (.invoke params) (callee :: values) = .ok ()) : ∃ sg, callee.ty = .fn sg ∧ sg.Takes params := by
  rw [Head.check] at h
  split_ifs at h
  obtain ⟨_, -, h⟩ := except_bind_eq_ok.1 h
  cases hty : callee.ty with
  | fn sg =>
    rw [hty] at h
    exact ⟨sg, rfl, Signature.checkBound_ok_iff.1 h⟩
  | _ =>
    rw [hty] at h
    cases h

/-- Descriptors that the signature declares are bound as others at the same positions are. -/
theorem takes_of_positions {sg : Signature} {params params' : List Descriptor} (h : sg.Takes params)
    (hd : ∀ d ∈ params', (sg.declared? d).isSome) (hpos : params'.map (·.position) = params.map (·.position)) :
    sg.Takes params' where
  fit := ⟨fun d hmem => Signature.declared?_isSome.1 (hd d hmem), hpos ▸ h.fit.distinct⟩
  complete i := by
    rw [Signature.Lacks, hpos]
    exact h.complete i

theorem updateInvoke_updatesAs {params : List Descriptor} {callee : Expr} {bindings : List Binding}
    (he : (node stamp (.invoke params) old).WellMade) (hid : Identified (callee :: bindings.map (·.value)) old)
    (hs : stamp < s) (hd : ∀ sg, callee.ty = .fn sg → ∀ b ∈ bindings, (sg.declared? b.param).isSome) :
    UpdatesAs s s' (node stamp (.invoke params) old)
      (sameParams (bindings.map (·.param)) params && sameAll (callee :: bindings.map (·.value)) old)
      ((node stamp (.invoke params) old).updateInvoke callee (bindings.map (·.param)) (bindings.map (·.value)) s)
      (mkInvoke callee bindings s') := by
  rw [updateInvoke]
  split_ifs with hsame
  · obtain ⟨hparams, hparts⟩ := Bool.and_eq_true_iff.1 hsame
    -- The callee has the type of the old callee, whose signature took the old descriptors.
    obtain ⟨sg, hsg, htakes⟩ := takes_of_check (Head.check_of_suits (hid.forall₂_suits hparts) he.check)
    have htakes' : sg.Takes (bindings.map (·.param)) :=
      takes_of_positions htakes (List.forall_mem_map.2 (hd sg hsg)) (positions_of_sameParams hparams)
    rw [(mkInvoke_eq_ok _ _).2 ⟨⟨sg, hsg, htakes'⟩, rfl⟩, hsame]
    exact .kept (twins_of_sameAll hid hparts (sameParams_iff.2 (sameParams_iff.1 hparams).symm) rfl)
  · rw [Bool.eq_false_iff.2 hsame]
    exact .remade hs

/-- Updating a node agrees with making a node of the given parts, and so does updating an invocation with other
descriptors. A node is itself when it is updated with its own parts. -/
theorem update_agrees (he : (node stamp head old).Obtained) (hs : stamp < s) :
    (∀ parts, Identified parts old →
      UpdatesAs s s' (node stamp head old) (sameAll parts old) ((node stamp head old).update parts s)
        (make head parts s')) ∧
    (node stamp head old).update old s = .ok (node stamp head old, s) ∧
    ∀ params, head = .invoke params →
      (∀ callee (bindings : List Binding), Identified (callee :: bindings.map (·.value)) old →
        (∀ sg, callee.ty = .fn sg → ∀ b ∈ bindings, (sg.declared? b.param).isSome) →
        UpdatesAs s s' (node stamp head old)
          (sameParams (bindings.map (·.param)) params && sameAll (callee :: bindings.map (·.value)) old)
          ((node stamp head old).updateInvoke callee (bindings.map (·.param)) (bindings.map (·.value)) s)
          (mkInvoke callee bindings s')) ∧
      ∀ callee values, old = callee :: values →
        (node stamp head old).updateInvoke callee params values s = .ok (node stamp head old, s) := by
  refine ⟨fun parts hid => update_updatesAs he.wellMade hid hs, ?_, ?_⟩
  · rw [update, if_pos (sameAll_refl old)]
    rfl
  · rintro params rfl
    refine ⟨fun callee bindings hid hd => updateInvoke_updatesAs he.wellMade hid hs hd, ?_⟩
    rintro callee values rfl
    rw [updateInvoke, sameParams_iff.2 rfl, sameAll_refl]
    rfl

end

namespace CopiedArgument

def signature : Signature := ⟨⟨"g"⟩, "g", [⟨"x", .int .i32, none⟩], .int .i32⟩

def g : Expr := var ⟨⟨0⟩, "g", .fn signature⟩

def one : Expr := const (.lit (.int (.one .i32)))

def param : Descriptor := .held signature ⟨0, by decide⟩

/-- `g(x := 1)` -/
def call : Expr := node 0 (.invoke [param]) [g, one]

/-- The argument bound by a copy of the descriptor. -/
def copied : Binding := ⟨.copy param.parameter, one, rfl⟩

theorem parts_identified : Identified [g, one] [g, one] where
  ty := by simp [g, one, same]
  node := by simp [g, one, isLeaf]

theorem call_obtained : call.Obtained := by
  have hcall : make (.invoke [param]) [g, one] 0 = .ok (call, 1) := rfl
  exact .made (by simp [g, one, Obtained.var, Obtained.const]) hcall

end CopiedArgument

open CopiedArgument in
/-- A call is given back when its argument is bound by a copy of the descriptor, and a call made of the copy is like
it. -/
theorem update_agrees_copied : ∃ e' t, call.updateInvoke g [copied.param] [one] 1 = .ok (call, t) ∧
    mkInvoke g [copied] 5 = .ok (e', 6) ∧ Twins 1 5 call e' := by
  have hdeclared : ∀ sg, g.ty = .fn sg → ∀ b ∈ [copied], (sg.declared? b.param).isSome := by
    intro sg hsg b hb
    cases hsg
    rw [List.mem_singleton.1 hb]
    rfl
  have hupdates : UpdatesAs 1 5 call _ (call.updateInvoke g [copied.param] [one] 1) (mkInvoke g [copied] 5) :=
    ((update_agrees call_obtained Nat.zero_lt_one).2.2 [param] rfl).1 g [copied] parts_identified hdeclared
  obtain ⟨t, ht⟩ := hupdates.self.2 rfl
  obtain ⟨⟨e', t'⟩, hmade⟩ := hupdates.succeeds.1 ⟨_, ht⟩
  have htwins := hupdates.twins _ _ _ _ ht hmade
  cases hmade
  exact ⟨_, t, ht, rfl, htwins⟩

end Expr

end ExprLowering
