import ExprLowering.Proofs.Shape
import ExprLowering.Proofs.Sharing

/-!
# Making an array node

An array node is made if its shape and its elements are right (`ArrayNode.Takes`), and refused for the first thing
that is wrong otherwise (`ArrayNode.Refuses`): the element type, then the bounds one by one, the number of elements,
and the elements one by one. It holds each element as it was given, except that a lambda which the array only takes as
code is quoted. What it holds needs no further quoting, so given back it is held as it is (`Expr.mkArray_spec`).
-/

namespace ExprLowering

namespace ArrayNode

/-- No bound is negative, and the product of the first few is never too great. -/
structure Bounded (bounds : List Int32) : Prop where
  nonneg : ∀ b ∈ bounds, 0 ≤ b.toInt
  small : ∀ first, first <+: bounds → (first.map (·.toInt.toNat)).prod ≤ Shape.maxSize

structure Takes (element : Ty) (bounds : List Int32) (elements : List Expr) : Prop where
  notVoid : element ≠ .void
  notEmpty : bounds ≠ []
  bounded : Bounded bounds
  count : elements.length = (bounds.map (·.toInt.toNat)).prod
  admits : ∀ e ∈ elements, Admits element e

/-- Why an array node is not made. -/
inductive Refuses (element : Ty) (bounds : List Int32) (elements : List Expr) : BuildError → Prop
  | void (hv : element = .void) : Refuses element bounds elements .voidElement
  | empty (hv : element ≠ .void) (hb : bounds = []) : Refuses element bounds elements .emptyBounds
  | negative {before after : List Int32} {b : Int32} (hv : element ≠ .void) (hb : bounds = before ++ b :: after)
      (hbefore : Bounded before) (hneg : b.toInt < 0) :
      Refuses element bounds elements (.boundNegative before.length b.toInt)
  | overflow {before after : List Int32} {b : Int32} (hv : element ≠ .void) (hb : bounds = before ++ b :: after)
      (hbefore : Bounded before) (hpos : 0 ≤ b.toInt)
      (hlarge : Shape.maxSize < (before.map (·.toInt.toNat)).prod * b.toInt.toNat) :
      Refuses element bounds elements .boundsOverflow
  | count (hv : element ≠ .void) (hb : bounds ≠ []) (hbounded : Bounded bounds)
      (hcount : elements.length ≠ (bounds.map (·.toInt.toNat)).prod) :
      Refuses element bounds elements (.elementCount (bounds.map (·.toInt.toNat)).prod elements.length)
  | element {before after : List Expr} {e : Expr} (hv : element ≠ .void) (hb : bounds ≠ []) (hbounded : Bounded bounds)
      (hcount : elements.length = (bounds.map (·.toInt.toNat)).prod) (he : elements = before ++ e :: after)
      (hbefore : ∀ x ∈ before, Admits element x) (hbad : ¬ Admits element e) :
      Refuses element bounds elements (.elementType before.length e.ty element)

variable {element : Ty} {bounds before after : List Int32} {b : Int32} {elements : List Expr} {e : Expr}

/-! ### Bounds -/

theorem Bounded.nil : Bounded [] where
  nonneg := by simp
  small first h := by
    rw [List.prefix_nil.1 h]
    decide

theorem Bounded.of_append (h : Bounded (before ++ after)) : Bounded before where
  nonneg b hb := h.nonneg b (List.mem_append_left _ hb)
  small first hfirst := h.small first (hfirst.trans (List.prefix_append ..))

theorem bounded_append_singleton :
    Bounded (before ++ [b]) ↔
      Bounded before ∧ 0 ≤ b.toInt ∧ (before.map (·.toInt.toNat)).prod * b.toInt.toNat ≤ Shape.maxSize := by
  have hprod : ((before ++ [b]).map (·.toInt.toNat)).prod = (before.map (·.toInt.toNat)).prod * b.toInt.toNat := by
    simp
  constructor
  · intro h
    exact ⟨h.of_append, h.nonneg b (by simp), hprod ▸ h.small _ List.prefix_rfl⟩
  · rintro ⟨hbefore, hpos, hsmall⟩
    refine ⟨?_, fun first hfirst => ?_⟩
    · rw [List.forall_mem_append, List.forall_mem_singleton]
      exact ⟨hbefore.nonneg, hpos⟩
    · rcases List.prefix_concat_iff.1 hfirst with rfl | hfirst
      · exact hprod ▸ hsmall
      · exact hbefore.small first hfirst

theorem not_neg_iff : ¬ b < 0 ↔ 0 ≤ b.toInt := by
  rw [Int32.lt_iff_toInt_lt, not_lt]
  rfl

theorem Bounded.checkBounds (h : Bounded before) (after : List Int32) :
    checkBounds 0 1 (before ++ after) =
      ExprLowering.checkBounds before.length (before.map (·.toInt.toNat)).prod after := by
  induction before using List.reverseRecOn generalizing after with
  | nil => rfl
  | append_singleton before b ih =>
    obtain ⟨hbefore, hpos, hsmall⟩ := bounded_append_singleton.1 h
    rw [List.append_assoc, ih hbefore, List.singleton_append, ExprLowering.checkBounds,
      if_neg (not_neg_iff.2 hpos), if_pos hsmall]
    simp

theorem bounded_or_first (bounds : List Int32) :
    Bounded bounds ∨ ∃ before b after, bounds = before ++ b :: after ∧ Bounded before ∧
      (b.toInt < 0 ∨ 0 ≤ b.toInt ∧ Shape.maxSize < (before.map (·.toInt.toNat)).prod * b.toInt.toNat) := by
  induction bounds using List.reverseRecOn with
  | nil => exact .inl .nil
  | append_singleton bounds b ih =>
    rcases ih with hbounded | ⟨before, c, after, rfl, hbefore, hc⟩
    · by_cases hpos : 0 ≤ b.toInt
      · by_cases hsmall : (bounds.map (·.toInt.toNat)).prod * b.toInt.toNat ≤ Shape.maxSize
        · exact .inl (bounded_append_singleton.2 ⟨hbounded, hpos, hsmall⟩)
        · exact .inr ⟨bounds, b, [], rfl, hbounded, .inr ⟨hpos, not_le.1 hsmall⟩⟩
      · exact .inr ⟨bounds, b, [], rfl, hbounded, .inl (not_le.1 hpos)⟩
    · exact .inr ⟨before, c, after ++ [b], by simp, hbefore, hc⟩

/-! ### The check -/

theorem void_beq : (element == .void) = true ↔ element = .void := by
  rw [Ty.beq_iff]
  cases element <;> simp [Ty.nominal]

theorem check_array (hv : element ≠ .void) (hb : bounds ≠ []) (elements : List Expr) :
    Head.check (.array element bounds) elements = checkBounds 0 1 bounds >>= fun size =>
      if elements.length = size then .ok () else .error (.elementCount size elements.length) := by
  rw [Head.check, if_neg (mt void_beq.1 hv), if_neg (mt List.isEmpty_iff.1 hb)]

theorem Bounded.check_array (h : Bounded bounds) (hv : element ≠ .void) (hb : bounds ≠ []) (elements : List Expr) :
    Head.check (.array element bounds) elements =
      if elements.length = (bounds.map (·.toInt.toNat)).prod then .ok ()
      else .error (.elementCount (bounds.map (·.toInt.toNat)).prod elements.length) := by
  have hbounds := h.checkBounds []
  rw [List.append_nil, ExprLowering.checkBounds] at hbounds
  rw [ArrayNode.check_array hv hb, hbounds]
  rfl

theorem takes_or_refuses (element : Ty) (bounds : List Int32) (elements : List Expr) :
    Takes element bounds elements ∨ ∃ err, Refuses element bounds elements err := by
  by_cases hv : element = .void
  · exact .inr ⟨_, .void hv⟩
  by_cases hb : bounds = []
  · exact .inr ⟨_, .empty hv hb⟩
  rcases bounded_or_first bounds with hbounded | ⟨before, b, after, happend, hbefore, hneg | ⟨hpos, hlarge⟩⟩
  · by_cases hcount : elements.length = (bounds.map (·.toInt.toNat)).prod
    · rcases admits_or_first element elements with hall | ⟨before, e, after, he, hbefore, hbad⟩
      · exact .inl ⟨hv, hb, hbounded, hcount, hall⟩
      · exact .inr ⟨_, .element hv hb hbounded hcount he hbefore hbad⟩
    · exact .inr ⟨_, .count hv hb hbounded hcount⟩
  · exact .inr ⟨_, .negative hv happend hbefore hneg⟩
  · exact .inr ⟨_, .overflow hv happend hbefore hpos hlarge⟩

/-! ### The node -/

theorem mkArray_of_check (hc : Head.check (.array element bounds) elements = .ok ()) (stamp : Stamp) :
    Expr.mkArray element bounds elements stamp =
      (Expr.storeAll element elements >>= fun held =>
        Expr.freshStamp >>= fun s => pure (.node s (.array element bounds) held) : Build Expr) stamp :=
  build_bind_of_ok (build_liftM_eq_ok.2 ⟨hc, rfl⟩)

theorem Takes.mkArray (h : Takes element bounds elements) (stamp : Stamp) :
    Expr.mkArray element bounds elements stamp =
      .ok (.node (stamp + Expr.quotes element elements) (.array element bounds)
        (elements.mapIdx (Expr.storedAt element elements stamp)), stamp + Expr.quotes element elements + 1) := by
  have hc : Head.check (.array element bounds) elements = .ok () := by
    rw [h.bounded.check_array h.notVoid h.notEmpty, if_pos h.count]
  rw [mkArray_of_check hc, build_bind_of_ok (Expr.storeAll_of_admits element stamp h.admits)]
  rfl

theorem Refuses.mkArray {err : BuildError} (h : Refuses element bounds elements err) (stamp : Stamp) :
    Expr.mkArray element bounds elements stamp = .error err := by
  cases h with
  | void hv =>
    refine Expr.make_of_error ?_ stamp
    rw [Head.check, if_pos (void_beq.2 hv)]
  | empty hv hb =>
    refine Expr.make_of_error ?_ stamp
    rw [Head.check, if_neg (mt void_beq.1 hv), if_pos (List.isEmpty_iff.2 hb)]
  | negative hv hb hbefore hneg =>
    refine Expr.make_of_error ?_ stamp
    rw [check_array hv (by simp [hb]), hb, hbefore.checkBounds, checkBounds,
      if_pos (not_not.1 (mt not_neg_iff.1 (not_le.2 hneg)))]
    rfl
  | overflow hv hb hbefore hpos hlarge =>
    refine Expr.make_of_error ?_ stamp
    rw [check_array hv (by simp [hb]), hb, hbefore.checkBounds, checkBounds, if_neg (not_neg_iff.2 hpos)]
    simp only [if_neg (not_le.2 hlarge)]
    rfl
  | count hv hb hbounded hcount =>
    refine Expr.make_of_error ?_ stamp
    rw [hbounded.check_array hv hb, if_neg hcount]
  | element hv hb hbounded hcount he hbefore hbad =>
    have hc : Head.check (.array element bounds) elements = .ok () := by
      rw [hbounded.check_array hv hb, if_pos hcount]
    rw [mkArray_of_check hc, he, build_bind_of_error (Expr.storeAll_of_first element stamp hbefore hbad _)]

end ArrayNode

namespace Expr
variable {element : Ty} {bounds : List Int32} {elements : List Expr} {stamp : Stamp}

theorem mkArray_eq_ok {r : Expr × Stamp} :
    mkArray element bounds elements stamp = .ok r ↔
      ArrayNode.Takes element bounds elements ∧ r = (node (stamp + quotes element elements) (.array element bounds)
        (elements.mapIdx (storedAt element elements stamp)), stamp + quotes element elements + 1) := by
  constructor
  · intro hmake
    rcases ArrayNode.takes_or_refuses element bounds elements with htakes | ⟨err, hrefuses⟩
    · rw [htakes.mkArray] at hmake
      exact ⟨htakes, (Except.ok.inj hmake).symm⟩
    · rw [hrefuses.mkArray] at hmake
      cases hmake
  · rintro ⟨htakes, rfl⟩
    exact htakes.mkArray stamp

theorem mkArray_eq_error {err : BuildError} :
    mkArray element bounds elements stamp = .error err ↔ ArrayNode.Refuses element bounds elements err := by
  refine ⟨fun hmake => ?_, fun hrefuses => hrefuses.mkArray stamp⟩
  rcases ArrayNode.takes_or_refuses element bounds elements with htakes | ⟨err', hrefuses⟩
  · rw [htakes.mkArray] at hmake
    cases hmake
  · rw [hrefuses.mkArray] at hmake
    cases hmake
    exact hrefuses

theorem accepts_stored (stamp : Stamp) (h : ∀ e ∈ elements, ArrayNode.Admits element e) :
    ∀ e ∈ elements.mapIdx (storedAt element elements stamp), element.accepts e.ty = true := by
  intro x hx
  obtain ⟨i, hi, rfl⟩ := List.mem_mapIdx.1 hx
  exact (storedAs_storedAt i (h _ (List.getElem_mem hi))).accepts

theorem takes_stored (h : ArrayNode.Takes element bounds elements) :
    ArrayNode.Takes element bounds (elements.mapIdx (storedAt element elements stamp)) where
  notVoid := h.notVoid
  notEmpty := h.notEmpty
  bounded := h.bounded
  count := by rw [List.length_mapIdx, h.count]
  admits e he := .inl (accepts_stored stamp h.admits e he)

/-- There is a copy just if something was quoted, and what is held is the copy or else what was given. -/
theorem convertFrom_copies (stamp : Stamp) (h : ∀ e ∈ elements, ArrayNode.Admits element e) :
    ∃ copy, convertFrom element elements 0 none elements stamp = .ok (copy, stamp + quotes element elements) ∧
      (copy = none ↔ ∀ e ∈ elements, element.accepts e.ty = true) ∧
      copy.elim elements Array.toList = elements.mapIdx (storedAt element elements stamp) := by
  refine ⟨_, convertFrom_all element stamp h, ?_⟩
  rw [copyAfter]
  split_ifs with hq
  · have haccepts := accepts_of_quotes_eq_zero hq
    exact ⟨iff_of_true rfl haccepts, (mapIdx_storedAt stamp haccepts).1.symm⟩
  · exact ⟨iff_of_false not_false fun haccepts => hq (mapIdx_storedAt stamp haccepts).2, rfl⟩

variable (element bounds elements stamp)

/-- An array node is made exactly if its shape and its elements are right, and is refused with the first fault
otherwise. The loop over the elements ends with a copy just if one of them had to be quoted. With or without it, the
node holds each element as given, or quoted where the array does not take it as it is. All that it holds is taken as it
is, so that an array of these elements holds the same, and giving them to the node is no change. -/
theorem mkArray_spec :
    ((∃ r, mkArray element bounds elements stamp = .ok r) ↔ ArrayNode.Takes element bounds elements) ∧
    (∀ err, mkArray element bounds elements stamp = .error err ↔ ArrayNode.Refuses element bounds elements err) ∧
    ∀ e stamp', mkArray element bounds elements stamp = .ok (e, stamp') → ∃ held,
      e = node (stamp + quotes element elements) (.array element bounds) held ∧
      stamp' = stamp + quotes element elements + 1 ∧
      (∃ copy, convertFrom element elements 0 none elements stamp = .ok (copy, stamp + quotes element elements) ∧
        (copy = none ↔ ∀ x ∈ elements, element.accepts x.ty = true) ∧ copy.elim elements Array.toList = held) ∧
      held = elements.mapIdx (storedAt element elements stamp) ∧
      (∀ x ∈ held, element.accepts x.ty = true) ∧
      (∀ s, mkArray element bounds held s = .ok (node s (.array element bounds) held, s + 1)) ∧
      ∀ s, e.update held s = .ok (e, s) := by
  refine ⟨?_, fun err => mkArray_eq_error, fun e stamp' hmake => ?_⟩
  · simp only [mkArray_eq_ok, exists_and_left, exists_eq, and_true]
  · obtain ⟨htakes, hr⟩ := mkArray_eq_ok.1 hmake
    cases hr
    have haccepts := accepts_stored stamp htakes.admits
    refine ⟨_, rfl, rfl, convertFrom_copies stamp htakes.admits, rfl, haccepts,
      fun s => mkArray_eq_ok.2 ⟨takes_stored htakes, ?_⟩, fun s => ?_⟩
    · obtain ⟨hheld, hquotes⟩ := mapIdx_storedAt s haccepts
      rw [hheld, hquotes]
      rfl
    · rw [update, if_pos (sameAll_refl _)]
      rfl

end Expr

/-! ### An array of code -/

namespace CodeArray

def signature : Signature := ⟨⟨"g"⟩, "g", [], .int .i32⟩

/-- The function `g() = 1` -/
def code : Expr := .node 0 (.lambda signature []) [.const (.lit (.int (.one .i32)))]

def quoted : Expr := .node 1 .quote [code]

end CodeArray

open CodeArray in
/-- Of a quote, a lambda and a quote, the array holds the quotes and a new quote of the lambda; it is the array that
they make again. -/
theorem Expr.mkArray_spec_code :
    ∃ e, mkArray (.quoted (.fn signature)) [3] [quoted, code, quoted] 2 = .ok (e, 4) ∧
      e.parts = [quoted, .node 2 .quote [code], quoted] ∧ e.update e.parts 4 = .ok (e, 4) ∧
      ∃ e', mkArray (.quoted (.fn signature)) [3] e.parts 4 = .ok (e', 5) ∧ e'.parts = e.parts := by
  obtain ⟨e, hmake⟩ : ∃ e, mkArray (.quoted (.fn signature)) [3] [quoted, code, quoted] 2 = .ok (e, 4) := ⟨_, rfl⟩
  obtain ⟨-, -, hspec⟩ := mkArray_spec (.quoted (.fn signature)) [3] [quoted, code, quoted] 2
  obtain ⟨held, rfl, -, -, hheld, -, hagain, hupdate⟩ := hspec _ _ hmake
  exact ⟨_, hmake, hheld, hupdate 4, _, hagain 4, rfl⟩

end ExprLowering
