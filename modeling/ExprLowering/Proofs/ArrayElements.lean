import Mathlib.Data.List.Induction
import ExprLowering.Expr.Build
import ExprLowering.Proofs.Outcome

/-!
# The elements that an array node holds

Elements are copied on write: `Expr.convertFrom` goes on without a copy until an element has to be quoted, takes the
elements before it then, and adds every element from there on. Its state after some elements is a function of them
alone, `Expr.copyAfter`, and one more element takes it to the next such state (`Expr.convertFrom_step`). So the loop is
a map: the array holds at each position the element given there, or a quote of it with the next stamp
(`Expr.storeAll_of_admits`), and the first element that can be neither is the one that is refused
(`Expr.storeAll_of_first`).
-/

namespace ExprLowering

/-! ### Elements that are taken -/

namespace ArrayNode
variable {element : Ty} {e : Expr}

/-- The element is of a type that the array takes, or a lambda of the type that it takes as code. -/
def Admits (element : Ty) (e : Expr) : Prop :=
  element.accepts e.ty = true ∨ ∃ inner, element = .quoted inner ∧ e.isLambda = true ∧ (e.ty == inner) = true

theorem admits_iff : Admits element e ↔ element.accepts e.ty = true ∨ needsQuote element e = true := by
  rw [Admits]
  refine or_congr_right ?_
  cases element with
  | quoted inner => simp [needsQuote]
  | _ => simp [needsQuote]

theorem admits_or_first (element : Ty) (elements : List Expr) :
    (∀ e ∈ elements, Admits element e) ∨ ∃ before e after, elements = before ++ e :: after ∧
      (∀ x ∈ before, Admits element x) ∧ ¬ Admits element e := by
  induction elements with
  | nil => exact .inl (by simp)
  | cons e elements ih =>
    by_cases he : Admits element e
    · rcases ih with hall | ⟨before, x, after, rfl, hbefore, hx⟩
      · exact .inl (List.forall_mem_cons.2 ⟨he, hall⟩)
      · exact .inr ⟨e :: before, x, after, rfl, List.forall_mem_cons.2 ⟨he, hbefore⟩, hx⟩
    · exact .inr ⟨[], e, elements, rfl, by simp, he⟩

end ArrayNode

namespace Expr
variable (element : Ty) (stamp : Stamp) {elements before rest : List Expr} {e : Expr}

/-! ### What is held -/

/-- How many elements are quoted. -/
def quotes (elements : List Expr) : Nat :=
  elements.countP fun e => !element.accepts e.ty

/-- The element at position `i` as it is stored; a new quote takes the next stamp. -/
def storedAt (elements : List Expr) (stamp : Stamp) (i : Nat) (e : Expr) : Expr :=
  if element.accepts e.ty then e else node (stamp + quotes element (elements.take i)) .quote [e]

theorem mapIdx_storedAt_concat (before : List Expr) (e : Expr) :
    (before ++ [e]).mapIdx (storedAt element (before ++ [e]) stamp) =
      before.mapIdx (storedAt element before stamp) ++ [storedAt element before stamp before.length e] := by
  rw [List.mapIdx_append, List.mapIdx_singleton]
  congr 1
  · refine List.ext_getElem (by simp) fun i hi hi' => ?_
    rw [List.length_mapIdx] at hi
    rw [List.getElem_mapIdx, List.getElem_mapIdx, storedAt, storedAt, List.take_append_of_le_length (Nat.le_of_lt hi)]
  · rw [storedAt, storedAt, Nat.zero_add, List.take_left, List.take_length]

theorem quotes_concat (before : List Expr) (e : Expr) :
    quotes element (before ++ [e]) = quotes element before + if element.accepts e.ty then 0 else 1 := by
  rw [quotes, List.countP_append, List.countP_singleton, ← quotes]
  cases element.accepts e.ty <;> rfl

variable {element}

theorem mapIdx_storedAt (stamp : Stamp) (h : ∀ e ∈ elements, element.accepts e.ty = true) :
    elements.mapIdx (storedAt element elements stamp) = elements ∧ quotes element elements = 0 := by
  constructor
  · refine List.ext_getElem List.length_mapIdx fun i hi hi' => ?_
    rw [List.getElem_mapIdx, storedAt, if_pos (h _ (List.getElem_mem hi'))]
  · rw [quotes, List.countP_eq_zero]
    exact fun e he => by simp [h e he]

theorem accepts_of_quotes_eq_zero (h : quotes element elements = 0) :
    ∀ e ∈ elements, element.accepts e.ty = true := by
  rw [quotes, List.countP_eq_zero] at h
  exact fun e he => by simpa using h e he

/-! ### The loop -/

variable (element)

/-- The copy after the elements `done`: none as long as nothing was quoted. -/
def copyAfter (done : List Expr) : Option (Array Expr) :=
  if quotes element done = 0 then none else some (done.mapIdx (storedAt element done stamp)).toArray

theorem tryQuote_of_needsQuote (h : needsQuote element e = true) :
    tryQuote element e stamp = .ok (some (node stamp .quote [e]), stamp + 1) := by
  rw [tryQuote, if_pos h]
  rfl

theorem tryQuote_of_not (h : needsQuote element e = false) : tryQuote element e stamp = .ok (none, stamp) := by
  rw [tryQuote, h]
  rfl

theorem copyAfter_of_accepts (ha : element.accepts e.ty = true) :
    (copyAfter element stamp before).map (·.push e) = copyAfter element stamp (before ++ [e]) := by
  rw [copyAfter, copyAfter, quotes_concat, if_pos ha, Nat.add_zero, mapIdx_storedAt_concat]
  split_ifs with hq
  · rfl
  · rw [storedAt, if_pos ha]
    simp

theorem copyAfter_of_quoted (ha : element.accepts e.ty = false) :
    some (((copyAfter element stamp before).getD before.toArray).push
        (node (stamp + quotes element before) .quote [e])) = copyAfter element stamp (before ++ [e]) := by
  have hcopied : (copyAfter element stamp before).getD before.toArray =
      (before.mapIdx (storedAt element before stamp)).toArray := by
    rw [copyAfter]
    split_ifs with hq
    · rw [(mapIdx_storedAt stamp (accepts_of_quotes_eq_zero hq)).1]
      rfl
    · rfl
  have hq : quotes element (before ++ [e]) ≠ 0 := by
    rw [quotes_concat, ha]
    exact Nat.succ_ne_zero _
  rw [hcopied, copyAfter, if_neg hq, mapIdx_storedAt_concat, storedAt, ha, List.take_length]
  simp

/-- One element that is admitted takes the loop from the state after those before it to the next. -/
theorem convertFrom_step (he : ArrayNode.Admits element e) :
    convertFrom element (before ++ e :: rest) before.length (copyAfter element stamp before) (e :: rest)
        (stamp + quotes element before) =
      convertFrom element (before ++ e :: rest) (before ++ [e]).length (copyAfter element stamp (before ++ [e])) rest
        (stamp + quotes element (before ++ [e])) := by
  rw [List.length_append, List.length_singleton, convertFrom, quotes_concat]
  cases ha : element.accepts e.ty with
  | true =>
    rw [if_pos rfl, if_pos rfl, copyAfter_of_accepts element stamp ha]
    rfl
  | false =>
    have hq : needsQuote element e = true := by simpa [ha] using ArrayNode.admits_iff.1 he
    rw [if_neg Bool.false_ne_true, if_neg Bool.false_ne_true]
    rw [build_bind_of_ok (tryQuote_of_needsQuote element _ hq), List.take_left]
    simp only [copyAfter_of_quoted element stamp ha]
    rfl

/-- Elements that are admitted take the loop from its start to the state after them. -/
theorem convertFrom_admitted (h : ∀ e ∈ before, ArrayNode.Admits element e) (rest : List Expr) :
    convertFrom element (before ++ rest) 0 none (before ++ rest) stamp =
      convertFrom element (before ++ rest) before.length (copyAfter element stamp before) rest
        (stamp + quotes element before) := by
  induction before using List.reverseRecOn generalizing rest with
  | nil => rfl
  | append_singleton before e ih =>
    rw [List.forall_mem_append, List.forall_mem_singleton] at h
    rw [List.append_assoc, List.singleton_append, ih h.1, convertFrom_step element stamp h.2]

theorem convertFrom_all (h : ∀ e ∈ elements, ArrayNode.Admits element e) :
    convertFrom element elements 0 none elements stamp =
      .ok (copyAfter element stamp elements, stamp + quotes element elements) := by
  have hrun := convertFrom_admitted element stamp h []
  rw [List.append_nil] at hrun
  rw [hrun]
  rfl

/-! ### The result -/

/-- With or without a copy, the array holds the map of the elements. -/
theorem storeAll_of_admits (h : ∀ e ∈ elements, ArrayNode.Admits element e) :
    storeAll element elements stamp =
      .ok (elements.mapIdx (storedAt element elements stamp), stamp + quotes element elements) := by
  rw [storeAll, build_bind_of_ok (convertFrom_all element stamp h), copyAfter]
  split_ifs with hq
  · rw [(mapIdx_storedAt stamp (accepts_of_quotes_eq_zero hq)).1]
    rfl
  · rfl

/-- An element that cannot be held is refused with its position, once those before it are through. -/
theorem storeAll_of_first (h : ∀ e ∈ before, ArrayNode.Admits element e) (hbad : ¬ ArrayNode.Admits element e)
    (rest : List Expr) :
    storeAll element (before ++ e :: rest) stamp = .error (.elementType before.length e.ty element) := by
  rw [ArrayNode.admits_iff, not_or, Bool.not_eq_true, Bool.not_eq_true] at hbad
  refine build_bind_of_error ?_
  rw [convertFrom_admitted element stamp h, convertFrom, hbad.1, if_neg Bool.false_ne_true,
    build_bind_of_ok (tryQuote_of_not element _ hbad.2)]
  rfl

variable {element stamp}

theorem storeAll_eq_ok {held : List Expr} {stamp' : Stamp} :
    storeAll element elements stamp = .ok (held, stamp') ↔
      (∀ e ∈ elements, ArrayNode.Admits element e) ∧ held = elements.mapIdx (storedAt element elements stamp) ∧
        stamp' = stamp + quotes element elements := by
  constructor
  · intro hstore
    rcases ArrayNode.admits_or_first element elements with hall | ⟨before, e, after, rfl, hbefore, hbad⟩
    · rw [storeAll_of_admits element stamp hall] at hstore
      cases hstore
      exact ⟨hall, rfl, rfl⟩
    · rw [storeAll_of_first element stamp hbefore hbad] at hstore
      cases hstore
  · rintro ⟨hall, rfl, rfl⟩
    exact storeAll_of_admits element stamp hall

end Expr

end ExprLowering
