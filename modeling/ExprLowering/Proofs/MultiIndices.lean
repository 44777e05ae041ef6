import ExprLowering.Expr.Build
import ExprLowering.Machine.Grid
import ExprLowering.Proofs.ArrayNodes

/-!
# Multi-indices and offsets

`Shape.offset` and `Shape.unflatten` are inverse to each other between the multi-indices within the bounds and the
numbers below the product of the bounds (`offset_eq_ok_iff`). A multi-index of the right rank is refused for the first
of its indices that is out of range (`offset_eq_error_iff`).

The two functions compute with numbers of any size. `Shape.offset?` and `Shape.unflatten?` do the same with words of 64
bits and end with nothing where a word overflows or a divisor is zero. Neither happens if the running product of the
bounds is never too great, which is what is checked when an array is made (`size?_eq_some_iff`); the bounds after the
first index that is refused do not matter.
-/

namespace ExprLowering

namespace Shape

/-! ### The multi-indices within the bounds -/

/-- There is one index for each bound, not negative and below the bound. -/
def Within (bounds : List Nat) (indices : List Int) : Prop :=
  List.Forall₂ (fun (i : Int) (b : Nat) => 0 ≤ i ∧ i < b) indices bounds

theorem within_map_ofNat {bounds m : List Nat} : Within bounds (m.map Int.ofNat) ↔ List.Forall₂ (· < ·) m bounds := by
  simp [Within, List.forall₂_map_left_iff]

theorem Within.length_eq {bounds : List Nat} {indices : List Int} (h : Within bounds indices) :
    indices.length = bounds.length :=
  List.Forall₂.length_eq h

theorem Within.lt {bounds : List Nat} {indices : List Int} {n : Nat} (h : Within bounds indices)
    (hbounds : ∀ b ∈ bounds, b < n) : ∀ i ∈ indices, i < n := by
  induction h with
  | nil => simp
  | cons hi _ ih =>
    rw [List.forall_mem_cons] at hbounds ⊢
    exact ⟨hi.2.trans (Int.ofNat_lt.2 hbounds.1), ih hbounds.2⟩

theorem Within.exists_offsetFrom {bounds : List Nat} {indices : List Int} (h : Within bounds indices)
    (dimension acc : Nat) : ∃ i, offsetFrom dimension acc bounds indices = .ok i := by
  induction h generalizing dimension acc with
  | nil => exact ⟨acc, rfl⟩
  | cons hi _ ih =>
    rw [offsetFrom, if_pos hi]
    exact ih _ _

/-- The quotients of an offset by the bounds, from the innermost outwards, are what it was computed from. -/
theorem unflatten_of_offsetFrom {bounds : List Nat} {indices : List Int} {dimension acc i : Nat}
    (hlen : indices.length = bounds.length) (h : offsetFrom dimension acc bounds indices = .ok i) :
    (unflatten bounds i).map Int.ofNat = indices ∧ i / bounds.prod = acc := by
  induction bounds generalizing indices dimension acc with
  | nil =>
    obtain rfl := List.length_eq_zero_iff.1 hlen
    cases h
    simp [unflatten]
  | cons b bounds ih =>
    rcases indices with _ | ⟨k, indices⟩
    · cases hlen
    · rw [offsetFrom] at h
      split_ifs at h with hk
      -- The inner bounds divide away whatever was added after index `k`.
      obtain ⟨hrest, hdiv⟩ := ih (Nat.succ.inj hlen) h
      have hlt : k.toNat < b := by omega
      have hmod : (acc * b + k.toNat) % b = k.toNat := by
        rw [Nat.mul_comm, Nat.mul_add_mod, Nat.mod_eq_of_lt hlt]
      have hquot : (acc * b + k.toNat) / b = acc := by
        rw [Nat.mul_comm, Nat.mul_add_div (by omega), Nat.div_eq_of_lt hlt, Nat.add_zero]
      constructor
      · rw [unflatten_cons, List.map_cons, hrest, hdiv, hmod]
        exact congrArg (· :: indices) (Int.toNat_of_nonneg hk.1)
      · rw [List.prod_cons, Nat.mul_comm, ← Nat.div_div_eq_div_mul, hdiv, hquot]

/-- The offset of a multi-index is the number whose multi-index it is. -/
theorem offset_eq_ok_iff {bounds : List Nat} {indices : List Int} {i : Nat} :
    offset bounds indices = .ok i ↔ i < bounds.prod ∧ (unflatten bounds i).map Int.ofNat = indices := by
  constructor
  · intro h
    refine ⟨offset_lt h, ?_⟩
    unfold offset at h
    split_ifs at h with hlen
    exact (unflatten_of_offsetFrom hlen h).1
  · rintro ⟨hi, rfl⟩
    exact offset_unflatten hi

theorem exists_offset_iff {bounds : List Nat} {indices : List Int} :
    (∃ i, offset bounds indices = .ok i) ↔ Within bounds indices := by
  constructor
  · rintro ⟨i, hi⟩
    obtain ⟨hlt, rfl⟩ := offset_eq_ok_iff.1 hi
    exact within_map_ofNat.2 (unflatten_lt (pos_of_lt_prod hlt) i)
  · intro h
    rw [offset, if_pos h.length_eq]
    exact h.exists_offsetFrom 0 0

/-! ### The first index out of range -/

/-- The index in this dimension is out of range, and those before it are not. -/
structure FirstOutside (bounds : List Nat) (indices : List Int) (dimension : Nat) (index : Int) (bound : Nat) :
    Prop where
  index_eq : indices[dimension]? = some index
  bound_eq : bounds[dimension]? = some bound
  outside : index < 0 ∨ (bound : Int) ≤ index
  before : Within (bounds.take dimension) (indices.take dimension)

theorem FirstOutside.offsetFrom {bounds : List Nat} {indices : List Int} {d b : Nat} {i : Int}
    (h : FirstOutside bounds indices d i b) (dimension acc : Nat) :
    offsetFrom dimension acc bounds indices = .error (.range (dimension + d) i b) := by
  induction d generalizing bounds indices dimension acc with
  | zero =>
    obtain ⟨hi, hb, hout, -⟩ := h
    rcases indices with _ | ⟨k, indices⟩
    · cases hi
    rcases bounds with _ | ⟨c, bounds⟩
    · cases hb
    cases hi
    cases hb
    rw [Shape.offsetFrom, if_neg (by omega), Nat.add_zero]
  | succ d ih =>
    obtain ⟨hi, hb, hout, hbefore⟩ := h
    rcases indices with _ | ⟨k, indices⟩
    · cases hi
    rcases bounds with _ | ⟨c, bounds⟩
    · cases hb
    rw [List.take_succ_cons, List.take_succ_cons, Within, List.forall₂_cons] at hbefore
    rw [Shape.offsetFrom, if_pos hbefore.1, ih ⟨hi, hb, hout, hbefore.2⟩, Nat.add_right_comm, Nat.add_assoc]

theorem within_or_firstOutside {bounds : List Nat} {indices : List Int} (hlen : indices.length = bounds.length) :
    Within bounds indices ∨ ∃ d i b, FirstOutside bounds indices d i b := by
  induction bounds generalizing indices with
  | nil =>
    obtain rfl := List.length_eq_zero_iff.1 hlen
    exact .inl .nil
  | cons b bounds ih =>
    rcases indices with _ | ⟨k, indices⟩
    · cases hlen
    by_cases hk : 0 ≤ k ∧ k < b
    · rcases ih (Nat.succ.inj hlen) with hrest | ⟨d, i, c, hi, hc, hout, hbefore⟩
      · exact .inl (.cons hk hrest)
      · exact .inr ⟨d + 1, i, c, hi, hc, hout, .cons hk hbefore⟩
    · exact .inr ⟨0, k, b, rfl, rfl, by omega, .nil⟩

theorem offset_eq_error_iff {bounds : List Nat} {indices : List Int} {err : IndexError}
    (hlen : indices.length = bounds.length) :
    offset bounds indices = .error err ↔ ∃ d i b, err = .range d i b ∧ FirstOutside bounds indices d i b := by
  have hrefused {d i b} (h : FirstOutside bounds indices d i b) : offset bounds indices = .error (.range d i b) := by
    rw [offset, if_pos hlen, h.offsetFrom, Nat.zero_add]
  constructor
  · intro h
    rcases within_or_firstOutside hlen with hwithin | ⟨d, i, b, hfirst⟩
    · obtain ⟨i, hi⟩ := exists_offset_iff.2 hwithin
      cases h.symm.trans hi
    · cases h.symm.trans (hrefused hfirst)
      exact ⟨d, i, b, rfl, hfirst⟩
  · rintro ⟨d, i, b, rfl, hfirst⟩
    exact hrefused hfirst

theorem exists_outside_iff {bounds : List Nat} {indices : List Int} (hlen : indices.length = bounds.length) :
    (∃ (d : Nat) (i : Int) (b : Nat), indices[d]? = some i ∧ bounds[d]? = some b ∧ (i < 0 ∨ b ≤ i)) ↔
      ∃ d i b, FirstOutside bounds indices d i b := by
  constructor
  · rintro ⟨d, i, b, hi, hb, hout⟩
    refine (within_or_firstOutside hlen).resolve_left fun hwithin => ?_
    have hd := List.forall₂_iff_get.1 hwithin
    obtain ⟨hdi, rfl⟩ := List.getElem?_eq_some_iff.1 hi
    obtain ⟨hdb, rfl⟩ := List.getElem?_eq_some_iff.1 hb
    have := hd.2 d hdi hdb
    simp only [List.get_eq_getElem] at this
    omega
  · rintro ⟨d, i, b, h⟩
    exact ⟨d, i, b, h.index_eq, h.bound_eq, h.outside⟩

/-- The result of looking for a multi-index: it is refused exactly if some index is out of range, and then for the
first one. -/
structure RefusesFirst {ε β : Type} (bounds : List Nat) (indices : List Int) (report : Nat → Int → Nat → ε)
    (result : Except ε β) : Prop where
  refused_iff : (∃ err, result = .error err) ↔
    ∃ (d : Nat) (i : Int) (b : Nat), indices[d]? = some i ∧ bounds[d]? = some b ∧ (i < 0 ∨ b ≤ i)
  error_iff : ∀ err, result = .error err ↔ ∃ d i b, err = report d i b ∧ FirstOutside bounds indices d i b

theorem RefusesFirst.of_error_iff {ε β : Type} {bounds : List Nat} {indices : List Int}
    {report : Nat → Int → Nat → ε} {result : Except ε β} (hlen : indices.length = bounds.length)
    (h : ∀ err, result = .error err ↔ ∃ d i b, err = report d i b ∧ FirstOutside bounds indices d i b) :
    RefusesFirst bounds indices report result where
  refused_iff := by
    rw [exists_outside_iff hlen]
    constructor
    · rintro ⟨err, herr⟩
      obtain ⟨d, i, b, -, hfirst⟩ := (h err).1 herr
      exact ⟨d, i, b, hfirst⟩
    · rintro ⟨d, i, b, hfirst⟩
      exact ⟨_, (h _).2 ⟨d, i, b, rfl, hfirst⟩⟩
  error_iff := h

/-! ### Computing with words -/

/-- The number, unless it needs more than 64 bits. -/
def word? (n : Nat) : Option Nat :=
  if n ≤ maxSize then some n else none

theorem word?_of_le {n : Nat} (h : n ≤ maxSize) : word? n = some n :=
  if_pos h

/-- `offsetFrom` in words. -/
def offsetFrom? (dimension acc : Nat) : List Nat → List Int → Option (Except IndexError Nat)
  | b :: bounds, i :: indices =>
    if 0 ≤ i ∧ i < b then do
      let product ← word? (acc * b)
      let sum ← word? (product + i.toNat)
      offsetFrom? (dimension + 1) sum bounds indices
    else some (.error (.range dimension i b))
  | _, _ => some (.ok acc)

/-- `offset` in words. -/
def offset? (bounds : List Nat) (indices : List Int) : Option (Except IndexError Nat) :=
  if indices.length = bounds.length then offsetFrom? 0 0 bounds indices
  else some (.error (.rank bounds.length indices.length))

/-- `unflatten`, if no divisor is zero. -/
def unflatten? (bounds : List Nat) (linear : Nat) : Option (List Nat) :=
  (bounds.foldrM (fun b (p : List Nat × Nat) => if b = 0 then none else some (p.2 % b :: p.1, p.2 / b))
    ([], linear)).map (·.1)

/-- The bounds that an array is made for: no product of the first few is too great. -/
theorem size?_eq_some_iff {bounds : List Nat} {n : Nat} :
    size? bounds = some n ↔ (∀ first, first <+: bounds → first.prod ≤ maxSize) ∧ n = bounds.prod := by
  suffices hfrom : ∀ size, size ≤ maxSize →
      (bounds.foldlM (fun n b => if n * b ≤ maxSize then some (n * b) else none) size = some n ↔
        (∀ first, first <+: bounds → size * first.prod ≤ maxSize) ∧ n = size * bounds.prod) by
    simpa [size?] using hfrom 1 (by decide)
  induction bounds with
  | nil =>
    intro size hsize
    simp [List.prefix_nil, hsize, eq_comm]
  | cons b bounds ih =>
    intro size hsize
    rw [List.foldlM_cons]
    have hprefix : (∀ first, first <+: b :: bounds → size * first.prod ≤ maxSize) ↔
        ∀ first, first <+: bounds → size * b * first.prod ≤ maxSize := by
      constructor
      · intro h first hfirst
        simpa [Nat.mul_assoc] using h (b :: first) (List.cons_prefix_cons.2 ⟨rfl, hfirst⟩)
      · intro h first hfirst
        rcases List.prefix_cons_iff.1 hfirst with rfl | ⟨first, rfl, hrest⟩
        · simpa using hsize
        · simpa [Nat.mul_assoc] using h first hrest
    by_cases hb : size * b ≤ maxSize
    · rw [if_pos hb, hprefix, List.prod_cons, ← Nat.mul_assoc]
      exact ih (size * b) hb
    · rw [if_neg hb, hprefix]
      simp only [Option.bind_eq_bind, Option.bind_none, reduceCtorEq, false_iff, not_and]
      intro h
      -- The product that is too great is that of the prefix `[b]`.
      exact absurd (by simpa using h [] List.nil_prefix) hb

/-- While the offset is below the product of the bounds gone through, no word overflows. -/
theorem offsetFrom?_eq {bounds : List Nat} {acc product : Nat} (hacc : acc < product)
    (h : ∀ first, first <+: bounds → product * first.prod ≤ maxSize) (dimension : Nat) (indices : List Int) :
    offsetFrom? dimension acc bounds indices = some (offsetFrom dimension acc bounds indices) := by
  induction bounds generalizing acc product dimension indices with
  | nil => rfl
  | cons b bounds ih =>
    rcases indices with _ | ⟨i, indices⟩
    · rfl
    rw [offsetFrom?, offsetFrom]
    split_ifs with hi
    · have hlt : acc * b + i.toNat < product * b := by
        calc acc * b + i.toNat < acc * b + b := by omega
          _ = (acc + 1) * b := by rw [Nat.add_mul, Nat.one_mul]
          _ ≤ product * b := Nat.mul_le_mul_right b hacc
      have hproduct : product * b ≤ maxSize := by
        simpa using h [b] (List.cons_prefix_cons.2 ⟨rfl, List.nil_prefix⟩)
      rw [word?_of_le (by omega), Option.bind_eq_bind, Option.bind_some, word?_of_le (by omega)]
      refine ih hlt (fun first hfirst => ?_) _ _
      rw [Nat.mul_assoc, ← List.prod_cons]
      exact h (b :: first) (List.cons_prefix_cons.2 ⟨rfl, hfirst⟩)
    · rfl

theorem offset?_eq {bounds : List Nat} (h : ∀ first, first <+: bounds → first.prod ≤ maxSize) (indices : List Int) :
    offset? bounds indices = some (offset bounds indices) := by
  rw [offset?, offset]
  split_ifs with hlen
  · exact offsetFrom?_eq Nat.zero_lt_one (by simpa using h) 0 indices
  · rfl

theorem unflatten?_eq {bounds : List Nat} (h : ∀ b ∈ bounds, 0 < b) (linear : Nat) :
    unflatten? bounds linear = some (unflatten bounds linear) := by
  suffices hfold : bounds.foldrM (fun b (p : List Nat × Nat) =>
      if b = 0 then none else some (p.2 % b :: p.1, p.2 / b)) ([], linear) =
      some (bounds.foldr (fun b (p : List Nat × Nat) => (p.2 % b :: p.1, p.2 / b)) ([], linear)) by
    rw [unflatten?, hfold, unflatten, Option.map_some]
  induction bounds with
  | nil => rfl
  | cons b bounds ih =>
    rw [List.forall_mem_cons] at h
    rw [List.foldrM_cons, ih h.2, List.foldr_cons]
    exact if_neg (Nat.ne_of_gt h.1)

end Shape

/-! ### Arrays and array nodes -/

section
variable {α : Type} {g : Grid α} {indices : List Int}

theorem Grid.offset_eq_ok_iff {i : Nat} : g.offset indices = .ok i ↔ Shape.offset g.bounds indices = .ok i := by
  unfold Grid.offset
  split <;> simp_all

theorem Grid.offset_eq_error_iff {f : Fault} (hlen : indices.length = g.bounds.length) :
    g.offset indices = .error f ↔
      ∃ d i b, f = .indexOutOfRange d i b ∧ Shape.FirstOutside g.bounds indices d i b := by
  constructor
  · intro h
    unfold Grid.offset at h
    split at h
    · cases h
    · next hrank =>
      obtain ⟨d, i, b, herr, -⟩ := (Shape.offset_eq_error_iff hlen).1 hrank
      cases herr
    · next d i b hrange =>
      cases h
      obtain ⟨_, _, _, herr, hfirst⟩ := (Shape.offset_eq_error_iff hlen).1 hrange
      cases herr
      exact ⟨d, i, b, rfl, hfirst⟩
  · rintro ⟨d, i, b, rfl, hfirst⟩
    rw [Grid.offset, (Shape.offset_eq_error_iff hlen).2 ⟨d, i, b, rfl, hfirst⟩]

end

namespace Expr
variable {stamp : Stamp} {element : Ty} {bounds : List Int32} {elements : List Expr} {indices : List Int}

theorem length_elements (he : (node stamp (.array element bounds) elements).Obtained) :
    elements.length = (bounds.map (·.toInt.toNat)).prod := by
  obtain ⟨-, -, hsize⟩ := check_array_eq_ok.1 he.wellMade.check
  simpa using (checkBounds_eq_ok hsize).2.2

theorem getElement_of_offset (he : (node stamp (.array element bounds) elements).Obtained) {i : Nat}
    (hi : Shape.offset (bounds.map (·.toInt.toNat)) indices = .ok i) :
    ∃ x, elements[i]? = some x ∧ (node stamp (.array element bounds) elements).getElement indices = .ok x := by
  have hlt : i < elements.length := length_elements he ▸ Shape.offset_lt hi
  refine ⟨elements[i], List.getElem?_eq_getElem hlt, ?_⟩
  simp only [getElement, hi, List.getElem?_eq_getElem hlt]

theorem getElement_eq_error_iff (he : (node stamp (.array element bounds) elements).Obtained) {err : BuildError}
    (hlen : indices.length = bounds.length) :
    (node stamp (.array element bounds) elements).getElement indices = .error err ↔
      ∃ d i b, err = .indexOutOfRange d i b ∧
        Shape.FirstOutside (bounds.map (·.toInt.toNat)) indices d i b := by
  replace hlen : indices.length = (bounds.map (·.toInt.toNat)).length := by rw [hlen, List.length_map]
  constructor
  · intro h
    rcases Shape.within_or_firstOutside hlen with hwithin | ⟨d, i, b, hfirst⟩
    -- An offset always finds an element, so the node has no errors of its own.
    · obtain ⟨i, hi⟩ := Shape.exists_offset_iff.2 hwithin
      obtain ⟨x, -, hx⟩ := getElement_of_offset he hi
      cases h.symm.trans hx
    · rw [getElement, (Shape.offset_eq_error_iff hlen).2 ⟨d, i, b, rfl, hfirst⟩] at h
      cases h
      exact ⟨d, i, b, rfl, hfirst⟩
  · rintro ⟨d, i, b, rfl, hfirst⟩
    rw [getElement, (Shape.offset_eq_error_iff hlen).2 ⟨d, i, b, rfl, hfirst⟩]

end Expr

namespace Shape

/-- Bounds whose running product never needs more than 64 bits number the multi-indices within them. A number below
the product is divided by bounds that are not zero, and its multi-index has it as offset and finds the element of that
number in an array node. A multi-index within the bounds has an offset below the product, from which it is found again.
No multi-index makes a word overflow, and one of the right rank is refused exactly if some index of it is out of
range, for the first that is. -/
theorem rowMajor_inverse {α : Type} {bounds : List Nat} (hbounds : ∀ b ∈ bounds, b < 2 ^ 63)
    (hsize : ∀ first, first <+: bounds → first.prod ≤ maxSize) :
    (∀ linear < bounds.prod, ∃ m, unflatten? bounds linear = some m ∧ unflatten bounds linear = m ∧
      List.Forall₂ (· < ·) m bounds ∧ (∀ i ∈ m, i < 2 ^ 63) ∧
      (∀ g : Grid α, g.bounds = bounds → g.offset (m.map Int.ofNat) = .ok linear) ∧
      ∀ (stamp : Stamp) (element : Ty) (bs : List Int32) (elements : List Expr),
        (Expr.node stamp (.array element bs) elements).Obtained → bs.map (·.toInt.toNat) = bounds →
        ∃ x, elements[linear]? = some x ∧
          (Expr.node stamp (.array element bs) elements).getElement (m.map Int.ofNat) = .ok x) ∧
    (∀ indices, Within bounds indices → ∃ i < bounds.prod,
      (∀ g : Grid α, g.bounds = bounds → g.offset indices = .ok i) ∧ (unflatten bounds i).map Int.ofNat = indices) ∧
    (∀ indices, offset? bounds indices = some (offset bounds indices)) ∧
    ∀ indices : List Int, indices.length = bounds.length →
      (∀ g : Grid α, g.bounds = bounds → RefusesFirst bounds indices .indexOutOfRange (g.offset indices)) ∧
      ∀ (stamp : Stamp) (element : Ty) (bs : List Int32) (elements : List Expr),
        (Expr.node stamp (.array element bs) elements).Obtained → bs.map (·.toInt.toNat) = bounds →
        RefusesFirst bounds indices .indexOutOfRange
          ((Expr.node stamp (.array element bs) elements).getElement indices) := by
  refine ⟨fun linear hlinear => ?_, fun indices hwithin => ?_, offset?_eq hsize, fun indices hlen => ⟨?_, ?_⟩⟩
  · have hpos := pos_of_lt_prod hlinear
    have hlt := unflatten_lt hpos linear
    refine ⟨_, unflatten?_eq hpos linear, rfl, hlt, fun i hi => ?_, ?_, ?_⟩
    · exact Int.ofNat_lt.1 ((within_map_ofNat.2 hlt).lt hbounds _ (List.mem_map_of_mem hi))
    · rintro g rfl
      exact Grid.offset_eq_ok_iff.2 (offset_unflatten hlinear)
    · rintro stamp element bs elements he rfl
      exact Expr.getElement_of_offset he (offset_unflatten hlinear)
  · obtain ⟨i, hi⟩ := exists_offset_iff.2 hwithin
    obtain ⟨hlt, hindices⟩ := offset_eq_ok_iff.1 hi
    refine ⟨i, hlt, ?_, hindices⟩
    rintro g rfl
    exact Grid.offset_eq_ok_iff.2 hi
  · rintro g rfl
    exact .of_error_iff hlen fun f => Grid.offset_eq_error_iff hlen
  · rintro stamp element bs elements he rfl
    exact .of_error_iff hlen fun err => Expr.getElement_eq_error_iff he (by rwa [List.length_map] at hlen)

/-- Bounds whose product is the greatest word: the last multi-index has the last offset, and of two indices that are out
of range the first is reported. -/
theorem rowMajor_inverse_largest :
    unflatten? [4294967295, 4294967297] 18446744073709551614 = some [4294967294, 4294967296] ∧
    (∀ g : Grid, g.bounds = [4294967295, 4294967297] →
      g.offset [4294967294, 4294967296] = .ok 18446744073709551614 ∧
      g.offset [4294967295, -1] = .error (.indexOutOfRange 0 4294967295 4294967295)) ∧
    offset? [4294967295, 4294967297] [4294967294, 4294967297] = some (.error (.range 1 4294967297 4294967297)) := by
  have hbounds : ∀ b ∈ [4294967295, 4294967297], b < 2 ^ 63 := by decide
  have hsize : size? [4294967295, 4294967297] = some 18446744073709551615 := rfl
  obtain ⟨hnumber, -, hwords, hrefuses⟩ := rowMajor_inverse (α := Prim) hbounds (size?_eq_some_iff.1 hsize).1
  obtain ⟨_, hdivided, rfl, -, -, hoffset, -⟩ := hnumber 18446744073709551614 (by decide)
  refine ⟨hdivided, fun g hg => ⟨hoffset g hg, ?_⟩, hwords _⟩
  exact ((hrefuses [4294967295, -1] rfl).1 g hg).error_iff _ |>.2 ⟨0, _, _, rfl, rfl, rfl, by decide, .nil⟩

end Shape

end ExprLowering
