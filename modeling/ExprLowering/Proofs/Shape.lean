import Mathlib.Algebra.BigOperators.Ring.List
import Mathlib.Tactic.Ring
import ExprLowering.Expr.Check

/-!
# Row-major offsets

Below the number of elements, `Shape.unflatten` gives a multi-index within the bounds, and `Shape.offset` takes it
back (`offset_unflatten`); an offset never exceeds that number (`offset_lt`). The bounds that an array node accepts
are those whose running product `Shape.size?` accepts (`checkBounds_eq_ok`).
-/

namespace ExprLowering
namespace Shape

/-! ### Multi-indices -/

theorem unflatten_cons (b : Nat) (bounds : List Nat) (linear : Nat) :
    unflatten (b :: bounds) linear = linear / bounds.prod % b :: unflatten bounds linear := by
  have hsnd : ∀ bs : List Nat, (bs.foldr (fun b (p : List Nat × Nat) => (p.2 % b :: p.1, p.2 / b))
      ([], linear)).2 = linear / bs.prod := by
    intro bs
    induction bs with
    | nil => simp
    | cons c bs ih => simp [ih, Nat.div_div_eq_div_mul, Nat.mul_comm]
  simp [unflatten, hsnd]

theorem length_unflatten (bounds : List Nat) (linear : Nat) :
    (unflatten bounds linear).length = bounds.length := by
  induction bounds with
  | nil => rfl
  | cons b bounds ih => rw [unflatten_cons, List.length_cons, ih, List.length_cons]

theorem unflatten_lt {bounds : List Nat} (hb : ∀ b ∈ bounds, 0 < b) (linear : Nat) :
    List.Forall₂ (· < ·) (unflatten bounds linear) bounds := by
  induction bounds with
  | nil => exact .nil
  | cons b bounds ih =>
    rw [unflatten_cons]
    exact .cons (Nat.mod_lt _ (hb b (by simp))) (ih fun b h => hb b (by simp [h]))

theorem offsetFrom_unflatten {bounds : List Nat} (hb : ∀ b ∈ bounds, 0 < b) (dimension acc linear : Nat) :
    offsetFrom dimension acc bounds ((unflatten bounds linear).map Int.ofNat) =
      .ok (acc * bounds.prod + linear % bounds.prod) := by
  induction bounds generalizing dimension acc with
  | nil => simp [offsetFrom, Nat.mod_one]
  | cons b bounds ih =>
    have hlt : linear / bounds.prod % b < b := Nat.mod_lt _ (hb b (by simp))
    rw [unflatten_cons, List.map_cons, offsetFrom, if_pos ⟨Int.natCast_nonneg _, Int.ofNat_lt.2 hlt⟩,
      ih fun b h => hb b (by simp [h])]
    have hmod : linear % (bounds.prod * b) = linear % bounds.prod + bounds.prod * (linear / bounds.prod % b) :=
      Nat.mod_mul
    rw [List.prod_cons, Nat.mul_comm b, hmod]
    congr 1
    show (acc * b + linear / bounds.prod % b) * bounds.prod + _ = _
    ring

/-- An array that has elements has no bound zero. -/
theorem pos_of_lt_prod {bounds : List Nat} {linear : Nat} (h : linear < bounds.prod) :
    ∀ b ∈ bounds, 0 < b := by
  intro b hb
  refine Nat.pos_of_ne_zero fun h0 => ?_
  rw [List.prod_eq_zero (h0 ▸ hb)] at h
  exact Nat.not_lt_zero _ h

theorem offset_unflatten {bounds : List Nat} {linear : Nat} (h : linear < bounds.prod) :
    offset bounds ((unflatten bounds linear).map Int.ofNat) = .ok linear := by
  rw [offset, if_pos (by simp [length_unflatten]), offsetFrom_unflatten (pos_of_lt_prod h),
    Nat.mod_eq_of_lt h, Nat.zero_mul, Nat.zero_add]

/-- Going through the dimensions fails only for an index that is out of range. -/
theorem offsetFrom_outcome (bounds : List Nat) (is : List Int) (dimension acc : Nat) :
    (∃ i, offsetFrom dimension acc bounds is = .ok i) ∨
      ∃ d i b, offsetFrom dimension acc bounds is = .error (.range d i b) := by
  induction bounds generalizing is dimension acc with
  | nil => exact .inl ⟨acc, rfl⟩
  | cons b bounds ih =>
    cases is with
    | nil => exact .inl ⟨acc, rfl⟩
    | cons i is =>
      rw [offsetFrom]
      split
      · exact ih ..
      · exact .inr ⟨dimension, i, b, rfl⟩

theorem offsetFrom_lt {bounds : List Nat} {indices : List Int} {dimension acc i : Nat}
    (hlen : indices.length = bounds.length) (h : offsetFrom dimension acc bounds indices = .ok i) :
    i < (acc + 1) * bounds.prod := by
  induction bounds generalizing indices dimension acc with
  | nil =>
    obtain rfl := List.length_eq_zero_iff.1 hlen
    cases h
    simp
  | cons b bounds ih =>
    rcases indices with _ | ⟨k, indices⟩
    · cases hlen
    · rw [offsetFrom] at h
      split_ifs at h with hk
      have hacc : acc * b + k.toNat + 1 ≤ (acc + 1) * b := by
        rw [Nat.add_mul, Nat.one_mul]
        omega
      rw [List.prod_cons, ← Nat.mul_assoc]
      exact Nat.lt_of_lt_of_le (ih (Nat.succ.inj hlen) h) (Nat.mul_le_mul_right _ hacc)

theorem offset_lt {bounds : List Nat} {indices : List Int} {i : Nat} (h : offset bounds indices = .ok i) :
    i < bounds.prod := by
  unfold offset at h
  split_ifs at h with hlen
  simpa using offsetFrom_lt hlen h

theorem size?_eq_prod {bounds : List Nat} {n : Nat} (h : size? bounds = some n) : n = bounds.prod := by
  suffices hfrom : ∀ size, bounds.foldlM (fun n b => if n * b ≤ maxSize then some (n * b) else none) size = some n →
      n = size * bounds.prod by
    simpa using hfrom 1 h
  intro size h
  clear * - h
  induction bounds generalizing size with
  | nil =>
    cases h
    simp
  | cons b bounds ih =>
    rw [List.foldlM_cons] at h
    split_ifs at h with hb
    · rw [List.prod_cons, ← Nat.mul_assoc]
      exact ih (size * b) h
    · cases h

end Shape

/-! ### Bounds of an array node -/

theorem checkBounds_eq_ok {bounds : List Int32} {dimension size n : Nat}
    (h : checkBounds dimension size bounds = .ok n) :
    (∀ b ∈ bounds, 0 ≤ b.toInt) ∧
      (bounds.map (·.toInt.toNat)).foldlM
        (fun n b => if n * b ≤ Shape.maxSize then some (n * b) else none) size = some n ∧
      n = size * (bounds.map (·.toInt.toNat)).prod := by
  induction bounds generalizing dimension size with
  | nil => cases h; simp
  | cons b bounds ih =>
    simp only [checkBounds] at h
    split_ifs at h with hb hs
    obtain ⟨h₁, h₂, h₃⟩ := ih h
    refine ⟨List.forall_mem_cons.2 ⟨?_, h₁⟩, ?_, ?_⟩
    · rw [Int32.lt_iff_toInt_lt] at hb
      simpa using hb
    · rw [List.map_cons, List.foldlM_cons, if_pos hs]
      exact h₂
    · rw [h₃, List.map_cons, List.prod_cons, Nat.mul_assoc]

end ExprLowering
