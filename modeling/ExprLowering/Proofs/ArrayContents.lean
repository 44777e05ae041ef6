import ExprLowering.Proofs.MultiIndices
import ExprLowering.Proofs.Restoration

/-!
# An array is a map on its multi-indices

`Grid.assign` sets an element of an array in place. Whatever has been assigned to an array since it was made, with or
without success, it has one value for each multi-index within its bounds: a multi-index can be assigned to exactly if
it can be read, what is read is what was assigned last, and nothing is changed by a failure (`Grid.made_faithful`).
`Shape.box` lists the multi-indices within bounds in lexicographic order, which is the order of the values.
-/

namespace ExprLowering

namespace Shape

/-! ### The list of all multi-indices -/

/-- The multi-indices within the bounds, the innermost dimension running fastest. -/
def box : List Nat → List (List Nat)
  | [] => [[]]
  | b :: bounds => (List.range b).flatMap fun i => (box bounds).map (i :: ·)

theorem mem_box {bounds m : List Nat} : m ∈ box bounds ↔ List.Forall₂ (· < ·) m bounds := by
  induction bounds generalizing m with
  | nil => simp [box]
  | cons b bounds ih =>
    rw [box, List.forall₂_cons_right_iff]
    simp only [List.mem_flatMap, List.mem_range, List.mem_map, ih]
    constructor
    · rintro ⟨i, hi, m, hm, rfl⟩
      exact ⟨i, m, hi, hm, rfl⟩
    · rintro ⟨i, m, hi, hm, rfl⟩
      exact ⟨i, hi, m, hm, rfl⟩

theorem within_iff_mem_box {bounds : List Nat} {indices : List Int} :
    Within bounds indices ↔ ∃ m ∈ box bounds, m.map Int.ofNat = indices := by
  simp only [mem_box]
  constructor
  · intro h
    obtain ⟨i, hi⟩ := exists_offset_iff.2 h
    obtain ⟨-, rfl⟩ := offset_eq_ok_iff.1 hi
    exact ⟨_, within_map_ofNat.1 h, rfl⟩
  · rintro ⟨m, hm, rfl⟩
    exact within_map_ofNat.2 hm

theorem pairwise_box (bounds : List Nat) : (box bounds).Pairwise (List.Lex (· < ·)) := by
  induction bounds with
  | nil => simp [box]
  | cons b bounds ih =>
    rw [box, List.pairwise_flatMap]
    -- Within a row the rest of the multi-index decides, between two rows the first index.
    constructor
    · intro i _
      rw [List.pairwise_map]
      exact ih.imp .cons
    · refine List.pairwise_lt_range.imp fun {i j} hij => ?_
      simp only [List.mem_map]
      rintro _ ⟨m, -, rfl⟩ _ ⟨n, -, rfl⟩
      exact .rel hij

theorem flatMap_range' (rows start width : Nat) :
    (List.range rows).flatMap (fun i => List.range' ((start + i) * width) width) =
      List.range' (start * width) (rows * width) := by
  induction rows with
  | zero => simp
  | succ rows ih =>
    rw [List.range_succ, List.flatMap_append, ih, List.flatMap_singleton, Nat.succ_mul, Nat.add_mul,
      ← List.range'_append_1]

theorem map_offsetFrom_box (bounds : List Nat) (dimension acc : Nat) :
    (box bounds).map (fun m => offsetFrom dimension acc bounds (m.map Int.ofNat)) =
      (List.range' (acc * bounds.prod) bounds.prod).map .ok := by
  induction bounds generalizing dimension acc with
  | nil => simp [box, offsetFrom]
  | cons b bounds ih =>
    -- Row `i` is counted on from `acc * b + i`.
    have hrow (i : Nat) (hi : i ∈ List.range b) :
        ((box bounds).map (i :: ·)).map (fun m => offsetFrom dimension acc (b :: bounds) (m.map Int.ofNat)) =
          (List.range' ((acc * b + i) * bounds.prod) bounds.prod).map .ok := by
      rw [List.map_map, ← ih (dimension + 1)]
      refine List.map_congr_left fun m _ => ?_
      rw [Function.comp_apply, List.map_cons, offsetFrom,
        if_pos ⟨Int.natCast_nonneg i, Int.ofNat_lt.2 (List.mem_range.1 hi)⟩]
      rfl
    rw [box, List.map_flatMap, List.flatMap_congr hrow, ← List.map_flatMap, flatMap_range', List.prod_cons,
      Nat.mul_assoc]

theorem map_offset_box (bounds : List Nat) :
    (box bounds).map (fun m => offset bounds (m.map Int.ofNat)) = (List.range bounds.prod).map .ok := by
  have hoffset : ∀ m ∈ box bounds,
      offset bounds (m.map Int.ofNat) = offsetFrom 0 0 bounds (m.map Int.ofNat) := by
    intro m hm
    rw [offset, if_pos (by rw [List.length_map, (mem_box.1 hm).length_eq])]
  rw [List.map_congr_left hoffset, map_offsetFrom_box, Nat.zero_mul, List.range_eq_range']

theorem length_box (bounds : List Nat) : (box bounds).length = bounds.prod := by
  simpa using congrArg List.length (map_offset_box bounds)

theorem offset_getElem_box {bounds : List Nat} {i : Nat} (h : i < (box bounds).length) :
    offset bounds ((box bounds)[i].map Int.ofNat) = .ok i := by
  have hget := congrArg (·[i]?) (map_offset_box bounds)
  simpa [h, length_box bounds ▸ h] using hget

end Shape

namespace Grid
variable {g g' : Grid} {m m' : List Int} {v w : Value} {f : Fault}

/-! ### Setting an element in place -/

/-- Sets an element: the offset is found first, and the array is changed only then. -/
def assign (indices : List Int) (v : Value) : ExceptT Fault (StateM Grid) Unit := do
  let g ← getThe Grid
  let i ← liftM (g.offset indices)
  modifyThe Grid (·.setAt i v)

theorem run_assign (g : Grid) (m : List Int) (v : Value) :
    (assign m v).run g = match g.set m v with
      | .ok g' => (.ok (), g')
      | .error f => (.error f, g) := by
  have hget : (getThe Grid : ExceptT Fault (StateM Grid) Grid).run g = (.ok g, g) := rfl
  rw [assign, run_bind_of_ok hget, set]
  cases hoffset : g.offset m with
  | error f => rfl
  | ok i => rfl

theorem run_assign_eq_ok : (assign m v).run g = (.ok (), g') ↔ g.set m v = .ok g' := by
  rw [run_assign]
  cases g.set m v with
  | error f =>
    constructor
    · intro h
      cases h
    · intro h
      cases h
  | ok g₁ =>
    constructor
    · intro h
      cases h
      rfl
    · intro h
      cases h
      rfl

theorem set_eq_ok : g.set m v = .ok g' ↔ ∃ i, g.offset m = .ok i ∧ g' = g.setAt i v := by
  rw [set, except_bind_eq_ok]
  exact exists_congr fun i => and_congr_right fun _ => by simp [Pure.pure, Except.pure, eq_comm]

theorem get_eq_ok : g.get m = .ok v ↔ ∃ i, g.offset m = .ok i ∧ v = g.getAt i := by
  rw [get, except_bind_eq_ok]
  exact exists_congr fun i => and_congr_right fun _ => by simp [Pure.pure, Except.pure, eq_comm]

/-- An array as it was made, or after something was assigned to an element of it, or could not be. -/
inductive Made : Grid → Prop
  | new {element : Ty} {bounds : List Nat} {g : Grid} (h : Grid.new element bounds = .ok g) : Made g
  | ofRowMajor {element : Ty} {bounds : List Nat} {values : List Value} {g : Grid}
      (h : Grid.ofRowMajor element bounds values = .ok g) : Made g
  | assigned {g g' : Grid} {m : List Int} {v : Value} {r : Except Fault Unit} (h : Made g)
      (hrun : (assign m v).run g = (r, g')) : Made g'

theorem assign_sameShape {r : Except Fault Unit} (h : (assign m v).run g = (r, g')) : SameShape g g' := by
  rw [run_assign] at h
  split at h
  · cases h
    exact set_sameShape ‹_›
  · cases h
    exact .refl g

theorem Made.full (h : g.Made) : g.Full := by
  induction h with
  | new h => exact Exec.full_new h
  | ofRowMajor h => exact Exec.full_ofRowMajor h
  | assigned _ hrun ih => exact (assign_sameShape hrun).full ih

/-! ### What is read -/

theorem Full.lt_size {i : Nat} (hfull : g.Full) (h : g.offset m = .ok i) : i < g.data.size := by
  rw [hfull]
  exact Shape.offset_lt (offset_eq_ok_iff.1 h)

theorem exists_offset_iff : (∃ i, g.offset m = .ok i) ↔ Shape.Within g.bounds m := by
  simp only [offset_eq_ok_iff, Shape.exists_offset_iff]

theorem exists_get_iff : (∃ v, g.get m = .ok v) ↔ Shape.Within g.bounds m := by
  rw [← exists_offset_iff]
  simp only [get_eq_ok, exists_comm, exists_and_left, exists_eq, and_true]

theorem exists_set_iff : (∃ g', g.set m v = .ok g') ↔ Shape.Within g.bounds m := by
  rw [← exists_offset_iff]
  simp only [set_eq_ok, exists_comm, exists_and_left, exists_eq, and_true]

theorem getAt_setAt (g : Grid) (i j : Nat) (v : Value) :
    (g.setAt i v).getAt j = if i = j ∧ i < g.data.size then v else g.getAt j :=
  getD_setIfInBounds ..

theorem get_of_set (hfull : g.Full) (h : g.set m v = .ok g') : g'.get m = .ok v := by
  obtain ⟨i, hi, rfl⟩ := set_eq_ok.1 h
  refine get_eq_ok.2 ⟨i, hi, ?_⟩
  rw [getAt_setAt, if_pos ⟨rfl, hfull.lt_size hi⟩]

/-- Two multi-indices of one offset are the same, so nothing else is changed. -/
theorem get_of_set_of_ne (h : g.set m v = .ok g') (hne : m' ≠ m) : g'.get m' = g.get m' := by
  obtain ⟨i, hi, rfl⟩ := set_eq_ok.1 h
  have hoffset : (g.setAt i v).offset m' = g.offset m' := rfl
  rw [get, get, hoffset]
  cases hj : g.offset m' with
  | error f => rfl
  | ok j =>
    have hij : i ≠ j := by
      rintro rfl
      have hm := (Shape.offset_eq_ok_iff.1 (offset_eq_ok_iff.1 hi)).2
      have hm' := (Shape.offset_eq_ok_iff.1 (offset_eq_ok_iff.1 hj)).2
      exact hne (hm'.symm.trans hm)
    show Except.ok ((g.setAt i v).getAt j) = .ok (g.getAt j)
    rw [getAt_setAt, if_neg fun h => hij h.1]

/-- The values are those at the multi-indices, one after the other. -/
theorem map_get_box (hfull : g.Full) :
    (Shape.box g.bounds).map (fun m => g.get (m.map Int.ofNat)) = g.data.toList.map .ok := by
  refine List.ext_getElem ?_ fun i hi hi' => ?_
  · rw [List.length_map, List.length_map, Shape.length_box, Array.length_toList, hfull]
  · rw [List.length_map] at hi hi'
    rw [List.getElem_map, List.getElem_map]
    refine get_eq_ok.2 ⟨i, offset_eq_ok_iff.2 (Shape.offset_getElem_box hi), ?_⟩
    rw [Array.length_toList] at hi'
    simp [getAt, hi']

/-- Whatever has been assigned to an array since it was made, it has a place for each multi-index within its bounds and
for no other. What was assigned is read where it was assigned and nowhere else, a failure changes nothing, and the
values are those of all multi-indices in lexicographic order. -/
theorem made_faithful {g : Grid} (h : g.Made) (hbounds : ∀ b ∈ g.bounds, b < 2 ^ 63) :
    g.data.size = g.bounds.prod ∧
    (∀ m i, g.offset m = .ok i → i < g.data.size) ∧
    (∀ m, Shape.Within g.bounds m → ∀ i ∈ m, i < 2 ^ 63) ∧
    (∀ m, ((∃ w, g.get m = .ok w) ↔ Shape.Within g.bounds m) ∧
      ∀ v, (∃ w, g.get m = .ok w) ↔ ∃ g', (assign m v).run g = (.ok (), g')) ∧
    (∀ m v g', (assign m v).run g = (.ok (), g') →
      g'.element = g.element ∧ g'.bounds = g.bounds ∧ g'.get m = .ok v ∧ ∀ m', m' ≠ m → g'.get m' = g.get m') ∧
    (∀ m v f g', (assign m v).run g = (.error f, g') → g' = g) ∧
    (∀ m, Shape.Within g.bounds m ↔ ∃ n ∈ Shape.box g.bounds, n.map Int.ofNat = m) ∧
    (Shape.box g.bounds).Pairwise (List.Lex (· < ·)) ∧
    (Shape.box g.bounds).map (fun m => g.get (m.map Int.ofNat)) = g.data.toList.map .ok := by
  have hfull := h.full
  refine ⟨hfull, fun m i => hfull.lt_size, fun m hm => hm.lt hbounds, fun m => ⟨exists_get_iff, fun v => ?_⟩,
    fun m v g' hrun => ?_, fun m v f g' hrun => ?_, fun m => Shape.within_iff_mem_box, Shape.pairwise_box g.bounds,
    map_get_box hfull⟩
  · simp only [exists_get_iff, run_assign_eq_ok, exists_set_iff]
  · have hset := run_assign_eq_ok.1 hrun
    have hshape := assign_sameShape hrun
    exact ⟨hshape.element, hshape.bounds, get_of_set hfull hset, fun m' => get_of_set_of_ne hset⟩
  · rw [run_assign] at hrun
    split at hrun
    · cases hrun
    · cases hrun
      rfl

namespace Square

def yes : Value := .lit (.bool true)
def no : Value := .lit (.bool false)

/-- `[[false, false], [true, false]]` -/
def flags : Grid := ⟨.bool, [2, 2], #[no, no, yes, no]⟩

/-- Made with defaults, then assigned to at `[1, 0]`, then at `[2, 0]`, which is out of range. -/
theorem flags_made : flags.Made := by
  have hnew : Grid.new .bool [2, 2] = .ok ⟨.bool, [2, 2], #[no, no, no, no]⟩ := rfl
  have hset : (assign [1, 0] yes).run ⟨.bool, [2, 2], #[no, no, no, no]⟩ = (.ok (), flags) := rfl
  have hfail : (assign [2, 0] yes).run flags = (.error (.indexOutOfRange 0 2 2), flags) := rfl
  exact .assigned (.assigned (.new hnew) hset) hfail

end Square

open Square in
/-- The array reads as it was assigned to, in lexicographic order; another assignment does not change this. -/
theorem made_faithful_square :
    (Shape.box [2, 2]).map (fun m => flags.get (m.map Int.ofNat)) = [.ok no, .ok no, .ok yes, .ok no] ∧
    (∃ g', (assign [1, 1] yes).run flags = (.ok (), g') ∧ g'.get [1, 1] = .ok yes ∧ g'.get [1, 0] = flags.get [1, 0]) ∧
    ∀ v g', (assign [0, 2] v).run flags = (.error (.indexOutOfRange 1 2 2), g') → g' = flags := by
  obtain ⟨-, -, -, hplaces, hassigned, hfailed, -, -, hvalues⟩ := made_faithful flags_made (by decide)
  refine ⟨hvalues, ?_, fun v g' => hfailed [0, 2] v _ g'⟩
  obtain ⟨g', hrun⟩ := ((hplaces [1, 1]).2 yes).1 ⟨no, rfl⟩
  obtain ⟨-, -, hsame, hother⟩ := hassigned _ _ _ hrun
  exact ⟨g', hrun, hsame, hother _ (by decide)⟩

end Grid

end ExprLowering
