import Mathlib.Data.List.Forall2
import Mathlib.Data.List.Nodup
import ExprLowering.Lowering

/-!
# Arguments in declaration order

The check of a list of descriptors makes the slots of a call a matching: every parameter has a slot, and
every binding is the slot of exactly one parameter (`Signature.SlotsFor`). So laying values out by slots
never meets a value that is already taken (`Slot.arrange_eq`).
-/

namespace ExprLowering

theorem mapM_eq_some_iff {α β : Type} {f : α → Option β} {as : List α} {bs : List β} :
    as.mapM f = some bs ↔ List.Forall₂ (fun a b => f a = some b) as bs := by
  induction as generalizing bs with
  | nil =>
    rw [List.forall₂_nil_left_iff, List.mapM_nil]
    exact ⟨fun h => (Option.some.inj h).symm, fun h => h ▸ rfl⟩
  | cons a as ih =>
    rw [List.forall₂_cons_left_iff, List.mapM_cons]
    constructor
    · intro h
      obtain ⟨b, hb, h⟩ := Option.bind_eq_some_iff.1 h
      obtain ⟨bs', hbs, h⟩ := Option.bind_eq_some_iff.1 h
      exact ⟨b, bs', hb, ih.1 hbs, (Option.some.inj h).symm⟩
    · rintro ⟨b, bs', hb, hbs, rfl⟩
      simp [hb, ih.2 hbs]

theorem exists_mapM_eq_some {α β : Type} {f : α → Option β} {as : List α} (h : ∀ a ∈ as, (f a).isSome) :
    ∃ bs, as.mapM f = some bs := by
  induction as with
  | nil => exact ⟨[], rfl⟩
  | cons a as ih =>
    obtain ⟨b, hb⟩ := Option.isSome_iff_exists.1 (h a (by simp))
    obtain ⟨bs, hbs⟩ := ih fun a ha => h a (by simp [ha])
    exact ⟨b :: bs, by simp [hb, hbs]⟩

theorem exists_of_forall₂ {α β : Type} {G : α → β → Prop} {as : List α} {bs : List β} (h : List.Forall₂ G as bs)
    {j : Nat} {a : α} (ha : as[j]? = some a) : ∃ b, bs[j]? = some b ∧ G a b := by
  obtain ⟨hj, rfl⟩ := List.getElem?_eq_some_iff.1 ha
  have hj' : j < bs.length := h.length_eq ▸ hj
  exact ⟨bs[j], List.getElem?_eq_getElem hj', h.get hj hj'⟩

theorem Parameter.eq_of_beq {p q : Parameter} (h : p == q) :
    p.owner = q.owner ∧ p.position = q.position ∧ p.ty.nominal = q.ty.nominal := by
  have h : (p.owner == q.owner && p.position == q.position && p.name == q.name && p.ty == q.ty &&
    defaultEq p.default q.default) = true := h
  simp only [Bool.and_eq_true] at h
  exact ⟨LawfulBEq.eq_of_beq h.1.1.1.1, LawfulBEq.eq_of_beq h.1.1.1.2, Ty.beq_iff.1 h.1.2⟩

/-! ### Equal signatures -/

mutual

theorem Ty.eq_of_equals : (t u : Ty) → t.equals u = true → t = u
  | .void, u, h => by
    cases u with
    | void => rfl
    | _ => cases h
  | .bool, u, h => by
    cases u with
    | bool => rfl
    | _ => cases h
  | .str, u, h => by
    cases u with
    | str => rfl
    | _ => cases h
  | .object, u, h => by
    cases u with
    | object => rfl
    | _ => cases h
  | .int k, u, h => by
    cases u with
    | int => rw [eq_of_beq h]
    | _ => cases h
  | .float k, u, h => by
    cases u with
    | float => rw [eq_of_beq h]
    | _ => cases h
  | .array e r, u, h => by
    cases u with
    | array f q =>
      rw [Ty.equals, Bool.and_eq_true] at h
      rw [Ty.eq_of_equals e f h.1, eq_of_beq h.2]
    | _ => cases h
  | .fn s, u, h => by
    cases u with
    | fn t => rw [Signature.eq_of_equals s t h]
    | _ => cases h
  | .quoted t, u, h => by
    cases u with
    | quoted u => rw [Ty.eq_of_equals t u h]
    | _ => cases h
  | .nullable t, u, h => by
    cases u with
    | nullable u => rw [Ty.eq_of_equals t u h]
    | _ => cases h

theorem Constant.eq_of_equals : (c d : Constant) → c.equals d = true → c = d
  | .null t, d, h => by
    cases d with
    | null u => rw [Ty.eq_of_equals t u h]
    | lit => cases h
  | .lit a, d, h => by
    cases d with
    | null => cases h
    | lit b => rw [eq_of_beq h]

theorem Constant.eq_of_defaultEquals : (c d : Option Constant) → Constant.defaultEquals c d = true → c = d
  | none, d, h => by
    cases d with
    | none => rfl
    | some => cases h
  | some c, d, h => by
    cases d with
    | none => cases h
    | some d => rw [Constant.eq_of_equals c d h]

theorem Formal.eq_of_equalsAll : (fs gs : List Formal) → Formal.equalsAll fs gs = true → fs = gs
  | [], gs, h => by
    cases gs with
    | nil => rfl
    | cons => cases h
  | ⟨name, t, c⟩ :: fs, gs, h => by
    cases gs with
    | nil => cases h
    | cons g gs =>
      obtain ⟨name', u, d⟩ := g
      simp only [Formal.equalsAll, Bool.and_eq_true] at h
      obtain ⟨⟨⟨hname, ht⟩, hc⟩, hfs⟩ := h
      rw [eq_of_beq hname, Ty.eq_of_equals t u ht, Constant.eq_of_defaultEquals c d hc,
        Formal.eq_of_equalsAll fs gs hfs]

theorem Signature.eq_of_equals : (s t : Signature) → s.equals t = true → s = t
  | ⟨id, name, params, result⟩, ⟨id', name', params', result'⟩, h => by
    simp only [Signature.equals, Bool.and_eq_true] at h
    obtain ⟨⟨⟨hid, hname⟩, hparams⟩, hresult⟩ := h
    rw [eq_of_beq hid, eq_of_beq hname, Formal.eq_of_equalsAll params params' hparams,
      Ty.eq_of_equals result result' hresult]

end

mutual

theorem Ty.equals_self : (t : Ty) → t.equals t = true
  | .void | .bool | .str | .object => rfl
  | .int k | .float k => beq_self_eq_true k
  | .array e r => by rw [Ty.equals, Ty.equals_self e, beq_self_eq_true]; rfl
  | .fn s => Signature.equals_self s
  | .quoted t => Ty.equals_self t
  | .nullable t => Ty.equals_self t

theorem Constant.equals_self : (c : Constant) → c.equals c = true
  | .null t => Ty.equals_self t
  | .lit a => beq_self_eq_true a

theorem Constant.defaultEquals_self : (c : Option Constant) → Constant.defaultEquals c c = true
  | none => rfl
  | some c => Constant.equals_self c

theorem Formal.equalsAll_self : (fs : List Formal) → Formal.equalsAll fs fs = true
  | [] => rfl
  | ⟨name, t, c⟩ :: fs => by
    rw [Formal.equalsAll, beq_self_eq_true, Ty.equals_self t, Constant.defaultEquals_self c, Formal.equalsAll_self fs]
    rfl

theorem Signature.equals_self : (s : Signature) → s.equals s = true
  | ⟨id, name, params, result⟩ => by
    rw [Signature.equals, beq_self_eq_true, beq_self_eq_true, Formal.equalsAll_self params, Ty.equals_self result]
    rfl

end

theorem Signature.equals_iff {s t : Signature} : s.equals t = true ↔ s = t :=
  ⟨Signature.eq_of_equals s t, fun h => h ▸ Signature.equals_self s⟩

/-! ### Declared descriptors -/

theorem Descriptor.isHeldBy_iff {s : Signature} {d : Descriptor} : d.isHeldBy s = true ↔ ∃ i, d = .held s i := by
  cases d with
  | held t i =>
    refine Signature.equals_iff.trans ⟨?_, ?_⟩
    · rintro rfl
      exact ⟨i, rfl⟩
    · rintro ⟨j, h⟩
      cases h
      rfl
  | copy p => exact ⟨nofun, nofun⟩

theorem Signature.ty_of_declared {s : Signature} {d : Descriptor} (h : (s.declared? d).isSome) :
    ∃ f, s.params[d.position]? = some f ∧ d.ty.nominal = f.ty.nominal := by
  obtain ⟨q, hq⟩ := Option.isSome_iff_exists.1 h
  rw [Signature.declared?, Option.filter_eq_some_iff] at hq
  obtain ⟨hparam, hsame⟩ := hq
  rw [Signature.param?] at hparam
  split at hparam
  · rename_i hlt
    cases hparam
    refine ⟨_, List.getElem?_eq_getElem hlt, ?_⟩
    rcases Bool.or_eq_true _ _ ▸ hsame with hheld | heq
    · obtain ⟨i, rfl⟩ := Descriptor.isHeldBy_iff.1 hheld
      rfl
    · exact (Parameter.eq_of_beq heq).2.2.symm
  · cases hparam

namespace Signature
variable {s : Signature} {ds : List Descriptor}

theorem param_position (s : Signature) (i : Fin s.params.length) : (s.param i).position = i := rfl

theorem position_lt_of_declared {d : Descriptor} (h : (s.declared? d).isSome) :
    d.position < s.params.length := by
  by_contra hn
  simp [declared?, param?, hn] at h

/-- The members are declared, at positions that do not repeat and are not taken yet. -/
theorem checkMembers_eq_ok {taken bound : List Nat} (h : s.checkMembers taken ds = .ok bound) :
    (∀ d ∈ ds, (s.declared? d).isSome) ∧ (ds.map (·.position)).Nodup ∧
      (∀ d ∈ ds, d.position ∉ taken) ∧ ∀ i, i ∈ bound ↔ i ∈ taken ∨ i ∈ ds.map (·.position) := by
  induction ds generalizing taken with
  | nil => cases h; simp
  | cons d ds ih =>
    rw [checkMembers] at h
    split_ifs at h with hd ht
    · obtain ⟨h₁, h₂, h₃, h₄⟩ := ih h
      simp only [List.contains_iff_mem] at ht
      simp only [List.mem_cons, not_or] at h₃ h₄
      refine ⟨?_, ?_, ?_, ?_⟩
      · exact List.forall_mem_cons.2 ⟨by simpa [Option.isSome_iff_ne_none] using hd, h₁⟩
      · rw [List.map_cons, List.nodup_cons, List.mem_map]
        exact ⟨fun ⟨e, he, hp⟩ => (h₃ e he).1 hp, h₂⟩
      · exact List.forall_mem_cons.2 ⟨ht, fun e he => (h₃ e he).2⟩
      · intro i
        rw [h₄, List.map_cons, List.mem_cons, or_left_comm, or_assoc]

/-- What the check of a list of descriptors establishes. -/
structure Bound (s : Signature) (ds : List Descriptor) : Prop where
  declared : ∀ d ∈ ds, (s.declared? d).isSome
  nodup : (ds.map (·.position)).Nodup
  complete : ∀ p ∈ s.parameters, p.position ∈ ds.map (·.position) ∨ p.default.isSome

theorem checkBound_eq_ok (h : s.checkBound ds = .ok ()) : Bound s ds := by
  unfold checkBound at h
  split at h
  · cases h
  · rename_i bound hm
    split at h
    · cases h
    · rename_i hu
      obtain ⟨h₁, h₂, -, h₄⟩ := checkMembers_eq_ok hm
      refine ⟨h₁, h₂, fun p hp => ?_⟩
      have := List.find?_eq_none.1 hu p hp
      simp only [Bool.and_eq_true, Bool.not_eq_true', not_and_or, Bool.not_eq_false, List.contains_iff_mem,
        Parameter.isOptional] at this
      rcases this with hb | hd
      · exact .inl (((h₄ _).1 hb).resolve_left List.not_mem_nil)
      · exact .inr hd

theorem Bound.exists_slots (h : Bound s ds) : ∃ slots, s.slots? ds = some slots := by
  refine exists_mapM_eq_some fun p hp => ?_
  cases hi : ds.findIdx? (·.position == p.position) with
  | none =>
    rcases h.complete p hp with hd | hd
    · obtain ⟨d, hd, hpos⟩ := List.mem_map.1 hd
      have := List.findIdx?_eq_none_iff.1 hi d hd
      simp [hpos] at this
    · simpa [slot?, hi] using hd
  | some i => simp [slot?, hi]

end Signature

namespace Slot

/-- The binding that the slot takes its value from. -/
def binding? : Slot → Option Nat
  | bound i => some i
  | default _ => none

/-- The argument at the slot, the bindings having these values. -/
def pick {α : Type} [Inhabited α] (ofConstant : Constant → α) (values : List α) : Slot → α
  | bound i => values.getD i Inhabited.default
  | default c => ofConstant c

/-- Laying out by slots finds every value in its place, if no two slots share a binding. -/
theorem arrange_eq {slots : List Slot} {values : List Prim} {left : List (Option Prim)}
    (hn : (slots.filterMap binding?).Nodup)
    (hv : ∀ i ∈ slots.filterMap binding?, left[i]? = some (some (values.getD i Inhabited.default))) :
    arrange slots left = some (slots.map (pick .const values)) := by
  induction slots generalizing left with
  | nil => rfl
  | cons slot slots ih =>
    cases slot with
    | bound i =>
      simp only [List.filterMap_cons, binding?, List.nodup_cons, List.forall_mem_cons] at hn hv
      have ih := @ih (left.set i none) hn.2 fun j hj => by
        have hij : i ≠ j := fun h => hn.1 (h ▸ hj)
        rw [List.getElem?_set_ne hij, hv.2 j hj]
      simp [arrange, hv.1, ih, pick]
    | default c =>
      simp only [List.filterMap_cons, binding?] at hn hv
      simp [arrange, ih hn hv, pick]

theorem forall₂_pick {α β : Type} [Inhabited α] [Inhabited β] {ofConstant : Constant → α} {ofConstant' : Constant → β}
    {R : α → β → Prop} (hconst : ∀ c, R (ofConstant c) (ofConstant' c)) {as : List α} {bs : List β}
    (h : List.Forall₂ R as bs) {slots : List Slot} (hs : ∀ i ∈ slots.filterMap binding?, i < as.length) :
    List.Forall₂ R (slots.map (pick ofConstant as)) (slots.map (pick ofConstant' bs)) := by
  rw [List.forall₂_map_left_iff, List.forall₂_map_right_iff, List.forall₂_same]
  intro slot hslot
  cases slot with
  | default c => exact hconst c
  | bound i =>
    have hi : i < as.length := hs i (List.mem_filterMap.2 ⟨_, hslot, rfl⟩)
    have hi' : i < bs.length := h.length_eq ▸ hi
    simp only [pick, List.getD_eq_getElem?_getD, List.getElem?_eq_getElem hi, List.getElem?_eq_getElem hi',
      Option.getD_some]
    exact (List.forall₂_iff_get.1 h).2 i hi hi'

theorem mem_pick {slots : List Slot} {values : List Prim}
    (h : (slots.filterMap binding?).Perm (List.range values.length)) {p : Prim} (hp : p ∈ values) :
    p ∈ slots.map (pick .const values) := by
  obtain ⟨i, hi⟩ := List.mem_iff_getElem?.1 hp
  have hlt := (List.getElem?_eq_some_iff.1 hi).1
  obtain ⟨slot, hslot, hbinding⟩ := List.mem_filterMap.1 (h.mem_iff.2 (List.mem_range.2 hlt))
  cases slot with
  | default c => cases hbinding
  | bound j =>
    cases hbinding
    exact List.mem_map.2 ⟨_, hslot, by simp [pick, hi]⟩

end Slot

namespace Signature
variable {s : Signature} {ds : List Descriptor} {slots : List Slot}

theorem filterMap_binding?_eq (h : s.slots? ds = some slots) :
    slots.filterMap Slot.binding? =
      (List.finRange s.params.length).filterMap fun i => ds.findIdx? (·.position == i.val) := by
  rw [slots?, parameters, mapM_eq_some_iff, List.forall₂_map_left_iff] at h
  generalize List.finRange s.params.length = is at h
  induction h with
  | nil => rfl
  | @cons i slot is slots hi _ ih =>
    rw [slot?, param_position] at hi
    cases hf : ds.findIdx? (·.position == i.val) with
    | some j =>
      simp only [hf] at hi
      cases hi
      simp only [List.filterMap_cons, hf, Slot.binding?, ih]
    | none =>
      simp only [hf] at hi
      obtain ⟨c, -, rfl⟩ := Option.map_eq_some_iff.1 hi
      simp only [List.filterMap_cons, hf, Slot.binding?, ih]

theorem findIdx?_position (h : (ds.map (·.position)).Nodup) {i j : Nat} :
    ds.findIdx? (·.position == i) = some j ↔ ∃ d, ds[j]? = some d ∧ d.position = i := by
  constructor
  · intro hj
    obtain ⟨hlt, heq, -⟩ := List.findIdx?_eq_some_iff_getElem.1 hj
    exact ⟨ds[j], List.getElem?_eq_getElem hlt, by simpa using heq⟩
  · rintro ⟨d, hd, rfl⟩
    obtain ⟨hj, rfl⟩ := List.getElem?_eq_some_iff.1 hd
    refine List.findIdx?_eq_some_iff_getElem.2 ⟨hj, by simp, fun k hk => ?_⟩
    have hne := List.pairwise_iff_getElem.1 h k j (by simpa using Nat.lt_trans hk hj) (by simpa using hj) hk
    simpa using hne

/-- The slots of a checked call use each binding exactly once. -/
theorem Bound.perm (h : Bound s ds) (hs : s.slots? ds = some slots) :
    (slots.filterMap Slot.binding?).Perm (List.range ds.length) := by
  rw [filterMap_binding?_eq hs]
  refine (List.perm_ext_iff_of_nodup ?_ List.nodup_range).2 fun j => ?_
  · refine (List.nodup_finRange _).filterMap fun i i' j hj hj' => ?_
    obtain ⟨d, hd, hi⟩ := (findIdx?_position h.nodup).1 hj
    obtain ⟨d', hd', hi'⟩ := (findIdx?_position h.nodup).1 hj'
    cases hd.symm.trans hd'
    exact Fin.ext (hi.symm.trans hi')
  · rw [List.mem_filterMap, List.mem_range]
    constructor
    · rintro ⟨i, -, hj⟩
      obtain ⟨d, hd, -⟩ := (findIdx?_position h.nodup).1 hj
      exact (List.getElem?_eq_some_iff.1 hd).1
    · intro hj
      have hlt := position_lt_of_declared (h.declared ds[j] (List.getElem_mem hj))
      exact ⟨⟨_, hlt⟩, List.mem_finRange _,
        (findIdx?_position h.nodup).2 ⟨ds[j], List.getElem?_eq_getElem hj, rfl⟩⟩

theorem pairwise_of_inOrder (h : Descriptor.inOrder ds = true) : ds.Pairwise fun d e => d.position < e.position := by
  induction ds with
  | nil => exact .nil
  | cons d ds ih =>
    cases ds with
    | nil => exact List.pairwise_singleton ..
    | cons e ds =>
      simp only [Descriptor.inOrder, Bool.and_eq_true, decide_eq_true_eq] at h
      have ih := ih h.2
      refine .cons (fun f hf => ?_) ih
      rcases List.mem_cons.1 hf with rfl | hf
      · exact h.1
      · exact Nat.lt_trans h.1 (List.rel_of_pairwise_cons ih hf)

theorem Bound.bindings_eq_range (h : Bound s ds) (hs : s.slots? ds = some slots)
    (ho : Descriptor.inOrder ds = true) : slots.filterMap Slot.binding? = List.range ds.length := by
  have hsorted : (slots.filterMap Slot.binding?).Pairwise (· < ·) := by
    rw [filterMap_binding?_eq hs, List.pairwise_filterMap]
    refine (List.pairwise_lt_finRange _).imp fun {i i'} hlt j hj j' hj' => ?_
    obtain ⟨hjlt, hij, -⟩ := List.findIdx?_eq_some_iff_getElem.1 hj
    obtain ⟨hjlt', hij', -⟩ := List.findIdx?_eq_some_iff_getElem.1 hj'
    simp only [beq_iff_eq] at hij hij'
    -- positions increase along the bindings, so a smaller position is met earlier
    by_contra hle
    rcases Nat.lt_or_eq_of_le (Nat.le_of_not_lt hle) with hlt' | rfl
    · have := List.pairwise_iff_getElem.1 (pairwise_of_inOrder ho) j' j hjlt' hjlt hlt'
      omega
    · omega
  exact (h.perm hs).eq_of_pairwise (fun _ _ _ _ hab hba => absurd hab (Nat.lt_asymm hba)) hsorted
    List.pairwise_lt_range

theorem Bound.binding_lt (h : Bound s ds) (hs : s.slots? ds = some slots) :
    ∀ i ∈ slots.filterMap Slot.binding?, i < ds.length :=
  fun _ hi => List.mem_range.1 ((h.perm hs).mem_iff.1 hi)

theorem Bound.arrange (h : Bound s ds) (hs : s.slots? ds = some slots) {values : List Prim}
    (hv : values.length = ds.length) :
    Slot.arrange slots (values.map some) = some (slots.map (Slot.pick .const values)) := by
  refine Slot.arrange_eq ((h.perm hs).nodup_iff.2 List.nodup_range) fun i hi => ?_
  have hlt : i < values.length := hv ▸ h.binding_lt hs i hi
  simp [hlt]

end Signature
end ExprLowering
