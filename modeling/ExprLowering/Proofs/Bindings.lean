import Mathlib.Data.List.Induction
import ExprLowering.Proofs.WellMade

/-!
# The bindings that a call takes

A call takes a list of bindings if their descriptors are declared by the signature of the callee, stand for
different parameters and leave no parameter without a default unbound (`Signature.Takes`). Any other list is
refused for its first descriptor that is at fault, or else for the first parameter that lacks a value
(`Signature.Refuses`). `Signature.checkBound` decides between the two, and `Expr.mkInvoke_spec` says the same of
making a call. The slots of a call that is made are a matching of the parameters with the bindings and the
defaults (`Signature.Assigns`).
-/

namespace ExprLowering

namespace Signature

/-- The descriptor stands for the parameter at `i`: it is the one that the signature holds, or it has the same
fields. -/
inductive Declares (s : Signature) (i : Fin s.params.length) : Descriptor → Prop
  | own : Declares s i (.held s i)
  | equal {d : Descriptor} (heq : (s.param i == d.parameter) = true) : Declares s i d

/-- The descriptors stand for different parameters of the signature. -/
structure Fit (s : Signature) (ds : List Descriptor) : Prop where
  declared : ∀ d ∈ ds, ∃ i, s.Declares i d
  distinct : (ds.map (·.position)).Nodup

/-- The parameter at `i` is neither bound nor has a default. -/
def Lacks (s : Signature) (ds : List Descriptor) (i : Fin s.params.length) : Prop :=
  i.val ∉ ds.map (·.position) ∧ (s.params.get i).default = none

structure Takes (s : Signature) (ds : List Descriptor) : Prop where
  fit : s.Fit ds
  complete : ∀ i, ¬ s.Lacks ds i

/-- Why a list of descriptors is refused. -/
inductive Refuses (s : Signature) (ds : List Descriptor) : BuildError → Prop
  | notMember {before after : List Descriptor} {d : Descriptor} (hds : ds = before ++ d :: after)
      (hbefore : s.Fit before) (hd : ∀ i, ¬ s.Declares i d) : Refuses s ds (.notAMember d.name s.name)
  | repeated {before after : List Descriptor} {d : Descriptor} (hds : ds = before ++ d :: after)
      (hbefore : s.Fit before) (hd : ∃ i, s.Declares i d) (hpos : d.position ∈ before.map (·.position)) :
      Refuses s ds (.duplicateBinding d.name)
  | unbound (hds : s.Fit ds) {i : Fin s.params.length} (hi : s.Lacks ds i) (hfirst : ∀ j < i, ¬ s.Lacks ds j) :
      Refuses s ds (.unboundRequired (s.params.get i).name)

variable {s : Signature} {d : Descriptor} {ds before after : List Descriptor} {e : BuildError}

/-! ### The check -/

theorem Declares.position {i : Fin s.params.length} (h : s.Declares i d) : d.position = i := by
  cases h with
  | own => rfl
  | equal heq => exact (Parameter.eq_of_beq heq).2.1.symm

theorem declared?_isSome : (s.declared? d).isSome ↔ ∃ i, s.Declares i d := by
  rw [declared?, param?]
  by_cases hlt : d.position < s.params.length
  · rw [dif_pos hlt, Option.isSome_filter, Option.any_some, Bool.or_eq_true]
    constructor
    · rintro (hheld | heq)
      · obtain ⟨i, rfl⟩ := Descriptor.isHeldBy_iff.1 hheld
        exact ⟨i, .own⟩
      · exact ⟨_, .equal heq⟩
    · rintro ⟨i, h⟩
      have hi : (⟨d.position, hlt⟩ : Fin _) = i := Fin.ext h.position
      cases h with
      | own => exact .inl (Descriptor.isHeldBy_iff.2 ⟨i, rfl⟩)
      | equal heq => exact .inr (hi ▸ heq)
  · rw [dif_neg hlt]
    refine iff_of_false (by simp) ?_
    rintro ⟨i, h⟩
    exact hlt (h.position ▸ i.isLt)

theorem checkMembers_append {taken : List Nat} (hd : ∀ d ∈ ds, ∃ i, s.Declares i d)
    (hn : (ds.map (·.position)).Nodup) (ht : ∀ d ∈ ds, d.position ∉ taken) :
    s.checkMembers taken (ds ++ after) = s.checkMembers ((ds.map (·.position)).reverse ++ taken) after := by
  induction ds generalizing taken with
  | nil => rfl
  | cons d ds ih =>
    rw [List.forall_mem_cons] at hd ht
    rw [List.map_cons, List.nodup_cons] at hn
    have hsome : (s.declared? d).isNone = false := Option.isNone_eq_false_iff.2 (declared?_isSome.2 hd.1)
    have hfree : ¬ taken.contains d.position = true := by
      rw [List.contains_iff_mem]
      exact ht.1
    rw [List.cons_append, checkMembers, hsome, if_neg Bool.false_ne_true, if_neg hfree, ih hd.2 hn.2 fun e he => ?_,
      List.map_cons, List.reverse_cons, List.append_assoc, List.singleton_append]
    rw [List.mem_cons, not_or]
    exact ⟨fun h => hn.1 (h ▸ List.mem_map_of_mem he), ht.2 e he⟩

theorem Fit.checkMembers (h : s.Fit before) (after : List Descriptor) :
    s.checkMembers [] (before ++ after) = s.checkMembers (before.map (·.position)).reverse after := by
  rw [checkMembers_append h.declared h.distinct fun _ _ => List.not_mem_nil, List.append_nil]

theorem fit_or_first (s : Signature) (ds : List Descriptor) :
    s.Fit ds ∨ ∃ before d after, ds = before ++ d :: after ∧ s.Fit before ∧
      ((∀ i, ¬ s.Declares i d) ∨ (∃ i, s.Declares i d) ∧ d.position ∈ before.map (·.position)) := by
  induction ds using List.reverseRecOn with
  | nil => exact .inl ⟨by simp, by simp⟩
  | append_singleton ds d ih =>
    rcases ih with hfit | ⟨before, e, after, rfl, hbefore, he⟩
    · by_cases hd : ∃ i, s.Declares i d
      · by_cases hpos : d.position ∈ ds.map (·.position)
        · exact .inr ⟨ds, d, [], rfl, hfit, .inr ⟨hd, hpos⟩⟩
        · refine .inl ⟨?_, ?_⟩
          · rw [List.forall_mem_append, List.forall_mem_singleton]
            exact ⟨hfit.declared, hd⟩
          · rw [List.map_append, List.map_singleton]
            exact List.nodup_append_comm.1 (List.nodup_cons.2 ⟨hpos, hfit.distinct⟩)
      · exact .inr ⟨ds, d, [], rfl, hfit, .inl (not_exists.1 hd)⟩
    · exact .inr ⟨before, e, after ++ [d], by simp, hbefore, he⟩

theorem lacks_iff {i : Fin s.params.length} :
    (!(ds.map (·.position)).reverse.contains (s.param i).position && !(s.param i).isOptional) = true ↔
      s.Lacks ds i := by
  rw [Bool.and_eq_true, Bool.not_eq_true', Bool.not_eq_true', Parameter.isOptional, Option.isSome_eq_false_iff,
    Option.isNone_iff_eq_none, ← Bool.not_eq_true, List.contains_iff_mem, List.mem_reverse]
  rfl

theorem firstUnbound?_eq_none :
    s.firstUnbound? (ds.map (·.position)).reverse = none ↔ ∀ i, ¬ s.Lacks ds i := by
  rw [firstUnbound?, parameters, List.find?_eq_none, List.forall_mem_map]
  simp only [lacks_iff, List.mem_finRange, forall_const]

theorem firstUnbound?_eq_some {p : Parameter} :
    s.firstUnbound? (ds.map (·.position)).reverse = some p ↔
      ∃ i, s.param i = p ∧ s.Lacks ds i ∧ ∀ j < i, ¬ s.Lacks ds j := by
  rw [firstUnbound?, parameters, List.find?_map, Option.map_eq_some_iff]
  refine exists_congr fun i => and_comm.trans (and_congr_right fun _ => ?_)
  rw [List.find?_eq_some_iff_getElem, Function.comp_apply, lacks_iff]
  refine and_congr_right fun _ => ⟨?_, fun h => ⟨i, by simp, by simp, fun j hj => ?_⟩⟩
  · rintro ⟨k, hk, rfl, hbefore⟩ j hj
    have hj := hbefore j (by simpa [Fin.lt_def] using hj)
    rw [List.getElem_finRange, Function.comp_apply, Bool.not_eq_true', ← Bool.not_eq_true, lacks_iff] at hj
    exact hj
  · rw [List.getElem_finRange, Function.comp_apply, Bool.not_eq_true', ← Bool.not_eq_true, lacks_iff]
    exact h _ hj

theorem Takes.checkBound (h : s.Takes ds) : s.checkBound ds = .ok () := by
  have hmembers := h.fit.checkMembers []
  rw [List.append_nil] at hmembers
  rw [Signature.checkBound, hmembers]
  simp only [checkMembers, firstUnbound?_eq_none.2 h.complete]

theorem Refuses.checkBound (h : s.Refuses ds e) : s.checkBound ds = .error e := by
  unfold Signature.checkBound
  cases h with
  | notMember hds hbefore hd =>
    have hnone : (s.declared? _).isNone = true :=
      Option.isNone_iff_eq_none.2 (Option.not_isSome_iff_eq_none.1 fun h => not_exists.2 hd (declared?_isSome.1 h))
    rw [hds, hbefore.checkMembers]
    simp only [checkMembers, hnone, if_true]
  | repeated hds hbefore hd hpos =>
    have hsome : (s.declared? _).isNone = false :=
      Option.isNone_eq_false_iff.2 (declared?_isSome.2 hd)
    have htaken := List.contains_iff_mem.2 (List.mem_reverse.2 hpos)
    rw [hds, hbefore.checkMembers]
    simp only [checkMembers, hsome, htaken, Bool.false_eq_true, if_false, if_true]
  | unbound hds hi hfirst =>
    have hmembers := hds.checkMembers []
    rw [List.append_nil] at hmembers
    rw [hmembers]
    simp only [checkMembers, firstUnbound?_eq_some.2 ⟨_, rfl, hi, hfirst⟩]
    rfl

theorem takes_or_refuses (s : Signature) (ds : List Descriptor) : s.Takes ds ∨ ∃ e, s.Refuses ds e := by
  rcases fit_or_first s ds with hfit | ⟨before, d, after, hds, hbefore, hd | ⟨hd, hpos⟩⟩
  · cases hfirst : s.firstUnbound? (ds.map (·.position)).reverse with
    | none => exact .inl ⟨hfit, firstUnbound?_eq_none.1 hfirst⟩
    | some p =>
      obtain ⟨i, -, hi, hbefore⟩ := firstUnbound?_eq_some.1 hfirst
      exact .inr ⟨_, .unbound hfit hi hbefore⟩
  · exact .inr ⟨_, .notMember hds hbefore hd⟩
  · exact .inr ⟨_, .repeated hds hbefore hd hpos⟩

theorem checkBound_ok_iff : s.checkBound ds = .ok () ↔ s.Takes ds := by
  refine ⟨fun h => ?_, Takes.checkBound⟩
  rcases takes_or_refuses s ds with htakes | ⟨e, hrefuses⟩
  · exact htakes
  · cases h.symm.trans hrefuses.checkBound

theorem checkBound_error_iff : s.checkBound ds = .error e ↔ s.Refuses ds e := by
  refine ⟨fun h => ?_, Refuses.checkBound⟩
  rcases takes_or_refuses s ds with htakes | ⟨e', hrefuses⟩
  · cases h.symm.trans htakes.checkBound
  · cases h.symm.trans hrefuses.checkBound
    exact hrefuses

theorem Takes.bound (h : s.Takes ds) : s.Bound ds :=
  checkBound_eq_ok h.checkBound

theorem Takes.perm {ds' : List Descriptor} (h : s.Takes ds) (hp : ds.Perm ds') : s.Takes ds' where
  fit := ⟨fun d hd => h.fit.declared d (hp.mem_iff.2 hd), (hp.map _).nodup_iff.1 h.fit.distinct⟩
  complete i hi := h.complete i ⟨fun hm => hi.1 ((hp.map _).mem_iff.1 hm), hi.2⟩

/-! ### The slots -/

/-- The slots match each parameter with the binding at its position or else with its default, and each binding
with one parameter. -/
structure Assigns (s : Signature) (ds : List Descriptor) (slots : List Slot) : Prop where
  length : slots.length = s.params.length
  bound : ∀ i j : Nat, slots[i]? = some (.bound j) ↔ ∃ d, ds[j]? = some d ∧ d.position = i
  default : ∀ (i : Nat) (c : Constant), slots[i]? = some (.default c) ↔
    i ∉ ds.map (·.position) ∧ ∃ f, s.params[i]? = some f ∧ f.default = some c
  once : ∀ j < ds.length, ∃! i : Nat, slots[i]? = some (.bound j)

variable {slots : List Slot}

theorem getElem?_slots (h : s.slots? ds = some slots) (i : Nat) : slots[i]? = (s.param? i).bind (slot? ds) := by
  rw [slots?, parameters, mapM_eq_some_iff, List.forall₂_map_left_iff] at h
  have hlen : s.params.length = slots.length := by simpa using h.length_eq
  rw [param?]
  by_cases hi : i < s.params.length
  · have hslot := h.get (by simpa using hi) (hlen ▸ hi)
    rw [dif_pos hi, Option.bind_some, List.getElem?_eq_getElem (hlen ▸ hi)]
    simpa using hslot.symm
  · rw [dif_neg hi, List.getElem?_eq_none (by omega)]
    rfl

theorem slot?_eq_bound (h : (ds.map (·.position)).Nodup) {p : Parameter} {j : Nat} :
    slot? ds p = some (.bound j) ↔ ∃ d, ds[j]? = some d ∧ d.position = p.position := by
  rw [← findIdx?_position h, slot?]
  cases ds.findIdx? (·.position == p.position) with
  | some k => simp
  | none => simp

theorem slot?_eq_default {p : Parameter} {c : Constant} :
    slot? ds p = some (.default c) ↔ p.position ∉ ds.map (·.position) ∧ p.default = some c := by
  have hnone : ds.findIdx? (·.position == p.position) = none ↔ p.position ∉ ds.map (·.position) := by
    simp [List.findIdx?_eq_none_iff]
  rw [← hnone, slot?]
  cases ds.findIdx? (·.position == p.position) with
  | some k => simp
  | none => simp

theorem Takes.assigns (h : s.Takes ds) (hs : s.slots? ds = some slots) : s.Assigns ds slots := by
  have hbound (i j : Nat) : slots[i]? = some (.bound j) ↔ ∃ d, ds[j]? = some d ∧ d.position = i := by
    rw [getElem?_slots hs, Option.bind_eq_some_iff]
    constructor
    · rintro ⟨p, hp, hj⟩
      rw [param?, Option.dite_none_right_eq_some] at hp
      obtain ⟨hi, hp⟩ := hp
      cases hp
      exact (slot?_eq_bound h.fit.distinct).1 hj
    · rintro ⟨d, hd, rfl⟩
      obtain ⟨i, hi⟩ := h.fit.declared d (List.mem_of_getElem? hd)
      refine ⟨s.param i, ?_, (slot?_eq_bound h.fit.distinct).2 ⟨d, hd, hi.position⟩⟩
      rw [hi.position, param?, dif_pos i.isLt]
  refine ⟨?_, hbound, fun i c => ?_, fun j hj => ⟨ds[j].position, ?_, fun i hi => ?_⟩⟩
  · rw [slots?, parameters, mapM_eq_some_iff, List.forall₂_map_left_iff] at hs
    simpa using hs.length_eq.symm
  · rw [getElem?_slots hs, param?]
    by_cases hi : i < s.params.length
    · rw [dif_pos hi, Option.bind_some, slot?_eq_default, List.getElem?_eq_getElem hi]
      simp [param]
    · rw [dif_neg hi, List.getElem?_eq_none (by omega)]
      simp
  · exact (hbound _ j).2 ⟨_, List.getElem?_eq_getElem hj, rfl⟩
  · obtain ⟨d, hd, rfl⟩ := (hbound i j).1 hi
    cases (List.getElem?_eq_getElem hj).symm.trans hd
    rfl

theorem inOrder_of_pairwise (h : ds.Pairwise fun d e => d.position < e.position) : Descriptor.inOrder ds = true := by
  induction ds with
  | nil => rfl
  | cons d ds ih =>
    cases ds with
    | nil => rfl
    | cons e ds =>
      rw [List.pairwise_cons] at h
      rw [Descriptor.inOrder, ih h.2, decide_eq_true (h.1 e List.mem_cons_self)]
      rfl

/-- Bindings are in declaration order exactly if the slots use them one after the other. -/
theorem Takes.inOrder_iff (h : s.Takes ds) (hs : s.slots? ds = some slots) :
    Descriptor.inOrder ds = true ↔ slots.filterMap Slot.binding? = List.range ds.length := by
  refine ⟨h.bound.bindings_eq_range hs, fun hrange => inOrder_of_pairwise ?_⟩
  -- along the slots positions increase, so they do along the bindings that the slots name
  have hsorted : (slots.filterMap Slot.binding?).Pairwise fun j j' =>
      ∀ d d', ds[j]? = some d → ds[j']? = some d' → d.position < d'.position := by
    rw [filterMap_binding?_eq hs, List.pairwise_filterMap]
    refine (List.pairwise_lt_finRange _).imp fun {i i'} hlt j hj j' hj' d d' hd hd' => ?_
    obtain ⟨_, he, hi⟩ := (findIdx?_position h.fit.distinct).1 hj
    obtain ⟨_, he', hi'⟩ := (findIdx?_position h.fit.distinct).1 hj'
    cases hd.symm.trans he
    cases hd'.symm.trans he'
    rw [hi, hi']
    exact hlt
  rw [hrange, List.pairwise_iff_getElem] at hsorted
  refine List.pairwise_iff_getElem.2 fun j j' hj hj' hlt => ?_
  have hpos := hsorted j j' (by simpa using hj) (by simpa using hj') hlt
  rw [List.getElem_range, List.getElem_range] at hpos
  exact hpos _ _ (List.getElem?_eq_getElem hj) (List.getElem?_eq_getElem hj')

end Signature

/-! ### Making a call -/

namespace Expr
variable (callee : Expr) (bindings : List Binding)

theorem checkAll_bindings :
    checkAll ((bindings.map (·.param)).map (·.ty)) (bindings.map (·.value)) = .ok () := by
  induction bindings with
  | nil => rfl
  | cons b bs ih => exact except_bind_eq_ok.2 ⟨(), checkAssignable_eq_ok.2 b.accepts, ih⟩

/-- The value of a binding has been checked with it, so a call is only checked against the signature. -/
theorem mkInvoke_eq (stamp : Stamp) :
    mkInvoke callee bindings stamp =
      match callee.ty.signature? with
      | none => .error (.notCallable callee.ty)
      | some s => (s.checkBound (bindings.map (·.param))).map fun _ =>
          (node stamp (.invoke (bindings.map (·.param))) (callee :: bindings.map (·.value)), stamp + 1) := by
  have hcheck : Head.check (.invoke (bindings.map (·.param))) (callee :: bindings.map (·.value)) =
      match callee.ty.signature? with
      | none => .error (.notCallable callee.ty)
      | some s => s.checkBound (bindings.map (·.param)) := by
    rw [Head.check, if_pos (by simp), checkAll_bindings]
    rfl
  have hmake : mkInvoke callee bindings stamp =
      (Head.check (.invoke (bindings.map (·.param))) (callee :: bindings.map (·.value))).map fun _ =>
        (node stamp (.invoke (bindings.map (·.param))) (callee :: bindings.map (·.value)), stamp + 1) := by
    unfold mkInvoke make
    cases Head.check (.invoke (bindings.map (·.param))) (callee :: bindings.map (·.value)) with
    | error => rfl
    | ok => rfl
  rw [hmake, hcheck]
  cases callee.ty.signature? with
  | none => rfl
  | some s => rfl

theorem mkInvoke_eq_ok {stamp : Stamp} {r : Expr × Stamp} :
    mkInvoke callee bindings stamp = .ok r ↔
      (∃ s, callee.ty = .fn s ∧ s.Takes (bindings.map (·.param))) ∧
        r = (node stamp (.invoke (bindings.map (·.param))) (callee :: bindings.map (·.value)), stamp + 1) := by
  simp only [mkInvoke_eq, ← Signature.checkBound_ok_iff]
  cases callee.ty with
  | fn s =>
    cases hcheck : s.checkBound (bindings.map (·.param)) with
    | error => simp [Ty.signature?, Except.map, hcheck]
    | ok => simp [Ty.signature?, Except.map, hcheck, eq_comm]
  | _ => simp [Ty.signature?]

theorem mkInvoke_eq_error {stamp : Stamp} {e : BuildError} :
    mkInvoke callee bindings stamp = .error e ↔
      (∀ s, callee.ty ≠ .fn s) ∧ e = .notCallable callee.ty ∨
        ∃ s, callee.ty = .fn s ∧ s.Refuses (bindings.map (·.param)) e := by
  simp only [mkInvoke_eq, ← Signature.checkBound_error_iff]
  cases callee.ty with
  | fn s =>
    cases hcheck : s.checkBound (bindings.map (·.param)) with
    | error => simp [Ty.signature?, Except.map, hcheck]
    | ok => simp [Ty.signature?, Except.map, hcheck]
  | _ => simp [Ty.signature?, eq_comm]

/-- A call is made exactly if the callee is a function whose signature takes the bindings, and is refused with
the first fault otherwise. The slots of a call that is made match parameters and bindings, and laying values out
by them puts each value in its place. -/
theorem mkInvoke_spec (stamp : Stamp) :
    (∀ r, mkInvoke callee bindings stamp = .ok r ↔
      (∃ s, callee.ty = .fn s ∧ s.Takes (bindings.map (·.param))) ∧
        r = (node stamp (.invoke (bindings.map (·.param))) (callee :: bindings.map (·.value)), stamp + 1)) ∧
    (∀ e, mkInvoke callee bindings stamp = .error e ↔
      (∀ s, callee.ty ≠ .fn s) ∧ e = .notCallable callee.ty ∨
        ∃ s, callee.ty = .fn s ∧ s.Refuses (bindings.map (·.param)) e) ∧
    ∀ s, callee.ty = .fn s → s.Takes (bindings.map (·.param)) →
      ∃ slots, s.slots? (bindings.map (·.param)) = some slots ∧ s.Assigns (bindings.map (·.param)) slots ∧
        (Descriptor.inOrder (bindings.map (·.param)) = true ↔
          slots.filterMap Slot.binding? = List.range bindings.length) ∧
        ∀ values : List Prim, values.length = bindings.length →
          Slot.arrange slots (values.map some) = some (slots.map (Slot.pick .const values)) := by
  refine ⟨fun _ => mkInvoke_eq_ok .., fun _ => mkInvoke_eq_error .., fun s _ htakes => ?_⟩
  obtain ⟨slots, hslots⟩ := htakes.bound.exists_slots
  refine ⟨slots, hslots, htakes.assigns hslots, ?_, fun values hlength => ?_⟩
  · simpa using htakes.inOrder_iff hslots
  · exact htakes.bound.arrange hslots (by simpa using hlength)

end Expr

/-! ### A call in another order

The parameter `y` of the function `f(x, y = 1, z)` is left to its default, and `z` is bound before `x`. -/

namespace SwappedCall

def signature : Signature :=
  ⟨⟨"f"⟩, "f", [⟨"x", .int .i32, none⟩, ⟨"y", .int .i32, some (.lit (.int (.one .i32)))⟩, ⟨"z", .int .i32, none⟩],
    .int .i32⟩

def f : Var := ⟨⟨0⟩, "f", .fn signature⟩
def j : Var := ⟨⟨1⟩, "j", .int .i32⟩

/-- `j + j`, checked -/
def sum : Expr := .node 0 (.binary .add true) [.var j, .var j]

/-- `x: j` -/
def first : Binding := ⟨.held signature ⟨0, by decide⟩, .var j, rfl⟩

/-- `z: j + j` -/
def last : Binding := ⟨.held signature ⟨2, by decide⟩, sum, rfl⟩

end SwappedCall

open SwappedCall in
/-- The slots of `f(z: j + j, x: j)` are the second binding, the default and the first binding. -/
theorem Expr.mkInvoke_spec_swapped :
    ∃ e slots, mkInvoke (.var f) [last, first] 1 = .ok (e, 2) ∧
      signature.slots? [last.param, first.param] = some slots ∧
      signature.Assigns [last.param, first.param] slots ∧ slots.filterMap Slot.binding? = [1, 0] := by
  obtain ⟨hok, -, hmatch⟩ := mkInvoke_spec (.var f) [last, first] 1
  obtain ⟨e, hmake⟩ : ∃ e, mkInvoke (.var f) [last, first] 1 = .ok (e, 2) := ⟨_, rfl⟩
  obtain ⟨⟨s, hs, htakes⟩, -⟩ := (hok _).1 hmake
  cases hs
  obtain ⟨slots, hslots, hassigns, -, -⟩ := hmatch signature rfl htakes
  refine ⟨e, slots, hmake, hslots, hassigns, ?_⟩
  cases hslots
  rfl

/-! ### Types of arguments -/

theorem Ty.accepts_congr {t u : Ty} (h : t.nominal = u.nominal) (source : Ty) :
    t.accepts source = u.accepts source := by
  show (t.nominal == source.nominal || (t.nominal == Ty.object.nominal && source.isReference)) = _
  rw [h]
  rfl

/-- The parameter accepts the argument that the slot takes. -/
def Slot.Suits (bindings : List Binding) (f : Formal) : Slot → Prop
  | bound j => ∃ b, bindings[j]? = some b ∧ f.ty.accepts b.value.ty = true
  | default c => f.ty.accepts c.ty = true

/-- What is bound to a parameter suits it, whether the descriptor is the parameter's own or a copy. -/
theorem Signature.Takes.accepts {s : Signature} {bindings : List Binding} (h : s.Takes (bindings.map (·.param)))
    {b : Binding} (hb : b ∈ bindings) :
    ∃ f, s.params[b.param.position]? = some f ∧ f.ty.accepts b.value.ty = true := by
  have hdeclared := h.bound.declared b.param (List.mem_map_of_mem hb)
  obtain ⟨f, hf, hty⟩ := ty_of_declared hdeclared
  exact ⟨f, hf, Ty.accepts_congr hty _ ▸ b.accepts⟩

theorem Signature.Takes.suits_bound {s : Signature} {bindings : List Binding} {slots : List Slot}
    (h : s.Takes (bindings.map (·.param))) (hslots : s.slots? (bindings.map (·.param)) = some slots)
    {i j : Nat} {f : Formal} (hf : s.params[i]? = some f) (hj : slots[i]? = some (.bound j)) :
    Slot.Suits bindings f (.bound j) := by
  obtain ⟨d, hd, hi⟩ := ((h.assigns hslots).bound i j).1 hj
  rw [List.getElem?_map, Option.map_eq_some_iff] at hd
  obtain ⟨b, hb, rfl⟩ := hd
  have hmem := List.mem_of_getElem? hb
  obtain ⟨f', hf', haccepts⟩ := h.accepts hmem
  rw [hi, hf] at hf'
  cases hf'
  exact ⟨b, hb, haccepts⟩

/-- The arguments of a call that is made suit their parameters exactly if the defaults do that are used: a value
is checked when it is bound, a default is not. -/
theorem Expr.mkInvoke_argument_types {callee : Expr} {bindings : List Binding} {stamp : Stamp} {r : Expr × Stamp}
    {s : Signature} (hmake : mkInvoke callee bindings stamp = .ok r) (hs : callee.ty = .fn s) :
    ∃ slots, s.slots? (bindings.map (·.param)) = some slots ∧
      (∀ (i j : Nat) f, s.params[i]? = some f → slots[i]? = some (.bound j) → Slot.Suits bindings f (.bound j)) ∧
      (List.Forall₂ (Slot.Suits bindings) s.params slots ↔
        ∀ (i : Nat) f c, s.params[i]? = some f → i ∉ bindings.map (·.param.position) → f.default = some c →
          f.ty.accepts c.ty = true) := by
  obtain ⟨⟨s', hs', htakes⟩, -⟩ := (mkInvoke_eq_ok ..).1 hmake
  cases hs.symm.trans hs'
  obtain ⟨slots, hslots⟩ := htakes.bound.exists_slots
  have hassigns := htakes.assigns hslots
  have hdefault (i : Nat) (c : Constant) : slots[i]? = some (.default c) ↔
      i ∉ bindings.map (·.param.position) ∧ ∃ f, s.params[i]? = some f ∧ f.default = some c := by
    simpa using hassigns.default i c
  refine ⟨slots, hslots, fun i j f => htakes.suits_bound hslots, fun h i f c hf hi hc => ?_, fun h => ?_⟩
  · obtain ⟨hlt, hslot⟩ := List.getElem?_eq_some_iff.1 ((hdefault i c).2 ⟨hi, f, hf, hc⟩)
    obtain ⟨hlt', rfl⟩ := List.getElem?_eq_some_iff.1 hf
    have hsuits := h.get hlt' hlt
    rw [List.get_eq_getElem, List.get_eq_getElem, hslot] at hsuits
    exact hsuits
  · refine List.forall₂_iff_get.2 ⟨hassigns.length.symm, fun i hi hi' => ?_⟩
    have hf := List.getElem?_eq_getElem hi
    have hslot := List.getElem?_eq_getElem hi'
    rw [List.get_eq_getElem, List.get_eq_getElem]
    cases hcase : slots[i] with
    | bound j =>
      rw [hcase] at hslot
      exact htakes.suits_bound hslots hf hslot
    | default c =>
      rw [hcase] at hslot
      obtain ⟨hfree, f, hf', hc⟩ := (hdefault i c).1 hslot
      cases hf.symm.trans hf'
      exact h i _ c hf hfree hc

open SwappedCall in
/-- In `f(z: j + j, x: j)` both the values and the default suit. -/
theorem Expr.mkInvoke_argument_types_swapped :
    ∃ e slots, mkInvoke (.var f) [last, first] 1 = .ok (e, 2) ∧
      signature.slots? [last.param, first.param] = some slots ∧
      List.Forall₂ (Slot.Suits [last, first]) signature.params slots := by
  obtain ⟨e, hmake⟩ : ∃ e, mkInvoke (.var f) [last, first] 1 = .ok (e, 2) := ⟨_, rfl⟩
  obtain ⟨slots, hslots, -, hiff⟩ := mkInvoke_argument_types hmake rfl
  refine ⟨e, slots, hmake, hslots, hiff.2 fun i f c hf hi hc => ?_⟩
  match i with
  | 0 | 2 => cases hf; cases hc
  | 1 =>
    cases hf
    cases hc
    rfl
  | i + 3 => cases hf

namespace MistypedDefault

def signature : Signature := ⟨⟨"f"⟩, "f", [⟨"x", .int .i32, some (.lit (.str "a"))⟩], .int .i32⟩

def f : Var := ⟨⟨0⟩, "f", .fn signature⟩

end MistypedDefault

open MistypedDefault in
/-- The call `f()` of a function with a text for the default of an integer is made. -/
theorem Expr.mkInvoke_mistypedDefault :
    ∃ e slots, mkInvoke (.var f) [] 0 = .ok (e, 1) ∧ signature.slots? [] = some slots ∧
      ¬ List.Forall₂ (Slot.Suits []) signature.params slots := by
  refine ⟨_, _, rfl, rfl, fun h => ?_⟩
  cases h with
  | cons hsuits _ => cases hsuits

end ExprLowering
