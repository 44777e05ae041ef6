import ExprLowering.Proofs.TempBlocks

/-!
# Temporaries are hygienic

Lowering takes the variables of its temporaries from the supply. When all variables of the expression
come before the supply, the lowered tree has the free variables of the expression, and every variable
that was taken is used as a temporary.
-/

namespace ExprLowering

open Prim
open Temp (ids inits)

variable {n : Nat} {u u₁ u₂ u₃ u' : Supply}

/-! ### Steps -/

namespace Prepared
variable {values ps : List Prim} {temps : List Temp} {frees frees' : List VarId}

theorem clean_init (h : Prepared n u₁ u₂ values ps temps) (hV : Fresh n u u₁ (listPreorder values)) {t : Temp}
    (ht : t ∈ temps) {x : Nat} (hx : u₁.var ≤ x) : Clean ⟨x⟩ t.init.preorder := by
  obtain ⟨before, after, hsplit⟩ := List.append_of_mem (h.init_mem t ht)
  have hbase := hV.base
  have hle := hV.le
  have hc := hV.clean x (by omega) (.inr hx)
  rw [hsplit, listPreorder_append, listPreorder] at hc
  exact hc.of_append.2.of_append.1

theorem id_taken (h : Prepared n u₁ u₂ values ps temps) {t : Temp} (ht : t ∈ temps) :
    u₁.var ≤ t.var.id.val ∧ t.var.id.val < u₂.var :=
  (Supply.mem_taken (x := t.var.id.val)).1 (h.ids_eq ▸ List.mem_map_of_mem ht)

theorem scope (h : Prepared n u₁ u₂ values ps temps) (hV : Neat n u u₁ frees values) {q : Prim}
    (ho : ∀ x ∈ q.own, x.val < n) (hb : q.binders = []) (hc : ∀ x, Covers x (listPreorder ps) (listPreorder q.parts))
    (hf : ∀ x, x ∈ freeAll q.parts ↔ x ∈ freeAll ps) (hlt : ∀ x ∈ frees, x.val < n)
    (hf' : ∀ x, x ∈ frees' ↔ x ∈ q.own ∨ x ∈ frees) : Neat n u u₂ frees' [Temp.scope temps [] q] := by
  have hbase := hV.fresh.base
  have hle := hV.fresh.le
  have hle' := h.le
  have hq : listPreorder [q] = q :: listPreorder q.parts := by simp [listPreorder, preorder_eq q]
  have hown {x : Nat} (hx : n ≤ x) (k : Mention) : mentions ⟨x⟩ k q = 0 :=
    mentions_eq_zero (fun hm => absurd (ho _ hm) (Nat.not_lt.2 hx)) (by simp [hb])
  refine Neat.scope hV.fresh h.ids_eq hbase (by omega) (fun x => by omega) (fun x => by omega) (fun _ => rfl)
    ?_ ?_ ?_ ?_ ?_
  · intro x hx hx'
    refine (h.covers x hx (by omega)).trans ⟨fun k => ?_, fun hm => ?_⟩
    · rw [List.nil_append, listPreorder_append, listPreorder_append, hq, tally_append, tally_append, tally_cons,
        hown hx, (hc _).tally, Nat.zero_add]
    · rw [List.nil_append, listPreorder_append, hq, List.mem_append, List.mem_cons]
      rw [listPreorder_append, List.mem_append] at hm
      exact hm.imp_right fun hm => .inr ((hc ⟨x⟩).block hm)
  · intro x hx k hk
    have hinit : tally ⟨x⟩ k (listPreorder (inits temps)) = 0 :=
      Clean.list (List.forall_mem_map.2 fun t ht => h.clean_init hV.fresh ht hx.1) k
    rw [List.nil_append, listPreorder_append, hq, tally_append, tally_cons, hinit, hown (by omega), (hc _).tally,
      h.reads x k hk hx.1]
  · exact fun t ht x hx _ => h.clean_init hV.fresh ht (Nat.le_trans (h.id_taken ht).1 hx)
  · intro x hx
    have hfree := h.free x hx
    rw [freeAll_append, List.mem_append] at hfree
    rw [List.nil_append, freeAll_append, List.mem_append, hf', ← hV.free, ← hfree]
    simp only [freeAll, List.append_nil, mem_free, hb, List.not_mem_nil, not_false_iff, and_true, hf]
    tauto
  · intro x hx
    exact ((hf' x).1 hx).elim (ho x) (hlt x)

end Prepared

/-- The trees that a step by reading and writing back evaluates after those that are kept. -/
def stepTrees (place : Place Prim) (next : Prim → Prim) (old new : Var) (result : Prim) : List Prim :=
  [place.read, next (.read old), .assign place (.read new), result]

section
variable {place : Place Prim} {next : Prim → Prim} {old new : Var} {result : Prim} {x : VarId}

theorem mentions_read {v : Var} {k : Mention} (h : k ≠ .read ∨ x ≠ v.id) : mentions x k (.read v) = 0 := by
  rcases h with h | h
  · cases k <;> simp_all [mentions]
  · exact mentions_eq_zero (by simpa [own] using h) (by simp [binders])

theorem tally_reads_eq_zero (hr : result = .read new ∨ result = .read old) {k : Mention}
    (h : k ≠ .read ∨ x ≠ old.id ∧ x ≠ new.id) : tally x k [.read old, .read new, result] = 0 := by
  have hold := mentions_read (v := old) (h.imp_right And.left)
  have hnew := mentions_read (v := new) (h.imp_right And.right)
  rcases hr with rfl | rfl <;> simp [hold, hnew]

/-- The trees of a step mention the location twice, and the two temporaries by reading them. -/
theorem tally_stepTrees (ho : x ∉ place.own)
    (hnext : ∀ k, tally x k (next (.read old)).preorder = tally x k [.read old])
    (hr : result = .read new ∨ result = .read old) (k : Mention) :
    tally x k (listPreorder (stepTrees place next old new result)) =
      tally x k (listPreorder place.parts) + tally x k (listPreorder place.parts) +
        tally x k [.read old, .read new, result] := by
  have hresult : result.preorder = [result] := by rcases hr with rfl | rfl <;> rfl
  have hread : mentions x k place.read = 0 :=
    mentions_eq_zero (own_read place ▸ ho) (by simp [binders_read])
  have hassign : mentions x k (.assign place (.read new)) = 0 :=
    mentions_eq_zero ho (by simp [binders])
  have hassignPre : (Prim.assign place (.read new)).preorder =
      .assign place (.read new) :: (listPreorder place.parts ++ [.read new]) := by
    rw [preorder_eq]
    exact congrArg _ (listPreorder_append place.parts [.read new])
  simp only [stepTrees, listPreorder, preorder_read, hassignPre, hresult, tally_append, tally_cons, tally_nil, hnext,
    hread, hassign]
  omega

theorem mem_freeAll_stepTrees (hnext : x ∈ (next (.read old)).free ↔ x = old.id)
    (hr : result = .read new ∨ result = .read old) (hold : x ≠ old.id) (hnew : x ≠ new.id) :
    x ∈ freeAll (stepTrees place next old new result) ↔ x ∈ place.own ∨ x ∈ freeAll place.parts := by
  have hresult : x ∉ result.free := by rcases hr with rfl | rfl <;> simpa [free]
  have hread : x ∈ place.read.free ↔ x ∈ place.own ∨ x ∈ freeAll place.parts := by
    rw [mem_free, own_read, parts_read, binders_read]
    simp
  have hassign : x ∈ (Prim.assign place (.read new)).free ↔ x ∈ place.own ∨ x ∈ freeAll place.parts := by
    cases place <;> simp [free, placeFree, Place.own, Place.parts, freeAll, hnew]
  simp only [stepTrees, freeAll, List.mem_append, hread, hassign, hnext, hold, hresult]
  simp

end

/-- The kept values are used to read a location, to compute its new value and to store it. -/
theorem Prepared.functional {values : List Prim} {temps : List Temp} {frees frees' : List VarId}
    {place : Place Prim} {next : Prim → Prim} {old new : Var} {ty : Ty} {result : Prim}
    (h : Prepared n u₁ u₂ values place.parts temps) (hV : Neat n u u₁ frees values)
    (ho : ∀ x ∈ place.own, x.val < n) (hold : u₂.fresh "__old" ty = (old, u₃))
    (hnew : u₃.fresh "__new" ty = (new, u'))
    (hnext : ∀ x k, tally x k (next (.read old)).preorder = tally x k [.read old])
    (hnextFree : ∀ x, x ∈ (next (.read old)).free ↔ x = old.id) (hr : result = .read new ∨ result = .read old)
    (hlt : ∀ x ∈ frees, x.val < n) (hf' : ∀ x, x ∈ frees' ↔ x ∈ place.own ∨ x ∈ frees) :
    Neat n u u' frees' [Temp.scope (temps ++ [⟨old, place.read⟩] ++ [⟨new, next (.read old)⟩])
      [.assign place (.read new)] result] := by
  obtain ⟨rfl, rfl⟩ : old = ⟨⟨u₂.var⟩, "__old", ty⟩ ∧ u₃ = { u₂ with var := u₂.var + 1 } := by
    cases hold; exact ⟨rfl, rfl⟩
  obtain ⟨rfl, rfl⟩ : new = ⟨⟨u₂.var + 1⟩, "__new", ty⟩ ∧ u' = { u₂ with var := u₂.var + 1 + 1 } := by
    cases hnew; exact ⟨rfl, rfl⟩
  have hbase := hV.fresh.base
  have hle := hV.fresh.le
  have hle' := h.le
  set old : Var := ⟨⟨u₂.var⟩, "__old", ty⟩
  set new : Var := ⟨⟨u₂.var + 1⟩, "__new", ty⟩
  set all := temps ++ [⟨old, place.read⟩] ++ [⟨new, next (.read old)⟩] with hall
  have hids : ids all = u₁.taken { u₂ with var := u₂.var + 1 + 1 } :=
    Temp.ids_append_old_new h.ids_eq hle' hold hnew _ _
  have htrees : inits all ++ ([.assign place (.read new)] ++ [result]) =
      inits temps ++ stepTrees place next old new result := by simp [inits, all, stepTrees]
  have hown {x : Nat} (hx : n ≤ x) : ⟨x⟩ ∉ place.own := fun hm => absurd (ho _ hm) (Nat.not_lt.2 hx)
  have htally {x : Nat} (hx : n ≤ x) (k : Mention) :
      tally ⟨x⟩ k (listPreorder (inits temps ++ stepTrees place next old new result)) =
        tally ⟨x⟩ k (listPreorder (inits temps)) + (tally ⟨x⟩ k (listPreorder place.parts) +
          tally ⟨x⟩ k (listPreorder place.parts) + tally ⟨x⟩ k [.read old, .read new, result]) := by
    rw [listPreorder_append, tally_append, tally_stepTrees (hown hx) (hnext ⟨x⟩) hr]
  refine Neat.scope hV.fresh hids hbase (by simp only; omega) (fun x => by simp only; omega)
    (fun x => by simp only; omega) (fun hn => by simp [all] at hn) ?_ ?_ ?_ ?_ ?_
  · intro x hx hx'
    simp only at hx'
    have hP := h.clean x hx (by omega)
    rw [htrees]
    refine (h.covers x hx (by omega)).trans ⟨fun k => ?_, fun hm => ?_⟩
    · have hreads : tally ⟨x⟩ k [.read old, .read new, result] = 0 :=
        tally_reads_eq_zero hr (.inr ⟨by simp [old]; omega, by simp [new]; omega⟩)
      rw [htally hx, listPreorder_append, tally_append, hP k, hreads]
    · rw [listPreorder_append, List.mem_append] at hm ⊢
      refine hm.imp_right fun hm => ?_
      rw [stepTrees, listPreorder, preorder_read]
      exact List.mem_append_left _ (List.mem_cons_of_mem _ hm)
  · intro x hx k hk
    have hinit : tally ⟨x⟩ k (listPreorder (inits temps)) = 0 :=
      Clean.list (List.forall_mem_map.2 fun t ht => h.clean_init hV.fresh ht hx.1) k
    rw [htrees, htally (by omega), hinit, h.reads x k hk hx.1, tally_reads_eq_zero hr (.inl hk)]
  · intro p hp x hx hx'
    rw [hall, List.append_assoc, List.mem_append] at hp
    rcases hp with hp | hp
    · exact h.clean_init hV.fresh hp (Nat.le_trans (h.id_taken hp).1 hx)
    · rcases List.mem_cons.1 hp with rfl | hp
      · have hx : u₂.var ≤ x := hx
        intro k
        rw [preorder_read, tally_cons, h.clean x (by omega) (.inr hx) k, mentions_eq_zero _ (by simp [binders_read])]
        rw [own_read]
        exact hown (by omega)
      · rw [List.mem_singleton.1 hp] at hx ⊢
        have hx : u₂.var + 1 ≤ x := hx
        intro k
        rw [hnext, tally_cons, tally_nil, mentions_read (.inr (by simp [old]; omega))]
  · intro x hx
    have hx' : x ∉ ids temps ∧ x ≠ old.id ∧ x ≠ new.id := by
      simpa [ids, all, not_or, and_assoc, eq_comm] using hx
    have hvalues := h.free x hx'.1
    rw [freeAll_append, List.mem_append] at hvalues
    rw [htrees, freeAll_append, List.mem_append, mem_freeAll_stepTrees (hnextFree x) hr hx'.2.1 hx'.2.2, hf',
      ← hV.free, ← hvalues]
    tauto
  · intro x hx
    exact ((hf' x).1 hx).elim (ho x) (hlt x)

/-! ### Arrays -/

theorem clean_of_const {ps : List Prim} (h : ∀ p ∈ ps, ∃ c, p = .const c) (x : VarId) :
    Clean x (listPreorder ps) := by
  refine .list fun p hp k => ?_
  obtain ⟨c, rfl⟩ := h p hp
  cases k <;> rfl

theorem not_mem_freeAll_of_const {ps : List Prim} (h : ∀ p ∈ ps, ∃ c, p = .const c) (x : VarId) :
    x ∉ freeAll ps := by
  intro hx
  obtain ⟨p, hp, hx⟩ := mem_freeAll.1 hx
  obtain ⟨c, rfl⟩ := h p hp
  cases hx

section
variable {array : Var} {bounds : List Nat} {linear : Nat} {ps stores : List Prim} {x : VarId} {k : Mention}

theorem tally_storeElements (h : storeElements? array bounds linear ps = some stores)
    (hx : k ≠ .read ∨ x ≠ array.id) : tally x k (listPreorder stores) = tally x k (listPreorder ps) := by
  induction ps generalizing linear stores with
  | nil => cases h; rfl
  | cons p ps ih =>
    obtain ⟨is, rest, hi, hr, rfl⟩ := storeElements?_cons_eq_some.1 h
    have hassign : mentions x k (.assign (.element (.read array) is) p) = 0 :=
      mentions_eq_zero (by simp [own, Place.own]) (by simp [binders])
    simp only [listPreorder, preorder, placePreorder, tally_append, tally_cons, tally_nil, hassign,
      mentions_read hx, clean_of_const (const_of_mapM_indexConstant hi) x k, ih hr]
    omega

theorem mem_storeElements (h : storeElements? array bounds linear ps = some stores) {q : Prim}
    (hq : q ∈ listPreorder ps) : q ∈ listPreorder stores := by
  induction ps generalizing linear stores with
  | nil => cases hq
  | cons p ps ih =>
    obtain ⟨is, rest, -, hr, rfl⟩ := storeElements?_cons_eq_some.1 h
    simp only [listPreorder, preorder, List.mem_append, List.mem_cons] at hq ⊢
    exact hq.imp (fun hq => .inr (.inr hq)) (ih hr)

theorem mem_freeAll_storeElements (h : storeElements? array bounds linear ps = some stores)
    (hx : x ≠ array.id) : x ∈ freeAll stores ↔ x ∈ freeAll ps := by
  induction ps generalizing linear stores with
  | nil => cases h; rfl
  | cons p ps ih =>
    obtain ⟨is, rest, hi, hr, rfl⟩ := storeElements?_cons_eq_some.1 h
    have hconst := not_mem_freeAll_of_const (const_of_mapM_indexConstant hi) x
    simp [freeAll, free, placeFree, ih hr, hx, hconst]

end

theorem Neat.array {array : Var} {element ty : Ty} {bounds : List Nat} {ps : List Prim} {p : Prim}
    {frees : List VarId} (hn : n ≤ u.var) (harray : u.fresh "__array" ty = (array, u₁))
    (hV : Neat n u₁ u₂ frees ps) (hp : arrayBlock? array element bounds ps = some p)
    (hlt : ∀ x ∈ frees, x.val < n) : Neat n u u₂ frees [p] := by
  obtain ⟨sizes, stores, hs, hr, rfl⟩ := arrayBlock?_eq_some hp
  obtain ⟨rfl, rfl⟩ : array = ⟨⟨u.var⟩, "__array", ty⟩ ∧ u₁ = { u with var := u.var + 1 } := by
    cases harray; exact ⟨rfl, rfl⟩
  set array : Var := ⟨⟨u.var⟩, "__array", ty⟩
  have hle : u.var + 1 ≤ u₂.var := hV.fresh.le
  have hids : ids [⟨array, .newArray element sizes⟩] = u.taken { u with var := u.var + 1 } := by
    simp [ids, Supply.taken, array]
  have hsizes : ∀ x, Clean x (Prim.newArray element sizes).preorder := fun x k => by
    rw [preorder, tally_cons, clean_of_const (const_of_mapM_indexConstant hs) x k]
    cases k <;> rfl
  have htally {x : VarId} {k : Mention} (hx : k ≠ .read ∨ x ≠ array.id) :
      tally x k (listPreorder (inits [⟨array, .newArray element sizes⟩] ++ (stores ++ [.read array]))) =
        tally x k (listPreorder ps) := by
    have hread : tally x k (Prim.read array).preorder = 0 := by simp [preorder, mentions_read hx]
    simp only [inits, List.map_cons, List.map_nil, listPreorder_append, listPreorder, tally_append, tally_nil,
      hsizes x k, tally_storeElements hr hx, hread]
    omega
  refine Neat.scope hV.fresh hids hn (by omega) (fun x => by simp only; omega) (fun x => by simp only; omega)
    (fun h => by cases h) ?_ ?_ ?_ ?_ hlt
  · intro x hx hx'
    refine ⟨fun k => htally (.inr fun h => ?_), fun hm => ?_⟩
    · cases h
      simp only at hx'
      omega
    · simp [mem_storeElements hr hm]
  · intro x hx k hk
    simp only at hx
    rw [htally (.inl hk)]
    exact hV.fresh.clean x (by omega) (.inl (by simp only; omega)) k
  · intro p hp x hx hx'
    rw [List.mem_singleton.1 hp]
    exact hsizes _
  · intro x hx
    have hx' : x ≠ array.id := by simpa [ids] using hx
    have hconst := not_mem_freeAll_of_const (const_of_mapM_indexConstant hs) x
    simp [inits, freeAll, Prim.free, hconst, mem_freeAll_storeElements hr hx', hx', hV.free]

/-! ### Invocations -/

theorem listPreorder_eq_flatMap (ps : List Prim) : listPreorder ps = ps.flatMap preorder := by
  induction ps with
  | nil => rfl
  | cons p ps ih => simp [listPreorder, ih]

section
variable {slots : List Slot} {values : List Prim}

theorem perm_picked (h : (slots.filterMap Slot.binding?).Perm (List.range values.length)) :
    ((slots.filterMap Slot.binding?).map fun i => values.getD i default).Perm values := by
  refine (h.map _).trans (List.Perm.of_eq (List.ext_getElem (by simp) fun i h₁ h₂ => ?_))
  simp [h₂]

/-- Arguments in declaration order mention what the values in binding order do. -/
theorem covers_pick (h : (slots.filterMap Slot.binding?).Perm (List.range values.length)) (x : VarId) :
    Covers x (listPreorder values) (listPreorder (slots.map (Slot.pick .const values))) := by
  have hperm : (listPreorder values).Perm
      (listPreorder ((slots.filterMap Slot.binding?).map fun i => values.getD i default)) := by
    rw [listPreorder_eq_flatMap, listPreorder_eq_flatMap]
    exact (perm_picked h).symm.flatMap_right _
  refine (Covers.perm hperm).trans ?_
  clear h hperm
  induction slots with
  | nil => exact ⟨fun _ => rfl, id⟩
  | cons slot slots ih =>
    cases slot with
    | bound i =>
      refine ⟨fun k => ?_, fun hm => ?_⟩
      · simp [Slot.binding?, Slot.pick, listPreorder, ih.tally k]
      · simp only [List.filterMap_cons, Slot.binding?, List.map_cons, listPreorder, List.mem_append, Slot.pick] at hm ⊢
        exact hm.imp_right ih.block
    | default c =>
      refine ⟨fun k => ?_, fun hm => ?_⟩
      · have hconst : mentions x k (.const c) = 0 := mentions_eq_zero (by simp [own]) (by simp [binders])
        simp [List.filterMap_cons, Slot.binding?, Slot.pick, listPreorder, preorder, ih.tally k, hconst]
      · exact List.mem_append_right _ (ih.block hm)

theorem mem_freeAll_pick (h : (slots.filterMap Slot.binding?).Perm (List.range values.length)) {x : VarId} :
    x ∈ freeAll (slots.map (Slot.pick .const values)) ↔ x ∈ freeAll values := by
  have hmem : x ∈ freeAll values ↔
      x ∈ freeAll ((slots.filterMap Slot.binding?).map fun i => values.getD i default) := by
    simp only [mem_freeAll, (perm_picked h).mem_iff]
  rw [hmem]
  clear h hmem
  induction slots with
  | nil => rfl
  | cons slot slots ih =>
    cases slot with
    | bound i => simp [Slot.binding?, Slot.pick, freeAll, ih]
    | default c => simp [List.filterMap_cons, Slot.binding?, Slot.pick, freeAll, free, ih]

end

/-! ### All expressions -/

/-- The tree uses the variables taken for it as temporaries and has the free variables of the expression, if
all variables of the expression come before. -/
def LowersNeatly : LowerRel := fun e p u u' =>
  ∀ n, e.Below n → n ≤ u.var → Neat n u u' e.free [p]

namespace LowersNeatly
variable {stamp : Stamp} {e : Expr} {es : List Expr} {ps : List Prim} {place : Place Prim}

theorem threaded (h : Threaded LowersNeatly es ps u u') (hb : ∀ e ∈ es, e.Below n) (hn : n ≤ u.var) :
    Neat n u u' (Expr.freeAll es) ps := by
  induction h with
  | nil => exact .nil hn
  | cons he _ ih =>
    have h₁ := he n (hb _ (by simp)) hn
    exact h₁.append (ih (fun e he => hb e (by simp [he])) (Nat.le_trans hn h₁.fresh.le))

theorem cons {p : Prim} (he : LowersNeatly e p u u₁) (hes : Threaded LowersNeatly es ps u₁ u')
    (hb : ∀ x ∈ e :: es, x.Below n) (hn : n ≤ u.var) : Neat n u u' (Expr.freeAll (e :: es)) (p :: ps) :=
  threaded (.cons he hes) hb hn

theorem placeRel (h : PlaceRel LowersNeatly e place u u') (hb : e.Below n) (hn : n ≤ u.var) :
    Neat n u u' (Expr.freeAll e.parts) place.parts ∧ (∀ x ∈ place.own, x.val < n) ∧
      ∀ x, x ∈ e.free ↔ x ∈ place.own ∨ x ∈ Expr.freeAll e.parts := by
  cases h with
  | var => exact ⟨.nil hn, hb, fun x => by simp [Expr.free, Place.own, Expr.parts, Expr.freeAll]⟩
  | element ha hi =>
    refine ⟨cons ha hi hb.part hn, fun _ hx => absurd hx List.not_mem_nil, fun x => ?_⟩
    simp [Expr.free, Expr.binders, Place.own, Expr.parts]

theorem lt_of_mem_free {x : VarId} (hb : e.Below n) (hx : x ∈ e.free) : x.val < n :=
  hb x (Expr.mem_vars_of_mem_free hx)

theorem lt_of_mem_freeAll {x : VarId} (hb : ∀ e ∈ es, e.Below n) (hx : x ∈ Expr.freeAll es) : x.val < n := by
  obtain ⟨e, he, hx⟩ := Expr.mem_freeAll.1 hx
  exact lt_of_mem_free (hb e he) hx

end LowersNeatly

theorem Neat.covers {frees : List VarId} {ps qs : List Prim} (h : Neat n u u' frees ps)
    (hc : ∀ x, Covers x (listPreorder ps) (listPreorder qs)) (hf : ∀ x, x ∈ freeAll qs ↔ x ∈ freeAll ps) :
    Neat n u u' frees qs :=
  ⟨h.fresh.covers fun x _ => hc ⟨x⟩, fun x => (hf x).trans (h.free x)⟩

open LowersNeatly in
theorem StepForm.neat {k : StepKind} {method : Option Method} {operand : Expr} {place : Place Prim} {p : Prim}
    (h : StepForm k method operand place p u₁ u₂) (hp : PlaceRel LowersNeatly operand place u u₁)
    (hb : operand.Below n) (hn : n ≤ u.var) : Neat n u u₂ operand.free [p] := by
  obtain ⟨hV, ho, hfree⟩ := LowersNeatly.placeRel hp hb hn
  have hlt : ∀ x ∈ Expr.freeAll operand.parts, x.val < n := fun x => lt_of_mem_freeAll hb.part
  cases h with
  | primitive _ _ hs =>
    refine (hs.prepared hV.fresh).scope hV ?_ rfl (fun x => ⟨fun _ => rfl, id⟩) (fun x => Iff.rfl) hlt ?_
    · exact fun x hx => ho x (hs.own_eq ▸ hx)
    · exact fun x => by rw [hfree, own, hs.own_eq]
  | @functional _ next _ _ old new _ _ _ _ hnext hs hold hnew =>
    refine (hs.prepared hV.fresh).functional hV (fun x hx => ho x (hs.own_eq ▸ hx)) hold hnew ?_ ?_ ?_ hlt ?_
    · intro x k
      cases hnext <;> cases k <;> simp [preorder, listPreorder, mentions]
    · intro x
      cases hnext <;> simp [free, freeAll]
    · cases k.op.yieldsNew <;> simp
    · exact fun x => by rw [hfree, hs.own_eq]

theorem InvokeForm.neat {params : List Descriptor} {callee : Expr} {values : List Expr} {c p : Prim}
    {vs : List Prim} {signature : Signature} {frees : List VarId}
    (h : InvokeForm params callee.ty (values.map Expr.ty) c vs p u₁ u₂)
    (hs : callee.ty.signature? = some signature) (hb : signature.Bound params) (hv : vs.length = params.length)
    (hV : Neat n u u₁ frees (c :: vs)) (hlt : ∀ x ∈ frees, x.val < n) : Neat n u u₂ frees [p] := by
  cases h with
  | @direct _ slots _ _ hc hslots _ harr =>
    obtain rfl := Option.some.inj (hs.symm.trans hc)
    have hperm := hv ▸ hb.perm hslots
    obtain rfl := Option.some.inj ((hb.arrange hslots hv).symm.trans harr)
    refine Neat.node (q := .call c _) (hV.covers (fun x => (covers_pick hperm x).append _) fun x => ?_) ?_ ?_ ?_
    · simp [parts, freeAll, mem_freeAll_pick hperm]
    · simp [own]
    · simp [binders]
    · simp [own, binders]
  | @spilled _ slots c' vs' _ temps _ _ hc hslots _ hk harr =>
    obtain rfl := Option.some.inj (hs.symm.trans hc)
    have hv' : vs'.length = params.length := (Nat.succ.inj hk.length).trans hv
    have hperm := hv' ▸ hb.perm hslots
    obtain rfl := Option.some.inj ((hb.arrange hslots hv').symm.trans harr)
    refine (hk.prepared n).scope hV (by simp [own]) rfl (fun x => (covers_pick hperm x).append _) ?_ hlt ?_
    · exact fun x => by simp [parts, freeAll, mem_freeAll_pick hperm]
    · simp [own]

open LowersNeatly in
theorem lowersNeatly_rules (o : LowerOptions) : LowerRules o LowersNeatly where
  const _ _ hn := .node (.nil hn) (by simp [own]) (by simp [binders]) (by simp [Expr.free, own, binders])
  var _ hb hn := .node (.nil hn) hb (by simp [binders]) (by simp [Expr.free, own, binders])
  index _ ha hi n hb hn :=
    (cons ha hi hb.part hn).node (by simp [own]) (by simp [binders]) (by simp [Expr.binders, own, binders])
  binary _ hl hr n hb hn :=
    (cons hl (.cons hr .nil) hb.part hn).node (by simp [own]) (by simp [binders])
      (by simp [Expr.binders, own, binders])
  call _ hc ha n hb hn :=
    (cons hc ha hb.part hn).node (by simp [own]) (by simp [binders]) (by simp [Expr.binders, own, binders])
  assign _ ht hv n hb hn := by
    obtain ⟨hplace, ho, hfree⟩ := placeRel ht (hb.part _ (by simp [Expr.parts])) hn
    have hvalue := hv n (hb.part _ (by simp [Expr.parts])) (Nat.le_trans hn hplace.fresh.le)
    refine (hplace.append hvalue).node ho (by simp [binders]) fun x => ?_
    simp [Expr.binders, Expr.freeAll, own, binders, hfree, or_assoc]
  block _ hbody n hb hn :=
    (threaded hbody hb.part hn).node (by simp [own]) hb.binders (by simp [Expr.binders, own, binders])
  lambda _ _ hbody n hb hn := by
    have h := hbody n (hb.part _ (by simp [Expr.parts])) hn
    refine Neat.node (q := .lambda _) h (by simp [own]) hb.binders ?_
    simp [Expr.binders, Expr.freeAll, own, binders]
  quote _ _ hbody n hb hn := by
    have hlambda := hb.part _ (List.mem_singleton.2 rfl)
    have h := hbody n (hlambda.part _ (List.mem_singleton.2 rfl)) hn
    refine Neat.node (q := .quote _ _) h.freshStamp (by simp [own]) hlambda.binders ?_
    simp [Expr.binders, Expr.freeAll, own, binders]
  step _ hp hform n hb hn := by
    refine (hform.neat hp (hb.part _ (by simp [Expr.parts])) hn).congr ?_
    simp [Expr.binders, Expr.freeAll]
  fold _ _ n _ hn := by
    refine .node (.nil hn) (by simp [own]) (by simp [binders]) fun x => ?_
    simp [own, binders, Expr.mem_freeAll, Expr.free]
  array _ hu hps hp n hb hn := by
    have hle := congrArg (fun r => r.2.var) hu
    have hV := threaded hps hb.part (Nat.le_trans hn (Nat.le_trans (Nat.le_succ _) (Nat.le_of_eq hle)))
    refine (Neat.array hn hu hV hp fun x => lt_of_mem_freeAll hb.part).congr ?_
    simp [Expr.binders]
  invoke he hc hvs hform n hb hn := by
    cases he.allows with
    | invoke hs hv hbound =>
      have hV := cons hc hvs hb.part hn
      refine (hform.neat hs hbound ?_ hV fun x => lt_of_mem_freeAll hb.part).congr ?_
      · rw [← hvs.length, hv.length_eq]
      · simp [Expr.binders]

/-- The lowered tree has the free variables of the expression, and each variable that was taken from the
supply is a temporary of it. -/
theorem Lowerer.lower_hygienic {l l' : Lowerer} {e : Expr} {p : Prim} {supply supply' : Supply}
    (he : e.Obtained) (hb : e.Below supply.var) (h : l.lower e supply = (.ok p, l', supply')) :
    (∀ x, x ∈ p.free ↔ x ∈ e.free) ∧
      ∀ x, supply.var ≤ x → x < supply'.var → Hygienic ⟨x⟩ p.preorder := by
  have hneat := (lowersNeatly_rules l.options).of_loweredTo he.wellMade (loweredTo h) supply.var hb (Nat.le_refl _)
  have hone : listPreorder [p] = p.preorder := by simp [listPreorder]
  refine ⟨fun x => ?_, fun x hx hx' => hone ▸ hneat.fresh.temp x hx hx'⟩
  simpa [freeAll] using hneat.free x

/-- An array of one variable is made in a temporary. -/
theorem Lowerer.lower_hygienic_array :
    ∃ p, lower {} (.node 0 (.array (.int .i32) [1]) [.var ⟨⟨0⟩, "v", .int .i32⟩]) { var := 1 } =
      (.ok p, {}, { var := 2 }) ∧
      Hygienic ⟨1⟩ p.preorder := by
  have hmake : Expr.mkArray (.int .i32) [1] [.var ⟨⟨0⟩, "v", .int .i32⟩] 0 =
      .ok (.node 0 (.array (.int .i32) [1]) [.var ⟨⟨0⟩, "v", .int .i32⟩], 1) := rfl
  have hobtained := Expr.Obtained.made (List.forall_mem_singleton.2 (.var _)) hmake
  have hbelow : (Expr.node 0 (.array (.int .i32) [1]) [.var ⟨⟨0⟩, "v", .int .i32⟩]).Below 1 := by
    simp [Expr.Below, Expr.vars, Expr.varsAll, Expr.binders]
  have hlower : ∃ p, lower {} (.node 0 (.array (.int .i32) [1]) [.var ⟨⟨0⟩, "v", .int .i32⟩]) { var := 1 } =
      (.ok p, {}, { var := 2 }) := ⟨_, rfl⟩
  obtain ⟨p, hp⟩ := hlower
  exact ⟨p, hp, (lower_hygienic hobtained hbelow hp).2 1 (by decide) (by decide)⟩

end ExprLowering
