import ExprLowering.Proofs.LowerRules
import ExprLowering.Proofs.Mentions

/-!
# Blocks of temporaries

A block that lowering adds sets its temporaries one after the other and then uses them. `Neat.scope` says
when the variables of such a block are used as temporaries; `Prepared` is what keeping values in temporaries
gives for the trees that are then used in their place.
-/

namespace ExprLowering

open Prim

/-! ### Trees and the variables taken for them -/

/-- Among the nodes, the variables from `u` up to `u'` are temporaries, and no other from `n` on is
mentioned. -/
structure Fresh (n : Nat) (u u' : Supply) (nodes : List Prim) : Prop where
  base : n ≤ u.var
  le : u.var ≤ u'.var
  temp : ∀ x, u.var ≤ x → x < u'.var → Hygienic ⟨x⟩ nodes
  clean : ∀ x, n ≤ x → x < u.var ∨ u'.var ≤ x → Clean ⟨x⟩ nodes

/-- The trees use the variables taken for them as temporaries, and have the given free variables. -/
structure Neat (n : Nat) (u u' : Supply) (frees : List VarId) (ps : List Prim) : Prop where
  fresh : Fresh n u u' (listPreorder ps)
  free : ∀ x, x ∈ freeAll ps ↔ x ∈ frees

variable {n : Nat} {u u₁ u₂ u' : Supply}

namespace Fresh
variable {A B : List Prim}

theorem nil (hn : n ≤ u.var) : Fresh n u u [] :=
  ⟨hn, Nat.le_refl _, fun _ h h' => absurd h' (Nat.not_lt.2 h), fun _ _ _ _ => rfl⟩

theorem append (hA : Fresh n u u₁ A) (hB : Fresh n u₁ u₂ B) : Fresh n u u₂ (A ++ B) where
  base := hA.base
  le := Nat.le_trans hA.le hB.le
  temp x h h' := by
    have hn := hA.base
    by_cases hx : x < u₁.var
    · exact (hA.temp x h hx).covers (.append_left (hB.clean x (by omega) (.inl hx)))
    · exact (hB.temp x (by omega) h').covers (.append_right (hA.clean x (by omega) (.inr (by omega))))
  clean x h hx := by
    have := hA.le
    have := hB.le
    exact (hA.clean x h (by omega)).append (hB.clean x h (by omega))

/-- The same holds of nodes that mention the variables from `n` on in the same way. -/
theorem covers (h : Fresh n u u' A) (hc : ∀ x, n ≤ x → Covers ⟨x⟩ A B) : Fresh n u u' B where
  base := h.base
  le := h.le
  temp x hx hx' := (h.temp x hx hx').covers (hc x (Nat.le_trans h.base hx))
  clean x hx hx' := (h.clean x hx hx').covers (hc x hx)

end Fresh

namespace Neat
variable {frees frees' : List VarId} {ps qs : List Prim}

theorem nil (hn : n ≤ u.var) : Neat n u u [] [] :=
  ⟨.nil hn, fun _ => Iff.rfl⟩

theorem append (h : Neat n u u₁ frees ps) (h' : Neat n u₁ u₂ frees' qs) :
    Neat n u u₂ (frees ++ frees') (ps ++ qs) where
  fresh := by
    rw [listPreorder_append]
    exact h.fresh.append h'.fresh
  free x := by rw [freeAll_append, List.mem_append, List.mem_append, h.free, h'.free]

theorem freshStamp (h : Neat n u u' frees ps) : Neat n u u'.freshStamp.2 frees ps :=
  ⟨⟨h.fresh.base, h.fresh.le, h.fresh.temp, h.fresh.clean⟩, h.free⟩

theorem congr (h : Neat n u u' frees ps) (hf : ∀ x, x ∈ frees' ↔ x ∈ frees) : Neat n u u' frees' ps :=
  ⟨h.fresh, fun x => (h.free x).trans (hf x).symm⟩

theorem node {q : Prim} (h : Neat n u u' frees q.parts) (ho : ∀ x ∈ q.own, x.val < n)
    (hb : ∀ x ∈ q.binders, x.val < n) (hf : ∀ x, x ∈ frees' ↔ (x ∈ q.own ∨ x ∈ frees) ∧ x ∉ q.binders) :
    Neat n u u' frees' [q] where
  fresh := by
    have hpre : listPreorder [q] = [q] ++ listPreorder q.parts := by simp [listPreorder, preorder_eq q]
    rw [hpre]
    refine h.fresh.covers fun x hx => .append_right fun k => ?_
    rw [tally_cons, tally_nil, mentions_eq_zero]
    · exact fun hm => absurd (ho _ hm) (Nat.not_lt.2 hx)
    · exact fun hm => absurd (hb _ hm) (Nat.not_lt.2 hx)
  free x := by
    rw [hf, ← h.free]
    simp only [freeAll, List.append_nil, mem_free]

end Neat

/-! ### Blocks of temporaries -/

namespace Temp

/-- The statements that set the temporaries. -/
def stores (temps : List Temp) : List Prim :=
  temps.map fun t => .assign (.var t.var) t.init

def ids (temps : List Temp) : List VarId :=
  temps.map (·.var.id)

def inits (temps : List Temp) : List Prim :=
  temps.map (·.init)

theorem scope_of_ne_nil {temps : List Temp} (h : temps ≠ []) (statements : List Prim) (result : Prim) :
    scope temps statements result = .block (temps.map (·.var)) (stores temps ++ statements ++ [result]) :=
  if_neg (by simpa using h)

theorem tally_stores {x : VarId} {k : Mention} (temps : List Temp) :
    tally x k (listPreorder (stores temps)) =
      (if k = .store then (ids temps).count x else 0) + tally x k (listPreorder (inits temps)) := by
  induction temps with
  | nil => cases k <;> rfl
  | cons t temps ih =>
    have hpre : listPreorder (stores (t :: temps)) =
        .assign (.var t.var) t.init :: (t.init.preorder ++ listPreorder (stores temps)) := by
      simp [stores, listPreorder, preorder, placePreorder]
    have hinit : listPreorder (inits (t :: temps)) = t.init.preorder ++ listPreorder (inits temps) := rfl
    rw [hpre, hinit, tally_cons, tally_append, tally_append, ih]
    cases k with
    | store =>
      have hc : (ids (t :: temps)).count x = (ids temps).count x + if t.var.id = x then 1 else 0 := by
        simp [ids, List.count_cons]
      simp only [mentions, if_true, hc]
      omega
    | _ => simp [mentions]

theorem scope_preorder {temps : List Temp} (hne : temps ≠ []) (statements : List Prim) (result : Prim) :
    (scope temps statements result).preorder =
      .block (temps.map (·.var)) (stores temps ++ (statements ++ [result])) ::
        listPreorder (stores temps ++ (statements ++ [result])) := by
  rw [scope_of_ne_nil hne, preorder_eq, List.append_assoc]
  rfl

/-- A block of temporaries declares and stores each of them, beside what its trees mention. -/
theorem tally_scope {x : VarId} {k : Mention} {temps : List Temp} (hne : temps ≠ []) (statements : List Prim)
    (result : Prim) :
    tally x k (scope temps statements result).preorder =
      (if k = .declare ∨ k = .store then (ids temps).count x else 0) +
        tally x k (listPreorder (inits temps ++ (statements ++ [result]))) := by
  rw [scope_preorder hne, tally_cons, listPreorder_append, listPreorder_append (inits temps), tally_append,
    tally_append, tally_stores]
  cases k with
  | declare => simp [mentions, ids, Function.comp_def]
  | _ => simp [mentions, Nat.add_assoc]

theorem block_mem_scope {temps : List Temp} {statements : List Prim} {result : Prim} (hne : temps ≠ [])
    {locals : List Var} {body : List Prim}
    (h : .block locals body ∈ listPreorder (inits temps ++ (statements ++ [result]))) :
    .block locals body ∈ (scope temps statements result).preorder := by
  rw [listPreorder_append] at h
  rw [scope_preorder hne, listPreorder_append]
  refine List.mem_cons_of_mem _ (List.mem_append.2 ((List.mem_append.1 h).imp_left fun hm => ?_))
  clear h hne
  induction temps with
  | nil => exact hm
  | cons t temps ih =>
    simp only [stores, List.map_cons, listPreorder, preorder, placePreorder, List.nil_append, List.cons_append]
    exact List.mem_cons_of_mem _ (List.mem_append.2 ((List.mem_append.1 hm).imp_right ih))

theorem covers_scope {x : VarId} {temps : List Temp} {statements : List Prim} {result : Prim}
    (hs : temps = [] → statements = []) (hx : x ∉ ids temps) :
    Covers x (listPreorder (inits temps ++ (statements ++ [result])))
      (listPreorder [scope temps statements result]) := by
  have hone (p : Prim) : listPreorder [p] = p.preorder := by simp [listPreorder]
  rw [hone]
  by_cases hne : temps = []
  · subst hne
    rw [hs rfl]
    exact ⟨fun k => by simp [inits, hone, scope], fun hm => by simpa [inits, hone, scope] using hm⟩
  · refine ⟨fun k => ?_, block_mem_scope hne⟩
    rw [tally_scope hne, List.count_eq_zero.2 hx]
    simp

/-- A temporary of the block: it is not mentioned until it is set, and then only read. -/
theorem hygienic_scope {before after : List Temp} {t : Temp} {statements : List Prim} {result : Prim}
    (hb : t.var.id ∉ ids before) (ha : t.var.id ∉ ids after)
    (hclean : Clean t.var.id (listPreorder (inits (before ++ [t]))))
    (hreads : ∀ k, k ≠ .read →
      tally t.var.id k (listPreorder (inits (before ++ t :: after) ++ (statements ++ [result]))) = 0) :
    Hygienic t.var.id (listPreorder [scope (before ++ t :: after) statements result]) := by
  have hne : before ++ t :: after ≠ [] := by simp
  have hone : listPreorder [scope (before ++ t :: after) statements result] =
      (scope (before ++ t :: after) statements result).preorder := by simp [listPreorder]
  have hcount : (ids (before ++ t :: after)).count t.var.id = 1 := by
    have hids : ids (before ++ t :: after) = ids before ++ t.var.id :: ids after := by simp [ids]
    rw [hids, List.count_append, List.count_cons_self, List.count_eq_zero.2 hb, List.count_eq_zero.2 ha]
  rw [hone]
  refine ⟨?_, ?_, ?_, ?_⟩
  · rw [tally_scope hne, hcount, hreads _ (by decide)]; rfl
  · rw [tally_scope hne, hreads _ (by decide)]; rfl
  · rw [tally_scope hne, hcount, hreads _ (by decide)]; rfl
  · refine ⟨(before ++ t :: after).map (·.var), stores before, t.var, t.init,
      stores after ++ (statements ++ [result]), ?_, ?_, rfl, ?_, ?_⟩
    · rw [scope_preorder hne]
      refine List.mem_cons.2 (.inl ?_)
      simp [stores]
    · simp
    · have hinit : inits (before ++ [t]) = inits before ++ [t.init] := by simp [inits]
      rw [hinit, listPreorder_append] at hclean
      simpa [listPreorder] using hclean.of_append.2
    · have hinit : inits (before ++ t :: after) = inits (before ++ [t]) ++ inits after := by simp [inits]
      have hread := hclean .read
      rw [tally_scope hne, hinit, List.append_assoc, listPreorder_append, tally_append, hread,
        listPreorder_append, listPreorder_append (stores after), tally_append, tally_append, tally_stores]
      simp

theorem mem_free_scope {x : VarId} {temps : List Temp} {statements : List Prim} {result : Prim}
    (hs : temps = [] → statements = []) :
    x ∈ (scope temps statements result).free ↔
      x ∈ freeAll (inits temps ++ (statements ++ [result])) ∧ x ∉ ids temps := by
  have hstores : x ∈ freeAll (stores temps) ↔ x ∈ ids temps ∨ x ∈ freeAll (inits temps) := by
    clear hs
    induction temps with
    | nil => simp [stores, ids, inits, freeAll]
    | cons t temps ih =>
      simp only [stores, ids, inits, List.map_cons, freeAll, free, placeFree, List.mem_append,
        List.mem_cons] at ih ⊢
      rw [ih]
      tauto
  by_cases hne : temps = []
  · subst hne
    simp [hs rfl, scope, inits, ids, freeAll]
  · have hbind : (temps.map (·.var)).map (·.id) = ids temps := by simp [ids, Function.comp_def]
    rw [scope_of_ne_nil hne, free, hbind, List.mem_filter, List.append_assoc, freeAll_append, List.mem_append, hstores,
      freeAll_append (inits temps), List.mem_append]
    simp only [decide_not, Bool.not_eq_true', decide_eq_false_iff_not]
    tauto

end Temp

/-- The numbers from one supply up to another. -/
def Supply.taken (u u' : Supply) : List VarId :=
  (List.range' u.var (u'.var - u.var)).map VarId.mk

theorem Supply.mem_taken {x : Nat} : ⟨x⟩ ∈ u.taken u' ↔ u.var ≤ x ∧ x < u'.var := by
  simp only [taken, List.mem_map, List.mem_range'_1, VarId.mk.injEq, exists_eq_right]
  omega

theorem Supply.le_of_mem_taken {x : VarId} (h : x ∈ u.taken u') : u.var ≤ x.val :=
  (mem_taken.1 h).1

theorem Supply.taken_succ {u'' : Supply} (hle : u.var ≤ u'.var) (h : u''.var = u'.var + 1) :
    u.taken u'' = u.taken u' ++ [⟨u'.var⟩] := by
  have hsub : u'.var + 1 - u.var = u'.var - u.var + 1 := by omega
  have hadd : u.var + (u'.var - u.var) = u'.var := by omega
  rw [taken, taken, h, hsub, List.range'_1_concat, List.map_append, hadd]
  rfl

theorem Supply.nodup_taken : (u.taken u').Nodup :=
  List.Nodup.map (fun _ _ h => congrArg VarId.val h) List.nodup_range'

open Temp (ids inits)

theorem Supply.le_fresh {name : String} {ty : Ty} {v : Var} {u u' : Supply} (h : u.fresh name ty = (v, u')) :
    u.var ≤ u'.var := by
  cases h
  exact Nat.le_succ _

theorem Temp.ids_append_fresh {temps : List Temp} {v : Var} {init : Prim} {name : String} {ty : Ty} {u'' : Supply}
    (h : ids temps = u.taken u') (hle : u.var ≤ u'.var) (hv : u'.fresh name ty = (v, u'')) :
    ids (temps ++ [⟨v, init⟩]) = u.taken u'' := by
  cases hv
  rw [Supply.taken_succ hle rfl, ← h]
  simp [ids]

theorem Temp.ids_append_old_new {temps : List Temp} {old new : Var} {ty : Ty} {u₃ : Supply}
    (h : ids temps = u.taken u₁) (hle : u.var ≤ u₁.var) (hold : u₁.fresh "__old" ty = (old, u₂))
    (hnew : u₂.fresh "__new" ty = (new, u₃)) (p q : Prim) :
    ids (temps ++ [⟨old, p⟩] ++ [⟨new, q⟩]) = u.taken u₃ :=
  Temp.ids_append_fresh (Temp.ids_append_fresh h hle hold) (Nat.le_trans hle (Supply.le_fresh hold)) hnew

/-- A block whose temporaries are the variables taken from `t` to `t'`. Other variables are mentioned by its
trees as they are by the nodes `V`, which have the variables taken from `v` to `v'`; a temporary is not
mentioned until it is set, and then only read. -/
theorem Neat.scope {v v' t t' : Supply} {temps : List Temp} {statements : List Prim} {result : Prim}
    {V : List Prim} {frees : List VarId} (hV : Fresh n v v' V) (hids : ids temps = t.taken t')
    (hn : n ≤ u.var) (hle : u.var ≤ u'.var)
    (hsplit : ∀ x, u.var ≤ x ∧ x < u'.var ↔ v.var ≤ x ∧ x < v'.var ∨ t.var ≤ x ∧ x < t'.var)
    (hdisj : ∀ x, v.var ≤ x ∧ x < v'.var → ¬ (t.var ≤ x ∧ x < t'.var))
    (hs : temps = [] → statements = [])
    (hcov : ∀ x, n ≤ x → ¬ (t.var ≤ x ∧ x < t'.var) →
      Covers ⟨x⟩ V (listPreorder (inits temps ++ (statements ++ [result]))))
    (hreads : ∀ x, t.var ≤ x ∧ x < t'.var → ∀ k, k ≠ .read →
      tally ⟨x⟩ k (listPreorder (inits temps ++ (statements ++ [result]))) = 0)
    (hset : ∀ p ∈ temps, ∀ x, p.var.id.val ≤ x → x < t'.var → Clean ⟨x⟩ p.init.preorder)
    (hfree : ∀ x, x ∉ ids temps → (x ∈ freeAll (inits temps ++ (statements ++ [result])) ↔ x ∈ frees))
    (hlt : ∀ x ∈ frees, x.val < n) : Neat n u u' frees [Temp.scope temps statements result] := by
  have hother {x : Nat} (hx : ¬ (t.var ≤ x ∧ x < t'.var)) : ⟨x⟩ ∉ ids temps := by
    rw [hids, Supply.mem_taken]
    exact hx
  refine ⟨⟨hn, hle, fun x hx hx' => ?_, fun x hx hx' => ?_⟩, fun x => ?_⟩
  · rcases (hsplit x).1 ⟨hx, hx'⟩ with hxv | hxt
    · have hc := (hcov x (by omega) (hdisj x hxv)).trans (Temp.covers_scope hs (hother (hdisj x hxv)))
      exact (hV.temp x hxv.1 hxv.2).covers hc
    · -- the temporary with this number, and those before and after it
      have hmem : ⟨x⟩ ∈ ids temps := by rw [hids, Supply.mem_taken]; exact hxt
      obtain ⟨p, hp, hpx⟩ := List.mem_map.1 hmem
      obtain ⟨before, after, rfl⟩ := List.append_of_mem hp
      have hsorted : (ids (before ++ p :: after)).Pairwise fun a b => a.val < b.val := by
        rw [hids, Supply.taken, List.pairwise_map]
        exact List.pairwise_lt_range'
      rw [ids, List.map_append, List.map_cons, List.pairwise_append, List.pairwise_cons] at hsorted
      obtain ⟨-, ⟨hafter, -⟩, hbefore⟩ := hsorted
      rw [← hpx]
      have hval : p.var.id.val = x := by rw [hpx]
      refine Temp.hygienic_scope ?_ ?_ ?_ ?_
      · exact fun hm => Nat.lt_irrefl _ (hbefore _ hm _ (List.mem_cons_self ..))
      · exact fun hm => Nat.lt_irrefl _ (hafter _ hm)
      · rw [hpx]
        refine .list (List.forall_mem_map.2 fun q hq => hset q (by simp_all; tauto) x ?_ hxt.2)
        rcases List.mem_append.1 hq with hm | hm
        · have := hbefore _ (List.mem_map_of_mem hm) _ (List.mem_cons_self ..)
          omega
        · rw [List.mem_singleton.1 hm]
          omega
      · rw [hpx]
        exact hreads x hxt
  · have hout : ¬ (t.var ≤ x ∧ x < t'.var) := fun h => by have := (hsplit x).2 (.inr h); omega
    have hc := (hcov x hx hout).trans (Temp.covers_scope hs (hother hout))
    refine (hV.clean x hx ?_).covers hc
    by_contra hin
    have := (hsplit x).2 (.inl (by omega))
    omega
  · have hone : freeAll [Temp.scope temps statements result] = (Temp.scope temps statements result).free := by
      simp [freeAll]
    rw [hone, Temp.mem_free_scope hs]
    refine ⟨fun hx => (hfree x hx.2).1 hx.1, fun hx => ?_⟩
    have hn : x ∉ ids temps := by
      intro hm
      have hx := hlt x hx
      rw [hids, Supply.mem_taken] at hm
      have := (hsplit x.val).2 (.inr hm)
      omega
    exact ⟨(hfree x hn).2 hx, hn⟩

/-! ### Values that are kept -/

/-- The trees `ps` stand for the trees `values`: these are the values of temporaries, the variables taken
from `u₁` to `u₂`, and what `ps` mention beside free variables is these temporaries, which they read. -/
structure Prepared (n : Nat) (u₁ u₂ : Supply) (values ps : List Prim) (temps : List Temp) : Prop where
  le : u₁.var ≤ u₂.var
  ids_eq : ids temps = u₁.taken u₂
  covers : ∀ x, n ≤ x → x < u₁.var ∨ u₂.var ≤ x →
    Covers ⟨x⟩ (listPreorder values) (listPreorder (inits temps ++ ps))
  clean : ∀ x, n ≤ x → x < u₁.var ∨ u₂.var ≤ x → Clean ⟨x⟩ (listPreorder ps)
  reads : ∀ x k, k ≠ .read → u₁.var ≤ x → tally ⟨x⟩ k (listPreorder ps) = 0
  init_mem : ∀ t ∈ temps, t.init ∈ values
  free : ∀ x, x ∉ ids temps → (x ∈ freeAll (inits temps ++ ps) ↔ x ∈ freeAll values)

namespace Temp.Kept
variable {labels : List (String × Ty)} {values ps : List Prim} {temps : List Temp}

theorem le (h : Kept labels values ps temps u u') : u.var ≤ u'.var := by
  induction h with
  | nil => exact Nat.le_refl _
  | const _ ih => exact ih
  | held _ _ ih => exact Nat.le_of_succ_le ih

theorem ids_eq (h : Kept labels values ps temps u u') : ids temps = u.taken u' := by
  induction h with
  | nil => simp [ids, Supply.taken]
  | const _ ih => exact ih
  | @held name ty _ _ _ _ _ u u' _ hk ih =>
    have hle : u.var + 1 ≤ u'.var := hk.le
    have hsub : u'.var - u.var = (u'.var - (u.var + 1)) + 1 := by omega
    show ⟨u.var⟩ :: ids _ = _
    rw [ih, Supply.taken, Supply.taken, hsub, List.range'_succ, List.map_cons]
    rfl

/-- What is used for a value is a constant, or reads a temporary. -/
theorem uses (h : Kept labels values ps temps u u') :
    ∀ p ∈ ps, (∃ c, p = .const c) ∨ ∃ t ∈ temps, p = .read t.var := by
  induction h with
  | nil => exact fun _ hp => absurd hp List.not_mem_nil
  | const _ ih => exact List.forall_mem_cons.2 ⟨.inl ⟨_, rfl⟩, ih⟩
  | held _ _ ih =>
    refine List.forall_mem_cons.2 ⟨.inr ⟨_, List.mem_cons_self .., rfl⟩, fun p hp => ?_⟩
    exact (ih p hp).imp_right fun ⟨t, ht, hr⟩ => ⟨t, List.mem_cons_of_mem _ ht, hr⟩

theorem init_mem (h : Kept labels values ps temps u u') : ∀ t ∈ temps, t.init ∈ values := by
  induction h with
  | nil => exact fun _ ht => absurd ht List.not_mem_nil
  | const _ ih => exact fun t ht => List.mem_cons_of_mem _ (ih t ht)
  | held _ _ ih =>
    exact List.forall_mem_cons.2 ⟨List.mem_cons_self .., fun t ht => List.mem_cons_of_mem _ (ih t ht)⟩

theorem covers_inits (h : Kept labels values ps temps u u') (x : VarId) :
    Covers x (listPreorder values) (listPreorder (inits temps)) := by
  induction h with
  | nil => exact ⟨fun _ => rfl, id⟩
  | @const _ _ _ c values _ temps _ _ _ ih =>
    have hpre : listPreorder (.const c :: values) = .const c :: listPreorder values := rfl
    rw [hpre]
    refine ⟨fun k => ?_, fun hm => ih.block ?_⟩
    · rw [ih.tally, tally_cons, mentions_eq_zero (by simp [own]) (by simp [binders]), Nat.zero_add]
    · simpa using hm
  | @held _ _ _ value values _ temps _ _ _ _ ih =>
    refine ⟨fun k => ?_, fun hm => ?_⟩
    · show tally x k (value.preorder ++ listPreorder (inits temps)) = tally x k (value.preorder ++ listPreorder values)
      rw [tally_append, tally_append, ih.tally]
    · exact List.mem_append.2 ((List.mem_append.1 hm).imp_right ih.block)

theorem mem_freeAll_inits (h : Kept labels values ps temps u u') {x : VarId} :
    x ∈ freeAll (inits temps) ↔ x ∈ freeAll values := by
  induction h with
  | nil => exact Iff.rfl
  | const _ ih => rw [ih]; rfl
  | held _ _ ih =>
    simp only [inits, List.map_cons, freeAll, List.mem_append] at ih ⊢
    rw [ih]

theorem isTrivial (h : Kept labels values ps temps u u') : ∀ p ∈ ps, p.isTrivial = true := by
  intro p hp
  rcases h.uses p hp with ⟨c, rfl⟩ | ⟨t, -, rfl⟩
  · rfl
  · rfl

theorem clean (h : Kept labels values ps temps u u') {x : VarId} (hx : x ∉ ids temps) :
    Clean x (listPreorder ps) := by
  refine .list fun p hp k => ?_
  rcases h.uses p hp with ⟨c, rfl⟩ | ⟨t, ht, rfl⟩
  · cases k <;> rfl
  · rw [preorder, tally_cons, tally_nil, mentions_eq_zero _ (by simp [binders])]
    simp only [own, List.mem_singleton]
    rintro rfl
    exact hx (List.mem_map_of_mem ht)

theorem mem_ids_of_mem_freeAll (h : Kept labels values ps temps u u') {x : VarId} (hx : x ∈ freeAll ps) :
    x ∈ ids temps := by
  obtain ⟨p, hp, hx⟩ := mem_freeAll.1 hx
  rcases h.uses p hp with ⟨c, rfl⟩ | ⟨t, ht, rfl⟩
  · cases hx
  · rw [free, List.mem_singleton] at hx
    exact hx ▸ List.mem_map_of_mem ht

theorem prepared (h : Kept labels values ps temps u u') (n : Nat) : Prepared n u u' values ps temps where
  le := h.le
  ids_eq := h.ids_eq
  covers x _ hx := by
    have hx' : ⟨x⟩ ∉ ids temps := by rw [h.ids_eq, Supply.mem_taken]; omega
    rw [listPreorder_append]
    exact (h.covers_inits ⟨x⟩).trans (.append_left (h.clean hx'))
  clean x _ hx := h.clean (by rw [h.ids_eq, Supply.mem_taken]; omega)
  reads _ _ hk _ := tally_of_isTrivial h.isTrivial hk
  init_mem := h.init_mem
  free x hx := by
    rw [freeAll_append, List.mem_append, h.mem_freeAll_inits]
    exact ⟨fun hm => hm.resolve_right fun hm => hx (h.mem_ids_of_mem_freeAll hm), .inl⟩

end Temp.Kept

namespace Place
variable {pinned : Bool} {operand : Expr} {place place' : Place Prim} {temps : List Temp} {frees : List VarId}

theorem Settled.own_eq (h : place.Settled pinned operand place' temps u₁ u₂) : place'.own = place.own := by
  cases h <;> rfl

theorem Settled.le (h : place.Settled pinned operand place' temps u₁ u₂) : u₁.var ≤ u₂.var := by
  cases h with
  | var | trivial => exact Nat.le_refl _
  | kept _ hk => exact hk.le

theorem Settled.ids_eq (h : place.Settled pinned operand place' temps u₁ u₂) : ids temps = u₁.taken u₂ := by
  cases h with
  | var | trivial => simp [ids, Supply.taken]
  | kept _ hk => exact hk.ids_eq

/-- Trivial trees need no temporaries, so they mention no variable from `n` on. -/
theorem clean_of_isTrivial {ps : List Prim} (h : Fresh n u u₁ (listPreorder ps))
    (ht : ∀ p ∈ ps, p.isTrivial = true) {x : Nat} (hx : n ≤ x) : Clean ⟨x⟩ (listPreorder ps) := by
  by_cases hx' : u.var ≤ x ∧ x < u₁.var
  · obtain ⟨-, -, -, locals, before, v, init, after, hmem, -⟩ := h.temp x hx'.1 hx'.2
    cases ht _ (mem_of_mem_listPreorder ht hmem)
  · exact h.clean x hx (by omega)

theorem Settled.prepared (h : place.Settled pinned operand place' temps u₁ u₂)
    (hf : Fresh n u u₁ (listPreorder place.parts)) : Prepared n u₁ u₂ place.parts place'.parts temps := by
  have hnone : ids [] = u₁.taken u₁ := by simp [ids, Supply.taken]
  cases h with
  | var =>
    exact ⟨Nat.le_refl _, hnone, fun _ _ _ => ⟨fun _ => rfl, id⟩, fun _ _ _ _ => rfl, fun _ _ _ _ => rfl,
      fun _ ht => absurd ht List.not_mem_nil, fun _ _ => Iff.rfl⟩
  | @trivial _ array indices _ _ ha hi =>
    have ht : ∀ p ∈ array :: indices, p.isTrivial = true := List.forall_mem_cons.2 ⟨ha, hi⟩
    exact ⟨Nat.le_refl _, hnone, fun _ _ _ => ⟨fun _ => rfl, id⟩, fun x hx _ => clean_of_isTrivial hf ht hx,
      fun _ _ hk _ => tally_of_isTrivial ht hk, fun _ ht => absurd ht List.not_mem_nil, fun _ _ => Iff.rfl⟩
  | kept _ hk => exact hk.prepared n

end Place

theorem StepForm.le {k : StepKind} {method : Option Method} {operand : Expr} {place : Place Prim} {p : Prim}
    {u u' : Supply} (h : StepForm k method operand place p u u') : u.var ≤ u'.var := by
  cases h with
  | primitive _ _ hp => exact hp.le
  | functional _ hp ho hw =>
    exact Nat.le_trans hp.le (Nat.le_trans (Supply.le_fresh ho) (Supply.le_fresh hw))

theorem InvokeForm.le {params : List Descriptor} {ty : Ty} {tys : List Ty} {c p : Prim} {vs : List Prim}
    {u u' : Supply} (h : InvokeForm params ty tys c vs p u u') : u.var ≤ u'.var := by
  cases h with
  | direct => exact Nat.le_refl _
  | spilled _ _ _ hk _ => exact hk.le

end ExprLowering
