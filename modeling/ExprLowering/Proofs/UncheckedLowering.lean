import ExprLowering.Proofs.Alike
import ExprLowering.Proofs.Hygiene
import ExprLowering.Proofs.Unchecked

/-!
# Lowering twice, with or without overflow checks

Two lowerings of an expression are alike, whatever variables they take from their supplies, and so is the lowering of
the expression without overflow checks on increments (`Expr.Relaxes.lowersAlike`). The variables of the expression
itself are numbered below `n` and keep their names; those of temporaries are numbered from `n` on, and stand for each
other within the block that declares them.
-/

namespace ExprLowering

open Prim
open Temp (ids)

variable {L : Prop} {n : Nat} {u u' v v' : Supply}

/-! ### Names within a block of temporaries -/

namespace Naming
variable {Γ : Naming} {as bs : List VarId} {temps temps' : List Temp}

/-- The variables numbered below `n` keep their names. -/
def Keeps (n : Nat) (Γ : Naming) : Prop :=
  ∀ x : VarId, x.val < n → Γ x x

theorem Keeps.bindAll_self (h : Γ.Keeps n) (as : List VarId) : (Γ.bindAll as as).Keeps n :=
  fun x hx => Naming.bindAll_self (h x hx)

theorem Keeps.bindAll (h : Γ.Keeps n) (ha : ∀ x ∈ as, n ≤ x.val) (hb : ∀ x ∈ bs, n ≤ x.val) :
    (Γ.bindAll as bs).Keeps n := by
  intro x hx
  refine bindAll_of_notMem (h x hx) (fun hm => ?_) fun hm => ?_
  · exact absurd (ha x hm) (Nat.not_le.2 hx)
  · exact absurd (hb x hm) (Nat.not_le.2 hx)

/-- The names of variables where the temporaries are in scope: each stands for the one in its place. -/
structure Inside (n : Nat) (temps temps' : List Temp) (Γ : Naming) : Prop where
  keeps : Γ.Keeps n
  temps : List.Forall₂ (fun t t' => Γ t.var.id t'.var.id) temps temps'

theorem Keeps.inside (h : Γ.Keeps n) (hids : ids temps = u.taken u') (hids' : ids temps' = v.taken v')
    (hu : n ≤ u.var) (hv : n ≤ v.var) (hlen : temps.length = temps'.length) :
    (Γ.bindAll (ids temps) (ids temps')).Inside n temps temps' := by
  refine ⟨h.bindAll (fun x hx => ?_) fun x hx => ?_, List.forall₂_iff_zip.2 ⟨hlen, fun {t t'} ht => ?_⟩⟩
  · exact Nat.le_trans hu (Supply.le_of_mem_taken (hids ▸ hx))
  · exact Nat.le_trans hv (Supply.le_of_mem_taken (hids' ▸ hx))
  · refine bindAll_of_mem_zip (hids ▸ Supply.nodup_taken) (hids' ▸ Supply.nodup_taken) ?_
    rw [ids, ids, List.zip_map]
    exact List.mem_map_of_mem ht

/-- A variable that is no temporary of the left block is bound on the left only. -/
theorem Inside.hide {a : VarId} (h : Γ.Inside n temps temps') (ha : n ≤ a.val) (hm : a ∉ ids temps) :
    (Γ.hide a).Inside n temps temps' := by
  refine ⟨fun x hx => ⟨?_, h.keeps x hx⟩, ?_⟩
  · rintro rfl
    exact absurd ha (Nat.not_le.2 hx)
  · have hne : ∀ t ∈ temps, t.var.id ≠ a := fun t ht hta => hm (hta ▸ List.mem_map_of_mem ht)
    exact (List.forall₂_and_left _ _ |>.2 ⟨hne, h.temps⟩).imp fun _ _ h => h

theorem Inside.sameForm (h : Γ.Inside n temps temps')
    (htys : List.Forall₂ (fun t t' => t.var.ty = t'.var.ty) temps temps') :
    List.Forall₂ (Temp.SameForm Γ) temps temps' :=
  List.forall₂_iff_zip.2 ⟨htys.length_eq, fun ht =>
    ⟨(List.forall₂_iff_zip.1 htys).2 ht, (List.forall₂_iff_zip.1 h.temps).2 ht⟩⟩

theorem Inside.of_append {rest rest' : List Temp} (h : Γ.Inside n (temps ++ rest) (temps' ++ rest'))
    (hlen : temps.length = temps'.length) : Γ.Inside n temps temps' ∧ Γ.Inside n rest rest' := by
  have htake := List.forall₂_take temps.length h.temps
  have hdrop := List.forall₂_drop temps.length h.temps
  rw [List.take_left, hlen, List.take_left] at htake
  rw [List.drop_left, hlen, List.drop_left] at hdrop
  exact ⟨⟨h.keeps, htake⟩, ⟨h.keeps, hdrop⟩⟩

end Naming

/-! ### Expressions with and without checks -/

namespace Expr
variable {e e' : Expr} {es es' : List Expr}

theorem varsAll_congr (h : List.Forall₂ (fun e e' => e'.vars = e.vars) es es') : varsAll es' = varsAll es := by
  induction h with
  | nil => rfl
  | cons he _ ih => rw [varsAll, varsAll, he, ih]

theorem Unchecks.vars_eq (h : e.Unchecks e') : e'.vars = e.vars := by
  induction e using induction_parts generalizing e' with
  | const c => cases h; rfl
  | var x => cases h; rfl
  | node stamp head parts ih =>
    obtain _ | _ | hparts := h
    have hall := (List.forall₂_and_left _ _ |>.2 ⟨@ih, hparts⟩).imp fun _ _ h => h.1 h.2
    have hvars := congrArg (binders head ++ ·) (varsAll_congr hall)
    cases head <;> exact hvars

/-- The second expression is the first one or, where `L` holds, the first one without checks. -/
def Relaxes (L : Prop) (e e' : Expr) : Prop :=
  e' = e ∨ L ∧ e.Unchecks e'

namespace Relaxes

theorem ty_eq (h : e.Relaxes L e') : e'.ty = e.ty := by
  rcases h with rfl | ⟨-, h⟩
  · rfl
  · exact h.ty_eq

theorem vars_eq (h : e.Relaxes L e') : e'.vars = e.vars := by
  rcases h with rfl | ⟨-, h⟩
  · rfl
  · exact h.vars_eq

theorem wellMade (h : e.Relaxes L e') (he : e.WellMade) : e'.WellMade := by
  rcases h with rfl | ⟨-, h⟩
  · exact he
  · exact h.wellMade he

theorem parts (h : e.Relaxes L e') : List.Forall₂ (Relaxes L) e.parts e'.parts := by
  rcases h with rfl | ⟨hL, h⟩
  · exact List.forall₂_same.2 fun _ _ => .inl rfl
  · cases h with
    | const | var => exact .nil
    | node hparts => exact hparts.imp fun _ _ h => .inr ⟨hL, h⟩

theorem leaf (h : e.Relaxes L e') (he : e.isLeaf = true) : e' = e := by
  rcases h with rfl | ⟨-, h⟩
  · rfl
  · cases h with
    | const | var => rfl
    | node => cases he

theorem node {stamp : Stamp} {head : Head} {parts : List Expr} (h : (Expr.node stamp head parts).Relaxes L e') :
    ∃ stamp' head' parts', e' = .node stamp' head' parts' ∧ (head' = head ∨ L ∧ head' = head.unchecked) := by
  rcases h with rfl | ⟨hL, h⟩
  · exact ⟨stamp, head, parts, rfl, .inl rfl⟩
  · cases h with
    | node => exact ⟨_, _, _, rfl, .inr ⟨hL, rfl⟩⟩

theorem constants?_eq (h : List.Forall₂ (Relaxes L) es es') : constants? es' = constants? es := by
  induction h with
  | nil => rfl
  | cons he _ ih =>
    simp only [constants?, List.mapM_cons] at ih ⊢
    rw [ih]
    rcases he with rfl | ⟨-, he⟩
    · rfl
    · cases he <;> rfl

end Relaxes
end Expr

/-! ### Trees of one expression -/

/-- The trees are alike wherever the variables numbered below `n` keep their names. -/
def Prim.AlikeBelow (L : Prop) (n : Nat) (p q : Prim) : Prop :=
  ∀ Γ : Naming, Γ.Keeps n → p.Alike L Γ q

/-- The temporaries have one type, and are set to trees that are alike. -/
def Temp.AlikeBelow (L : Prop) (n : Nat) (t t' : Temp) : Prop :=
  t.var.ty = t'.var.ty ∧ t.init.AlikeBelow L n t'.init

namespace Prim
variable {Γ : Naming} {p q : Prim}

theorem Alike.const (c : Constant) : Alike L Γ (.const c) (.const c) :=
  .of_parts (.const c) .nil

theorem Alike.read {x y : Var} (h : Γ x.id y.id) : Alike L Γ (.read x) (.read y) :=
  .of_parts (.read h) .nil

theorem Alike.of_const {ps : List Prim} (h : ∀ p ∈ ps, ∃ c, p = .const c) :
    List.Forall₂ (Alike L Γ) ps ps := by
  refine List.forall₂_same.2 fun p hp => ?_
  obtain ⟨c, rfl⟩ := h p hp
  exact .const c

namespace AlikeBelow

theorem isTrivial_eq (h : p.AlikeBelow L n q) : p.isTrivial = q.isTrivial :=
  (h Eq fun _ _ => rfl).isTrivial_eq

theorem const_left {c : Constant} (h : (Prim.const c).AlikeBelow L n q) : q = .const c :=
  (h Eq fun _ _ => rfl).const_left

theorem const_right {c : Constant} (h : p.AlikeBelow L n (.const c)) : p = .const c :=
  (h Eq fun _ _ => rfl).const_right

theorem all {ps qs : List Prim} (h : List.Forall₂ (AlikeBelow L n) ps qs) (hΓ : Γ.Keeps n) :
    List.Forall₂ (Alike L Γ) ps qs :=
  h.imp fun _ _ h => h Γ hΓ

theorem node (hform : ∀ Γ : Naming, Γ.Keeps n → p.SameForm Γ q) (hb : p.binders = q.binders)
    (hparts : List.Forall₂ (AlikeBelow L n) p.parts q.parts) : p.AlikeBelow L n q := by
  intro Γ hΓ
  have hnaming : (p.naming Γ).Keeps n := by
    cases p with
    | quote => exact fun _ _ => rfl
    | _ => exact hΓ
  refine .of_parts (hform Γ hΓ) ?_
  rw [hb]
  exact all hparts (hnaming.bindAll_self _)

theorem scope {temps temps' : List Temp} {statements statements' : List Prim} {result result' : Prim}
    (hids : ids temps = u.taken u') (hids' : ids temps' = v.taken v') (hu : n ≤ u.var) (hv : n ≤ v.var)
    (htys : List.Forall₂ (fun t t' => t.var.ty = t'.var.ty) temps temps')
    (hinits : ∀ Γ : Naming, Γ.Inside n temps temps' →
      List.Forall₂ (fun t t' => t.init.Alike L Γ t'.init) temps temps')
    (hstatements : ∀ Γ : Naming, Γ.Inside n temps temps' → List.Forall₂ (Alike L Γ) statements statements')
    (hresult : ∀ Γ : Naming, Γ.Inside n temps temps' → result.Alike L Γ result') :
    (Temp.scope temps statements result).AlikeBelow L n (Temp.scope temps' statements' result') := by
  intro Γ hΓ
  have hin := hΓ.inside hids hids' hu hv htys.length_eq
  exact .scope (hin.sameForm htys) (hinits _ hin) (hstatements _ hin) (hresult _ hin)

end AlikeBelow
end Prim

namespace Place

/-- The locations are of one kind, with parts that are alike. -/
structure Alike (L : Prop) (Γ : Naming) (place place' : Place Prim) : Prop where
  form : place.SameForm Γ place'
  parts : List.Forall₂ (Prim.Alike L Γ) place.parts place'.parts

/-- The locations are alike wherever the variables numbered below `n` keep their names. -/
inductive AlikeBelow (L : Prop) (n : Nat) : Place Prim → Place Prim → Prop
  | var {x : Var} (hx : x.id.val < n) : AlikeBelow L n (.var x) (.var x)
  | element {array array' : Prim} {indices indices' : List Prim} (harray : array.AlikeBelow L n array')
      (hindices : List.Forall₂ (Prim.AlikeBelow L n) indices indices') :
      AlikeBelow L n (.element array indices) (.element array' indices')

section
variable {Γ : Naming} {place place' : Place Prim}

theorem Alike.read (h : place.Alike L Γ place') : place.read.Alike L Γ place'.read := by
  obtain ⟨hform, hparts⟩ := h
  cases hform with
  | var hx => exact .read hx
  | element hl => exact .of_parts (.element hl) hparts

theorem Alike.assign {value value' : Prim} (h : place.Alike L Γ place') (hv : value.Alike L Γ value') :
    (Prim.assign place value).Alike L Γ (.assign place' value') :=
  .of_parts (.assign h.form) (List.rel_append h.parts (.cons hv .nil))

theorem Alike.step (op : IncDec) (h : place.Alike L Γ place') : (Prim.step op place).Alike L Γ (.step op place') :=
  .of_parts (.step op h.form) h.parts

theorem AlikeBelow.alike (h : place.AlikeBelow L n place') (hΓ : Γ.Keeps n) : place.Alike L Γ place' := by
  cases h with
  | var hx => exact ⟨.var (hΓ _ hx), .nil⟩
  | element ha hi => exact ⟨.element hi.length_eq, .cons (ha Γ hΓ) (Prim.AlikeBelow.all hi hΓ)⟩

end
end Place

/-! ### Values that are kept -/

section
variable {temps temps' : List Temp}

/-- Of values that are alike the same ones are kept, in temporaries that are alike. -/
theorem Temp.Kept.alike {labels : List (String × Ty)} {values values' ps ps' : List Prim}
    (hk : Kept labels values ps temps u u') (hk' : Kept labels values' ps' temps' v v')
    (hvalues : List.Forall₂ (Prim.AlikeBelow L n) values values') :
    List.Forall₂ (Temp.AlikeBelow L n) temps temps' ∧
      ∀ Γ : Naming, Γ.Inside n temps temps' → List.Forall₂ (Prim.Alike L Γ) ps ps' := by
  induction hk generalizing values' ps' temps' v with
  | nil =>
    cases hk'
    exact ⟨.nil, fun _ _ => .nil⟩
  | const _ ih =>
    obtain _ | ⟨hvalue, hvalues⟩ := hvalues
    obtain rfl := hvalue.const_left
    cases hk' with
    | const hk' =>
      obtain ⟨htemps, hps⟩ := ih hk' hvalues
      exact ⟨htemps, fun Γ hΓ => .cons (.const _) (hps Γ hΓ)⟩
    | held hv' _ => exact absurd rfl (hv' _)
  | held hv _ ih =>
    obtain _ | ⟨hvalue, hvalues⟩ := hvalues
    cases hk' with
    | const _ => exact absurd hvalue.const_right (hv _)
    | held _ hk' =>
      obtain ⟨htemps, hps⟩ := ih hk' hvalues
      refine ⟨.cons ⟨rfl, hvalue⟩ htemps, fun Γ hΓ => ?_⟩
      obtain _ | ⟨hx, hrest⟩ := hΓ.temps
      exact .cons (.read hx) (hps Γ ⟨hΓ.keeps, hrest⟩)

theorem elementLabels_eq {array array' : Expr} {indices indices' : List Expr} (ha : array.Relaxes L array')
    (hi : List.Forall₂ (Expr.Relaxes L) indices indices') :
    elementLabels array' indices' = elementLabels array indices := by
  have hzip {f : Expr × Nat → String × Ty} (hf : ∀ e e' i, e'.ty = e.ty → f (e', i) = f (e, i)) :
      ∀ k, (indices'.zipIdx k).map f = (indices.zipIdx k).map f := by
    induction hi with
    | nil => exact fun _ => rfl
    | cons he _ ih =>
      intro k
      rw [List.zipIdx_cons, List.zipIdx_cons, List.map_cons, List.map_cons, ih, hf _ _ k he.ty_eq]
  rw [elementLabels, elementLabels, ha.ty_eq, hzip fun e e' i hty => congrArg (Prod.mk _) hty]

theorem Place.not_kept_of_isTrivial {pinned : Bool} {array : Prim} {indices : List Prim} (hp : pinned = false)
    (ha : array.isTrivial = true) (hi : ∀ i ∈ indices, i.isTrivial = true) :
    ¬ (pinned = true ∨ array.isTrivial = false ∨ ∃ i ∈ indices, i.isTrivial = false) := by
  rintro (h | h | ⟨i, hmem, h⟩)
  · exact Bool.false_ne_true (hp.symm.trans h)
  · exact Bool.false_ne_true (h.symm.trans ha)
  · exact Bool.false_ne_true (h.symm.trans (hi i hmem))

namespace Place.Settled
variable {pinned : Bool} {operand operand' : Expr} {place place' settled settled' : Place Prim}

theorem isTrivial (h : place.Settled pinned operand settled temps u u') :
    ∀ p ∈ settled.parts, p.isTrivial = true := by
  cases h with
  | var => exact fun _ hp => absurd hp List.not_mem_nil
  | trivial _ ha hi => exact List.forall_mem_cons.2 ⟨ha, hi⟩
  | kept _ hk => exact hk.isTrivial

theorem alike (h : place.Settled pinned operand settled temps u u')
    (h' : place'.Settled pinned operand' settled' temps' v v') (hplace : place.AlikeBelow L n place')
    (ho : operand.Relaxes L operand') :
    List.Forall₂ (Temp.AlikeBelow L n) temps temps' ∧
      ∀ Γ : Naming, Γ.Inside n temps temps' → settled.Alike L Γ settled' := by
  cases hplace with
  | var hx =>
    cases h
    cases h'
    exact ⟨.nil, fun Γ hΓ => (AlikeBelow.var hx).alike hΓ.keeps⟩
  | @element array array' indices indices' ha hi =>
    have hall : (∀ i ∈ indices, i.isTrivial = true) ↔ ∀ i ∈ indices', i.isTrivial = true := by
      clear h h'
      induction hi with
      | nil => rfl
      | cons hp _ ih => rw [List.forall_mem_cons, List.forall_mem_cons, hp.isTrivial_eq, ih]
    cases h with
    | trivial hp hta hti =>
      cases h' with
      | trivial => exact ⟨.nil, fun Γ hΓ => (AlikeBelow.element ha hi).alike hΓ.keeps⟩
      | kept hn _ => exact absurd hn (not_kept_of_isTrivial hp (ha.isTrivial_eq ▸ hta) (hall.1 hti))
    | kept hn hk =>
      cases h' with
      | trivial hp hta hti => exact absurd hn (not_kept_of_isTrivial hp (ha.isTrivial_eq.symm ▸ hta) (hall.2 hti))
      | kept _ hk' =>
        obtain _ | ⟨hoa, hoi⟩ := ho.parts
        rw [elementLabels_eq hoa hoi] at hk'
        obtain ⟨htemps, hps⟩ := hk.alike hk' (.cons ha hi)
        refine ⟨htemps, fun Γ hΓ => ⟨.element ?_, hps Γ hΓ⟩⟩
        exact Nat.succ.inj (hps Γ hΓ).length_eq

end Place.Settled
end

/-! ### Steps -/

theorem Temp.AlikeBelow.tys {temps temps' : List Temp} (h : List.Forall₂ (Temp.AlikeBelow L n) temps temps') :
    List.Forall₂ (fun t t' => t.var.ty = t'.var.ty) temps temps' :=
  h.imp fun _ _ h => h.1

theorem Temp.AlikeBelow.inits {temps temps' : List Temp} {Γ : Naming}
    (h : List.Forall₂ (Temp.AlikeBelow L n) temps temps') (hΓ : Γ.Keeps n) :
    List.Forall₂ (fun t t' => t.init.Alike L Γ t'.init) temps temps' :=
  h.imp fun _ _ h => h.2 Γ hΓ

section
variable {pinned : Bool} {k : StepKind} {method : Option Method} {operand operand' : Expr}
  {place place' settled settled' : Place Prim} {temps temps' : List Temp} {old new old' new' : Var}
  {u₁ u₂ v₁ v₂ : Supply}

theorem Place.Settled.alike_checked (hp : place.Settled pinned operand settled temps u u₁)
    (hp' : place'.Settled pinned operand' settled' temps' v v') (hplace : place.AlikeBelow L n place')
    (ho : operand.Relaxes L operand') (hu : n ≤ u.var) (hv : n ≤ v.var) (hL : L) {ty : Ty} {one : Constant}
    (hone : Constant.one? ty = some one) (op : IncDec) (hold : u₁.fresh "__old" ty = (old, u₂))
    (hnew : u₂.fresh "__new" ty = (new, u')) :
    (checkedIncrement op one settled temps old new).AlikeBelow L n (Temp.scope temps' [] (.step op settled')) := by
  obtain ⟨htemps, hsettled⟩ := hp.alike hp' hplace ho
  intro Γ hΓ
  cases hold
  cases hnew
  have hle := Nat.le_trans hu hp.le
  have hnone : ∀ x : Nat, u₁.var ≤ x → ⟨x⟩ ∉ ids temps := fun x hx hm => by
    rw [hp.ids_eq, Supply.mem_taken] at hm
    omega
  have hin := ((hΓ.inside hp.ids_eq hp'.ids_eq hu hv htemps.length_eq).hide hle
    (hnone u₁.var (Nat.le_refl _))).hide (Nat.le_succ_of_le hle) (hnone (u₁.var + 1) (Nat.le_succ _))
  have hsettled := hsettled _ hin
  refine .increment hL hone ?_ (hin.sameForm (Temp.AlikeBelow.tys htemps)) ?_ hsettled.form hp.isTrivial ?_
  · exact fun h => absurd (congrArg VarId.val h) (Nat.succ_ne_self _).symm
  · exact fun t t' ht => ((List.forall₂_iff_zip.1 htemps).2 ht).2 _ hin.keeps
  · exact fun a b hab => (List.forall₂_iff_zip.1 hsettled.parts).2 hab

theorem Place.Settled.alike_functional (hp : place.Settled pinned operand settled temps u u₁)
    (hp' : place'.Settled pinned operand' settled' temps' v v₁) (hplace : place.AlikeBelow L n place')
    (ho : operand.Relaxes L operand') (hu : n ≤ u.var) (hv : n ≤ v.var) {next next' : Prim}
    (hnext : ∀ Γ : Naming, Γ old.id old'.id → next.Alike L Γ next') (yieldsNew : Bool) {ty : Ty}
    (hold : u₁.fresh "__old" ty = (old, u₂)) (hnew : u₂.fresh "__new" ty = (new, u'))
    (hold' : v₁.fresh "__old" ty = (old', v₂)) (hnew' : v₂.fresh "__new" ty = (new', v')) :
    (Temp.scope (temps ++ [⟨old, settled.read⟩] ++ [⟨new, next⟩]) [.assign settled (.read new)]
      (if yieldsNew then .read new else .read old)).AlikeBelow L n
    (Temp.scope (temps' ++ [⟨old', settled'.read⟩] ++ [⟨new', next'⟩]) [.assign settled' (.read new')]
      (if yieldsNew then .read new' else .read old')) := by
  obtain ⟨htemps, hsettled⟩ := hp.alike hp' hplace ho
  have hty : old.ty = old'.ty ∧ new.ty = new'.ty := by
    cases hold
    cases hold'
    cases hnew
    cases hnew'
    exact ⟨rfl, rfl⟩
  have hinside {Γ : Naming} (hΓ : Γ.Inside n (temps ++ [⟨old, settled.read⟩] ++ [⟨new, next⟩])
        (temps' ++ [⟨old', settled'.read⟩] ++ [⟨new', next'⟩])) :
      Γ.Inside n temps temps' ∧ Γ old.id old'.id ∧ Γ new.id new'.id := by
    obtain ⟨hΓ, hnew⟩ := hΓ.of_append (by simp [htemps.length_eq])
    obtain ⟨hΓ, hold⟩ := hΓ.of_append htemps.length_eq
    obtain _ | ⟨hnew, _⟩ := hnew.temps
    obtain _ | ⟨hold, _⟩ := hold.temps
    exact ⟨hΓ, hold, hnew⟩
  refine .scope (Temp.ids_append_old_new hp.ids_eq hp.le hold hnew _ _)
    (Temp.ids_append_old_new hp'.ids_eq hp'.le hold' hnew' _ _) hu hv ?_ (fun Γ hΓ => ?_) (fun Γ hΓ => ?_)
    fun Γ hΓ => ?_
  · exact List.rel_append (List.rel_append (Temp.AlikeBelow.tys htemps) (.cons hty.1 .nil)) (.cons hty.2 .nil)
  · obtain ⟨hΓ, hold, -⟩ := hinside hΓ
    have hread : (settled.read).Alike L Γ settled'.read := (hsettled Γ hΓ).read
    exact List.rel_append (List.rel_append (Temp.AlikeBelow.inits htemps hΓ.keeps) (.cons hread .nil))
      (.cons (hnext Γ hold) .nil)
  · obtain ⟨hΓ, -, hnew⟩ := hinside hΓ
    exact .cons ((hsettled Γ hΓ).assign (.read hnew)) .nil
  · obtain ⟨-, hold, hnew⟩ := hinside hΓ
    split_ifs
    · exact .read hnew
    · exact .read hold

/-- A step is like itself and, where `L` holds, like the unchecked one. -/
theorem StepForm.alike {k' : StepKind} {p p' : Prim} (h : StepForm k method operand place p u u')
    (h' : StepForm k' method operand' place' p' v v') (hk : k' = k ∨ L ∧ k' = k.unchecked)
    (hplace : place.AlikeBelow L n place') (ho : operand.Relaxes L operand') (hu : n ≤ u.var) (hv : n ≤ v.var) :
    p.AlikeBelow L n p' := by
  have hop : k'.op = k.op := by rcases hk with rfl | ⟨-, rfl⟩ <;> rfl
  cases h with
  | primitive hm hunchecked hp =>
    cases h' with
    | primitive _ _ hp' =>
      obtain ⟨htemps, hsettled⟩ := hp.alike hp' hplace ho
      rw [hop]
      refine .scope hp.ids_eq hp'.ids_eq hu hv (Temp.AlikeBelow.tys htemps) ?_ (fun _ _ => .nil) ?_
      · exact fun Γ hΓ => Temp.AlikeBelow.inits htemps hΓ.keeps
      · exact fun Γ hΓ => (hsettled Γ hΓ).step k.op
    | functional hn' =>
      subst hm
      obtain ⟨hchecked, _⟩ := hn'
      rcases hk with rfl | ⟨-, rfl⟩
      · exact absurd (hunchecked.symm.trans hchecked) Bool.false_ne_true
      · cases hchecked
  | functional hn hp hold hnew =>
    obtain ⟨hchecked, hone⟩ | m := hn
    · cases h' with
      | primitive _ hunchecked hp' =>
        rcases hk with rfl | ⟨hL, rfl⟩
        · exact absurd (hunchecked.symm.trans hchecked) Bool.false_ne_true
        · exact hp.alike_checked hp' hplace ho hu hv hL hone k.op hold hnew
      | functional hn' hp' hold' hnew' =>
        obtain ⟨_, hone'⟩ := hn'
        rw [ho.ty_eq] at hold' hnew' hone'
        cases hone.symm.trans hone'
        rw [hop]
        refine hp.alike_functional hp' hplace ho hu hv (fun Γ h => ?_) k.op.yieldsNew hold hnew hold' hnew'
        exact .of_parts (.arith _ _) (.cons (.read h) (.cons (.const _) .nil))
    · cases h' with
      | primitive hm => cases hm
      | functional hn' hp' hold' hnew' =>
        obtain _ | _ := hn'
        rw [ho.ty_eq] at hold' hnew'
        rw [hop]
        refine hp.alike_functional hp' hplace ho hu hv (fun Γ h => ?_) k.op.yieldsNew hold hnew hold' hnew'
        exact .of_parts (.callMethod m rfl) (.cons (.read h) .nil)

end

/-! ### Invocations and arrays -/

theorem InvokeForm.alike {params : List Descriptor} {ty : Ty} {tys : List Ty} {c c' p p' : Prim} {vs vs' : List Prim}
    (hbound : ∀ {s}, ty.signature? = some s → s.Bound params) (hlen : vs.length = params.length)
    (h : InvokeForm params ty tys c vs p u u') (h' : InvokeForm params ty tys c' vs' p' v v')
    (hc : c.AlikeBelow L n c') (hvs : List.Forall₂ (Prim.AlikeBelow L n) vs vs') (hu : n ≤ u.var) (hv : n ≤ v.var) :
    p.AlikeBelow L n p' := by
  have hlen' : vs'.length = params.length := hvs.length_eq ▸ hlen
  cases h with
  | @direct _ slots _ _ hs hslots ho ha =>
    cases h' with
    | spilled _ _ ho' => rw [ho] at ho'; cases ho'
    | direct hs' hslots' _ ha' =>
      cases hs.symm.trans hs'
      cases hslots.symm.trans hslots'
      cases (hbound hs).arrange hslots hlen ▸ ha
      cases (hbound hs).arrange hslots hlen' ▸ ha'
      have hargs := Slot.forall₂_pick (fun c _ _ => .const c) hvs fun i hi => hlen ▸ (hbound hs).binding_lt hslots i hi
      exact .node (fun _ _ => .call hargs.length_eq) rfl (.cons hc hargs)
  | @spilled _ slots _ _ _ _ _ _ hs hslots ho hk ha =>
    cases h' with
    | direct _ _ ho' => rw [ho] at ho'; cases ho'
    | spilled hs' hslots' _ hk' ha' =>
      cases hs.symm.trans hs'
      cases hslots.symm.trans hslots'
      obtain ⟨htemps, hps⟩ := hk.alike hk' (.cons hc hvs)
      have hlen := (Nat.succ.inj hk.length).trans hlen
      cases (hbound hs).arrange hslots hlen ▸ ha
      cases (hbound hs).arrange hslots ((Nat.succ.inj hk'.length).trans hlen') ▸ ha'
      refine .scope hk.ids_eq hk'.ids_eq hu hv (Temp.AlikeBelow.tys htemps) ?_ (fun _ _ => .nil) fun Γ hΓ => ?_
      · exact fun Γ hΓ => Temp.AlikeBelow.inits htemps hΓ.keeps
      · obtain _ | ⟨hcallee, hvalues⟩ := hps Γ hΓ
        have hargs := Slot.forall₂_pick (fun c => Alike.const c) hvalues fun i hi =>
          hlen ▸ (hbound hs).binding_lt hslots i hi
        exact .of_parts (.call hargs.length_eq) (.cons hcallee hargs)

theorem storeElements?_alike {array array' : Var} {bounds : List Nat} {linear : Nat} {ps ps' stores stores' : List Prim}
    {Γ : Naming} (hΓ : Γ.Keeps n) (harray : Γ array.id array'.id) (hps : List.Forall₂ (Prim.AlikeBelow L n) ps ps')
    (h : storeElements? array bounds linear ps = some stores)
    (h' : storeElements? array' bounds linear ps' = some stores') : List.Forall₂ (Alike L Γ) stores stores' := by
  induction hps generalizing linear stores stores' with
  | nil =>
    cases h
    cases h'
    exact .nil
  | cons hp _ ih =>
    obtain ⟨is, rest, hi, hrest, rfl⟩ := storeElements?_cons_eq_some.1 h
    obtain ⟨is', rest', hi', hrest', rfl⟩ := storeElements?_cons_eq_some.1 h'
    cases hi.symm.trans hi'
    have hplace : (Place.element (.read array) is).Alike L Γ (.element (.read array') is) :=
      ⟨.element rfl, .cons (.read harray) (Alike.of_const (const_of_mapM_indexConstant hi))⟩
    exact .cons (hplace.assign (hp Γ hΓ)) (ih hrest hrest')

theorem arrayBlock?_alike {array array' : Var} {element : Ty} {bounds : List Nat} {ps ps' : List Prim} {p p' : Prim}
    {name : String} {ty : Ty} (hu : n ≤ u.var) (hv : n ≤ v.var) (hfresh : u.fresh name ty = (array, u'))
    (hfresh' : v.fresh name ty = (array', v')) (hps : List.Forall₂ (Prim.AlikeBelow L n) ps ps')
    (h : arrayBlock? array element bounds ps = some p) (h' : arrayBlock? array' element bounds ps' = some p') :
    p.AlikeBelow L n p' := by
  obtain ⟨sizes, stores, hsizes, hstores, rfl⟩ := arrayBlock?_eq_some h
  obtain ⟨sizes', stores', hsizes', hstores', rfl⟩ := arrayBlock?_eq_some h'
  cases hsizes.symm.trans hsizes'
  have hty : array.ty = array'.ty := by
    cases hfresh
    cases hfresh'
    rfl
  have hnone (u : Supply) : ids [] = u.taken u := by simp [ids, Supply.taken]
  have harray {Γ : Naming} (hΓ : Γ.Inside n [⟨array, .newArray element sizes⟩] [⟨array', .newArray element sizes⟩]) :
      Γ array.id array'.id := by
    obtain _ | ⟨h, _⟩ := hΓ.temps
    exact h
  refine .scope (Temp.ids_append_fresh (hnone u) (Nat.le_refl _) hfresh)
    (Temp.ids_append_fresh (hnone v) (Nat.le_refl _) hfresh') hu hv (.cons hty .nil) (fun Γ hΓ => ?_) (fun Γ hΓ => ?_)
    fun Γ hΓ => .read (harray hΓ)
  · refine .cons (.of_parts (.newArray element rfl) ?_) .nil
    exact Alike.of_const (const_of_mapM_indexConstant hsizes)
  · exact storeElements?_alike hΓ.keeps (harray hΓ) hps hstores hstores'

/-! ### Lowering -/

/-- Lowering gives trees that are alike, and only takes variables. -/
def LowersAlike (L : Prop) (o o' : LowerOptions) (n : Nat) (e e' : Expr) : Prop :=
  ∀ p p' u u' v v', n ≤ u.var → n ≤ v.var → LoweredTo o e p u u' → LoweredTo o' e' p' v v' →
    p.AlikeBelow L n p' ∧ n ≤ u'.var ∧ n ≤ v'.var

section
variable {o o' : LowerOptions} {e e' : Expr} {es es' : List Expr}

theorem Threaded.alike {ps ps' : List Prim} (h : Threaded (LoweredTo o) es ps u u')
    (h' : Threaded (LoweredTo o') es' ps' v v') (hall : List.Forall₂ (LowersAlike L o o' n) es es') (hu : n ≤ u.var)
    (hv : n ≤ v.var) : List.Forall₂ (Prim.AlikeBelow L n) ps ps' ∧ n ≤ u'.var ∧ n ≤ v'.var := by
  induction h generalizing es' ps' v with
  | nil =>
    cases hall
    cases h'
    exact ⟨.nil, hu, hv⟩
  | cons h _ ih =>
    obtain _ | ⟨he, hall⟩ := hall
    obtain _ | ⟨h', hs'⟩ := h'
    obtain ⟨hp, hu, hv⟩ := he _ _ _ _ _ _ hu hv h h'
    obtain ⟨hps, hle⟩ := ih hs' hall hu hv
    exact ⟨.cons hp hps, hle⟩

/-- The parts of a node, and the lowerings of these and of their parts. -/
def PartsAlike (L : Prop) (o o' : LowerOptions) (n : Nat) (e e' : Expr) : Prop :=
  e.Relaxes L e' ∧ LowersAlike L o o' n e e' ∧ List.Forall₂ (LowersAlike L o o' n) e.parts e'.parts

theorem PlaceRel.alike {place place' : Place Prim} (h : PlaceRel (LoweredTo o) e place u u')
    (h' : PlaceRel (LoweredTo o') e' place' v v') (he : PartsAlike L o o' n e e') (hb : e.Below n) (hu : n ≤ u.var)
    (hv : n ≤ v.var) : place.AlikeBelow L n place' ∧ n ≤ u'.var ∧ n ≤ v'.var := by
  obtain ⟨hrel, -, hall⟩ := he
  cases h with
  | var =>
    cases hrel.leaf rfl
    cases h'
    exact ⟨.var (hb _ (List.mem_singleton.2 rfl)), hu, hv⟩
  | element ha hi =>
    obtain ⟨_, _, _, rfl, -⟩ := hrel.node
    cases h' with
    | element ha' hi' =>
      obtain ⟨hps, hle⟩ := Threaded.alike (.cons ha hi) (.cons ha' hi') hall hu hv
      obtain _ | ⟨harray, hindices⟩ := hps
      exact ⟨.element harray hindices, hle⟩

theorem LoweredTo.base_le {p : Prim} (h : LoweredTo o e p u u') (he : e.WellMade) (hb : e.Below n) (hn : n ≤ u.var) :
    n ≤ u'.var :=
  Nat.le_trans hn ((lowersNeatly_rules o).of_loweredTo he h n hb hn).fresh.le

section
variable {stamp stamp' : Stamp} {p p' : Prim}

theorem LowerForm.alike_step {k k' : StepKind} {method : Option Method}
    (h : LowerForm o (LoweredTo o) (.node stamp (.step k method) es) p u u')
    (h' : LowerForm o' (LoweredTo o') (.node stamp' (.step k' method) es') p' v v') (hk : k' = k ∨ L ∧ k' = k.unchecked)
    (hb : Expr.Below n (.node stamp (.step k method) es)) (hparts : List.Forall₂ (PartsAlike L o o' n) es es')
    (hu : n ≤ u.var) (hv : n ≤ v.var) : p.AlikeBelow L n p' := by
  cases h with
  | step hp hform =>
    obtain _ | ⟨ho, _⟩ := hparts
    cases h' with
    | step hp' hform' =>
      obtain ⟨hplace, hu, hv⟩ := hp.alike hp' ho (hb.part _ (by simp [Expr.parts])) hu hv
      exact hform.alike hform' hk hplace ho.1 hu hv

theorem LowerForm.alike {head : Head} (h : LowerForm o (LoweredTo o) (.node stamp head es) p u u')
    (h' : LowerForm o' (LoweredTo o') (.node stamp' head es') p' v v')
    (hfolds : o'.foldConstantArrays = o.foldConstantArrays) (he : Expr.WellMade (.node stamp head es))
    (hb : Expr.Below n (.node stamp head es)) (hparts : List.Forall₂ (PartsAlike L o o' n) es es') (hu : n ≤ u.var)
    (hv : n ≤ v.var) : p.AlikeBelow L n p' := by
  have hall : List.Forall₂ (LowersAlike L o o' n) es es' := hparts.imp fun _ _ h => h.2.1
  cases h with
  | index ha hi =>
    obtain _ | _ := hparts
    cases h' with
    | index ha' hi' =>
      obtain ⟨hps, -⟩ := Threaded.alike (.cons ha hi) (.cons ha' hi') hall hu hv
      exact .node (fun _ _ => .element (Nat.succ.inj hps.length_eq)) rfl hps
  | binary hl hr =>
    cases h' with
    | binary hl' hr' =>
      obtain ⟨hps, -⟩ := Threaded.alike (.cons hl (.cons hr .nil)) (.cons hl' (.cons hr' .nil)) hall hu hv
      exact .node (fun _ _ => .arith _ _) rfl hps
  | call hc ha =>
    obtain _ | _ := hparts
    cases h' with
    | call hc' ha' =>
      obtain ⟨hps, -⟩ := Threaded.alike (.cons hc ha) (.cons hc' ha') hall hu hv
      exact .node (fun _ _ => .call (Nat.succ.inj hps.length_eq)) rfl hps
  | assign hp hvalue =>
    obtain _ | ⟨ht, _ | ⟨hval, _⟩⟩ := hparts
    cases h' with
    | assign hp' hvalue' =>
      obtain ⟨hplace, hu, hv⟩ := hp.alike hp' ht (hb.part _ (by simp [Expr.parts])) hu hv
      obtain ⟨hval, -⟩ := hval.2.1 _ _ _ _ _ _ hu hv hvalue hvalue'
      exact fun Γ hΓ => (hplace.alike hΓ).assign (hval Γ hΓ)
  | block hbody =>
    cases h' with
    | block hbody' =>
      obtain ⟨hps, -⟩ := hbody.alike hbody' hall hu hv
      exact .node (fun _ _ => .block rfl hps.length_eq) rfl hps
  | lambda hbody =>
    cases h' with
    | lambda hbody' =>
      obtain ⟨hps, -⟩ := Threaded.alike (.cons hbody .nil) (.cons hbody' .nil) hall hu hv
      exact .node (fun _ _ => .lambda _ _) rfl hps
  | quote hbody =>
    obtain _ | ⟨ho, _⟩ := hparts
    cases h' with
    | quote hbody' =>
      obtain ⟨hps, -⟩ := Threaded.alike (.cons hbody .nil) (.cons hbody' .nil) ho.2.2 hu hv
      obtain ⟨_, _, _, heq, hhead⟩ := ho.1.node
      cases heq
      rcases hhead with hhead | ⟨-, hhead⟩
      · cases hhead
        exact .node (fun _ _ => .quote _ _) rfl hps
      · cases hhead
        exact .node (fun _ _ => .quote _ _) rfl hps
  | step hp hform => exact alike_step (.step hp hform) h' (.inl rfl) hb hparts hu hv
  | fold hfold hvalues =>
    have hconst := Expr.Relaxes.constants?_eq (hparts.imp fun _ _ h => h.1)
    cases h' with
    | fold _ hvalues' =>
      cases hvalues.symm.trans (hconst ▸ hvalues')
      exact fun _ _ => .of_parts (.constArray _ _ _) .nil
    | array hfold' =>
      have hnone := hfold' (hfolds.trans hfold)
      rw [hconst, hvalues] at hnone
      cases hnone
  | array hfold hfresh hes hblock =>
    have hconst := Expr.Relaxes.constants?_eq (hparts.imp fun _ _ h => h.1)
    cases h' with
    | fold hfold' hvalues' =>
      rw [hconst, hfold (hfolds.symm.trans hfold')] at hvalues'
      cases hvalues'
    | array _ hfresh' hes' hblock' =>
      obtain ⟨hps, -⟩ := hes.alike hes' hall (Nat.le_trans hu (Supply.le_fresh hfresh))
        (Nat.le_trans hv (Supply.le_fresh hfresh'))
      exact arrayBlock?_alike hu hv hfresh hfresh' hps hblock hblock'
  | invoke hc hvs hform =>
    obtain _ | ⟨hcallee, hvalues⟩ := hparts
    cases h' with
    | invoke hc' hvs' hform' =>
      obtain ⟨hps, hu, hv⟩ := Threaded.alike (.cons hc hvs) (.cons hc' hvs') hall hu hv
      obtain _ | ⟨hcp, hps⟩ := hps
      have htys : ∀ {vs vs' : List Expr}, List.Forall₂ (PartsAlike L o o' n) vs vs' →
          vs'.map Expr.ty = vs.map Expr.ty := by
        intro vs vs' h
        induction h with
        | nil => rfl
        | cons h _ ih => rw [List.map_cons, List.map_cons, ih, h.1.ty_eq]
      rw [hcallee.1.ty_eq, htys hvalues] at hform'
      have hlen := he.invoke_length
      cases he.allows with
      | invoke hs _ hbound =>
        refine hform.alike ?_ (hvs.length ▸ hlen.symm) hform' hcp hps hu hv
        intro s hs'
        cases hs.symm.trans hs'
        exact hbound

end

/-- The lowerings of an expression are alike, also, where `L` holds, if one is of the expression without checks. -/
theorem Expr.Relaxes.lowersAlike (h : e.Relaxes L e') (hfolds : o'.foldConstantArrays = o.foldConstantArrays)
    (he : e.WellMade) (hb : e.Below n) : LowersAlike L o o' n e e' := by
  -- The parts of a location and of a quoted lambda are lowered in the place of the location or the lambda.
  suffices hboth : LowersAlike L o o' n e e' ∧ List.Forall₂ (LowersAlike L o o' n) e.parts e'.parts from hboth.1
  have hbase {e e' : Expr} (h : e.Relaxes L e') (he : e.WellMade) (hb : e.Below n)
      (halike : ∀ p p' u u' v v', n ≤ u.var → n ≤ v.var → LowerForm o (LoweredTo o) e p u u' →
        LowerForm o' (LoweredTo o') e' p' v v' → p.AlikeBelow L n p') : LowersAlike L o o' n e e' := by
    have hb' : e'.Below n := fun x hx => hb x (h.vars_eq ▸ hx)
    intro p p' u u' v v' hu hv hp hp'
    exact ⟨halike _ _ _ _ _ _ hu hv (hp.form he) (hp'.form (h.wellMade he)), hp.base_le he hb hu,
      hp'.base_le (h.wellMade he) hb' hv⟩
  induction e using Expr.induction_parts generalizing e' with
  | const c =>
    cases h.leaf rfl
    refine ⟨hbase h he hb fun p p' u u' v v' _ _ hp hp' => ?_, .nil⟩
    cases hp
    cases hp'
    exact fun _ _ => .const c
  | var x =>
    cases h.leaf rfl
    refine ⟨hbase h he hb fun p p' u u' v v' _ _ hp hp' => ?_, .nil⟩
    cases hp
    cases hp'
    exact fun Γ hΓ => .read (hΓ x.id (hb _ (List.mem_singleton.2 rfl)))
  | node stamp head parts ih =>
    have hparts := h.parts
    have hall := (List.forall₂_and_left _ _ |>.2 ⟨fun _ => id, hparts⟩).imp fun p p' ⟨hp, h⟩ =>
      show PartsAlike L o o' n p p' from ⟨h, ih p hp h (he.part p hp) (hb.part p hp)⟩
    refine ⟨hbase h he hb fun p p' u u' v v' hu hv hp hp' => ?_, hall.imp fun _ _ h => h.2.1⟩
    obtain ⟨stamp', head', parts', rfl, rfl | ⟨hL, rfl⟩⟩ := h.node
    · exact hp.alike hp' hfolds he hb hall hu hv
    · cases head with
      | step k method => exact hp.alike_step hp' (.inr ⟨hL, rfl⟩) hb hall hu hv
      | _ => exact hp.alike hp' hfolds he hb hall hu hv

theorem Expr.Unchecks.lowersAlike (h : e.Unchecks e') (he : e.WellMade) (hb : e.Below n) :
    LowersAlike True o o n e e' :=
  Relaxes.lowersAlike (.inr ⟨trivial, h⟩) rfl he hb

end

end ExprLowering
