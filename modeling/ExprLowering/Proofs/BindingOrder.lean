import ExprLowering.Proofs.Bindings
import ExprLowering.Proofs.CallRuns
import ExprLowering.Proofs.UncheckedRuns

/-!
# The order of bindings

Bindings that do nothing but compute their values can be written in any order: from one and the same store the lowered
calls end alike (`Lowerer.eval_lower_permuted`), though one may be a direct call and the other a block of temporaries.
-/

namespace ExprLowering

open Correspondence

/-! ### Arguments -/

/-- Bindings in another order give related arguments if each gives related values. -/
theorem Signature.Takes.forall₂_pick {s : Signature} {bindings bindings' : List Binding} {slots slots' : List Slot}
    (h : s.Takes (bindings.map (·.param))) (hperm : bindings.Perm bindings')
    (hslots : s.slots? (bindings.map (·.param)) = some slots)
    (hslots' : s.slots? (bindings'.map (·.param)) = some slots') {R : Value → Value → Prop}
    (hconst : ∀ c, R (.ofConstant c) (.ofConstant c)) {G G' : Binding → Value → Prop} {vs vs' : List Value}
    (hvs : List.Forall₂ G bindings vs) (hvs' : List.Forall₂ G' bindings' vs')
    (hG : ∀ b ∈ bindings, ∀ v v', G b v → G' b v' → R v v') :
    List.Forall₂ R (slots.map (Slot.pick .ofConstant vs)) (slots'.map (Slot.pick .ofConstant vs')) := by
  have hpos : (bindings.map (·.param)).Perm (bindings'.map (·.param)) := hperm.map _
  have hassigns := h.assigns hslots
  have hassigns' := (h.perm hpos).assigns hslots'
  rw [List.forall₂_map_left_iff, List.forall₂_map_right_iff, List.forall₂_iff_get]
  refine ⟨hassigns.length.trans hassigns'.length.symm, fun i hi hi' => ?_⟩
  have hslot : slots[i]? = some (slots.get ⟨i, hi⟩) := List.getElem?_eq_getElem hi
  have hslot' : slots'[i]? = some (slots'.get ⟨i, hi'⟩) := List.getElem?_eq_getElem hi'
  generalize slots.get ⟨i, hi⟩ = slot, slots'.get ⟨i, hi'⟩ = slot' at hslot hslot'
  cases slot with
  | default c =>
    obtain ⟨hunbound, hc⟩ := (hassigns.default i c).1 hslot
    have hdefault := (hassigns'.default i c).2 ⟨fun hm => hunbound ((hpos.map _).mem_iff.2 hm), hc⟩
    cases hslot'.symm.trans hdefault
    exact hconst c
  | bound j =>
    obtain ⟨d, hd, hi⟩ := (hassigns.bound i j).1 hslot
    rw [List.getElem?_map, Option.map_eq_some_iff] at hd
    obtain ⟨b, hb, rfl⟩ := hd
    have hmem := List.mem_of_getElem? hb
    obtain ⟨j', hb'⟩ := List.mem_iff_getElem?.1 (hperm.mem_iff.1 hmem)
    have hbound := (hassigns'.bound i j').2 ⟨b.param, by rw [List.getElem?_map, hb']; rfl, hi⟩
    cases hslot'.symm.trans hbound
    obtain ⟨v, hv, hGv⟩ := exists_of_forall₂ hvs hb
    obtain ⟨v', hv', hGv'⟩ := exists_of_forall₂ hvs' hb'
    simp only [Slot.pick, List.getD_eq_getElem?_getD, hv, hv', Option.getD_some]
    exact hG b hmem v v' hGv hGv'

variable {σ : Type} {L : Prop} {R : Pairing → σ → σ → Prop} {m : Machine} {host : Host σ} {enter : Enter σ}
  {w : Pairing} {scopes scopes' : List Scope} {s t : Store σ} {n : Nat}

open Machine (Yields)

/-! ### Two calls -/

/-- The variables numbered below `n`, by their names. -/
def Naming.below (n : Nat) : Naming :=
  fun x y => x = y ∧ x.val < n

section
variable {signature : Signature} {bindings bindings' : List Binding} (hh : host.Opaque L R m)
  (hf : EnterFollows L R m enter) (htakes : signature.Takes (bindings.map (·.param)))
  (hperm : bindings.Perm bindings')
include hh hf htakes hperm

theorem CallEnd.follow {slots slots' : List Slot} {own own' : CellId → Prop} {r r' : Except Fault Value}
    {x y : Eval σ Value} {s₁ t₁ : Store σ} {w₁ : Pairing}
    (hx : CallEnd host m enter scopes own slots (bindings.map (·.value.plainTree)) s₁ r (x.run s))
    (hy : CallEnd host m enter scopes' own' slots' (bindings'.map (·.value.plainTree)) t₁ r' (y.run t))
    (hslots : signature.slots? (bindings.map (·.param)) = some slots)
    (hslots' : signature.slots? (bindings'.map (·.param)) = some slots')
    (hplain : ∀ b ∈ bindings, b.value.plainTree.Plain n) (hΓ : (Naming.below n).Paired m w₁ scopes scopes')
    (hgrow : w.Grows s t w₁ s₁ t₁) (hs : s₁.Alike L R m w₁ t₁) (hown : ∀ {c d}, w₁ c d → ¬ own c ∧ ¬ own' d)
    (hr : EndAlike (Value.Alike L m w₁) r r') : Follow L R m w s t x y (Value.Alike L m) := by
  have hsame {b : Binding} (hb : b ∈ bindings) {r r' : Except Fault Value}
      (h : Yields host m enter scopes s₁ b.value.plainTree r)
      (h' : Yields host m enter scopes' t₁ b.value.plainTree r') : SameResult (Value.Alike L m w₁) r r' :=
    (hplain b hb).yields_alike hs (fun z hz => hΓ z z ⟨rfl, hz⟩) h h'
  generalize hx' : x.run s = a at hx
  generalize hy' : y.run t = a' at hy
  cases hx with
  | callee f =>
    cases hr with
    | error =>
      cases hy
      rw [Follow, RunsFrom, hx', hy']
      exact .inr ⟨w₁, hgrow, hs, .error trivial⟩
  | value hp hfault ht =>
    obtain ⟨b, hb, rfl⟩ := List.mem_map.1 hp
    cases hr
    cases hy with
    | value _ _ ht' =>
      rw [Follow, RunsFrom, hx', hy']
      exact .inr ⟨w₁, hgrow.trans (.of_size ht.size ht'.size), ht.alike ht' hs hown, .error trivial⟩
    | call hvs' _ =>
      obtain ⟨v, hv⟩ := Yields.of_mem hvs' (List.mem_map.2 ⟨b, hperm.mem_iff.1 hb, rfl⟩)
      cases hsame hb hfault hv
  | call hvs ht =>
    obtain ⟨hv⟩ := hr
    cases hy with
    | value hp' hfault' _ =>
      obtain ⟨b, hb, rfl⟩ := List.mem_map.1 hp'
      have hb := hperm.mem_iff.2 hb
      obtain ⟨v, hv⟩ := Yields.of_mem hvs (List.mem_map.2 ⟨b, hb, rfl⟩)
      cases hsame hb hv hfault'
    | call hvs' ht' =>
      rw [List.forall₂_map_left_iff] at hvs hvs'
      have halike (b : Binding) (hb : b ∈ bindings) (v v' : Value)
          (h : Yields host m enter scopes s₁ b.value.plainTree (.ok v))
          (h' : Yields host m enter scopes' t₁ b.value.plainTree (.ok v')) : v.Alike L m w₁ v' := by
        obtain ⟨h⟩ := hsame hb h h'
        exact h
      have hargs := htakes.forall₂_pick hperm hslots hslots' (fun c => .ofConstant c) hvs hvs' halike
      have hgrow' := hgrow.trans (.of_size ht.size ht'.size)
      have hruns := (Runs.apply hh.hosts hf hv hargs).runsFrom (K := fun _ => True) (ht.alike ht' hs hown)
      exact .of_run hx' hy' hgrow'.trans (fun _ _ _ _ => id) hruns

/-- Lowered calls of one callee with the same plain bindings in two orders. -/
theorem InvokeForm.follows_of_perm {ty : Ty} {tys tys' : List Ty} {c c' p p' : Prim} {u u' v v' : Supply}
    (hform : InvokeForm (bindings.map (·.param)) ty tys c (bindings.map (·.value.plainTree)) p u u')
    (hform' : InvokeForm (bindings'.map (·.param)) ty tys' c' (bindings'.map (·.value.plainTree)) p' v v')
    (hty : ty.signature? = some signature) (hplain : ∀ b ∈ bindings, b.value.plainTree.Plain n)
    (hc : c.AlikeBelow L n c') (hu : n ≤ u.var) (hv : n ≤ v.var) (hΓ : (Naming.below n).Paired m w scopes scopes') :
    EvalFollows L R m host enter w scopes scopes' p p' := by
  have htakes' := htakes.perm (hperm.map (·.param))
  obtain ⟨slots, hslots⟩ := htakes.bound.exists_slots
  obtain ⟨slots', hslots'⟩ := htakes'.bound.exists_slots
  have hplain' : ∀ b ∈ bindings', b.value.plainTree.Plain n := fun b hb => hplain b (hperm.mem_iff.2 hb)
  intro w₁ s t hle hs
  have hΓ := hΓ.mono hle
  -- Both calls may make cells of their own, and then find the callee.
  obtain ⟨scopes₁, s₀, hsame, hcells, hend⟩ := hform.callEnd hty htakes.bound hslots (by simp)
    (List.forall_mem_map.2 hplain) hu (fun x hx d hd => hΓ.lt_left hs ⟨rfl, hx⟩ hd) host enter
  obtain ⟨scopes₁', t₀, hsame', hcells', hend'⟩ := hform'.callEnd hty htakes'.bound hslots' (by simp)
    (List.forall_mem_map.2 hplain') hv (fun x hx d hd => hΓ.lt_right hs ⟨rfl, hx⟩ hd) host enter
  have hs₀ : s₀.Alike L R m w₁ t₀ := hsame.alike hsame' hs fun _ => ⟨id, id⟩
  have hΓ₀ : (Naming.below n).Paired m w₁ scopes₁ scopes₁' := by
    rintro x _ ⟨rfl, hx⟩
    rw [hcells x hx, hcells' x hx]
    exact hΓ x x ⟨rfl, hx⟩
  have hcallee : Follow L R m w₁ s₀ t₀ (m.evalWith host id enter scopes₁ c) (m.evalWith host id enter scopes₁' c')
      (Value.Alike L m) := ((hc (.below n) fun x hx => ⟨rfl, hx⟩).follows hh hf hΓ₀).runsFrom hs₀
  rcases hr : (m.evalWith host id enter scopes₁ c).run s₀ with ⟨r, s₁⟩
  rcases hr' : (m.evalWith host id enter scopes₁' c').run t₀ with ⟨r', t₁⟩
  rw [Follow, RunsFrom, hr, hr'] at hcallee
  have hend := hend r s₁ hr
  have hend' := hend' r' t₁ hr'
  rcases hcallee with ⟨hL, f, hfault⟩ | ⟨w₂, hgrow, hs₁, hresult⟩
  · have hfault : r = .error f := hfault
    subst hfault
    have hend := hend (by rintro v ⟨⟩)
    generalize ha : (m.evalWith host id enter scopes p).run s = a at hend
    cases hend
    exact .inl ⟨hL, f, by rw [ha]⟩
  · have hgrow₀ : w₁.Grows s t w₁ s₀ t₀ := .of_size hsame.size hsame'.size
    refine CallEnd.follow hh hf htakes hperm (hend fun _ _ => hgrow.left) (hend' fun _ _ => hgrow.right) hslots hslots'
      hplain (hΓ₀.mono hgrow.le) (hgrow₀.trans hgrow) hs₁ (fun hcd => ?_) hresult
    -- the cells of a call's own are older than the new pairs, and newer than the others
    rcases hgrow.fresh hcd with hcd | ⟨hc, hd⟩
    · exact ⟨fun hown => Nat.not_lt.2 hown.1 (hs.left hcd), fun hown => Nat.not_lt.2 hown.1 (hs.right hcd)⟩
    · exact ⟨fun hown => Nat.not_lt.2 hc hown.2, fun hown => Nat.not_lt.2 hd hown.2⟩

/-- Lowerings of one call with the same plain bindings in two orders. -/
theorem LoweredTo.follows_of_perm {o o' : LowerOptions} {callee : Expr} {stamp stamp' : Stamp} {p p' : Prim}
    {u u' v v' : Supply}
    (hp : LoweredTo o (.node stamp (.invoke (bindings.map (·.param))) (callee :: bindings.map (·.value))) p u u')
    (hp' : LoweredTo o' (.node stamp' (.invoke (bindings'.map (·.param))) (callee :: bindings'.map (·.value))) p' v v')
    (he : Expr.WellMade (.node stamp (.invoke (bindings.map (·.param))) (callee :: bindings.map (·.value))))
    (he' : Expr.WellMade (.node stamp' (.invoke (bindings'.map (·.param))) (callee :: bindings'.map (·.value))))
    (hfold : o'.foldConstantArrays = o.foldConstantArrays) (hty : callee.ty = .fn signature)
    (hplain : ∀ b ∈ bindings, b.value.Plain) (hcallee : callee.Below n) (hvalues : ∀ b ∈ bindings, b.value.Below n)
    (hu : n ≤ u.var) (hv : n ≤ v.var) (hΓ : (Naming.below n).Paired m w scopes scopes') :
    EvalFollows L R m host enter w scopes scopes' p p' := by
  have htrees {bs : List Binding} {o : LowerOptions} {ps : List Prim} {u u' : Supply}
      (h : Threaded (LoweredTo o) (bs.map (·.value)) ps u u') (hbs : ∀ b ∈ bs, b ∈ bindings)
      (hmade : ∀ e ∈ bs.map (·.value), e.WellMade) : ps = bs.map (·.value.plainTree) ∧ u' = u := by
    have hall : ∀ e ∈ bs.map (·.value), e.Plain ∧ e.WellMade := fun e hmem => by
      obtain ⟨b, hb, rfl⟩ := List.mem_map.1 hmem
      exact ⟨hplain b (hbs b hb), hmade _ hmem⟩
    have htrees := Expr.Plain.threaded h hall
    rw [List.map_map] at htrees
    exact htrees
  cases hp.form he with
  | invoke hc hvs hform =>
    cases hp'.form he' with
    | invoke hc' hvs' hform' =>
      obtain ⟨hmade, hmades⟩ := List.forall_mem_cons.1 he.part
      obtain ⟨rfl, rfl⟩ := htrees hvs (fun b hb => hb) hmades
      obtain ⟨rfl, rfl⟩ := htrees hvs' (fun b hb => hperm.mem_iff.2 hb) (List.forall_mem_cons.1 he'.part).2
      have hsame : callee.Relaxes L callee := .inl rfl
      obtain ⟨halike, hu, hv⟩ := hsame.lowersAlike hfold hmade hcallee _ _ _ _ _ _ hu hv hc hc'
      refine InvokeForm.follows_of_perm hh hf htakes hperm hform hform' ?_ (fun b hb => ?_) halike hu hv hΓ
      · rw [hty]
        rfl
      · exact (hplain b hb).tree (hvalues b hb)

end

/-! ### Lowering -/

theorem Expr.maxNesting_perm {fold : Bool} {es es' : List Expr} (h : es.Perm es') :
    maxNesting fold es = maxNesting fold es' := by
  induction h with
  | nil => rfl
  | cons e _ ih => rw [maxNesting, maxNesting, ih]
  | swap e e' es => simp only [maxNesting, max_left_comm]
  | trans _ _ ih ih' => exact ih.trans ih'

theorem Expr.nesting_invoke {fold : Bool} {stamp : Stamp} {params : List Descriptor} {parts : List Expr} :
    (node stamp (.invoke params) parts).nesting fold = 1 + maxNesting fold parts := by
  simp only [nesting]

/-- The order of bindings is seen only through the effects of their values. A call that is made with bindings in one
order is also made with them in any other order, and is then lowered whenever the first is. If the values of the
bindings are plain, then from the same store both lowered calls return corresponding values, or both fail, after
corresponding calls of the host, and leave corresponding values in all variables and arrays. -/
theorem Lowerer.eval_lower_permuted {callee : Expr} {bindings bindings' : List Binding} {stamp : Stamp}
    {r : Expr × Stamp} (hc : callee.Obtained) (hb : ∀ b ∈ bindings, b.value.Obtained)
    (hmake : Expr.mkInvoke callee bindings stamp = .ok r) (hperm : bindings.Perm bindings') (stamp' : Stamp) :
    ∃ r', Expr.mkInvoke callee bindings' stamp' = .ok r' ∧
      (∀ (l : Lowerer) (u u' : Supply), (∃ p, (l.lower r.1 u).1 = .ok p) ↔ ∃ p, (l.lower r'.1 u').1 = .ok p) ∧
      ((∀ b ∈ bindings, b.value.Plain) →
        ∀ {l l' : Lowerer} {u u' : Supply} {p p' : Prim},
          l'.options.foldConstantArrays = l.options.foldConstantArrays → r.1.Below u.var → r.1.Below u'.var →
          (l.lower r.1 u).1 = .ok p → (l'.lower r'.1 u').1 = .ok p' →
        ∀ {σ : Type} {R : Pairing → σ → σ → Prop} {m : Machine} {host : Host σ} {s : Store σ},
          host.Opaque False R m → s.Closed m → R s.identity s.host s.host →
        ∃ w, EndAlike (Value.Alike False m w) ((m.eval host p).run s).1 ((m.eval host p').run s).1 ∧
          (∀ c, c < s.cells.size → w c c ∧ (((m.eval host p).run s).2.cells.getD c .null).Alike False m w
            (((m.eval host p').run s).2.cells.getD c .null)) ∧
          (∀ a, a < s.grids.size → (((m.eval host p).run s).2.grids.getD a default).Alike False m w
            (((m.eval host p').run s).2.grids.getD a default)) ∧
          ((m.eval host p).run s).2.Alike False R m w ((m.eval host p').run s).2 ∧
          List.Forall₂ (HostCall.Alike False m w) (m.calls host p s) (m.calls host p' s)) := by
  obtain ⟨⟨signature, hty, htakes⟩, rfl⟩ := (Expr.mkInvoke_eq_ok ..).1 hmake
  have hb' : ∀ b ∈ bindings', b.value.Obtained := fun b hmem => hb b (hperm.mem_iff.2 hmem)
  have hmake' : Expr.mkInvoke callee bindings' stamp' = .ok _ :=
    (Expr.mkInvoke_eq_ok ..).2 ⟨⟨signature, hty, htakes.perm (hperm.map _)⟩, rfl⟩
  have hmade {bs : List Binding} (hbs : ∀ b ∈ bs, b.value.Obtained) : ∀ e ∈ callee :: bs.map (·.value), e.WellMade :=
    List.forall_mem_cons.2 ⟨hc.wellMade, List.forall_mem_map.2 fun b hmem => (hbs b hmem).wellMade⟩
  have he := Expr.make_wellMade hmake (hmade hb)
  have he' := Expr.make_wellMade hmake' (hmade hb')
  refine ⟨_, hmake', fun l u u' => ?_, ?_⟩
  · rw [lower_succeeds_iff he, lower_succeeds_iff he', Expr.nesting_invoke, Expr.nesting_invoke,
      Expr.maxNesting_perm ((hperm.map _).cons _)]
  · intro hplain l l' u u' p p' hfold hu hu' hp hp' σ R m host s hh hs hR
    have hmin : Expr.Below (min u.var u'.var) (.node stamp (.invoke (bindings.map (·.param)))
        (callee :: bindings.map (·.value))) := fun x hx => lt_min (hu x hx) (hu' x hx)
    obtain ⟨hcallee, hvalues⟩ := List.forall_mem_cons.1 hmin.part
    obtain ⟨u₁, hp⟩ := exists_loweredTo hp
    obtain ⟨u₁', hp'⟩ := exists_loweredTo hp'
    have hpaired : (Naming.below (min u.var u'.var)).Paired m s.identity [] [] := by
      rintro x _ ⟨rfl, -⟩
      exact hs.paired_nil x x rfl
    have hfollows := LoweredTo.follows_of_perm hh.logged (enterFollows hh.logged m.maxCallDepth) htakes hperm hp hp'
      he he' hfold hty hplain hcallee (List.forall_mem_map.1 hvalues) (min_le_left _ _) (min_le_right _ _) hpaired
    rcases EvalFollows.eval hfollows hs hR with ⟨hfalse, -⟩ | ⟨w, hle, hend, hstores, hcalls⟩
    · exact hfalse.elim
    · refine ⟨w, hend, fun c hlt => ?_, fun a _ => hstores.grids.grid a, hstores, hcalls⟩
      have hcc := hle c c ⟨rfl, hlt⟩
      exact ⟨hcc, hstores.cell hcc⟩

/-! ### A call in both orders -/

namespace SwappedCall

/-- `f` is a function of the host, and `j` is three. -/
def store : Store Nat where
  cells := #[.native ⟨0, "f"⟩, .ofWord ⟨.i32, 3, by decide, by decide⟩]
  host := 0

theorem store_closed : store.Closed Increment.machine where
  globals := by simp [Increment.machine, store]
  cells := by simp [store, Value.Within, Value.ofWord]
  grids := by simp [store]

end SwappedCall

open SwappedCall in
open Increment (counter machine) in
/-- `f(z: j + j, x: j)` calls the host with the same arguments as `f(x: j, z: j + j)`, though it is lowered to a block
and not to a call. -/
theorem Lowerer.eval_lower_permuted_swapped :
    ∃ e e' p p', Expr.mkInvoke (.var f) [last, first] 1 = .ok (e, 2) ∧
      Expr.mkInvoke (.var f) [first, last] 1 = .ok (e', 2) ∧ (lower {} e { var := 2 }).1 = .ok p ∧
      (lower {} e' { var := 2 }).1 = .ok p' ∧ (∃ locals body, p = .block locals body) ∧
      (∃ callee args, p' = .call callee args) ∧
      (machine.calls counter p store).map (·.args.map (·.asIndex.toOption)) = [[some 3, some 1, some 6]] ∧
      (machine.calls counter p' store).map (·.args.map (·.asIndex.toOption)) = [[some 3, some 1, some 6]] := by
  have hsum : sum.Obtained := by
    have hmake : Expr.make (.binary .add true) [.var j, .var j] 0 = .ok (sum, 1) := rfl
    exact .made (by simp [Expr.Obtained.var]) hmake
  -- The call in the order `z`, `x` is run here.
  obtain ⟨e, hmake, hbelow, p, hp, hblock, hcalls⟩ : ∃ e, Expr.mkInvoke (.var f) [last, first] 1 = .ok (e, 2) ∧
      e.Below 2 ∧ ∃ p, (lower {} e { var := 2 }).1 = .ok p ∧ (∃ locals body, p = .block locals body) ∧
        (machine.calls counter p store).map (·.args.map (·.asIndex.toOption)) = [[some 3, some 1, some 6]] :=
    ⟨_, rfl, by simp [Expr.Below, last, first, sum, f, j, Expr.vars, Expr.varsAll, Expr.binders], _, rfl,
      ⟨_, _, rfl⟩, by decide +kernel⟩
  obtain ⟨r', hmake', hlowers, hends⟩ := eval_lower_permuted (.var f) (by simp [hsum, last, first, Expr.Obtained.var])
    hmake (.swap first last []) 1
  obtain ⟨p', hp'⟩ := (hlowers {} { var := 2 } { var := 2 }).1 ⟨p, hp⟩
  have hplain : ∀ b ∈ [last, first], b.value.Plain := by
    simp [last, first, sum, Expr.Plain.var, Expr.Plain.binary]
  obtain ⟨w, -, -, -, -, hcalls'⟩ := hends hplain rfl hbelow hbelow hp hp' Increment.counter_opaque store_closed rfl
  obtain ⟨e', q, hnode, hq, hcall⟩ : ∃ e' q, Expr.mkInvoke (.var f) [first, last] 1 = .ok (e', 2) ∧
      (lower {} e' { var := 2 }).1 = .ok q ∧ ∃ callee args, q = .call callee args := ⟨_, _, rfl, rfl, _, _, rfl⟩
  cases hmake'.symm.trans hnode
  cases hp'.symm.trans hq
  refine ⟨e, e', p, p', hmake, hnode, hp, hp', hblock, hcall, hcalls, ?_⟩
  rw [← hcalls, ← List.forall₂_eq_eq_eq, List.forall₂_map_left_iff, List.forall₂_map_right_iff]
  refine hcalls'.flip.imp fun call call' h => ?_
  rw [← List.forall₂_eq_eq_eq, List.forall₂_map_left_iff, List.forall₂_map_right_iff]
  exact h.args.flip.imp fun v v' hv => by rw [hv.asIndex_eq]

end ExprLowering
