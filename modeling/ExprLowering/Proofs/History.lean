import ExprLowering.Lowering.Pipeline
import ExprLowering.Proofs.DepthLimit
import ExprLowering.Proofs.Hygiene
import ExprLowering.Proofs.Renaming
import ExprLowering.Proofs.Sharing

/-!
# Lowering does not depend on what was lowered before

What a lowerer has lowered before shows in the supply alone: the next variable and the next stamp have moved on. Two
runs from different supplies draw their variables in step, so that the second run gives the tree of the first one
with its temporaries renamed. `LowerM.Tracks u v f x y` says this of two computations, where `f` is the renaming, and
is proved of each function of lowering along its definition. The limits of the two runs may differ: a limit is either
exceeded or makes no difference.
-/

namespace ExprLowering

/-! ### Runs in step -/

/-- The second state is as far past `v` as the first one is past `u`. -/
def InStep (u v : Supply) (s t : LowerState) : Prop :=
  ∃ i j, s.supply = ⟨u.var + i, u.stamp + j⟩ ∧ t.supply = ⟨v.var + i, v.stamp + j⟩

/-- The renaming takes each variable past `u` to the one that is as far past `v`, and likewise each stamp. -/
structure Renaming.Shifts (r : Renaming) (u v : Supply) : Prop where
  id : ∀ i, r.id ⟨u.var + i⟩ = ⟨v.var + i⟩
  stamp : ∀ j, r.stamp (u.stamp + j) = v.stamp + j

/-- If both computations succeed in step, the second one gives what `f` makes of the result of the first. -/
structure LowerM.Tracks {α β : Type} (u v : Supply) (f : α → β) (x : LowerM α) (y : LowerM β) : Prop where
  run : ∀ {s t a b s' t'}, InStep u v s t → x.run s = (.ok a, s') → y.run t = (.ok b, t') →
    b = f a ∧ InStep u v s' t'

namespace LowerM.Tracks
variable {α β γ δ : Type} {u v : Supply} {r : Renaming} {f : α → β} {g : γ → δ} {x : LowerM α} {y : LowerM β}

theorem pure {a : α} {b : β} (h : b = f a) : Tracks u v f (Pure.pure a) (Pure.pure b) := by
  refine ⟨fun hs hx hy => ?_⟩
  cases hx
  cases hy
  exact ⟨h, hs⟩

theorem bind {k : α → LowerM γ} {k' : β → LowerM δ} (hx : Tracks u v f x y)
    (hk : ∀ a, Tracks u v g (k a) (k' (f a))) : Tracks u v g (x >>= k) (y >>= k') := by
  refine ⟨fun hs hxk hyk => ?_⟩
  obtain ⟨a, s₁, hx₁, hk₁⟩ := run_bind_eq_ok.1 hxk
  obtain ⟨b, t₁, hy₁, hk₂⟩ := run_bind_eq_ok.1 hyk
  obtain ⟨rfl, hs₁⟩ := hx.run hs hx₁ hy₁
  exact (hk a).run hs₁ hk₁ hk₂

theorem throw (e e' : LowerError) : Tracks u v f (throw e : LowerM α) (throw e' : LowerM β) := by
  refine ⟨fun _ hx _ => ?_⟩
  cases hx

theorem freshVar (hr : r.Shifts u v) (name : String) (ty : Ty) :
    Tracks u v (Var.rename r) (LowerM.freshVar name ty) (LowerM.freshVar name ty) := by
  refine ⟨?_⟩
  rintro s t a b s' t' ⟨i, j, hs, ht⟩ hx hy
  cases hx
  cases hy
  refine ⟨?_, i + 1, j, ?_, ?_⟩
  · simp only [Var.rename, hs, ht, hr.id]
  · simp only [hs, Nat.add_assoc]
  · simp only [ht, Nat.add_assoc]

theorem freshStamp (hr : r.Shifts u v) : Tracks u v r.stamp LowerM.freshStamp LowerM.freshStamp := by
  refine ⟨?_⟩
  rintro s t a b s' t' ⟨i, j, hs, ht⟩ hx hy
  cases hx
  cases hy
  refine ⟨?_, i, j + 1, ?_, ?_⟩
  · simp only [hs, ht, hr.stamp]
  · simp only [hs, Nat.add_assoc]
  · simp only [ht, Nat.add_assoc]

theorem demand (reason : String) {o : Option α} {o' : Option β} (h : o' = o.map f) :
    Tracks u v f (LowerM.demand reason o) (LowerM.demand reason o') := by
  subst h
  cases o with
  | none => exact throw _ _
  | some a => exact pure rfl

/-- Going down a level is the same whatever the limits and the depths are, if both runs succeed. -/
theorem nested {limit limit' : Nat} (h : Tracks u v f x y) :
    Tracks u v f (LowerM.nested limit x) (LowerM.nested limit' y) := by
  refine ⟨fun {s t a b s' t'} hs hx hy => ?_⟩
  obtain ⟨s₁, s₂, hs₁, hx, hs₂⟩ := nested_eq_ok hx
  obtain ⟨t₁, t₂, ht₁, hy, ht₂⟩ := nested_eq_ok hy
  have hin : InStep u v s₁ t₁ := by
    rw [InStep, hs₁, ht₁]
    exact hs
  obtain ⟨hb, hout⟩ := h.run hin hx hy
  rw [InStep, hs₂, ht₂] at hout
  exact ⟨hb, hout⟩

end LowerM.Tracks

open LowerM (Tracks)

/-! ### Temporaries -/

/-- The temporary with another variable and the variables of its tree renamed. -/
def Temp.rename (r : Renaming) (t : Temp) : Temp :=
  ⟨t.var.rename r, t.init.rename r⟩

section
variable {u v : Supply} {r : Renaming}

theorem Temp.rename_scope (r : Renaming) (temps : List Temp) (statements : List Prim) (result : Prim) :
    (Temp.scope temps statements result).rename r =
      Temp.scope (temps.map (Temp.rename r)) (statements.map (Prim.rename r)) (result.rename r) := by
  unfold Temp.scope
  cases temps with
  | nil => rfl
  | cons t temps => simp [Prim.rename, Prim.renamePlace, Temp.rename, Function.comp_def]

theorem Temp.hold_tracks (hr : r.Shifts u v) (name : String) (ty : Ty) (value : Prim) :
    Tracks u v (Prod.map (Prim.rename r) (List.map (Temp.rename r))) (hold name ty value)
      (hold name ty (value.rename r)) :=
  (Tracks.freshVar hr name ty).bind fun _ => .pure rfl

theorem Temp.keep_tracks (hr : r.Shifts u v) (name : String) (ty : Ty) (value : Prim) :
    Tracks u v (Prod.map (Prim.rename r) (List.map (Temp.rename r))) (keep name ty value)
      (keep name ty (value.rename r)) := by
  cases value with
  | const c => exact .pure rfl
  | _ => exact hold_tracks hr name ty _

theorem Temp.keepAll_tracks (hr : r.Shifts u v) (labels : List (String × Ty)) (values : List Prim) :
    Tracks u v (Prod.map (List.map (Prim.rename r)) (List.map (Temp.rename r))) (keepAll labels values)
      (keepAll labels (values.map (Prim.rename r))) := by
  induction labels generalizing values with
  | nil => exact .pure rfl
  | cons label labels ih =>
    cases values with
    | nil => exact .pure rfl
    | cons value values =>
      refine (keep_tracks hr label.1 label.2 value).bind ?_
      rintro ⟨p, temps⟩
      refine (ih values).bind ?_
      rintro ⟨ps, rest⟩
      exact .pure (by simp [Prod.map])

theorem Place.settle_tracks (hr : r.Shifts u v) (pinned : Bool) (operand : Expr) (place : Place Prim) :
    Tracks u v (Prod.map (Prim.renamePlace r) (List.map (Temp.rename r))) (place.settle pinned operand)
      ((Prim.renamePlace r place).settle pinned operand) := by
  cases place with
  | var x => exact .pure rfl
  | element array indices =>
    rw [Prim.renamePlace, Prim.renameAll_eq_map, settle, settle]
    simp only [Prim.isTrivial_rename, List.all_map, Function.comp_def]
    split_ifs
    · exact .pure (by simp [Prim.renamePlace])
    · split
      · exact .throw _ _
      · refine (Temp.keep_tracks hr _ _ array).bind ?_
        rintro ⟨array', temps⟩
        refine (Temp.keepAll_tracks hr _ indices).bind ?_
        rintro ⟨indices', rest⟩
        exact .pure (by simp [Prod.map, Prim.renamePlace])

/-! ### Steps and invocations -/

theorem functionalStep_tracks (hr : r.Shifts u v) (k : StepKind) (ty : Ty) (place : Place Prim) (temps : List Temp)
    {next : Prim → Prim} (hnext : ∀ p, (next p).rename r = next (p.rename r)) :
    Tracks u v (Prim.rename r) (functionalStep k ty place temps next)
      (functionalStep k ty (Prim.renamePlace r place) (temps.map (Temp.rename r)) next) := by
  unfold functionalStep
  rw [← Prim.rename_read]
  refine (Temp.hold_tracks hr "__old" ty place.read).bind ?_
  rintro ⟨old, holdOld⟩
  simp only [Prod.map]
  rw [← hnext]
  refine (Temp.hold_tracks hr "__new" ty (next old)).bind ?_
  rintro ⟨new, holdNew⟩
  refine .pure ?_
  rw [Temp.rename_scope]
  split_ifs
  · simp [Prod.map, Prim.rename]
  · simp [Prod.map, Prim.rename]

theorem lowerStep_tracks (hr : r.Shifts u v) (k : StepKind) (method : Option Method) (operand : Expr)
    (place : Place Prim) :
    Tracks u v (Prim.rename r) (lowerStep k method operand place)
      (lowerStep k method operand (Prim.renamePlace r place)) := by
  unfold lowerStep
  split
  · refine (Place.settle_tracks hr false operand place).bind ?_
    rintro ⟨place', temps⟩
    exact .pure (by simp [Temp.rename_scope, Prim.rename])
  · refine (Place.settle_tracks hr false operand place).bind ?_
    rintro ⟨place', temps⟩
    refine (Tracks.demand (f := id) _ (by simp)).bind fun one => ?_
    exact functionalStep_tracks hr k operand.ty place' temps fun _ => rfl
  · refine (Place.settle_tracks hr true operand place).bind ?_
    rintro ⟨place', temps⟩
    exact functionalStep_tracks hr k operand.ty place' temps fun _ => rfl

theorem Slot.arrange_rename (r : Renaming) (slots : List Slot) (values : List (Option Prim)) :
    arrange slots (values.map (Option.map (Prim.rename r))) =
      (arrange slots values).map (List.map (Prim.rename r)) := by
  induction slots generalizing values with
  | nil => rfl
  | cons slot slots ih =>
    cases slot with
    | bound i =>
      have hset : (values.map (Option.map (Prim.rename r))).set i none =
          (values.set i none).map (Option.map (Prim.rename r)) := by rw [List.map_set]; rfl
      simp only [arrange, hset, ih, List.getElem?_map]
      rcases values[i]? with _ | _ | p
      · rfl
      · rfl
      · cases arrange slots (values.set i none) <;> rfl
    | default c =>
      simp only [arrange, ih]
      cases arrange slots values <;> rfl

theorem lowerInvoke_tracks (hr : r.Shifts u v) (params : List Descriptor) (calleeTy : Ty) (valueTys : List Ty)
    (callee : Prim) (values : List Prim) :
    Tracks u v (Prim.rename r) (lowerInvoke params calleeTy valueTys callee values)
      (lowerInvoke params calleeTy valueTys (callee.rename r) (values.map (Prim.rename r))) := by
  have harrange (slots : List Slot) (values : List Prim) :
      Slot.arrange slots ((values.map (Prim.rename r)).map some) =
        (Slot.arrange slots (values.map some)).map (List.map (Prim.rename r)) := by
    rw [← Slot.arrange_rename, List.map_map, List.map_map]
    rfl
  unfold lowerInvoke
  refine (Tracks.demand (f := id) _ (by simp)).bind fun slots => ?_
  simp only [id]
  split_ifs
  · refine (Tracks.demand _ (harrange slots values)).bind fun args => ?_
    exact .pure (by simp [Prim.rename])
  · refine (Temp.keep_tracks hr "__callee" calleeTy callee).bind ?_
    rintro ⟨callee', temps⟩
    refine (Temp.keepAll_tracks hr _ values).bind ?_
    rintro ⟨values', rest⟩
    refine (Tracks.demand _ (harrange slots values')).bind fun args => ?_
    exact .pure (by simp [Prod.map, Temp.rename_scope, Prim.rename])

/-! ### Arrays -/

theorem rename_indexConstants {ns : List Nat} {is : List Prim} (h : ns.mapM indexConstant? = some is) :
    is.map (Prim.rename r) = is := by
  have hself : ∀ p ∈ is, p.rename r = p := by
    intro p hp
    obtain ⟨c, rfl⟩ := const_of_mapM_indexConstant h p hp
    rfl
  rw [List.map_congr_left hself, List.map_id']

theorem storeElements?_rename (r : Renaming) (array : Var) (bounds : List Nat) (linear : Nat) (ps : List Prim) :
    storeElements? (array.rename r) bounds linear (ps.map (Prim.rename r)) =
      (storeElements? array bounds linear ps).map (List.map (Prim.rename r)) := by
  induction ps generalizing linear with
  | nil => rfl
  | cons p ps ih =>
    simp only [List.map_cons, storeElements?, ih]
    cases hindices : indexConstants? bounds linear with
    | none => rfl
    | some is =>
      cases storeElements? array bounds (linear + 1) ps with
      | none => rfl
      | some stores => simp [Prim.rename, Prim.renamePlace, rename_indexConstants hindices]

theorem arrayBlock?_rename (r : Renaming) (array : Var) (element : Ty) (bounds : List Nat) (ps : List Prim) :
    arrayBlock? (array.rename r) element bounds (ps.map (Prim.rename r)) =
      (arrayBlock? array element bounds ps).map (Prim.rename r) := by
  simp only [arrayBlock?, storeElements?_rename]
  cases hsizes : bounds.mapM indexConstant? with
  | none => rfl
  | some sizes =>
    cases storeElements? array bounds 0 ps with
    | none => rfl
    | some stores => simp [Prim.rename, Prim.renamePlace, rename_indexConstants hsizes]

/-! ### Expressions -/

namespace Expr
variable {o o' : LowerOptions} {e : Expr} {es : List Expr}

/-- The renaming leaves the variables of the expression alone. -/
def FixedBy (r : Renaming) (e : Expr) : Prop :=
  ∀ x ∈ e.vars, r.id x = x

theorem FixedBy.part {stamp : Stamp} {head : Head} {parts : List Expr} (h : (node stamp head parts).FixedBy r) :
    ∀ p ∈ parts, p.FixedBy r :=
  fun p hp x hx => h x (List.mem_append_right _ (mem_varsAll.2 ⟨p, hp, hx⟩))

theorem FixedBy.binders {stamp : Stamp} {head : Head} {parts : List Expr} (h : (node stamp head parts).FixedBy r) :
    ∀ x ∈ binders head, r.id x = x :=
  fun x hx => h x (List.mem_append_left _ hx)

/-- Lowering the expression by either options runs in step. -/
def LowersInStep (u v : Supply) (r : Renaming) (o o' : LowerOptions) (e : Expr) : Prop :=
  Tracks u v (Prim.rename r) (e.lowerNode o) (e.lowerNode o')

theorem lowerAll_tracks (h : ∀ e ∈ es, LowersInStep u v r o o' e) :
    Tracks u v (List.map (Prim.rename r)) (lowerAll o es) (lowerAll o' es) := by
  induction es with
  | nil =>
    rw [lowerAll, lowerAll]
    exact .pure rfl
  | cons e es ih =>
    rw [List.forall_mem_cons] at h
    rw [lowerAll, lowerAll]
    exact h.1.bind fun p => (ih h.2).bind fun ps => .pure rfl

theorem lowerPlace_tracks (he : e.WellMade) (hl : e.isLocation = true) (hfixed : e.FixedBy r)
    (h : ∀ p ∈ e.parts, LowersInStep u v r o o' p) :
    Tracks u v (Prim.renamePlace r) (lowerPlace o e) (lowerPlace o' e) := by
  cases e with
  | const c => cases hl
  | var x =>
    rw [lowerPlace, lowerPlace]
    refine .pure ?_
    rw [Prim.renamePlace, Var.rename_of_fixed (hfixed x.id (List.mem_singleton.2 rfl))]
  | node stamp head parts =>
    cases head with
    | index =>
      cases he.allows with
      | index =>
        obtain ⟨harray, hindices⟩ := List.forall_mem_cons.1 h
        rw [lowerPlace, lowerPlace]
        refine harray.bind fun a => (lowerAll_tracks hindices).bind fun is => .pure ?_
        rw [Prim.renamePlace, Prim.renameAll_eq_map]
    | _ => cases hl

theorem lowersInStep (hr : r.Shifts u v) (hfold : o'.foldConstantArrays = o.foldConstantArrays) (he : e.WellMade)
    (hfixed : e.FixedBy r) : LowersInStep u v r o o' e := by
  -- A place is lowered by way of its parts and a quotation by way of the body of its lambda, so the induction carries
  -- the parts of the expression along.
  suffices h : LowersInStep u v r o o' e ∧ ∀ p ∈ e.parts, LowersInStep u v r o o' p from h.1
  induction he with
  | const c =>
    refine ⟨?_, by simp [Expr.parts]⟩
    rw [LowersInStep, lowerNode, lowerNode]
    exact .nested (.pure rfl)
  | var x =>
    refine ⟨?_, by simp [Expr.parts]⟩
    rw [LowersInStep, lowerNode, lowerNode]
    refine .nested (.pure ?_)
    rw [Prim.rename, Var.rename_of_fixed (hfixed x.id (List.mem_singleton.2 rfl))]
  | @node stamp head parts check fits made ih =>
    have hpart : ∀ p ∈ parts, LowersInStep u v r o o' p := fun p hp => (ih p hp (hfixed.part p hp)).1
    have hinner : ∀ p ∈ parts, ∀ q ∈ p.parts, LowersInStep u v r o o' q := fun p hp =>
      (ih p hp (hfixed.part p hp)).2
    have hplace : ∀ p ∈ parts, p.isLocation = true →
        Tracks u v (Prim.renamePlace r) (lowerPlace o p) (lowerPlace o' p) := fun p hp hl =>
      lowerPlace_tracks (made p hp) hl (hfixed.part p hp) (hinner p hp)
    refine ⟨?_, hpart⟩
    have hallows := Head.allows_of_check check
    rw [LowersInStep]
    cases hallows with
    | index =>
      obtain ⟨harray, hindices⟩ := List.forall_mem_cons.1 hpart
      rw [lowerNode, lowerNode]
      refine .nested (harray.bind fun a => (lowerAll_tracks hindices).bind fun is => .pure ?_)
      rw [Prim.rename, Prim.renameAll_eq_map]
    | binary =>
      obtain ⟨hleft, hright⟩ := List.forall_mem_cons.1 hpart
      rw [lowerNode, lowerNode]
      exact .nested (hleft.bind fun l => (List.forall_mem_singleton.1 hright).bind fun p => .pure rfl)
    | call =>
      obtain ⟨hcallee, hargs⟩ := List.forall_mem_cons.1 hpart
      rw [lowerNode, lowerNode]
      refine .nested (hcallee.bind fun f => (lowerAll_tracks hargs).bind fun as => .pure ?_)
      rw [Prim.rename, Prim.renameAll_eq_map]
    | @assign target value hl =>
      rw [lowerNode, lowerNode]
      refine .nested ((hplace target (by simp) hl).bind fun place => ?_)
      exact (hpart value (by simp)).bind fun p => .pure rfl
    | @block locals =>
      rw [lowerNode, lowerNode]
      refine .nested ((lowerAll_tracks hpart).bind fun ps => .pure ?_)
      rw [Prim.rename, Prim.renameAll_eq_map, Var.map_rename_of_fixed hfixed.binders]
    | @lambda signature params body =>
      rw [lowerNode, lowerNode]
      refine .nested ((List.forall_mem_singleton.1 hpart).bind fun p => .pure ?_)
      rw [Prim.rename, Prim.renameCode, Var.map_rename_of_fixed hfixed.binders]
    | @quote operand hl =>
      have hoperand : operand ∈ [operand] := List.mem_singleton.2 rfl
      have hw := made operand hoperand
      have hf := hfixed.part operand hoperand
      have hbody := hinner operand hoperand
      cases operand with
      | const | var => cases hl
      | node inner head parts =>
        cases head with
        | lambda signature params =>
          cases hw.allows with
          | lambda =>
            rw [lowerNode, lowerNode]
            refine .nested ((List.forall_mem_singleton.1 hbody).bind fun p => ?_)
            refine (Tracks.freshStamp hr).bind fun stamp => .pure ?_
            rw [Prim.rename, Prim.renameCode, Var.map_rename_of_fixed hf.binders]
        | _ => cases hl
    | @stepByOne _ operand hl =>
      rw [lowerNode, lowerNode]
      exact .nested ((hplace operand (by simp) hl).bind fun place => lowerStep_tracks hr _ _ operand place)
    | @stepByMethod _ _ operand _ hl =>
      rw [lowerNode, lowerNode]
      exact .nested ((hplace operand (by simp) hl).bind fun place => lowerStep_tracks hr _ _ operand place)
    | @array element bounds =>
      rw [lowerNode, lowerNode, hfold]
      refine .nested ?_
      split
      · exact .pure rfl
      · refine (Tracks.freshVar hr _ _).bind fun array => (lowerAll_tracks hpart).bind fun ps => ?_
        exact .demand _ (arrayBlock?_rename r array element _ ps)
    | invoke =>
      obtain ⟨hcallee, hvalues⟩ := List.forall_mem_cons.1 hpart
      rw [lowerNode, lowerNode]
      refine .nested (hcallee.bind fun c => (lowerAll_tracks hvalues).bind fun vs => ?_)
      exact lowerInvoke_tracks hr _ _ _ c vs

end Expr

end

/-! ### The renaming -/

namespace Supply
variable {u v : Supply}

/-- Variables and stamps from `u` on are taken to those from `v` on. -/
def shift (u v : Supply) : Renaming where
  id x := if x.val < u.var then x else ⟨x.val - u.var + v.var⟩
  stamp t := if t < u.stamp then t else t - u.stamp + v.stamp

theorem shift_shifts (u v : Supply) : (u.shift v).Shifts u v where
  id i := by
    simp only [shift]
    rw [if_neg (by omega), Nat.add_sub_cancel_left, Nat.add_comm]
  stamp j := by
    simp only [shift]
    rw [if_neg (Nat.not_lt.2 (Nat.le_add_right _ _)), Nat.add_sub_cancel_left, Nat.add_comm]

theorem shift_id_of_lt {x : VarId} (h : x.val < u.var) : (u.shift v).id x = x :=
  if_pos h

theorem shift_id (h : v.var = u.var) : (u.shift v).id = id := by
  funext x
  simp only [shift, h]
  split_ifs with hx
  · rfl
  · rw [Nat.sub_add_cancel (Nat.not_lt.1 hx)]
    rfl

theorem shift_stamp (h : v.stamp = u.stamp) : (u.shift v).stamp = id := by
  funext t
  simp only [shift, h]
  split_ifs with ht
  · rfl
  · exact Nat.sub_add_cancel (Nat.not_lt.1 ht)

theorem rename_shift_self (u : Supply) (p : Prim) : p.rename (u.shift u) = p := by
  have hshift : u.shift u = ⟨id, id⟩ := by
    rw [← shift_id rfl, ← shift_stamp rfl]
  rw [hshift, Prim.rename_id]

/-- The `k` variables from `u` on are taken to those from `v` on. What comes before both stays, and the rest makes
room. -/
def moveBlock (u v : Supply) (k : Nat) : Renaming where
  id x :=
    if u.var ≤ x.val ∧ x.val < u.var + k then ⟨x.val - u.var + v.var⟩
    else if x.val < u.var ∧ x.val < v.var then x
    else ⟨x.val + v.var + k⟩
  stamp := (u.shift v).stamp

theorem moveBlock_injective (u v : Supply) (k : Nat) : Function.Injective (u.moveBlock v k).id := by
  rintro ⟨x⟩ ⟨y⟩ h
  simp only [moveBlock] at h
  -- The block goes below `v.var + k`, the rest from there on, and what stays is below `v.var`.
  split_ifs at h <;> simp only [VarId.mk.injEq] at h ⊢ <;> omega

theorem moveBlock_of_lt {x : VarId} (k : Nat) (hu : x.val < u.var) (hv : x.val < v.var) :
    (u.moveBlock v k).id x = x := by
  simp only [moveBlock]
  rw [if_neg (by omega), if_pos ⟨hu, hv⟩]

theorem moveBlock_add {i k : Nat} (h : i < k) : (u.moveBlock v k).id ⟨u.var + i⟩ = ⟨v.var + i⟩ := by
  simp only [moveBlock]
  rw [if_pos (by omega), Nat.add_sub_cancel_left, Nat.add_comm]

end Supply

namespace Lowerer
variable {l l' l₁ l₁' : Lowerer} {e : Expr} {p q : Prim} {u v u' v' : Supply}

/-- Of two lowerings the second gives the tree of the first one, renamed, and draws as much from the supply. -/
theorem lower_inStep {r : Renaming} (hr : r.Shifts u v)
    (hfold : l'.options.foldConstantArrays = l.options.foldConstantArrays) (he : e.WellMade) (hfixed : e.FixedBy r)
    (h : l.lower e u = (.ok p, l₁, u')) (h' : l'.lower e v = (.ok q, l₁', v')) :
    q = p.rename r ∧ ∃ k m, u' = ⟨u.var + k, u.stamp + m⟩ ∧ v' = ⟨v.var + k, v.stamp + m⟩ := by
  obtain ⟨s, s', hrun, rfl, rfl⟩ := loweredTo h
  obtain ⟨t, t', hrun', rfl, rfl⟩ := loweredTo h'
  exact (Expr.lowersInStep hr hfold he hfixed).run ⟨0, 0, rfl, rfl⟩ hrun hrun'

theorem names_of_lower {n : Nat} (he : e.WellMade) (hb : e.Below n) (hn : n ≤ u.var)
    (h : l.lower e u = (.ok p, l₁, u')) : ∀ x ∈ p.names, x.val < n ∨ u.var ≤ x.val ∧ x.val < u'.var := by
  intro x hx
  have hneat := (lowersNeatly_rules l.options).of_loweredTo he (loweredTo h) n hb hn
  by_contra hout
  have hclean := hneat.fresh.clean x.val (by omega) (by omega)
  rw [Prim.listPreorder, Prim.listPreorder, List.append_nil] at hclean
  exact hclean.not_mem_names hx

/-- A lowerer that was used before lowers what its limit admits, and is afterwards as it was. -/
theorem Used.exists_lower (hl : l.Used) (he : e.WellMade)
    (hn : e.nesting l.options.foldConstantArrays ≤ l.options.maxDepth) (u : Supply) :
    ∃ p u', l.lower e u = (.ok p, l, u') := by
  have hd := hl.depth
  obtain ⟨⟨p, hp⟩, hl'⟩ := lower_of_nesting_le (l := l) he u (by omega)
  exact ⟨p, (l.lower e u).2.2, Prod.ext hp (Prod.ext hl' rfl)⟩

/-- Two lowerings of an expression differ by an injective renaming of the temporaries. -/
theorem exists_renaming (he : e.WellMade) (hfold : l'.options.foldConstantArrays = l.options.foldConstantArrays)
    (hu : e.Below u.var) (hv : e.Below v.var) (h : l.lower e u = (.ok p, l₁, u'))
    (h' : l'.lower e v = (.ok q, l₁', v')) :
    ∃ k m, u' = ⟨u.var + k, u.stamp + m⟩ ∧ v' = ⟨v.var + k, v.stamp + m⟩ ∧
      ∃ r : Renaming, Function.Injective r.id ∧ (∀ x ∈ e.vars, r.id x = x) ∧
        (∀ i < k, r.id ⟨u.var + i⟩ = ⟨v.var + i⟩) ∧ (∀ j < m, r.stamp (u.stamp + j) = v.stamp + j) ∧
        q = p.rename r := by
  have hshifts := u.shift_shifts v
  obtain ⟨hq, k, m, rfl, rfl⟩ :=
    lower_inStep hshifts hfold he (fun x hx => Supply.shift_id_of_lt (hu x hx)) h h'
  refine ⟨k, m, rfl, rfl, u.moveBlock v k, Supply.moveBlock_injective u v k, ?_, ?_, ?_, ?_⟩
  · exact fun x hx => Supply.moveBlock_of_lt k (hu x hx) (hv x hx)
  · exact fun i hi => Supply.moveBlock_add hi
  · exact fun j _ => hshifts.stamp j
  · rw [hq]
    refine Prim.rename_congr rfl fun x hx => ?_
    -- A variable of the tree comes before both supplies, or is one of those drawn.
    have hb : e.Below (min u.var v.var) := fun x hx => Nat.lt_min.2 ⟨hu x hx, hv x hx⟩
    rcases names_of_lower he hb (Nat.min_le_left _ _) h x hx with hlt | ⟨hge, hlt⟩
    · obtain ⟨hxu, hxv⟩ := Nat.lt_min.1 hlt
      rw [Supply.shift_id_of_lt hxu, Supply.moveBlock_of_lt k hxu hxv]
    · obtain ⟨i, hi⟩ := Nat.exists_eq_add_of_le hge
      have hx : x = ⟨u.var + i⟩ := by rw [← hi]
      have hik : u.var + i < u.var + k := hi ▸ hlt
      rw [hx, hshifts.id, Supply.moveBlock_add (Nat.lt_of_add_lt_add_left hik)]

/-- From one supply, lowerers with different limits that both admit the expression give one tree. -/
theorem lower_of_limits (hl : l.Used) (hl' : l'.Used) (he : e.WellMade)
    (hfold : l'.options.foldConstantArrays = l.options.foldConstantArrays)
    (hn : e.nesting l.options.foldConstantArrays ≤ l.options.maxDepth)
    (hn' : e.nesting l'.options.foldConstantArrays ≤ l'.options.maxDepth) (hu : e.Below u.var) :
    l'.lower e u = ((l.lower e u).1, l', (l.lower e u).2.2) := by
  obtain ⟨p, u', hp⟩ := hl.exists_lower he hn u
  obtain ⟨q, v', hq⟩ := hl'.exists_lower he hn' u
  obtain ⟨hpq, k, m, rfl, rfl⟩ :=
    lower_inStep (u.shift_shifts u) hfold he (fun x hx => Supply.shift_id_of_lt (hu x hx)) hp hq
  rw [hq, hp, hpq, Supply.rename_shift_self]

end Lowerer

/-! ### Lowering after a traversal -/

section
variable {σ : Type} {t : Traversal σ} {notes : σ} {o : LowerOptions} {e : Expr} {u u' : Supply}
  {s : TraversalState σ}

theorem lowerTraversed_eq (h : t.run notes e u.stamp = (.ok e, s)) :
    lowerTraversed t notes o e u =
      (((e.lower o).run { u with stamp := s.stamp }).1.mapError .lower,
        ((e.lower o).run { u with stamp := s.stamp }).2) := by
  rw [lowerTraversed, h]
  simp only
  rcases (e.lower o).run { u with stamp := s.stamp } with ⟨_ | _, _⟩
  · rfl
  · rfl

theorem lowerTraversed_default (he : e.WellMade) (notes : σ) (o : LowerOptions) (u : Supply) :
    lowerTraversed {} notes o e u = (((e.lower o).run u).1.mapError .lower, ((e.lower o).run u).2) :=
  lowerTraversed_eq (Expr.traverse_default he ⟨u.stamp, notes⟩)

theorem run_lower (o : LowerOptions) (e : Expr) (u : Supply) :
    (e.lower o).run u = ((Lowerer.lower { options := o } e u).1, (Lowerer.lower { options := o } e u).2.2) :=
  rfl

/-- A new lowerer reports its limit if that does not admit the expression, whatever the supply is. -/
theorem run_lower_of_lt (he : e.WellMade) (hn : o.maxDepth < e.nesting o.foldConstantArrays) (u : Supply) :
    ((e.lower o).run u).1 = .error (.depthLimit o.maxDepth) :=
  (Lowerer.lower_of_lt_nesting (l := { options := o }) he u (Nat.zero_le _) (by rwa [Nat.zero_add])).1

theorem lowerTraversed_of_ok (he : e.WellMade) (hu : e.Below u.var) (h : t.run notes e u.stamp = (.ok e, s)) {p : Prim}
    (hp : (e.lower o).run u = (.ok p, u')) :
    ∃ r : Renaming, r.id = id ∧ (∀ j, r.stamp (u.stamp + j) = s.stamp + j) ∧
      lowerTraversed t notes o e u = (.ok (p.rename r), ⟨u'.var, u'.stamp - u.stamp + s.stamp⟩) := by
  have hshifts := u.shift_shifts { u with stamp := s.stamp }
  refine ⟨u.shift { u with stamp := s.stamp }, Supply.shift_id rfl, hshifts.stamp, ?_⟩
  -- It is lowered from the supply past the stamps that the traversal drew, in step with lowering from before them.
  have hn : e.nesting o.foldConstantArrays ≤ o.maxDepth := by
    by_contra hlt
    have herror := run_lower_of_lt he (Nat.not_le.1 hlt) u
    rw [hp] at herror
    cases herror
  obtain ⟨p', u'', hp'⟩ := (Lowerer.Used.new o).exists_lower he hn u
  obtain ⟨q, v', hq⟩ := (Lowerer.Used.new o).exists_lower he hn { u with stamp := s.stamp }
  rw [run_lower, hp'] at hp
  cases hp
  obtain ⟨rfl, k, m, rfl, rfl⟩ :=
    Lowerer.lower_inStep hshifts rfl he (fun x hx => Supply.shift_id_of_lt (hu x hx)) hp' hq
  rw [lowerTraversed_eq h, run_lower, hq]
  simp only [Except.mapError, Nat.add_sub_cancel_left, Nat.add_comm m]

theorem lowerTraversed_of_error (he : e.WellMade) (h : t.run notes e u.stamp = (.ok e, s)) {err : LowerError}
    (hp : (e.lower o).run u = (.error err, u')) : (lowerTraversed t notes o e u).1 = .error (.lower err) := by
  have hn : o.maxDepth < e.nesting o.foldConstantArrays := by
    by_contra hle
    obtain ⟨q, v', hq⟩ := (Lowerer.Used.new o).exists_lower he (Nat.not_lt.1 hle) u
    rw [run_lower, hq] at hp
    cases hp
  have herror := run_lower_of_lt he hn u
  rw [hp] at herror
  cases herror
  rw [lowerTraversed_eq h, run_lower_of_lt he hn]
  rfl

end

namespace Lowerer
variable {l l' : Lowerer} {e : Expr} {u v : Supply}

/-- What lowerers did before makes no difference. Whatever they lowered, with or without success, and whatever their
limits are, if these admit the expression: both succeed, draw as many variables and stamps, and give one tree up to a
renaming of the temporaries. From one supply they give the very same tree. A traversal that gives the expression back
makes no difference either, beyond the stamps that it draws. -/
theorem lower_independent (hl : l.Used) (hl' : l'.Used) (he : e.Obtained)
    (hfold : l'.options.foldConstantArrays = l.options.foldConstantArrays)
    (hn : e.nesting l.options.foldConstantArrays ≤ l.options.maxDepth)
    (hn' : e.nesting l'.options.foldConstantArrays ≤ l'.options.maxDepth) (hu : e.Below u.var) (hv : e.Below v.var) :
    (∃ p q k m, l.lower e u = (.ok p, l, ⟨u.var + k, u.stamp + m⟩) ∧
      l'.lower e v = (.ok q, l', ⟨v.var + k, v.stamp + m⟩) ∧
      ∃ r : Renaming, Function.Injective r.id ∧ (∀ x ∈ e.vars, r.id x = x) ∧
        (∀ i < k, r.id ⟨u.var + i⟩ = ⟨v.var + i⟩) ∧ (∀ j < m, r.stamp (u.stamp + j) = v.stamp + j) ∧
        q = p.rename r) ∧
    l'.lower e u = ((l.lower e u).1, l', (l.lower e u).2.2) ∧
    ∀ o : LowerOptions,
      (∀ {σ : Type} (notes : σ), lowerTraversed {} notes o e u =
        (((e.lower o).run u).1.mapError .lower, ((e.lower o).run u).2)) ∧
      ∀ {σ : Type} (t : Traversal σ) (notes : σ) s, t.run notes e u.stamp = (.ok e, s) →
        (∀ err u', (e.lower o).run u = (.error err, u') → (lowerTraversed t notes o e u).1 = .error (.lower err)) ∧
        ∀ p u', (e.lower o).run u = (.ok p, u') →
          ∃ r : Renaming, r.id = id ∧ (∀ j, r.stamp (u.stamp + j) = s.stamp + j) ∧
            lowerTraversed t notes o e u = (.ok (p.rename r), ⟨u'.var, u'.stamp - u.stamp + s.stamp⟩) := by
  have hw := he.wellMade
  refine ⟨?_, lower_of_limits hl hl' hw hfold hn hn' hu,
    fun o => ⟨fun notes => lowerTraversed_default hw notes o u, ?_⟩⟩
  · obtain ⟨p, u', hp⟩ := hl.exists_lower hw hn u
    obtain ⟨q, v', hq⟩ := hl'.exists_lower hw hn' v
    obtain ⟨k, m, rfl, rfl, hr⟩ := exists_renaming hw hfold hu hv hp hq
    exact ⟨p, q, k, m, hp, hq, hr⟩
  · intro σ t notes s h
    exact ⟨fun err u' => lowerTraversed_of_error hw h, fun p u' => lowerTraversed_of_ok hw hu h⟩

namespace AfterFailure

/-- `new int[] { v }` -/
def expr : Expr := .node 0 (.array (.int .i32) [1]) [.var ⟨⟨0⟩, "v", .int .i32⟩]

/-- A lowerer that could not lower a sum. -/
def used : Lowerer := (lower { options := { maxDepth := 3 } } (nestedSum 3) {}).2.1

theorem expr_obtained : expr.Obtained := by
  have hmake : Expr.mkArray (.int .i32) [1] [.var ⟨⟨0⟩, "v", .int .i32⟩] 0 = .ok (expr, 1) := rfl
  exact .made (List.forall_mem_singleton.2 (.var _)) hmake

theorem expr_below {n : Nat} (hn : 0 < n) : expr.Below n := by
  simp [expr, Expr.Below, Expr.vars, Expr.varsAll, Expr.binders, hn]

theorem used_used : used.Used :=
  .after {} (.new { maxDepth := 3 }) (nestedSum_obtained 3)

end AfterFailure

open AfterFailure in
/-- An array of one variable is made in the temporary `1` by a new lowerer, and in the temporary `5` by one that has
failed before. -/
theorem lower_independent_array :
    ∃ p q, lower {} expr { var := 1 } = (.ok p, {}, { var := 2 }) ∧
      lower used expr { var := 5 } = (.ok q, used, { var := 6 }) ∧
      ∃ r : Renaming, Function.Injective r.id ∧ r.id ⟨0⟩ = ⟨0⟩ ∧ r.id ⟨1⟩ = ⟨5⟩ ∧ q = p.rename r := by
  obtain ⟨⟨p, q, k, m, hp, hq, r, hinjective, hfixed, hids, -, hrename⟩, -⟩ :=
    lower_independent (u := { var := 1 }) (v := { var := 5 }) (.new {}) used_used expr_obtained rfl (by decide)
      (by decide) (expr_below (by decide)) (expr_below (by decide))
  obtain ⟨p', hp'⟩ : ∃ p', lower {} expr { var := 1 } = (.ok p', {}, { var := 2 }) := ⟨_, rfl⟩
  have hsupply : (⟨1 + k, 0 + m⟩ : Supply) = { var := 2 } := (Prod.mk.inj (Prod.mk.inj (hp.symm.trans hp')).2).2
  obtain ⟨hk, hm⟩ := Supply.mk.inj hsupply
  obtain rfl : k = 1 := by omega
  obtain rfl : m = 0 := (Nat.zero_add m).symm.trans hm
  exact ⟨p, q, hp, hq, r, hinjective, hfixed ⟨0⟩ (List.mem_singleton.2 rfl), hids 0 Nat.zero_lt_one, hrename⟩

end Lowerer

end ExprLowering
