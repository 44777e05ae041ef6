import Mathlib.Data.List.Forall2
import ExprLowering.Proofs.DepthLimit
import ExprLowering.Proofs.Sharing
import ExprLowering.Traversal.Stock

/-!
# Expressions without overflow checks on increments

`Unchecks e e'` says that `e'` is `e` with every checked increment or decrement, at any depth, made unchecked. The
two have the same type, and stand in the same places: what a node checks of its parts are their types, and whether
they are locations or lambdas (`Suits`). Dropping the checks succeeds on every well-made expression
(`dropsChecks`), and makes no difference to when lowering succeeds.
-/

namespace ExprLowering

/-! ### Parts in the place of others -/

namespace Expr

/-- The second expression can stand wherever the first one does. -/
structure Suits (e e' : Expr) : Prop where
  ty : e'.ty = e.ty
  isLocation : e.isLocation = true → e'.isLocation = true
  isLambda : e.isLambda = true → e'.isLambda = true

end Expr

section
variable {es es' : List Expr}

theorem checkAll_congr (ts : List Ty) (h : List.Forall₂ Expr.Suits es es') : checkAll ts es' = checkAll ts es := by
  induction h generalizing ts with
  | nil => rfl
  | cons he _ ih =>
    rcases ts with _ | ⟨t, ts⟩
    · rfl
    · rw [checkAll, checkAll, ih, checkAssignable, checkAssignable, he.ty]

/-- A step checks that its operand is a location, and the type of the operand, whatever its kind. -/
theorem Head.check_step_eq_ok {k : StepKind} {method : Option Method} {operand : Expr} :
    (Head.step k method).check [operand] = .ok () ↔ operand.isLocation = true ∧
      match method with
      | some m => m.checkOperator operand.ty = .ok ()
      | none => operand.ty.isArithmetic = true := by
  rw [← checkLocation_eq_ok]
  cases method with
  | some m =>
    show (checkLocation operand >>= fun _ => m.checkOperator operand.ty) = .ok () ↔ _
    rw [except_bind_eq_ok]
    exact ⟨fun ⟨_, h⟩ => h, fun h => ⟨(), h⟩⟩
  | none =>
    show (checkLocation operand >>= fun _ => if operand.ty.isArithmetic then _ else _) = .ok () ↔ _
    rw [except_bind_eq_ok]
    by_cases ha : operand.ty.isArithmetic = true
    · rw [if_pos ha]
      exact ⟨fun ⟨_, h, _⟩ => ⟨h, ha⟩, fun h => ⟨(), h.1, rfl⟩⟩
    · rw [if_neg ha]
      exact ⟨fun ⟨_, _, h⟩ => (nomatch h), fun h => absurd h.2 ha⟩

theorem Head.check_of_suits {head : Head} (h : List.Forall₂ Expr.Suits es es') (hc : head.check es = .ok ()) :
    head.check es' = .ok () := by
  unfold Head.check at hc
  split at hc
  · -- `index`
    rcases h with _ | ⟨hb, hi⟩
    simp only [Head.check, hb.ty, ← hi.length_eq, List.map_const', checkAll_congr _ hi] at hc ⊢
    exact hc
  · -- `binary`
    rcases h with _ | ⟨hl, _ | ⟨hr, _ | _⟩⟩
    rw [Head.check, hl.ty, hr.ty]
    exact hc
  · -- `call`
    rcases h with _ | ⟨hf, ha⟩
    simp only [Head.check, hf.ty, ← ha.length_eq, checkAll_congr _ ha]
    exact hc
  · -- `assign`
    rcases h with _ | ⟨ht, _ | ⟨hv, _ | _⟩⟩
    obtain ⟨_, hl, ha⟩ := except_bind_eq_ok.1 hc
    rw [Head.check, checkLocation_eq_ok.2 (ht.isLocation (checkLocation_eq_ok.1 hl)), checkAssignable, ht.ty, hv.ty]
    exact ha
  · -- `block`
    rcases h with _ | ⟨_, _⟩
    · exact hc
    · rfl
  · -- `lambda`
    rcases h with _ | ⟨hb, _ | _⟩
    rw [Head.check, checkAssignable, hb.ty]
    exact hc
  · -- `quote`
    rcases h with _ | ⟨ho, _ | _⟩
    split_ifs at hc with hl
    rw [Head.check, if_pos (ho.isLambda hl)]
  · -- `step`
    rcases h with _ | ⟨ho, _ | _⟩
    obtain ⟨hl, hm⟩ := Head.check_step_eq_ok.1 hc
    refine Head.check_step_eq_ok.2 ⟨ho.isLocation hl, ?_⟩
    rw [ho.ty]
    exact hm
  · -- `array`
    obtain ⟨hv, hb, hs⟩ := check_array_eq_ok.1 hc
    exact check_array_eq_ok.2 ⟨hv, hb, h.length_eq ▸ hs⟩
  · -- `invoke`
    rcases h with _ | ⟨hf, hv⟩
    simp only [Head.check, hf.ty, ← hv.length_eq, checkAll_congr _ hv]
    exact hc
  · cases hc

theorem Head.fits_of_suits {head : Head} (h : List.Forall₂ Expr.Suits es es') (hf : head.Fits es) : head.Fits es' := by
  cases head with
  | array element bounds =>
    refine Expr.forall_mem_of_forall₂ h fun e he e' hsuits => ?_
    rw [hsuits.ty]
    exact hf e he
  | _ => trivial

end

/-! ### Expressions without checks -/

/-- The head without the overflow check of an increment. -/
def Head.unchecked : Head → Head
  | .step k method => .step k.unchecked method
  | head => head

namespace Expr

/-- Every checked increment has become an unchecked one, and nothing else has changed. -/
inductive Unchecks : Expr → Expr → Prop
  | const (c : Constant) : Unchecks (const c) (const c)
  | var (v : Var) : Unchecks (var v) (var v)
  | node {stamp stamp' : Stamp} {head : Head} {parts parts' : List Expr}
      (hparts : List.Forall₂ Unchecks parts parts') :
      Unchecks (node stamp head parts) (node stamp' head.unchecked parts')

theorem lastTy_congr {es es' : List Expr} (h : List.Forall₂ (fun e e' => e'.ty = e.ty) es es') :
    lastTy es' = lastTy es := by
  induction h with
  | nil => rfl
  | cons he hes ih =>
    rcases hes with _ | _
    · exact he
    · exact ih

theorem ty_node_congr {stamp stamp' : Stamp} {head : Head} {es es' : List Expr}
    (h : List.Forall₂ (fun e e' => e'.ty = e.ty) es es') : (node stamp' head es').ty = (node stamp head es).ty := by
  cases head with
  | block locals => exact lastTy_congr h
  | lambda | array => rfl
  | _ =>
    rcases h with _ | ⟨hp, _⟩
    · rfl
    · simp only [ty, hp]

theorem ty_node_unchecked {stamp : Stamp} {head : Head} {es : List Expr} :
    (node stamp head.unchecked es).ty = (node stamp head es).ty := by
  cases head with
  | step k method => cases es <;> rfl
  | _ => rfl

namespace Unchecks
variable {e e' : Expr} {stamp : Stamp} {head : Head} {parts : List Expr}

theorem ty_eq (h : e.Unchecks e') : e'.ty = e.ty := by
  induction e using induction_parts generalizing e' with
  | const c => cases h; rfl
  | var v => cases h; rfl
  | node stamp head parts ih =>
    obtain _ | _ | hparts := h
    rw [ty_node_unchecked]
    exact ty_node_congr ((List.forall₂_and_left _ _ |>.2 ⟨@ih, hparts⟩).imp fun _ _ h => h.1 h.2)

theorem suits (h : e.Unchecks e') : e.Suits e' := by
  refine ⟨h.ty_eq, ?_, ?_⟩
  · rcases h with _ | _ | @⟨_, _, head⟩
    · exact id
    · exact id
    · cases head <;> exact id
  · rcases h with _ | _ | @⟨_, _, head⟩
    · exact id
    · exact id
    · cases head <;> exact id

theorem check {parts' : List Expr} (hparts : List.Forall₂ Unchecks parts parts') (hc : head.check parts = .ok ()) :
    head.unchecked.check parts' = .ok () := by
  have hc' := Head.check_of_suits (hparts.imp fun _ _ h => h.suits) hc
  cases head with
  | step k method =>
    rcases parts' with _ | ⟨operand, _ | ⟨_, _⟩⟩
    · cases hc'
    · exact Head.check_step_eq_ok.2 (Head.check_step_eq_ok.1 hc')
    · cases hc'
  | _ => exact hc'

theorem fits {parts' : List Expr} (hparts : List.Forall₂ Unchecks parts parts') (hf : head.Fits parts) :
    head.unchecked.Fits parts' := by
  have hf' := Head.fits_of_suits (hparts.imp fun _ _ h => h.suits) hf
  cases head with
  | _ => exact hf'

theorem wellMade (h : e.Unchecks e') (he : e.WellMade) : e'.WellMade := by
  induction e using induction_parts generalizing e' with
  | const c => cases h; exact he
  | var v => cases h; exact he
  | node stamp head parts ih =>
    obtain _ | _ | hparts := h
    refine .node (check hparts he.check) (fits hparts he.fits) ?_
    exact forall_mem_of_forall₂ hparts fun p hp p' hpp' => ih p hp hpp' (he.part p hp)

theorem constants?_eq {es es' : List Expr} (h : List.Forall₂ Unchecks es es') : constants? es' = constants? es := by
  induction h with
  | nil => rfl
  | cons he _ ih =>
    simp only [constants?, List.mapM_cons] at ih ⊢
    rw [ih]
    cases he <;> rfl

theorem placeNesting_eq {fold : Bool} (h : e.Unchecks e') (hm : maxNesting fold e'.parts = maxNesting fold e.parts) :
    placeNesting fold e' = placeNesting fold e := by
  rcases h with _ | _ | @⟨_, _, head⟩
  · rfl
  · rfl
  · cases head with
    | index => exact hm
    | _ => rfl

theorem nesting_eq (fold : Bool) (h : e.Unchecks e') : e'.nesting fold = e.nesting fold := by
  -- The parts of a location and of a quoted lambda are lowered in the place of the location or the lambda.
  suffices hboth : e'.nesting fold = e.nesting fold ∧ maxNesting fold e'.parts = maxNesting fold e.parts from hboth.1
  induction e using induction_parts generalizing e' with
  | const c => cases h; exact ⟨rfl, rfl⟩
  | var v => cases h; exact ⟨rfl, rfl⟩
  | node stamp head parts ih =>
    obtain _ | _ | @⟨_, _, _, _, parts', hparts⟩ := h
    have hall := List.forall₂_and_left _ _ |>.2 ⟨@ih, hparts⟩
    have hmax : maxNesting fold parts' = maxNesting fold parts := by
      clear hparts ih
      induction hall with
      | nil => rfl
      | cons hp _ ih => rw [maxNesting, maxNesting, ih, (hp.1 hp.2).1]
    refine ⟨?_, hmax⟩
    cases head with
    | assign =>
      rcases hall with _ | ⟨ht, _ | ⟨hv, _ | _⟩⟩
      · rfl
      · exact congrArg (1 + ·) hmax
      · simp only [Head.unchecked, nesting, placeNesting_eq ht.2 (ht.1 ht.2).2, (hv.1 hv.2).1]
      · exact congrArg (1 + ·) hmax
    | step k method =>
      rcases hall with _ | ⟨ho, _ | _⟩
      · rfl
      · simp only [Head.unchecked, nesting, placeNesting_eq ho.2 (ho.1 ho.2).2]
      · exact congrArg (1 + ·) hmax
    | quote =>
      rcases hall with _ | ⟨ho, _ | _⟩
      · rfl
      · have hinner := (ho.1 ho.2).2
        rcases ho.2 with _ | _ | _
        · rfl
        · rfl
        · exact congrArg (1 + ·) hinner
      · rcases ho.2 with _ | _ | _
        · exact congrArg (1 + ·) hmax
        · exact congrArg (1 + ·) hmax
        · exact congrArg (1 + ·) hmax
    | array element bounds =>
      simp only [Head.unchecked, nesting, constants?_eq hparts, hmax]
    | _ => exact congrArg (1 + ·) hmax

end Unchecks

/-! ### Dropping the checks -/

section
variable {e e' : Expr} {stamp lo : Stamp} {head : Head} {parts parts' : List Expr}

theorem make_of_check (hc : head.check parts = .ok ()) (hf : head.Fits parts) (s : Stamp) :
    make head parts s = .ok (node s head parts, s + 1) := by
  refine build_bind_eq_ok.2 ⟨(), s, build_liftM_eq_ok.2 ⟨hc, rfl⟩, ?_⟩
  cases head with
  | array element bounds =>
    obtain ⟨hheld, hquotes⟩ := mapIdx_storedAt s hf
    have hstore := storeAll_of_admits element s fun e he => .inl (hf e he)
    rw [hheld, hquotes] at hstore
    exact build_bind_eq_ok.2 ⟨parts, s, hstore, rfl⟩
  | _ => rfl

/-- The expression itself, or a node that is new since `lo`. -/
def Renewed (lo : Stamp) (e e' : Expr) : Prop :=
  e' = e ∨ ∃ stamp head parts, e' = node stamp head parts ∧ lo ≤ stamp

theorem Renewed.mono {hi : Stamp} (h : Renewed hi e e') (hle : lo ≤ hi) : Renewed lo e e' := by
  rcases h with rfl | ⟨stamp, head, parts, rfl, hhi⟩
  · exact .inl rfl
  · exact .inr ⟨stamp, head, parts, rfl, Nat.le_trans hle hhi⟩

theorem Renewed.eq_of_same (h : Renewed lo e e') (hold : e.Older lo) (hs : e'.same e = true) : e' = e := by
  rcases h with rfl | ⟨stamp', head', parts', rfl, hlo⟩
  · rfl
  · cases e with
    | const | var => cases hs
    | node stamp head parts =>
      have heq : stamp' = stamp := beq_iff_eq.1 hs
      exact absurd hold.stamp_lt (Nat.not_lt.2 (heq ▸ hlo))

theorem eq_of_sameAll (h : List.Forall₂ (fun p p' => p.Older lo ∧ Renewed lo p p') parts parts')
    (hs : sameAll parts' parts = true) : parts' = parts := by
  induction h with
  | nil => rfl
  | cons hp _ ih =>
    rw [sameAll, Bool.and_eq_true] at hs
    rw [hp.2.eq_of_same hp.1 hs.1, ih hs.2]

/-- The parameters accept the values that are bound to them. -/
def RolesFit : List (Option Descriptor) → List Expr → Prop
  | _, [] => True
  | roles, e :: es => (∀ d, roles.head?.join = some d → d.ty.accepts e.ty = true) ∧ RolesFit roles.tail es

theorem rolesFit_nil (es : List Expr) : RolesFit [] es := by
  induction es with
  | nil => trivial
  | cons e es ih => exact ⟨fun d hd => (by cases hd), ih⟩

theorem WellMade.rolesFit (h : WellMade (Expr.node stamp head parts)) : RolesFit head.roles parts := by
  cases head with
  | invoke params =>
    cases h.allows with
    | @invoke _ callee values _ _ hv hb =>
      refine ⟨fun d hd => (by cases hd), ?_⟩
      clear h hb
      show RolesFit (params.map some) values
      induction hv with
      | nil => trivial
      | cons ha _ ih => exact ⟨fun d hd => Option.some.inj hd ▸ ha, ih⟩
  | _ => exact rolesFit_nil parts

end

section
variable {σ : Type} {s : TraversalState σ}

theorem run_ofBuild {α : Type} {b : Build α} {a : α} {stamp : Stamp} (h : b s.stamp = .ok (a, stamp)) :
    (TraversalM.ofBuild b : TraversalM σ α).run s = (.ok a, { s with stamp }) := by
  simp only [TraversalM.ofBuild, run_mk, h]

/-- A parameter takes any other value of the type of the value it took before. -/
theorem run_rebind_of_ty {param : Descriptor} {e new : Expr} (hty : new.ty = e.ty)
    (ha : param.ty.accepts e.ty = true) (s : TraversalState σ) :
    (rebind param e new : TraversalM σ Expr).run s = (.ok (if new.same e then e else new), s) := by
  unfold rebind
  split_ifs with hs
  · rfl
  · have hc : checkAssignable param.ty new = .ok () := checkAssignable_eq_ok.2 (hty ▸ ha)
    rw [hc]
    rfl

end

section
variable {e e' : Expr} {s : TraversalState Nat}

theorem run_enter_uncheck (e : Expr) (s : TraversalState Nat) :
    ∃ s', (Traversal.uncheck.enter e).run s = (.ok (), s') ∧ s'.stamp = s.stamp := by
  unfold Traversal.uncheck
  dsimp only
  split
  · split_ifs
    · exact ⟨_, rfl, rfl⟩
    · exact ⟨s, rfl, rfl⟩
  · exact ⟨s, rfl, rfl⟩

theorem run_rebind {param : Descriptor} {new : Expr} (hold : e.Older s.stamp) (hnew : Renewed s.stamp e new)
    (hty : new.ty = e.ty) (ha : param.ty.accepts e.ty = true) (s' : TraversalState Nat) :
    (rebind param e new : TraversalM Nat Expr).run s' = (.ok new, s') := by
  rw [run_rebind_of_ty hty ha]
  split_ifs with hs
  · rw [hnew.eq_of_same hold hs]
  · rfl

theorem run_rebuild_uncheck {stamp lo : Stamp} {head : Head} {parts parts' : List Expr}
    (hw : WellMade (node stamp head parts)) (hold : (node stamp head parts).Older lo) (hlo : lo ≤ s.stamp)
    (hparts : List.Forall₂ (fun p p' => p.Unchecks p' ∧ Renewed lo p p') parts parts') :
    ∃ e' s', (Traversal.uncheck.rebuild (node stamp head parts) parts').run s = (.ok e', s') ∧ s.stamp ≤ s'.stamp ∧
      (node stamp head parts).Unchecks e' ∧ Renewed lo (node stamp head parts) e' := by
  have hun : List.Forall₂ Unchecks parts parts' := hparts.imp fun _ _ h => h.1
  have hmake := make_of_check (Unchecks.check hun hw.check) (Unchecks.fits hun hw.fits) s.stamp
  have hnew : (node stamp head parts).Unchecks (node s.stamp head.unchecked parts') := .node hun
  have hrenewed : Renewed lo (node stamp head parts) (node s.stamp head.unchecked parts') :=
    .inr ⟨_, _, _, rfl, hlo⟩
  -- An unchecked node is given back as it is if its parts are the same.
  have hupdate : head.unchecked = head → ∃ e' s', (TraversalM.ofBuild ((node stamp head parts).update parts') :
      TraversalM Nat Expr).run s = (.ok e', s') ∧ s.stamp ≤ s'.stamp ∧ (node stamp head parts).Unchecks e' ∧
      Renewed lo (node stamp head parts) e' := by
    intro hhead
    rw [hhead] at hmake hnew hrenewed
    rw [update]
    split_ifs with hs
    · have hall := List.forall₂_and_left _ _ |>.2 ⟨fun p hp => hold.part hp, hparts.imp fun _ _ h => h.2⟩
      have heq := eq_of_sameAll hall hs
      subst heq
      have hself : (node stamp head parts').Unchecks (node stamp head.unchecked parts') := .node hun
      rw [hhead] at hself
      exact ⟨_, _, run_ofBuild rfl, Nat.le_refl _, hself, .inl rfl⟩
    · exact ⟨_, _, run_ofBuild hmake, Nat.le_succ _, hnew, hrenewed⟩
  unfold Traversal.uncheck
  cases head with
  | step k method =>
    dsimp only
    split_ifs with hk
    · exact ⟨_, _, run_ofBuild hmake, Nat.le_succ _, hnew, hrenewed⟩
    · refine hupdate ?_
      rw [Head.unchecked, StepKind.unchecked, ← Bool.eq_false_iff.2 hk]
  | _ => exact hupdate rfl

/-- The checks in the expression can be dropped, from every state after it was made. -/
def DropsChecks (e : Expr) : Prop :=
  ∀ s : TraversalState Nat, e.Older s.stamp → ∃ e' s', (e.traverse .uncheck).run s = (.ok e', s') ∧
    s.stamp ≤ s'.stamp ∧ e.Unchecks e' ∧ Renewed s.stamp e e'

theorem run_traverseParts_uncheck {roles : List (Option Descriptor)} {parts : List Expr}
    (ih : ∀ p ∈ parts, p.DropsChecks) (hold : ∀ p ∈ parts, p.Older s.stamp) (hroles : RolesFit roles parts) :
    ∃ parts' s', (traverseParts .uncheck roles parts).run s = (.ok parts', s') ∧ s.stamp ≤ s'.stamp ∧
      List.Forall₂ (fun p p' => p.Unchecks p' ∧ Renewed s.stamp p p') parts parts' := by
  induction parts generalizing roles s with
  | nil => exact ⟨[], s, rfl, Nat.le_refl _, .nil⟩
  | cons p parts ihs =>
    rw [List.forall_mem_cons] at ih hold
    obtain ⟨p', s₁, hrun, hle, hun, hnew⟩ := ih.1 s hold.1
    obtain ⟨parts', s₂, hruns, hle₂, hrest⟩ := ihs ih.2 (fun q hq => (hold.2 q hq).mono hle) hroles.2
    refine ⟨p' :: parts', s₂, ?_, Nat.le_trans hle hle₂, .cons ⟨hun, hnew⟩ ?_⟩
    · rw [traverseParts]
      split
      · rw [run_bind_of_ok hrun, run_bind_of_ok hruns]
        rfl
      · rename_i param hparam
        refine (run_bind_of_ok rfl).trans ?_
        rw [run_bind_of_ok hrun, run_bind_of_ok (run_rebind hold.1 hnew hun.ty_eq (hroles.1 param hparam) s₁),
          run_bind_of_ok hruns]
        rfl
    · exact hrest.imp fun _ _ h => ⟨h.1, h.2.mono hle⟩

end

theorem dropsChecks {e : Expr} (he : e.WellMade) : e.DropsChecks := by
  induction e using induction_parts with
  | const c => exact fun s _ => ⟨const c, s, rfl, Nat.le_refl _, .const c, .inl rfl⟩
  | var v => exact fun s _ => ⟨var v, s, rfl, Nat.le_refl _, .var v, .inl rfl⟩
  | node stamp head parts ih =>
    intro s hold
    obtain ⟨s₁, henter, hs₁⟩ := run_enter_uncheck (node stamp head parts) s
    rw [← hs₁] at hold
    obtain ⟨parts', s₂, hparts, hle, hall⟩ := run_traverseParts_uncheck (fun p hp => ih p hp (he.part p hp))
      (fun p hp => hold.part hp) he.rolesFit
    obtain ⟨e', s₃, hrebuild, hle₃, hun, hnew⟩ := run_rebuild_uncheck he hold hle hall
    refine ⟨e', s₃, ?_, hs₁ ▸ Nat.le_trans hle hle₃, hun, hs₁ ▸ hnew⟩
    rw [traverse_node _ he.allows, Traversal.around, run_bind_of_ok henter, run_bind_of_ok hparts, hrebuild]

end Expr

/-! ### Lowering without the checks -/

namespace Lowerer
variable {l : Lowerer} {e e' : Expr}

/-- Lowering succeeds just if it does not go below the limit. -/
theorem lower_succeeds_iff (he : e.WellMade) (supply : Supply) :
    (∃ p, (l.lower e supply).1 = .ok p) ↔ l.depth + e.nesting l.options.foldConstantArrays ≤ l.options.maxDepth := by
  constructor
  · rintro ⟨p, hp⟩
    by_contra hlt
    by_cases hd : l.depth ≤ l.options.maxDepth
    · rw [(lower_of_lt_nesting he supply hd (Nat.not_le.1 hlt)).1] at hp
      cases hp
    · have hrun : (e.lowerNode l.options).run { depth := l.depth, supply } =
          (.error (.depthLimit l.options.maxDepth), { depth := l.depth, supply }) := by
        unfold Expr.lowerNode
        rw [run_nested, if_pos (Nat.le_of_not_le hd)]
      simp only [lower, hrun] at hp
      cases hp
  · exact fun h => (lower_of_nesting_le he supply h).1

/-- Dropping the checks makes no difference to when lowering succeeds. -/
theorem lower_succeeds_of_unchecks (he : e.WellMade) (h : e.Unchecks e') (supply supply' : Supply) :
    (∃ p, (l.lower e supply).1 = .ok p) ↔ ∃ p, (l.lower e' supply').1 = .ok p := by
  rw [lower_succeeds_iff he, lower_succeeds_iff (h.wellMade he), h.nesting_eq]

end Lowerer

end ExprLowering
