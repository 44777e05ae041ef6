import ExprLowering.Proofs.LowerRules
import ExprLowering.Proofs.Shape

/-!
# When lowering fails

`Expr.nesting` counts the levels that lowering goes down. Lowering a well-made expression succeeds when
the nesting is within the limit of the options and otherwise fails with that limit; it fails in no other
way, and comes back to the depth that it started at (`lowerNode_needs`).
-/

namespace ExprLowering

namespace Expr

mutual

/-- How many levels of an expression are lowered one inside the other. A location that is stored to is no
level of its own, nor is the lambda of a quotation; an array of constants that is folded has no parts. -/
def nesting (fold : Bool) : Expr → Nat
  | const _ | var _ => 1
  | node _ .assign [target, value] => 1 + max (placeNesting fold target) (nesting fold value)
  | node _ (.step _ _) [operand] => 1 + placeNesting fold operand
  | node _ .quote [node _ _ body] => 1 + maxNesting fold body
  | node _ (.array _ _) elements =>
    if fold && (constants? elements).isSome then 1 else 1 + maxNesting fold elements
  | node _ _ parts => 1 + maxNesting fold parts

def placeNesting (fold : Bool) : Expr → Nat
  | node _ .index parts => maxNesting fold parts
  | _ => 0

/-- The greatest nesting in a list. -/
def maxNesting (fold : Bool) : List Expr → Nat
  | [] => 0
  | e :: es => max (nesting fold e) (maxNesting fold es)

end

end Expr

/-! ### Computations that need levels -/

/-- The computation goes `n` levels down: it succeeds with a result in `P` if there are as many left, and
fails at the limit if not. Either way it comes back to the depth that it started at. -/
structure LowerM.Needs {α : Type} (limit n : Nat) (x : LowerM α) (P : α → Prop) : Prop where
  succeeds : ∀ s : LowerState, s.depth + n ≤ limit → ∃ a s', x.run s = (.ok a, s') ∧ s'.depth = s.depth ∧ P a
  fails : ∀ s : LowerState, s.depth ≤ limit → limit < s.depth + n →
    ∃ s', x.run s = (.error (.depthLimit limit), s') ∧ s'.depth = s.depth

namespace LowerM.Needs
variable {α β : Type} {limit n m : Nat} {x : LowerM α} {f : α → LowerM β} {P : α → Prop} {R : β → Prop}

theorem of_succeeds (h : ∀ s : LowerState, ∃ a s', x.run s = (.ok a, s') ∧ s'.depth = s.depth ∧ P a) :
    Needs limit 0 x P :=
  ⟨fun s _ => h s, fun _ hs hn => absurd hs (Nat.not_le_of_gt hn)⟩

theorem pure {a : α} (h : P a) : Needs limit 0 (Pure.pure a : LowerM α) P :=
  of_succeeds fun s => ⟨a, s, rfl, rfl, h⟩

theorem freshVar (name : String) (ty : Ty) : Needs limit 0 (LowerM.freshVar name ty) fun _ => True :=
  of_succeeds fun _ => ⟨_, _, rfl, rfl, trivial⟩

theorem freshStamp : Needs limit 0 LowerM.freshStamp fun _ => True :=
  of_succeeds fun _ => ⟨_, _, rfl, rfl, trivial⟩

theorem demand (reason : String) {a : α} {o : Option α} (h : o = some a) :
    Needs limit 0 (LowerM.demand reason o) fun b => b = a := by
  rw [h]
  exact pure rfl

theorem mono {P' : α → Prop} (h : Needs limit n x P) (hP : ∀ a, P a → P' a) : Needs limit n x P' where
  succeeds s hs := by
    obtain ⟨a, s', hr, hd, ha⟩ := h.succeeds s hs
    exact ⟨a, s', hr, hd, hP a ha⟩
  fails := h.fails

theorem bind (hx : Needs limit n x P) (hf : ∀ a, P a → Needs limit m (f a) R) :
    Needs limit (max n m) (x >>= f) R where
  succeeds s hs := by
    obtain ⟨a, s₁, hr, hd, ha⟩ := hx.succeeds s (by omega)
    obtain ⟨b, s₂, hr', hd', hb⟩ := (hf a ha).succeeds s₁ (by omega)
    exact ⟨b, s₂, (run_bind_of_ok hr).trans hr', hd'.trans hd, hb⟩
  fails s hs hn := by
    by_cases hx' : s.depth + n ≤ limit
    · obtain ⟨a, s₁, hr, hd, ha⟩ := hx.succeeds s hx'
      obtain ⟨s₂, hr', hd'⟩ := (hf a ha).fails s₁ (by omega) (by omega)
      exact ⟨s₂, (run_bind_of_ok hr).trans hr', hd'.trans hd⟩
    · obtain ⟨s₁, hr, hd⟩ := hx.fails s hs (by omega)
      exact ⟨s₁, run_bind_of_error hr, hd⟩

/-- What is done last needs no levels. -/
theorem bind_last (hx : Needs limit n x P) (hf : ∀ a, P a → Needs limit 0 (f a) R) :
    Needs limit n (x >>= f) R := by
  simpa using hx.bind hf

theorem nested (hx : Needs limit n x P) : Needs limit (1 + n) (LowerM.nested limit x) P where
  succeeds s hs := by
    obtain ⟨a, s', hr, hd, ha⟩ := hx.succeeds { s with depth := s.depth + 1 } (by simp only; omega)
    refine ⟨a, { s' with depth := s'.depth - 1 }, ?_, ?_, ha⟩
    · rw [run_nested, if_neg (by omega), hr]
    · simp only [hd]; omega
  fails s hs hn := by
    by_cases hl : limit ≤ s.depth
    · exact ⟨s, by rw [run_nested, if_pos hl], rfl⟩
    · obtain ⟨s', hr, hd⟩ := hx.fails { s with depth := s.depth + 1 } (by simp only; omega) (by simp only; omega)
      refine ⟨{ s' with depth := s'.depth - 1 }, ?_, ?_⟩
      · rw [run_nested, if_neg hl, hr]
      · simp only [hd]; omega

end LowerM.Needs

open LowerM (Needs)

/-! ### Temporaries -/

section
variable {limit : Nat}

theorem Temp.hold_needs (name : String) (ty : Ty) (value : Prim) :
    Needs limit 0 (hold name ty value) fun _ => True :=
  (Needs.freshVar name ty).bind_last fun _ _ => .pure trivial

theorem Temp.keep_needs (name : String) (ty : Ty) (value : Prim) :
    Needs limit 0 (keep name ty value) fun _ => True := by
  unfold keep
  split
  · exact .pure trivial
  · exact hold_needs name ty _

theorem Temp.keepAll_needs (labels : List (String × Ty)) {values : List Prim}
    (hl : labels.length = values.length) :
    Needs limit 0 (keepAll labels values) fun r => r.1.length = values.length := by
  induction labels generalizing values with
  | nil =>
    obtain rfl := List.length_eq_zero_iff.1 hl.symm
    exact .pure rfl
  | cons l labels ih =>
    cases values with
    | nil => cases hl
    | cons value values =>
      refine (keep_needs _ _ _).bind_last fun _ _ => ?_
      exact (ih (Nat.succ.inj hl)).bind_last fun r hr => .pure (by simp [hr])

/-- The location is one that was lowered from an expression with parts, or is a variable. -/
def Place.HasParts (operand : Expr) (place : Place Prim) : Prop :=
  ∀ array indices, place = .element array indices → operand.parts.length = indices.length + 1

theorem Place.settle_needs {pinned : Bool} {operand : Expr} {place : Place Prim}
    (h : place.HasParts operand) : Needs limit 0 (place.settle pinned operand) fun _ => True := by
  cases place with
  | var v => exact .pure trivial
  | element array indices =>
    have hl := h array indices rfl
    rw [settle]
    split_ifs
    · exact .pure trivial
    · cases hp : operand.parts with
      | nil => rw [hp] at hl; cases hl
      | cons arrayExpr indexExprs =>
        rw [hp] at hl
        refine (Temp.keep_needs _ _ _).bind_last fun _ _ => ?_
        exact (Temp.keepAll_needs _ (by simpa using hl)).bind_last fun _ _ => .pure trivial

theorem functionalStep_needs (k : StepKind) (ty : Ty) (place : Place Prim) (temps : List Temp)
    (next : Prim → Prim) : Needs limit 0 (functionalStep k ty place temps next) fun _ => True :=
  (Temp.hold_needs _ _ _).bind_last fun _ _ => (Temp.hold_needs _ _ _).bind_last fun _ _ => .pure trivial

theorem Constant.exists_one {t : Ty} (h : t.isArithmetic = true) : ∃ c, one? t = some c := by
  unfold Ty.isArithmetic at h
  unfold one?
  cases hn : t.nonNullable with
  | int k => exact ⟨_, rfl⟩
  | float k => exact ⟨_, rfl⟩
  | _ => rw [hn] at h; cases h

/-- A step on a location that its operand was lowered to never fails. -/
theorem lowerStep_needs {k : StepKind} {method : Option Method} {operand : Expr} {place : Place Prim}
    (ha : Head.Allows (.step k method) [operand]) (h : place.HasParts operand) :
    Needs limit 0 (lowerStep k method operand place) fun _ => True := by
  unfold lowerStep
  cases ha with
  | stepByMethod => exact (Place.settle_needs h).bind_last fun _ _ => functionalStep_needs _ _ _ _ _
  | stepByOne _ ht =>
    obtain ⟨one, hone⟩ := Constant.exists_one ht
    cases hk : k.checked with
    | true =>
      simp only [StepKind.strategy, hk, if_true]
      refine (Place.settle_needs h).bind_last fun _ _ => ?_
      exact (Needs.demand _ hone).bind_last fun _ _ => functionalStep_needs _ _ _ _ _
    | false =>
      simp only [StepKind.strategy, hk, Bool.false_eq_true, if_false]
      exact (Place.settle_needs h).bind_last fun _ _ => .pure trivial

/-- A checked invocation finds all of its arguments. -/
theorem lowerInvoke_needs {params : List Descriptor} {signature : Signature} {calleeTy : Ty}
    {valueTys : List Ty} {callee : Prim} {values : List Prim} (hc : calleeTy.signature? = some signature)
    (hb : signature.Bound params) (hv : values.length = params.length) (ht : valueTys.length = params.length) :
    Needs limit 0 (lowerInvoke params calleeTy valueTys callee values) fun _ => True := by
  obtain ⟨slots, hslots⟩ := hb.exists_slots
  have hd : (calleeTy.signature?.bind (·.slots? params)) = some slots := by simp [hc, hslots]
  refine (Needs.demand _ hd).bind_last ?_
  rintro _ rfl
  split_ifs
  · exact (Needs.demand _ (hb.arrange hslots hv)).bind_last fun _ _ => .pure trivial
  · refine (Temp.keep_needs _ _ _).bind_last fun _ _ => ?_
    refine (Temp.keepAll_needs _ (by simp [hv, ht])).bind_last fun r hr => ?_
    exact (Needs.demand _ (hb.arrange hslots (hr.trans hv))).bind_last fun _ _ => .pure trivial

end

/-! ### Elements -/

theorem indexConstant?_eq {n : Nat} (h : n < 2 ^ 31) :
    ∃ w : Word, indexConstant? n = some (.const (.lit (.int w))) ∧ w.kind = .i32 ∧ w.val = n := by
  have hr : IntKind.i32.low ≤ (n : Int) ∧ (n : Int) ≤ IntKind.i32.high := by
    simp only [IntKind.low, IntKind.high, IntKind.size, IntKind.width]
    omega
  exact ⟨⟨.i32, n, hr.1, hr.2⟩, by simp [indexConstant?, Word.ofInt?, hr], rfl, rfl⟩

theorem exists_indexConstants {ns : List Nat} (h : ∀ n ∈ ns, n < 2 ^ 31) :
    ∃ ps, ns.mapM indexConstant? = some ps :=
  exists_mapM_eq_some fun n hn => by
    obtain ⟨w, hw, -⟩ := indexConstant?_eq (h n hn)
    rw [hw]
    rfl

theorem exists_storeElements (array : Var) {bounds : List Nat} (hb : ∀ b ∈ bounds, b < 2 ^ 31)
    {linear : Nat} {ps : List Prim} (h : linear + ps.length ≤ bounds.prod) :
    ∃ stores, storeElements? array bounds linear ps = some stores := by
  induction ps generalizing linear with
  | nil => exact ⟨[], rfl⟩
  | cons p ps ih =>
    rw [List.length_cons] at h
    have hpos := Shape.pos_of_lt_prod (Nat.lt_of_lt_of_le (by omega) h : linear < bounds.prod)
    obtain ⟨indices, hi⟩ : ∃ is, indexConstants? bounds linear = some is := by
      refine exists_indexConstants (Expr.forall_mem_of_forall₂ (Shape.unflatten_lt hpos linear).flip ?_)
      exact fun b hmem i hlt => Nat.lt_trans hlt (hb b hmem)
    obtain ⟨stores, hs⟩ := @ih (linear + 1) (by omega)
    exact ⟨_, by rw [storeElements?, hi, hs]; rfl⟩

theorem toNat_lt_of_nonneg {b : Int32} (h : 0 ≤ b.toInt) : b.toInt.toNat < 2 ^ 31 := by
  have := b.toInt_lt
  omega

theorem exists_arrayBlock (array : Var) (element : Ty) {bounds : List Int32} {ps : List Prim}
    (h : checkBounds 0 1 bounds = .ok ps.length) :
    ∃ p, arrayBlock? array element (bounds.map (·.toInt.toNat)) ps = some p := by
  obtain ⟨hnonneg, -, hsize⟩ := checkBounds_eq_ok h
  have hlt : ∀ b ∈ bounds.map (·.toInt.toNat), b < 2 ^ 31 :=
    List.forall_mem_map.2 fun b hb => toNat_lt_of_nonneg (hnonneg b hb)
  obtain ⟨sizes, hsizes⟩ := exists_indexConstants hlt
  obtain ⟨stores, hstores⟩ := @exists_storeElements array _ hlt 0 ps (by omega)
  exact ⟨_, by rw [arrayBlock?, hsizes, hstores]; rfl⟩

/-! ### Expressions -/

namespace Expr
variable {o : LowerOptions}

/-- Lowering the expression goes down as many levels as it has, and never fails otherwise. -/
def LowersByNesting (o : LowerOptions) (e : Expr) : Prop :=
  Needs o.maxDepth (e.nesting o.foldConstantArrays) (e.lowerNode o) fun _ => True

theorem lowerAll_needs {es : List Expr} (h : ∀ e ∈ es, LowersByNesting o e) :
    Needs o.maxDepth (maxNesting o.foldConstantArrays es) (lowerAll o es) fun ps => ps.length = es.length := by
  induction es with
  | nil => rw [lowerAll, maxNesting]; exact .pure rfl
  | cons e es ih =>
    rw [lowerAll, maxNesting]
    refine (h e (by simp)).bind fun _ _ => ?_
    exact (ih fun e he => h e (by simp [he])).bind_last fun ps hps => .pure (by simp [hps])

theorem lowerPlace_needs {e : Expr} (he : WellMade e) (hl : e.isLocation = true)
    (h : ∀ p ∈ e.parts, LowersByNesting o p) :
    Needs o.maxDepth (placeNesting o.foldConstantArrays e) (lowerPlace o e) fun place => place.HasParts e := by
  cases e with
  | const c => cases hl
  | var v =>
    rw [lowerPlace]
    exact .pure fun _ _ hp => by cases hp
  | node stamp head parts =>
    cases head with
    | index =>
      cases he.allows with
      | @index base indices element =>
        rw [placeNesting, maxNesting, lowerPlace]
        refine (h base (by simp [Expr.parts])).bind fun _ _ => ?_
        refine (lowerAll_needs fun e he => h e (by simp [Expr.parts, he])).bind_last fun ps hps => .pure ?_
        rintro _ _ ⟨⟩
        simp [Expr.parts, hps]
    | _ => cases hl

theorem lowersByNesting {e : Expr} (he : WellMade e) : LowersByNesting o e := by
  suffices h : LowersByNesting o e ∧ ∀ p ∈ e.parts, LowersByNesting o p from h.1
  induction he with
  | const c =>
    refine ⟨?_, by simp [Expr.parts]⟩
    rw [LowersByNesting, nesting, lowerNode]
    exact .nested (.pure trivial)
  | var v =>
    refine ⟨?_, by simp [Expr.parts]⟩
    rw [LowersByNesting, nesting, lowerNode]
    exact .nested (.pure trivial)
  | @node stamp head parts check fits made ih =>
    refine ⟨?_, fun p hp => (ih p hp).1⟩
    have hall {es : List Expr} (h : ∀ e ∈ es, e ∈ parts) :=
      lowerAll_needs (o := o) fun e he => (ih e (h e he)).1
    have hallows := Head.allows_of_check check
    rw [LowersByNesting]
    cases hallows with
    | @index base =>
      rw [lowerNode]
      refine .nested ((ih base (by simp)).1.bind fun _ _ => ?_)
      exact (hall (by simp_all)).bind_last fun _ _ => .pure trivial
    | @binary _ _ left right =>
      rw [lowerNode]
      refine .nested ((ih left (by simp)).1.bind fun _ _ => ?_)
      rw [maxNesting, maxNesting, Nat.max_zero]
      exact (ih right (by simp)).1.bind_last fun _ _ => .pure trivial
    | @call callee =>
      rw [lowerNode]
      refine .nested ((ih callee (by simp)).1.bind fun _ _ => ?_)
      exact (hall (by simp_all)).bind_last fun _ _ => .pure trivial
    | @assign target value hl =>
      rw [nesting, lowerNode]
      refine .nested ((lowerPlace_needs (made target (by simp)) hl (ih target (by simp)).2).bind fun _ _ => ?_)
      exact (ih value (by simp)).1.bind_last fun _ _ => .pure trivial
    | block =>
      rw [lowerNode]
      exact .nested ((hall fun _ => id).bind_last fun _ _ => .pure trivial)
    | @lambda _ _ body =>
      rw [lowerNode]
      refine .nested ?_
      rw [maxNesting, maxNesting, Nat.max_zero]
      exact (ih body (by simp)).1.bind_last fun _ _ => .pure trivial
    | @quote operand hl =>
      have hoperand := made operand (by simp)
      cases operand with
      | const | var => cases hl
      | node inner head parts =>
        cases head with
        | lambda signature params =>
          cases hoperand.allows with
          | @lambda _ _ body =>
            have hbody := (ih _ (List.mem_singleton.2 rfl)).2 body (List.mem_singleton.2 rfl)
            rw [nesting, lowerNode, maxNesting, maxNesting, Nat.max_zero]
            exact .nested (hbody.bind_last fun _ _ => Needs.freshStamp.bind_last fun _ _ => .pure trivial)
        | _ => cases hl
    | @stepByOne _ operand hl =>
      rw [nesting, lowerNode]
      refine .nested ((lowerPlace_needs (made operand (by simp)) hl (ih operand (by simp)).2).bind_last ?_)
      exact fun _ hp => lowerStep_needs (Head.allows_of_check check) hp
    | @stepByMethod _ _ operand _ hl =>
      rw [nesting, lowerNode]
      refine .nested ((lowerPlace_needs (made operand (by simp)) hl (ih operand (by simp)).2).bind_last ?_)
      exact fun _ hp => lowerStep_needs (Head.allows_of_check check) hp
    | @array element bounds _ _ _ hs =>
      rw [nesting, lowerNode]
      split_ifs with hfold
      · rw [Bool.and_eq_true, Option.isSome_iff_exists] at hfold
        obtain ⟨hfold, values, hconst⟩ := hfold
        rw [hfold, hconst]
        exact .nested (.pure trivial)
      · refine .nested ?_
        split
        · rename_i hon hconst
          exact absurd (by rw [hon, hconst]; rfl) hfold
        · rw [← Nat.zero_max (maxNesting _ parts)]
          refine (Needs.freshVar _ _).bind fun array _ => (hall fun _ => id).bind_last fun ps hps => ?_
          obtain ⟨p, hp⟩ := exists_arrayBlock array element (hps.symm ▸ hs : checkBounds 0 1 bounds = .ok ps.length)
          exact (Needs.demand _ hp).mono fun _ _ => trivial
    | @invoke params callee values signature hc hv hb =>
      rw [lowerNode]
      refine .nested ((ih callee (by simp)).1.bind fun _ _ => ?_)
      refine (hall (by simp_all)).bind_last fun ps hps => ?_
      exact lowerInvoke_needs hc hb (hps.trans hv.length_eq.symm) (by rw [List.length_map, hv.length_eq])

end Expr

/-! ### Lowerers -/

/-- A lowerer that has lowered any number of expressions, whether it succeeded or not. -/
inductive Lowerer.Used : Lowerer → Prop
  | new (o : LowerOptions) : Used { options := o }
  | after {l : Lowerer} {e : Expr} (supply : Supply) (hl : Used l) (he : e.Obtained) :
      Used (l.lower e supply).2.1

namespace Lowerer
variable {l : Lowerer} {e : Expr}

theorem lower_of_nesting_le (he : e.WellMade) (supply : Supply)
    (h : l.depth + e.nesting l.options.foldConstantArrays ≤ l.options.maxDepth) :
    (∃ p, (l.lower e supply).1 = .ok p) ∧ (l.lower e supply).2.1 = l := by
  obtain ⟨p, s, hr, hd, -⟩ := (Expr.lowersByNesting he).succeeds { depth := l.depth, supply } h
  simp only [lower, hr]
  exact ⟨⟨p, rfl⟩, by rw [hd]⟩

theorem lower_of_lt_nesting (he : e.WellMade) (supply : Supply) (hl : l.depth ≤ l.options.maxDepth)
    (h : l.options.maxDepth < l.depth + e.nesting l.options.foldConstantArrays) :
    (l.lower e supply).1 = .error (.depthLimit l.options.maxDepth) ∧ (l.lower e supply).2.1 = l := by
  obtain ⟨s, hr, hd⟩ := (Expr.lowersByNesting he).fails { depth := l.depth, supply } hl h
  simp only [lower, hr, hd, and_self]

theorem Used.depth (hl : l.Used) : l.depth = 0 := by
  induction hl with
  | new o => rfl
  | @after l e supply _ he ih =>
    by_cases h : l.depth + e.nesting l.options.foldConstantArrays ≤ l.options.maxDepth
    · rw [(lower_of_nesting_le he.wellMade supply h).2, ih]
    · rw [(lower_of_lt_nesting he.wellMade supply (by omega) (by omega)).2, ih]

/-- Lowering succeeds exactly when the nesting is within the limit and otherwise reports the limit. The
lowerer is afterwards as it was. -/
theorem lower_ok_iff_nesting_le (hl : l.Used) (he : e.Obtained) (supply : Supply) :
    ((∃ p, (l.lower e supply).1 = .ok p) ↔ e.nesting l.options.foldConstantArrays ≤ l.options.maxDepth) ∧
      (¬ e.nesting l.options.foldConstantArrays ≤ l.options.maxDepth →
        (l.lower e supply).1 = .error (.depthLimit l.options.maxDepth)) ∧
      (∀ reason, (l.lower e supply).1 ≠ .error (.malformed reason)) ∧
      (l.lower e supply).2.1 = l := by
  have hd := hl.depth
  by_cases h : e.nesting l.options.foldConstantArrays ≤ l.options.maxDepth
  · obtain ⟨⟨p, hp⟩, hl'⟩ := lower_of_nesting_le (l := l) he.wellMade supply (by omega)
    refine ⟨⟨fun _ => h, fun _ => ⟨p, hp⟩⟩, fun hn => absurd h hn, fun _ hr => ?_, hl'⟩
    rw [hp] at hr
    cases hr
  · obtain ⟨hp, hl'⟩ := lower_of_lt_nesting (l := l) he.wellMade supply (by omega) (by omega)
    refine ⟨⟨fun ⟨p, hr⟩ => ?_, fun hn => absurd hn h⟩, fun _ => hp, fun _ hr => ?_, hl'⟩
    · rw [hp] at hr; cases hr
    · rw [hp] at hr; cases hr

/-- A sum of ones that is nested on the right. -/
def nestedSum : Nat → Expr
  | 0 => .const (.lit (.int (.one .i32)))
  | n + 1 => .node n (.binary .add true) [.const (.lit (.int (.one .i32))), nestedSum n]

theorem nestedSum_obtained (n : Nat) : (nestedSum n).Obtained := by
  induction n with
  | zero => exact .const _
  | succ n ih =>
    have hmake : Expr.make (.binary .add true) [.const (.lit (.int (.one .i32))), nestedSum n] n =
        .ok (nestedSum (n + 1), n + 1) := by
      cases n <;> rfl
    exact .made (List.forall_mem_cons.2 ⟨.const _, List.forall_mem_singleton.2 ih⟩) hmake

theorem lower_nestedSum :
    Used { options := { maxDepth := 3 } } ∧ (nestedSum 3).Obtained ∧
      (lower { options := { maxDepth := 3 } } (nestedSum 3) {}).1 = .error (.depthLimit 3) :=
  ⟨.new _, nestedSum_obtained 3,
    (lower_ok_iff_nesting_le (.new { maxDepth := 3 }) (nestedSum_obtained 3) {}).2.1 (by decide)⟩

end Lowerer
end ExprLowering
