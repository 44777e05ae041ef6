import ExprLowering.Proofs.DepthLimit
import ExprLowering.Proofs.TempBlocks

/-!
# How deep a lowered tree is

Evaluation goes by recursion on the tree, so the height of a tree says how deep it recurses outside of calls.
Lowering turns one level of an expression into at most two levels of its tree: a part of an extended node comes to
stand below an assignment to a temporary in a block. Hence the limit on the nesting of expressions also limits the
height of what they are lowered to (`Lowerer.height_lower_le`).
-/

namespace ExprLowering

namespace Prim

mutual

/-- The nodes on the longest path from the root to a leaf. A location has its array and indices as parts of the
node that it belongs to, and a function its body. -/
def height : Prim → Nat
  | const _ | read _ | constArray _ _ _ => 1
  | assign target value => 1 + max (placeHeight target) (height value)
  | block _ body => 1 + maxHeight body
  | arith _ _ left right => 1 + max (height left) (height right)
  | step _ target => 1 + placeHeight target
  | newArray _ bounds => 1 + maxHeight bounds
  | element array indices => 1 + max (height array) (maxHeight indices)
  | call callee args => 1 + max (height callee) (maxHeight args)
  | callMethod _ args => 1 + maxHeight args
  | lambda code => 1 + codeHeight code
  | quote _ code => 1 + codeHeight code

def placeHeight : Place Prim → Nat
  | .var _ => 0
  | .element array indices => max (height array) (maxHeight indices)

def codeHeight : Lambda Prim → Nat
  | ⟨_, _, body⟩ => height body

/-- The greatest height in a list. -/
def maxHeight : List Prim → Nat
  | [] => 0
  | p :: ps => max (height p) (maxHeight ps)

end

variable {p : Prim} {ps : List Prim} {n : Nat}

theorem maxHeight_le_iff : maxHeight ps ≤ n ↔ ∀ p ∈ ps, p.height ≤ n := by
  induction ps with
  | nil => simp [maxHeight]
  | cons p ps ih => simp [maxHeight, ih]

theorem height_le_succ_iff : p.height ≤ n + 1 ↔ ∀ q ∈ p.parts, q.height ≤ n := by
  rw [Nat.add_comm]
  cases p with
  | assign target value =>
    cases target <;> simp [height, placeHeight, parts, Place.parts, maxHeight_le_iff, or_imp, forall_and]
  | step op target => cases target <;> simp [height, placeHeight, parts, Place.parts, maxHeight_le_iff]
  | lambda code => obtain ⟨_, _, _⟩ := code; simp [height, codeHeight, parts]
  | quote stamp code => obtain ⟨_, _, _⟩ := code; simp [height, codeHeight, parts]
  | _ => simp [height, parts, maxHeight_le_iff]

theorem height_le_succ (h : ∀ q ∈ p.parts, q.height ≤ n) : p.height ≤ n + 1 :=
  height_le_succ_iff.2 h

theorem height_of_isTrivial (h : p.isTrivial = true) : p.height = 1 := by
  cases p with
  | const | read => rfl
  | _ => cases h

theorem height_le_of_isTrivial (hps : ∀ p ∈ ps, p.isTrivial = true) (hn : 1 ≤ n) : ∀ p ∈ ps, p.height ≤ n :=
  fun p hp => height_of_isTrivial (hps p hp) ▸ hn

end Prim

open Prim

variable {n : Nat}

theorem Temp.height_scope_le {temps : List Temp} {statements : List Prim} {result : Prim}
    (ht : ∀ t ∈ temps, t.init.height ≤ n) (hs : ∀ p ∈ statements, p.height ≤ n + 1) (hr : result.height ≤ n + 1) :
    (scope temps statements result).height ≤ n + 2 := by
  by_cases hne : temps = []
  · subst hne
    exact Nat.le_succ_of_le hr
  · rw [scope_of_ne_nil hne]
    refine height_le_succ fun q hq => ?_
    rw [parts, List.append_assoc, List.mem_append, List.mem_append, List.mem_singleton] at hq
    rcases hq with hq | hq | rfl
    · obtain ⟨t, ht', rfl⟩ := List.mem_map.1 hq
      exact height_le_succ (List.forall_mem_singleton.2 (ht t ht'))
    · exact hs q hq
    · exact hr

theorem Place.Settled.height_le {pinned : Bool} {operand : Expr} {place place' : Place Prim} {temps : List Temp}
    {u u' : Supply} (h : place.Settled pinned operand place' temps u u') (hp : ∀ p ∈ place.parts, p.height ≤ n) :
    (∀ t ∈ temps, t.init.height ≤ n) ∧ ∀ p ∈ place'.parts, p.isTrivial = true := by
  cases h with
  | var => exact ⟨by simp, by simp [Place.parts]⟩
  | trivial _ ha hi => exact ⟨by simp, List.forall_mem_cons.2 ⟨ha, hi⟩⟩
  | kept _ hk => exact ⟨fun t ht => hp _ (hk.init_mem t ht), hk.isTrivial⟩

/-- A lowered step is two levels higher than its location, and at least as high as the step of a variable. -/
theorem StepForm.height_le {k : StepKind} {method : Option Method} {operand : Expr} {place : Place Prim} {p : Prim}
    {u u' : Supply} (h : StepForm k method operand place p u u') (hp : ∀ p ∈ place.parts, p.height ≤ n)
    (hn : 2 ≤ n) : p.height ≤ n + 2 := by
  cases h with
  | primitive _ _ hs =>
    obtain ⟨hinit, htriv⟩ := hs.height_le hp
    have hstep := height_le_succ (p := .step k.op _) (height_le_of_isTrivial htriv (Nat.le_refl 1))
    exact Temp.height_scope_le hinit (by simp) (by omega)
  | @functional _ next place' temps old new _ _ _ _ hnext hs _ _ =>
    obtain ⟨hinit, htriv⟩ := hs.height_le hp
    have hread : place'.read.height ≤ 2 := height_le_succ fun q hq =>
      height_le_of_isTrivial htriv (Nat.le_refl 1) q (parts_read place' ▸ hq)
    have hcompute : (next (.read old)).height ≤ 2 := by cases hnext <;> exact Nat.le_refl 2
    have hassign : (Prim.assign place' (.read new)).height ≤ 2 := by
      refine height_le_succ (height_le_of_isTrivial (fun q hq => ?_) (Nat.le_refl 1))
      rcases List.mem_append.1 hq with hq | hq
      · exact htriv q hq
      · exact List.mem_singleton.1 hq ▸ rfl
    refine Temp.height_scope_le ?_ (List.forall_mem_singleton.2 (by omega)) ?_
    · simp only [List.forall_mem_append, List.forall_mem_singleton]
      exact ⟨⟨hinit, by omega⟩, by omega⟩
    · split <;> exact Nat.le_add_left 1 n

theorem Slot.mem_of_arrange {slots : List Slot} {left : List (Option Prim)} {args : List Prim}
    (h : arrange slots left = some args) : ∀ p ∈ args, (∃ c, p = .const c) ∨ some p ∈ left := by
  induction slots generalizing left args with
  | nil => cases h; simp
  | cons slot slots ih =>
    cases slot with
    | bound i =>
      obtain ⟨p, hp, h⟩ := Option.bind_eq_some_iff.1 h
      obtain ⟨ps, hps, h⟩ := Option.bind_eq_some_iff.1 h
      cases h
      have hleft : some p ∈ left := List.mem_of_getElem? (Option.join_eq_some_iff.1 hp)
      refine List.forall_mem_cons.2 ⟨.inr hleft, fun q hq => ?_⟩
      refine (ih hps q hq).imp_right fun hm => ?_
      exact (List.mem_or_eq_of_mem_set hm).resolve_right (by simp)
    | default c =>
      obtain ⟨ps, hps, h⟩ := Option.bind_eq_some_iff.1 h
      cases h
      exact List.forall_mem_cons.2 ⟨.inl ⟨c, rfl⟩, ih hps⟩

theorem Slot.height_le_of_arrange {slots : List Slot} {values args : List Prim}
    (h : arrange slots (values.map some) = some args) (hv : ∀ v ∈ values, v.height ≤ n) (hn : 1 ≤ n) :
    ∀ p ∈ args, p.height ≤ n := by
  intro p hp
  rcases mem_of_arrange h p hp with ⟨c, rfl⟩ | hm
  · exact hn
  · exact hv p (by simpa using hm)

theorem InvokeForm.height_le {params : List Descriptor} {ty : Ty} {tys : List Ty} {c p : Prim} {vs : List Prim}
    {u u' : Supply} (h : InvokeForm params ty tys c vs p u u') (hv : ∀ v ∈ c :: vs, v.height ≤ n) (hn : 1 ≤ n) :
    p.height ≤ n + 2 := by
  cases h with
  | direct _ _ _ ha =>
    rw [List.forall_mem_cons] at hv
    refine Nat.le_succ_of_le (height_le_succ (List.forall_mem_cons.2 ⟨hv.1, ?_⟩))
    exact Slot.height_le_of_arrange ha hv.2 hn
  | spilled _ _ _ hk ha =>
    have htriv := List.forall_mem_cons.1 (height_le_of_isTrivial hk.isTrivial (Nat.le_refl 1))
    have hcall : (Prim.call _ _).height ≤ 2 :=
      height_le_succ (List.forall_mem_cons.2 ⟨htriv.1, Slot.height_le_of_arrange ha htriv.2 (Nat.le_refl 1)⟩)
    exact Temp.height_scope_le (fun t ht => hv _ (hk.init_mem t ht)) (by simp) (by omega)

theorem height_le_of_storeElements {array : Var} {bounds : List Nat} {linear : Nat} {ps stores : List Prim}
    (h : storeElements? array bounds linear ps = some stores) (hp : ∀ p ∈ ps, p.height ≤ n) (hn : 1 ≤ n) :
    ∀ q ∈ stores, q.height ≤ n + 1 := by
  induction ps generalizing linear stores with
  | nil => cases h; simp
  | cons p ps ih =>
    obtain ⟨is, rest, hi, hr, rfl⟩ := storeElements?_cons_eq_some.1 h
    rw [List.forall_mem_cons] at hp
    refine List.forall_mem_cons.2 ⟨height_le_succ fun q hq => ?_, ih hr hp.2⟩
    rw [parts, Place.parts, List.mem_append, List.mem_cons, List.mem_singleton] at hq
    rcases hq with (rfl | hq) | rfl
    · exact hn
    · obtain ⟨c, rfl⟩ := const_of_mapM_indexConstant hi q hq
      exact hn
    · exact hp.1

/-- An array that is stored element by element is two levels higher than its elements, and at least as high as an
empty one. -/
theorem height_le_of_arrayBlock {array : Var} {element : Ty} {bounds : List Nat} {ps : List Prim} {p : Prim}
    (h : arrayBlock? array element bounds ps = some p) (hp : ∀ p ∈ ps, p.height ≤ n) (hn : 2 ≤ n) :
    p.height ≤ n + 2 := by
  obtain ⟨sizes, stores, hs, hstores, rfl⟩ := arrayBlock?_eq_some h
  have hnew : (Prim.newArray element sizes).height ≤ 2 := height_le_succ fun q hq => by
    obtain ⟨c, rfl⟩ := const_of_mapM_indexConstant hs q hq
    exact Nat.le_refl 1
  refine Temp.height_scope_le (List.forall_mem_singleton.2 (Nat.le_trans hnew hn)) ?_ (Nat.le_add_left 1 n)
  exact height_le_of_storeElements hstores hp (by omega)

/-! ### Lowered expressions -/

/-- What holds of an expression and its lowering: the tree is about twice as high as the expression is nested, and
the tree of a constant is a leaf. -/
structure LowersWithin (fold : Bool) (e : Expr) (p : Prim) (_ _ : Supply) : Prop where
  height : p.height ≤ 2 * e.nesting fold + 2
  leaf : ∀ c, e = .const c → p.height = 1

variable {fold : Bool} {u u' : Supply}

theorem Threaded.height_le {es : List Expr} {ps : List Prim} (h : Threaded (LowersWithin fold) es ps u u') :
    ∀ p ∈ ps, p.height ≤ 2 * Expr.maxNesting fold es + 2 := by
  induction h with
  | nil => simp
  | cons hp _ ih =>
    have hhead := hp.height
    rw [Expr.maxNesting]
    refine List.forall_mem_cons.2 ⟨by omega, fun p hm => ?_⟩
    have := ih p hm
    omega

theorem Threaded.height_le_of_constants {es : List Expr} {ps : List Prim} (h : Threaded (LowersWithin fold) es ps u u')
    (hc : (Expr.constants? es).isSome = true) : ∀ p ∈ ps, p.height ≤ 2 := by
  obtain ⟨values, hvalues⟩ := Option.isSome_iff_exists.1 hc
  obtain rfl := Expr.constants?_eq_some hvalues
  clear hc hvalues
  induction values generalizing ps u with
  | nil => cases h; simp
  | cons c values ih =>
    cases h with
    | cons hp hrest => exact List.forall_mem_cons.2 ⟨by rw [hp.leaf c rfl]; omega, ih hrest⟩

theorem PlaceRel.height_le {target : Expr} {place : Place Prim} (h : PlaceRel (LowersWithin fold) target place u u') :
    ∀ p ∈ place.parts, p.height ≤ 2 * Expr.placeNesting fold target + 2 := by
  cases h with
  | var => simp [Place.parts]
  | element ha hi => exact (Threaded.cons ha hi).height_le

theorem Threaded.lowersWithin {stamp : Stamp} {head : Head} {parts es : List Expr} {ps : List Prim} {q : Prim}
    {v v' : Supply} (h : Threaded (LowersWithin fold) es ps u u') (hq : q.parts = ps)
    (hn : (Expr.node stamp head parts).nesting fold = 1 + Expr.maxNesting fold es) :
    LowersWithin fold (.node stamp head parts) q v v' := by
  have hp := height_le_succ (hq ▸ h.height_le)
  exact ⟨by omega, fun _ h => by cases h⟩

theorem lowersWithin_rules (o : LowerOptions) : LowerRules o (LowersWithin o.foldConstantArrays) where
  const := ⟨by simp [Prim.height], fun _ _ => rfl⟩
  var := ⟨by simp [Prim.height], fun _ h => by cases h⟩
  index _ ha hi := (Threaded.cons ha hi).lowersWithin rfl (by simp only [Expr.nesting])
  binary _ hl hr := (Threaded.cons hl (.cons hr .nil)).lowersWithin rfl (by simp only [Expr.nesting])
  call _ hf ha := (Threaded.cons hf ha).lowersWithin rfl (by simp only [Expr.nesting])
  block _ hb := hb.lowersWithin rfl (by simp only [Expr.nesting])
  lambda _ _ hb := (Threaded.cons hb .nil).lowersWithin rfl (by simp only [Expr.nesting])
  quote _ _ hb := (Threaded.cons hb .nil).lowersWithin rfl (by simp only [Expr.nesting])
  assign {_ target value place v _ _ _} _ ht hv := by
    refine ⟨?_, fun _ h => by cases h⟩
    have hvalue := hv.height
    have hp : (Prim.assign place v).height ≤
        2 * max (target.placeNesting o.foldConstantArrays) (value.nesting o.foldConstantArrays) + 2 + 1 := by
      refine height_le_succ (List.forall_mem_append.2 ⟨fun q hq => ?_, List.forall_mem_singleton.2 (by omega)⟩)
      have := ht.height_le q hq
      omega
    rw [Expr.nesting]
    omega
  step _ ht hform := by
    have hp := hform.height_le ht.height_le (by omega)
    exact ⟨by rw [Expr.nesting]; omega, fun _ h => by cases h⟩
  fold _ _ := ⟨by simp only [Prim.height]; omega, fun _ h => by cases h⟩
  array _ _ hes hblock := by
    refine ⟨?_, fun _ h => by cases h⟩
    rw [Expr.nesting]
    split_ifs with hconst
    · -- Where such arrays may be folded this one counts as a single level, so its elements have to be leaves.
      exact height_le_of_arrayBlock hblock (hes.height_le_of_constants (Bool.and_eq_true_iff.1 hconst).2) (by omega)
    · have hp := height_le_of_arrayBlock hblock hes.height_le (by omega)
      omega
  invoke _ hc hvs hform := by
    have hp := hform.height_le (Threaded.cons hc hvs).height_le (by omega)
    exact ⟨by simp only [Expr.nesting]; omega, fun _ h => by cases h⟩

theorem Lowerer.nesting_le_of_lower {l : Lowerer} {e : Expr} {p : Prim} {supply : Supply} (he : e.WellMade)
    (h : (l.lower e supply).1 = .ok p) : e.nesting l.options.foldConstantArrays ≤ l.options.maxDepth := by
  by_contra hn
  by_cases hl : l.depth ≤ l.options.maxDepth
  · rw [(lower_of_lt_nesting he supply hl (by omega)).1] at h
    cases h
  · have hrun : (l.lower e supply).1 = .error (.depthLimit l.options.maxDepth) := by
      unfold lower Expr.lowerNode
      rw [run_nested, if_pos (by simp; omega)]
    rw [hrun] at h
    cases h

/-- The tree that an expression is lowered to is at most twice as high as the limit allows the expression to be
nested, and two more. -/
theorem Lowerer.height_lower_le {l : Lowerer} {e : Expr} {p : Prim} {supply : Supply} (he : e.Obtained)
    (h : (l.lower e supply).1 = .ok p) : p.height ≤ 2 * l.options.maxDepth + 2 := by
  obtain ⟨supply', hp⟩ := exists_loweredTo h
  have hheight := ((lowersWithin_rules l.options).of_loweredTo he.wellMade hp).height
  have hnesting := nesting_le_of_lower he.wellMade h
  omega

/-- `checked(x++)` -/
def checkedCount : Expr :=
  .node 0 (.step ⟨.postIncrement, true⟩ none) [.var ⟨⟨0⟩, "x", .int .i32⟩]

/-- The bound is attained: in the block of a checked step the new value is computed below an assignment. -/
theorem Lowerer.height_lower_checkedCount :
    ∃ p, checkedCount.Obtained ∧ (lower { options := { maxDepth := 1 } } checkedCount { var := 1 }).1 = .ok p ∧
      p.height = 4 ∧ p.height ≤ 2 * 1 + 2 := by
  have hmake : Expr.mkStep ⟨.postIncrement, true⟩ (.var ⟨⟨0⟩, "x", .int .i32⟩) none 0 = .ok (checkedCount, 1) := rfl
  have hobtained : checkedCount.Obtained := .made (List.forall_mem_singleton.2 (.var _)) hmake
  obtain ⟨p, hp, hh⟩ :
      ∃ p, (lower { options := { maxDepth := 1 } } checkedCount { var := 1 }).1 = .ok p ∧ p.height = 4 :=
    ⟨_, rfl, rfl⟩
  exact ⟨p, hobtained, hp, hh, height_lower_le hobtained hp⟩

end ExprLowering
