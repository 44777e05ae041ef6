import Mathlib.Data.List.Perm.Basic
import Mathlib.Algebra.BigOperators.Group.List.Basic
import Mathlib.Algebra.GroupWithZero.Nat
import ExprLowering.Prim
import ExprLowering.Proofs.WellMade

/-!
# Where variables are mentioned

The free variables of expressions and of primitive trees, and how often a tree declares, reads and stores
a variable. A variable is used as a temporary (`Hygienic`) when one block declares it, a statement of that
block stores it, no other store of it exists, and it is read in later statements of the block only.
-/

namespace ExprLowering

namespace Expr

/-- The variables that the head binds in its parts. -/
def binders : Head → List VarId
  | .block locals => locals.map (·.id)
  | .lambda _ params => params.map (·.id)
  | _ => []

mutual

/-- The variables that are read or stored and not bound by a block or a lambda around. -/
def free : Expr → List VarId
  | const _ => []
  | var v => [v.id]
  | node _ head parts => (freeAll parts).filter fun x => x ∉ binders head

def freeAll : List Expr → List VarId
  | [] => []
  | e :: es => free e ++ freeAll es

end

mutual

/-- All variables, bound or not. -/
def vars : Expr → List VarId
  | const _ => []
  | var v => [v.id]
  | node _ head parts => binders head ++ varsAll parts

def varsAll : List Expr → List VarId
  | [] => []
  | e :: es => vars e ++ varsAll es

end

/-- All variables of the expression come before `n`. -/
def Below (n : Nat) (e : Expr) : Prop :=
  ∀ x ∈ e.vars, x.val < n

theorem mem_varsAll {x : VarId} {es : List Expr} : x ∈ varsAll es ↔ ∃ e ∈ es, x ∈ e.vars := by
  induction es with
  | nil => simp [varsAll]
  | cons e es ih => simp [varsAll, ih]

theorem Below.part {n : Nat} {e : Expr} (h : e.Below n) : ∀ p ∈ e.parts, p.Below n := by
  intro p hp x hx
  cases e with
  | const | var => cases hp
  | node stamp head parts =>
    exact h x (List.mem_append_right _ (mem_varsAll.2 ⟨p, hp, hx⟩))

theorem Below.binders {n : Nat} {stamp : Stamp} {head : Head} {parts : List Expr}
    (h : (node stamp head parts).Below n) : ∀ x ∈ Expr.binders head, x.val < n :=
  fun x hx => h x (List.mem_append_left _ hx)

theorem mem_freeAll {x : VarId} {es : List Expr} : x ∈ freeAll es ↔ ∃ e ∈ es, x ∈ e.free := by
  induction es with
  | nil => simp [freeAll]
  | cons e es ih => simp [freeAll, ih]

@[simp] theorem mem_free_node {x : VarId} {stamp : Stamp} {head : Head} {parts : List Expr} :
    x ∈ (node stamp head parts).free ↔ x ∈ freeAll parts ∧ x ∉ binders head := by
  simp [free]

theorem mem_vars_of_mem_free {x : VarId} {e : Expr} (h : x ∈ e.free) : x ∈ e.vars := by
  induction e using induction_parts with
  | const c => exact h
  | var v => exact h
  | node stamp head parts ih =>
    obtain ⟨e, he, hx⟩ := mem_freeAll.1 (List.mem_filter.1 h).1
    exact List.mem_append_right _ (mem_varsAll.2 ⟨e, he, ih e he hx⟩)

end Expr

/-! ### Primitive trees -/

/-- The trees in a location. -/
def Place.parts : Place Prim → List Prim
  | .var _ => []
  | .element array indices => array :: indices

/-- The variable that a location is. -/
def Place.own : Place Prim → List VarId
  | .var v => [v.id]
  | .element _ _ => []

namespace Prim

/-- The direct subtrees, in evaluation order. -/
def parts : Prim → List Prim
  | const _ | read _ | constArray _ _ _ => []
  | assign target value => target.parts ++ [value]
  | block _ body => body
  | arith _ _ left right => [left, right]
  | step _ target => target.parts
  | newArray _ bounds => bounds
  | element array indices => array :: indices
  | call callee args => callee :: args
  | callMethod _ args => args
  | lambda code => [code.body]
  | quote _ code => [code.body]

/-- The variables that the root itself reads or stores. -/
def own : Prim → List VarId
  | read v => [v.id]
  | assign target _ => target.own
  | step _ target => target.own
  | _ => []

/-- The variables that the root binds in its parts. -/
def binders : Prim → List VarId
  | block locals _ => locals.map (·.id)
  | lambda code => code.params.map (·.id)
  | quote _ code => code.params.map (·.id)
  | _ => []

mutual

/-- The variables that are read or stored and not bound by a block or a function around. -/
def free : Prim → List VarId
  | const _ | constArray _ _ _ => []
  | read v => [v.id]
  | assign target value => placeFree target ++ free value
  | block locals body => (freeAll body).filter fun x => x ∉ locals.map (·.id)
  | arith _ _ left right => free left ++ free right
  | step _ target => placeFree target
  | newArray _ bounds => freeAll bounds
  | element array indices => free array ++ freeAll indices
  | call callee args => free callee ++ freeAll args
  | callMethod _ args => freeAll args
  | lambda code => codeFree code
  | quote _ code => codeFree code

def placeFree : Place Prim → List VarId
  | .var v => [v.id]
  | .element array indices => free array ++ freeAll indices

def codeFree : Lambda Prim → List VarId
  | ⟨_, params, body⟩ => (free body).filter fun x => x ∉ params.map (·.id)

def freeAll : List Prim → List VarId
  | [] => []
  | p :: ps => free p ++ freeAll ps

end

@[simp] theorem listPreorder_append (ps qs : List Prim) :
    listPreorder (ps ++ qs) = listPreorder ps ++ listPreorder qs := by
  induction ps with
  | nil => rfl
  | cons p ps ih => simp [listPreorder, ih]

@[simp] theorem freeAll_append (ps qs : List Prim) : freeAll (ps ++ qs) = freeAll ps ++ freeAll qs := by
  induction ps with
  | nil => rfl
  | cons p ps ih => simp [freeAll, ih]

theorem mem_freeAll {x : VarId} {ps : List Prim} : x ∈ freeAll ps ↔ ∃ p ∈ ps, x ∈ p.free := by
  induction ps with
  | nil => simp [freeAll]
  | cons p ps ih => simp [freeAll, ih]

theorem preorder_eq (p : Prim) : p.preorder = p :: listPreorder p.parts := by
  cases p with
  | assign target value =>
    cases target <;> simp [preorder, placePreorder, parts, Place.parts, listPreorder]
  | step op target => cases target <;> simp [preorder, placePreorder, parts, Place.parts, listPreorder]
  | lambda code => obtain ⟨_, _, _⟩ := code; simp [preorder, parts, listPreorder, codePreorder]
  | quote stamp code => obtain ⟨_, _, _⟩ := code; simp [preorder, parts, listPreorder, codePreorder]
  | _ => simp [preorder, parts, listPreorder]

theorem mem_free {p : Prim} {x : VarId} :
    x ∈ p.free ↔ (x ∈ p.own ∨ x ∈ freeAll p.parts) ∧ x ∉ p.binders := by
  cases p with
  | assign target value =>
    cases target <;> simp [free, placeFree, own, parts, binders, Place.own, Place.parts, freeAll]
  | step op target => cases target <;> simp [free, placeFree, own, parts, binders, Place.own, Place.parts, freeAll]
  | lambda code => obtain ⟨_, _, _⟩ := code; simp [free, codeFree, own, parts, binders, freeAll]
  | quote stamp code => obtain ⟨_, _, _⟩ := code; simp [free, codeFree, own, parts, binders, freeAll]
  | _ => simp [free, own, parts, binders, freeAll]

theorem parts_read (place : Place Prim) : place.read.parts = place.parts := by
  cases place <;> rfl

theorem preorder_read (place : Place Prim) : place.read.preorder = place.read :: listPreorder place.parts := by
  rw [preorder_eq, parts_read]

theorem own_read (place : Place Prim) : place.read.own = place.own := by
  cases place <;> rfl

theorem binders_read (place : Place Prim) : place.read.binders = [] := by
  cases place <;> rfl

/-! ### Counting mentions -/

/-- The ways in which a node mentions a variable. -/
inductive Mention where
  | declare | param | store | read
deriving DecidableEq

/-- How often the root itself mentions the variable so. -/
def mentions (x : VarId) : Mention → Prim → Nat
  | .declare, block locals _ => (locals.map (·.id)).count x
  | .param, lambda code => (code.params.map (·.id)).count x
  | .param, quote _ code => (code.params.map (·.id)).count x
  | .store, assign (.var v) _ => if v.id = x then 1 else 0
  | .store, step _ (.var v) => if v.id = x then 1 else 0
  | .read, read v => if v.id = x then 1 else 0
  | .read, step _ (.var v) => if v.id = x then 1 else 0
  | _, _ => 0

/-- How often the nodes mention the variable so. -/
def tally (x : VarId) (k : Mention) (nodes : List Prim) : Nat :=
  (nodes.map (mentions x k)).sum

/-- The nodes do not mention the variable. -/
def Clean (x : VarId) (nodes : List Prim) : Prop :=
  ∀ k, tally x k nodes = 0

/-- Among the nodes the variable is a temporary: one block declares it, and it is stored once, by a
statement of that block whose value does not mention it; it is read in later statements of the block
only. -/
structure Hygienic (x : VarId) (nodes : List Prim) : Prop where
  declared : tally x .declare nodes = 1
  notParam : tally x .param nodes = 0
  stored : tally x .store nodes = 1
  block : ∃ locals before v init after,
    Prim.block locals (before ++ assign (.var v) init :: after) ∈ nodes ∧ x ∈ locals.map (·.id) ∧ v.id = x ∧
      Clean x init.preorder ∧ tally x .read nodes = tally x .read (listPreorder after)

section
variable {x : VarId} {k : Mention} {A B : List Prim}

@[simp] theorem tally_nil : tally x k [] = 0 := rfl

@[simp] theorem tally_cons (p : Prim) : tally x k (p :: A) = mentions x k p + tally x k A := by
  simp [tally]

@[simp] theorem tally_append : tally x k (A ++ B) = tally x k A + tally x k B := by
  simp [tally]

theorem Clean.append (hA : Clean x A) (hB : Clean x B) : Clean x (A ++ B) := fun k => by
  rw [tally_append, hA k, hB k]

theorem Clean.of_append (h : Clean x (A ++ B)) : Clean x A ∧ Clean x B :=
  ⟨fun k => Nat.eq_zero_of_add_eq_zero_right (tally_append ▸ h k),
    fun k => Nat.eq_zero_of_add_eq_zero_left (tally_append ▸ h k)⟩

theorem Clean.list {ps : List Prim} (h : ∀ p ∈ ps, Clean x p.preorder) : Clean x (listPreorder ps) := by
  induction ps with
  | nil => exact fun _ => rfl
  | cons p ps ih => exact (h p (by simp)).append (ih fun q hq => h q (by simp [hq]))

/-- The nodes `B` mention the variable as `A` do, and have the blocks of `A`. -/
structure Covers (x : VarId) (A B : List Prim) : Prop where
  tally : ∀ k, tally x k B = tally x k A
  block : ∀ {locals body}, Prim.block locals body ∈ A → Prim.block locals body ∈ B

theorem Clean.covers (h : Clean x A) (hc : Covers x A B) : Clean x B :=
  fun k => (hc.tally k).trans (h k)

theorem Hygienic.covers (h : Hygienic x A) (hc : Covers x A B) : Hygienic x B := by
  obtain ⟨h₁, h₂, h₃, locals, before, v, init, after, hmem, hx, hv, hi, hr⟩ := h
  refine ⟨(hc.tally _).trans h₁, (hc.tally _).trans h₂, (hc.tally _).trans h₃, ?_⟩
  exact ⟨locals, before, v, init, after, hc.block hmem, hx, hv, hi, (hc.tally _).trans hr⟩

theorem Covers.append_left (h : Clean x B) : Covers x A (A ++ B) :=
  ⟨fun k => by rw [tally_append, h k, Nat.add_zero], fun hm => List.mem_append_left _ hm⟩

theorem Covers.append_right (h : Clean x A) : Covers x B (A ++ B) :=
  ⟨fun k => by rw [tally_append, h k, Nat.zero_add], fun hm => List.mem_append_right _ hm⟩

theorem Covers.append (C : List Prim) (h : Covers x A B) : Covers x (C ++ A) (C ++ B) :=
  ⟨fun k => by rw [tally_append, tally_append, h.tally], fun hm =>
    List.mem_append.2 ((List.mem_append.1 hm).imp_right h.block)⟩

theorem Covers.perm (h : A.Perm B) : Covers x A B :=
  ⟨fun _ => (h.map _).sum_eq.symm, fun hm => h.mem_iff.1 hm⟩

theorem Covers.trans {C : List Prim} (h₁ : Covers x A B) (h₂ : Covers x B C) : Covers x A C :=
  ⟨fun k => (h₂.tally k).trans (h₁.tally k), fun hm => h₂.block (h₁.block hm)⟩

theorem mentions_eq_zero {p : Prim} (ho : x ∉ p.own) (hb : x ∉ p.binders) : mentions x k p = 0 := by
  cases p with
  | read v => cases k <;> simp_all [mentions, own, eq_comm]
  | assign target value => cases target <;> cases k <;> simp_all [mentions, own, Place.own, eq_comm]
  | step op target => cases target <;> cases k <;> simp_all [mentions, own, Place.own, eq_comm]
  | block locals body =>
    cases k with
    | declare => exact List.count_eq_zero.2 hb
    | _ => rfl
  | lambda code =>
    cases k with
    | param => exact List.count_eq_zero.2 hb
    | _ => rfl
  | quote stamp code =>
    cases k with
    | param => exact List.count_eq_zero.2 hb
    | _ => rfl
  | _ => cases k <;> rfl

theorem mem_of_mem_listPreorder {ps : List Prim} (h : ∀ p ∈ ps, p.isTrivial = true) {q : Prim}
    (hq : q ∈ listPreorder ps) : q ∈ ps := by
  induction ps with
  | nil => exact hq
  | cons p ps ih =>
    rcases List.mem_append.1 hq with hq | hq
    · have hp := h p (by simp)
      cases p with
      | const | read => rw [List.mem_singleton.1 hq]; exact List.mem_cons_self ..
      | _ => cases hp
    · exact List.mem_cons_of_mem _ (ih (fun p hp => h p (by simp [hp])) hq)

theorem tally_of_isTrivial {ps : List Prim} (h : ∀ p ∈ ps, p.isTrivial = true) (hk : k ≠ .read) :
    tally x k (listPreorder ps) = 0 := by
  refine List.sum_eq_zero (List.forall_mem_map.2 fun q hq => ?_)
  have hq' := h q (mem_of_mem_listPreorder h hq)
  cases q with
  | const | read => cases k <;> simp_all [mentions]
  | _ => cases hq'

end

end Prim
end ExprLowering
