import ExprLowering.Proofs.AlikeRuns

/-!
# Trees without effects

An expression of constants, variables and binary operations is lowered to one and the same tree, whatever the options
and the supply (`Expr.Plain.lowered`). Such a tree leaves the store as it is, and what it ends with depends on what the
variables in it hold, and on nothing else (`Prim.Plain.yields`).
-/

namespace ExprLowering

/-! ### Plain expressions and their trees -/

/-- Constants and variables, and binary operations on them. -/
inductive Expr.Plain : Expr → Prop
  | const (c : Constant) : Plain (.const c)
  | var (v : Var) : Plain (.var v)
  | binary {stamp : Stamp} {op : ArithOp} {checked : Bool} {left right : Expr} (hl : Plain left) (hr : Plain right) :
      Plain (.node stamp (.binary op checked) [left, right])

/-- The tree of a plain expression; that of any other one does not matter. -/
def Expr.plainTree : Expr → Prim
  | .const c => .const c
  | .var v => .read v
  | .node _ (.binary op checked) [left, right] => .arith op checked left.plainTree right.plainTree
  | .node .. => .const (.null .void)

/-- Constants and variables numbered below `n`, and arithmetic on them. -/
inductive Prim.Plain (n : Nat) : Prim → Prop
  | const (c : Constant) : Plain n (.const c)
  | read {v : Var} (hv : v.id.val < n) : Plain n (.read v)
  | arith {op : ArithOp} {checked : Bool} {left right : Prim} (hl : Plain n left) (hr : Plain n right) :
      Plain n (.arith op checked left right)

namespace Expr.Plain
variable {e : Expr}

theorem tree {n : Nat} (h : e.Plain) (hb : e.Below n) : e.plainTree.Plain n := by
  induction h with
  | const c => exact .const c
  | var v => exact .read (hb v.id (List.mem_singleton.2 rfl))
  | binary _ _ ihl ihr =>
    obtain ⟨hl, hr⟩ := List.forall_mem_cons.1 hb.part
    exact .arith (ihl hl) (ihr (List.forall_mem_singleton.1 hr))

theorem lowered {o : LowerOptions} {p : Prim} {u u' : Supply} (h : e.Plain) (he : e.WellMade)
    (hp : LoweredTo o e p u u') : p = e.plainTree ∧ u' = u := by
  induction h generalizing p u u' with
  | const c =>
    cases hp.form he
    exact ⟨rfl, rfl⟩
  | var v =>
    cases hp.form he
    exact ⟨rfl, rfl⟩
  | binary _ _ ihl ihr =>
    obtain ⟨hl, hr⟩ := List.forall_mem_cons.1 he.part
    cases hp.form he with
    | binary hleft hright =>
      obtain ⟨rfl, rfl⟩ := ihl hl hleft
      obtain ⟨rfl, rfl⟩ := ihr (List.forall_mem_singleton.1 hr) hright
      exact ⟨rfl, rfl⟩

theorem threaded {o : LowerOptions} {es : List Expr} {ps : List Prim} {u u' : Supply}
    (h : Threaded (LoweredTo o) es ps u u') (hes : ∀ e ∈ es, e.Plain ∧ e.WellMade) :
    ps = es.map plainTree ∧ u' = u := by
  induction h with
  | nil => exact ⟨rfl, rfl⟩
  | cons hp _ ih =>
    rw [List.forall_mem_cons] at hes
    obtain ⟨rfl, rfl⟩ := hes.1.1.lowered hes.1.2 hp
    obtain ⟨rfl, rfl⟩ := ih hes.2
    exact ⟨rfl, rfl⟩

end Expr.Plain

/-! ### Evaluation that leaves the store alone -/

variable {σ : Type} {host : Host σ} {m : Machine} {enter : Enter σ} {scopes scopes' : List Scope} {s t : Store σ}

/-- Evaluating the tree ends with `r` and leaves the store as it is. -/
def Machine.Yields (host : Host σ) (m : Machine) (enter : Enter σ) (scopes : List Scope) (s : Store σ) (p : Prim)
    (r : Except Fault Value) : Prop :=
  (m.evalWith host id enter scopes p).run s = (r, s)

namespace Machine.Yields

theorem unique {p : Prim} {r r' : Except Fault Value} (h : Yields host m enter scopes s p r)
    (h' : Yields host m enter scopes s p r') : r = r' :=
  (Prod.mk.inj (h.symm.trans h')).1

theorem const (c : Constant) : Yields host m enter scopes s (.const c) (.ok (.ofConstant c)) :=
  rfl

theorem read {v : Var} {c : CellId} (h : m.lookup scopes v = some c) :
    Yields host m enter scopes s (.read v) (.ok (s.cells.getD c .null)) :=
  run_read h

theorem unbound {v : Var} (h : m.lookup scopes v = none) :
    Yields host m enter scopes s (.read v) (.error (.unbound v)) := by
  rw [Yields, evalWith, cell, h]
  rfl

theorem arith {op : ArithOp} {checked : Bool} {left right : Prim} {r r' : Except Fault Value}
    (hl : Yields host m enter scopes s left r) (hr : Yields host m enter scopes s right r') :
    Yields host m enter scopes s (.arith op checked left right) (do Value.arith op checked (← r) (← r')) := by
  rw [Yields, evalWith]
  cases r with
  | error f => exact run_bind_of_error hl
  | ok a =>
    rw [run_bind_of_ok hl]
    cases r' with
    | error f => exact run_bind_of_error hr
    | ok b => exact run_bind_of_ok hr

theorem values {ps : List Prim} {vs : List Value}
    (h : List.Forall₂ (fun p v => Yields host m enter scopes s p (.ok v)) ps vs) :
    (m.evalAll host id enter scopes ps).run s = (.ok vs, s) := by
  rw [evalAll_eq_mapM]
  induction h with
  | nil => rfl
  | cons hp _ ih =>
    rw [List.mapM_cons, run_bind_of_ok hp, run_bind_of_ok ih]
    rfl

theorem of_mem {ps : List Prim} {vs : List Value}
    (h : List.Forall₂ (fun p v => Yields host m enter scopes s p (.ok v)) ps vs) {p : Prim} (hp : p ∈ ps) :
    ∃ v, Yields host m enter scopes s p (.ok v) := by
  obtain ⟨i, hi⟩ := List.mem_iff_getElem?.1 hp
  obtain ⟨v, -, hv⟩ := exists_of_forall₂ h hi
  exact ⟨v, hv⟩

/-- Either all trees give values, or the first that does not ends the evaluation of all. -/
theorem values_or_error {ps : List Prim} (h : ∀ p ∈ ps, ∃ r, Yields host m enter scopes s p r) :
    (∃ vs, List.Forall₂ (fun p v => Yields host m enter scopes s p (.ok v)) ps vs) ∨
      ∃ p ∈ ps, ∃ f, Yields host m enter scopes s p (.error f) ∧
        (m.evalAll host id enter scopes ps).run s = (.error f, s) := by
  rw [evalAll_eq_mapM]
  induction ps with
  | nil => exact .inl ⟨[], .nil⟩
  | cons p ps ih =>
    rw [List.forall_mem_cons] at h
    obtain ⟨f | v, hp⟩ := h.1
    · refine .inr ⟨p, List.mem_cons_self, f, hp, ?_⟩
      rw [List.mapM_cons]
      exact run_bind_of_error hp
    · rcases ih h.2 with ⟨vs, hvs⟩ | ⟨q, hq, f, hf, hrun⟩
      · exact .inl ⟨v :: vs, .cons hp hvs⟩
      · refine .inr ⟨q, List.mem_cons_of_mem _ hq, f, hf, ?_⟩
        rw [List.mapM_cons, run_bind_of_ok hp]
        exact run_bind_of_error hrun

end Machine.Yields

namespace Prim.Plain
open Machine (Yields)
variable {n : Nat} {p : Prim}

/-- In two stores a plain tree ends in the same way, with values that are related, if the variables hold values that
are related by a relation that arithmetic respects. -/
theorem yields {V : Value → Value → Prop} (h : p.Plain n) (hconst : ∀ c, V (.ofConstant c) (.ofConstant c))
    (harith : ∀ op checked a a' b b', V a a' → V b b' →
      SameResult V (Value.arith op checked a b) (Value.arith op checked a' b'))
    (hvars : ∀ x : VarId, x.val < n →
      Option.Rel (fun c d => V (s.cells.getD c .null) (t.cells.getD d .null)) (m.cell? scopes x) (m.cell? scopes' x)) :
    ∃ r r', Yields host m enter scopes s p r ∧ Yields host m enter scopes' t p r' ∧ SameResult V r r' := by
  induction h with
  | const c => exact ⟨_, _, .const c, .const c, .ok (hconst c)⟩
  | @read v hv =>
    have hcell := hvars v.id hv
    rw [← m.lookup_eq, ← m.lookup_eq] at hcell
    generalize hl : m.lookup scopes v = c, hl' : m.lookup scopes' v = d at hcell
    cases hcell with
    | none => exact ⟨_, _, .unbound hl, .unbound hl', .error rfl⟩
    | some hV => exact ⟨_, _, .read hl, .read hl', .ok hV⟩
  | @arith op checked _ _ _ _ ihl ihr =>
    obtain ⟨a, a', ha, ha', hsame⟩ := ihl
    obtain ⟨b, b', hb, hb', hsame'⟩ := ihr
    refine ⟨_, _, ha.arith hb, ha'.arith hb', ?_⟩
    cases hsame with
    | error f => exact .error f
    | ok hV =>
      cases hsame' with
      | error f => exact .error f
      | ok hV' => exact harith op checked _ _ _ _ hV hV'

theorem yields_both (h : p.Plain n) (hcells : ∀ x : VarId, x.val < n → ∀ c, m.cell? scopes x = some c →
      t.cells.getD c .null = s.cells.getD c .null) :
    ∃ r, Yields host m enter scopes s p r ∧ Yields host m enter scopes t p r := by
  have harith (op : ArithOp) (checked : Bool) (a a' b b' : Value) (ha : a = a') (hb : b = b') :
      SameResult Eq (Value.arith op checked a b) (Value.arith op checked a' b') := .of_eq (by rw [ha, hb])
  have hvars (x : VarId) (hx : x.val < n) : Option.Rel (fun c d => s.cells.getD c .null = t.cells.getD d .null)
      (m.cell? scopes x) (m.cell? scopes x) := by
    cases hc : m.cell? scopes x with
    | none => exact .none
    | some c => exact .some (hcells x hx c hc).symm
  obtain ⟨r, r', hr, hr', hsame⟩ : ∃ r r', Yields host m enter scopes s p r ∧ Yields host m enter scopes t p r' ∧
      SameResult Eq r r' := h.yields (fun _ => rfl) harith hvars
  exact ⟨r, hr, hsame.eq ▸ hr'⟩

theorem exists_yields (h : p.Plain n) : ∃ r, Yields host m enter scopes s p r := by
  obtain ⟨r, hr, -⟩ : ∃ r, Yields host m enter scopes s p r ∧ Yields host m enter scopes s p r :=
    h.yields_both fun _ _ _ _ => rfl
  exact ⟨r, hr⟩

theorem congr {r : Except Fault Value} (h : p.Plain n)
    (hcells : ∀ x : VarId, x.val < n → ∀ c, m.cell? scopes x = some c →
      t.cells.getD c .null = s.cells.getD c .null) (hr : Yields host m enter scopes s p r) :
    Yields host m enter scopes t p r := by
  obtain ⟨r', hs, ht⟩ : ∃ r', Yields host m enter scopes s p r' ∧ Yields host m enter scopes t p r' :=
    h.yields_both hcells
  exact hr.unique hs ▸ ht

theorem yields_alike {L : Prop} {R : Pairing → σ → σ → Prop} {w : Pairing} {r r' : Except Fault Value} (h : p.Plain n)
    (hs : s.Alike L R m w t) (hvars : ∀ x : VarId, x.val < n → Option.Rel w (m.cell? scopes x) (m.cell? scopes' x))
    (hr : Yields host m enter scopes s p r) (hr' : Yields host m enter scopes' t p r') :
    SameResult (Value.Alike L m w) r r' := by
  obtain ⟨q, q', hq, hq', hsame⟩ : ∃ q q', Yields host m enter scopes s p q ∧ Yields host m enter scopes' t p q' ∧
      SameResult (Value.Alike L m w) q q' := by
    refine h.yields (fun c => .ofConstant c) (fun op checked a a' b b' ha hb => ?_) fun x hx => ?_
    · exact (Value.Rel.arith op checked ha hb).imp fun _ _ => .of_sameAtom
    · have hcell := hvars x hx
      generalize m.cell? scopes x = c, m.cell? scopes' x = d at hcell
      cases hcell with
      | none => exact .none
      | some hc => exact .some (hs.cell hc)
  cases hr.unique hq
  cases hr'.unique hq'
  exact hsame

end Prim.Plain

end ExprLowering
