import ExprLowering.Machine
import ExprLowering.Proofs.LowerRules
import ExprLowering.Proofs.Outcome

/-!
# Basic facts about the machine

How scopes are searched, what is found in an array after a change, and the lists of trees that the machine
runs in order.
-/

namespace ExprLowering

/-! ### Scopes -/

theorem findSome?_lookup_cons (x : VarId) (scope : Scope) (scopes : List Scope) :
    (scope :: scopes).findSome? (·.lookup x) = (scope.lookup x).or (scopes.findSome? (·.lookup x)) := by
  rw [List.findSome?_cons]
  cases scope.lookup x <;> rfl

theorem lookup_capture (x : VarId) (scopes : List Scope) :
    (Machine.capture scopes).lookup x = scopes.findSome? (·.lookup x) := by
  induction scopes with
  | nil => rfl
  | cons scope scopes ih =>
    rw [findSome?_lookup_cons, ← ih, Machine.capture, List.flatten_cons, List.lookup_append]
    rfl

namespace Machine
variable (m : Machine)

/-- The cell of the variable with the id. -/
def cell? (scopes : List Scope) (x : VarId) : Option CellId :=
  (scopes.findSome? (·.lookup x)).or (m.globals.lookup x)

theorem lookup_eq (scopes : List Scope) (v : Var) : m.lookup scopes v = m.cell? scopes v.id :=
  rfl

theorem cell?_insert (a : VarId) (c : CellId) (scope : Scope) (scopes : List Scope) (x : VarId) :
    m.cell? (((a, c) :: scope) :: scopes) x = if x = a then some c else m.cell? (scope :: scopes) x := by
  rw [cell?, cell?, findSome?_lookup_cons, findSome?_lookup_cons, List.lookup_cons]
  by_cases hx : x = a
  · simp [hx]
  · simp [hx, beq_eq_false_iff_ne.2 hx]

theorem cell?_capture (scopes : List Scope) (x : VarId) : m.cell? [capture scopes] x = m.cell? scopes x := by
  rw [cell?, cell?, findSome?_lookup_cons, lookup_capture, List.findSome?_nil, Option.or_none]

end Machine

/-! ### Arrays -/

theorem getD_push {α : Type} (a : Array α) (v d : α) (i : Nat) :
    (a.push v).getD i d = if i = a.size then v else a.getD i d := by
  simp only [Array.getD_eq_getD_getElem?, Array.getElem?_push]
  split <;> rfl

theorem getD_setIfInBounds {α : Type} (a : Array α) (v d : α) (i j : Nat) :
    (a.setIfInBounds i v).getD j d = if i = j ∧ i < a.size then v else a.getD j d := by
  rw [Array.getD_eq_getD_getElem?, Array.getElem?_setIfInBounds, Array.getD_eq_getD_getElem?]
  grind

theorem getD_modify {α : Type} (a : Array α) (f : α → α) (d : α) (i j : Nat) :
    (a.modify i f).getD j d = if i = j ∧ j < a.size then f (a.getD j d) else a.getD j d := by
  rw [Array.getD_eq_getD_getElem?, Array.getElem?_modify, Array.getD_eq_getD_getElem?]
  grind

theorem lt_size_of_getD_ne {α : Type} {a : Array α} {i : Nat} {d : α} (h : a.getD i d ≠ d) : i < a.size := by
  by_contra hi
  exact h (by simp [Array.getD, hi])

theorem setIfInBounds_getD {α : Type} (a : Array α) (i : Nat) (d : α) : a.setIfInBounds i (a.getD i d) = a := by
  refine Array.ext (by simp) fun j _ hj => ?_
  rw [Array.getElem_setIfInBounds hj]
  split
  · subst i
    simp [hj]
  · rfl

theorem modify_eq_self {α : Type} {a : Array α} {f : α → α} {i : Nat} {d : α} (h : f (a.getD i d) = a.getD i d) :
    a.modify i f = a := by
  refine Array.ext (by simp) fun j _ hj => ?_
  rw [Array.getElem_modify]
  split
  · subst i
    simpa [hj] using h
  · rfl

theorem setIfInBounds_push {α : Type} (a : Array α) (v w : α) : (a.push v).setIfInBounds a.size w = a.push w := by
  refine Array.ext_getElem? fun i => ?_
  rw [Array.getElem?_setIfInBounds, Array.getElem?_push, Array.getElem?_push]
  by_cases hi : a.size = i
  · simp [hi]
  · simp [hi, Ne.symm hi]

theorem modify_push {α : Type} (a : Array α) (v : α) (f : α → α) : (a.push v).modify a.size f = a.push (f v) := by
  refine Array.ext_getElem? fun i => ?_
  rw [Array.getElem?_modify, Array.getElem?_push, Array.getElem?_push]
  by_cases hi : a.size = i
  · simp [hi]
  · simp [hi, Ne.symm hi]

theorem getD_map {α β : Type} (f : α → β) (a : Array α) (i : Nat) (d : α) :
    (a.map f).getD i (f d) = f (a.getD i d) := by
  simp only [Array.getD_eq_getD_getElem?, Array.getElem?_map]
  cases a[i]? <;> rfl

/-! ### Locations -/

section
variable {σ α : Type}

/-- The value at a location. -/
def Store.valueAt (s : Store σ α) : Location → Value α
  | .cell c => s.cells.getD c .null
  | .element a i => (s.grids.getD a default).getAt i

/-- The store with another value at a location. -/
def Store.setAt (s : Store σ α) (v : Value α) : Location → Store σ α
  | .cell c => { s with cells := s.cells.setIfInBounds c v }
  | .element a i => { s with grids := s.grids.modify a (·.setAt i v) }

theorem run_load (l : Location) (s : Store σ α) : (Eval.load l).run s = (.ok (s.valueAt l), s) := by
  cases l <;> rfl

theorem run_store (v : Value α) (l : Location) (s : Store σ α) : (Eval.store v l).run s = (.ok (), s.setAt v l) := by
  cases l <;> rfl

@[simp] theorem Store.size_cells_setAt (s : Store σ α) (v : Value α) (l : Location) :
    (s.setAt v l).cells.size = s.cells.size := by
  cases l with
  | cell c => exact Array.size_setIfInBounds
  | element a i => rfl

theorem Store.cell_setAt_of_ne {s : Store σ α} {v : Value α} {l : Location} {c : CellId} (h : l ≠ .cell c) :
    (s.setAt v l).cells.getD c .null = s.cells.getD c .null := by
  cases l with
  | cell d =>
    have hne : d ≠ c := fun hd => h (congrArg _ hd)
    exact (getD_setIfInBounds ..).trans (if_neg fun hd => hne hd.1)
  | element a i => rfl

end

/-! ### Lists of trees and places -/

namespace Machine
variable {σ α : Type} (host : Host σ α) (m : Machine) (embed : Prim → α) (enter : Enter σ α) (scopes : List Scope)

theorem evalAll_eq_mapM (ps : List Prim) :
    evalAll host m embed enter scopes ps = ps.mapM (evalWith host m embed enter scopes) := by
  induction ps with
  | nil => rw [evalAll, List.mapM_nil]
  | cons p ps ih => rw [evalAll, List.mapM_cons, ih]

theorem evalInts_eq_mapM (toInt : Value α → Except Fault Int) (ps : List Prim) :
    evalInts host m embed enter scopes toInt ps =
      ps.mapM (fun p => evalWith host m embed enter scopes p >>= fun v => liftM (toInt v)) := by
  induction ps with
  | nil => rw [evalInts, List.mapM_nil]
  | cons p ps ih => simp only [evalInts, List.mapM_cons, ih, bind_assoc]

theorem evalWith_assign (target : Place Prim) (value : Prim) :
    evalWith host m embed enter scopes (.assign target value) =
      locate host m embed enter scopes target >>= fun l =>
        evalWith host m embed enter scopes value >>= fun v => Eval.store v l >>= fun _ => pure v := by
  rw [evalWith]

theorem evalWith_read (place : Place Prim) :
    evalWith host m embed enter scopes place.read = locate host m embed enter scopes place >>= Eval.load := by
  cases place with
  | var v => simp [Place.read, evalWith, locate]
  | element array indices => simp [Place.read, evalWith, locate]

end Machine

/-! ### Constants of indices and bounds -/

section
variable {σ : Type} {host : Host σ} {m : Machine} {enter : Enter σ} {scopes : List Scope}

theorem run_indexConstants {toInt : Value → Except Fault Int} {ns : List Nat} {ps : List Prim}
    (h : ns.mapM indexConstant? = some ps)
    (ht : ∀ w : Word, w.kind = .i32 → 0 ≤ w.val → toInt (.lit (.int w)) = .ok w.val) (s : Store σ) :
    (Machine.evalInts host m id enter scopes toInt ps).run s = (.ok (ns.map Int.ofNat), s) := by
  rw [mapM_eq_some_iff] at h
  induction h with
  | nil => rfl
  | @cons n p ns ps hp _ ih =>
    obtain ⟨w, rfl, hk, hw⟩ := indexConstant?_eq_some hp
    have hint : (liftM (toInt (.lit (.int w))) : Run σ Prim Int).run s = (.ok (n : Int), s) := by
      rw [run_liftM, ht w hk (hw ▸ Int.natCast_nonneg n), hw]
    rw [Machine.evalInts, Machine.evalWith, pure_bind]
    exact (run_bind_of_ok hint).trans (run_bind_of_ok ih)

theorem Value.asIndex_of_kind {w : Word} (h : w.kind = .i32) :
    Value.asIndex (α := Prim) (.lit (.int w)) = .ok w.val := by
  simp only [Value.asIndex, h]

theorem run_boundConstants {ns : List Nat} {ps : List Prim} (h : ns.mapM indexConstant? = some ps) (s : Store σ) :
    (Machine.evalInts host m id enter scopes Value.asBound ps).run s = (.ok (ns.map Int.ofNat), s) := by
  refine run_indexConstants h (fun w hk h0 => ?_) s
  rw [Value.asBound, Value.asIndex_of_kind hk]
  exact if_neg (Int.not_lt.2 h0)

end

end ExprLowering
