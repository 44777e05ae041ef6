import ExprLowering.Proofs.Shape
import ExprLowering.Proofs.StepSimulation

/-!
# New arrays in a simulation

A new array is made with default elements and then filled. Lowered, it is held in a temporary, and each
element is stored at the multi-index of its offset; or, if all elements are constants, it is made with them.
-/

namespace ExprLowering

open Correspondence

variable {σ σ' α : Type}

/-! ### Filling with constants -/

/-- The array with the values from offset `i` on. -/
def Grid.setFrom (i : Nat) : List (Value α) → Grid α → Grid α
  | [], g => g
  | v :: vs, g => setFrom (i + 1) vs (g.setAt i v)

theorem Grid.data_setFrom {i : Nat} {vs : List (Value α)} {g : Grid α} (h : i + vs.length ≤ g.data.size) :
    (setFrom i vs g).data.toList = g.data.toList.take i ++ vs ++ g.data.toList.drop (i + vs.length) := by
  induction vs generalizing i g with
  | nil => simp [setFrom]
  | cons v vs ih =>
    rw [List.length_cons] at h
    have hlt : i < g.data.toList.length := by
      rw [Array.length_toList]
      omega
    have hset : (g.setAt i v).data.toList = g.data.toList.set i v := Array.toList_setIfInBounds
    rw [setFrom, ih (by simp [setAt]; omega), hset, List.take_set, List.drop_set_of_lt (by omega),
      List.take_succ_eq_append_getElem hlt, List.set_append_right _ _ (List.length_take_le _ _),
      List.length_take, Nat.min_eq_left (Nat.le_of_lt hlt), Nat.sub_self, List.length_cons, Nat.add_right_comm i 1]
    simp only [List.set_cons_zero, List.append_assoc, List.cons_append, List.nil_append]
    rfl

theorem Grid.setFrom_new {element : Ty} {bounds : List Nat} {vs : List (Value α)} (v : Value α) :
    setFrom 0 vs ⟨element, bounds, Array.replicate vs.length v⟩ = ⟨element, bounds, vs.toArray⟩ := by
  have hdata := @data_setFrom α 0 vs ⟨element, bounds, Array.replicate vs.length v⟩ (by simp)
  have hrest : ∀ {i : Nat} {vs : List (Value α)} {g : Grid α},
      (setFrom i vs g).element = g.element ∧ (setFrom i vs g).bounds = g.bounds := by
    intro i vs
    induction vs generalizing i with
    | nil => exact ⟨rfl, rfl⟩
    | cons v vs ih => exact ih
  obtain ⟨he, hb⟩ := @hrest 0 vs ⟨element, bounds, Array.replicate vs.length v⟩
  generalize setFrom 0 vs ⟨element, bounds, Array.replicate vs.length v⟩ = g at hdata he hb
  obtain ⟨e, b, d⟩ := g
  simp only [Array.toList_replicate, List.take_zero, List.nil_append, Nat.zero_add, List.drop_replicate, Nat.sub_self,
    List.replicate_zero, List.append_nil] at hdata he hb
  subst he hb
  rw [← hdata]

namespace Expr
variable {host : Host σ Code} {m : Machine} {enter : Enter σ Code} {scopes : List Scope} {rule : IndexRule}

theorem run_fill_constants {i : Nat} {values : List Constant} {s : Store σ Code} {gs : Array (Grid Code)}
    {g : Grid Code} (hs : s.grids = gs.push g) :
    (fill host m rule enter scopes gs.size i (values.map const)).run s =
      (.ok (), { s with grids := gs.push (g.setFrom i (values.map .ofConstant)) }) := by
  induction values generalizing i s g with
  | nil =>
    rw [List.map_nil, List.map_nil, fill, Grid.setFrom, ← hs]
    rfl
  | cons c values ih =>
    rw [List.map_cons, List.map_cons, fill, Grid.setFrom]
    refine @ih (i + 1) { s with grids := s.grids.modify gs.size (·.setAt i (.ofConstant c)) } _ ?_
    rw [hs, modify_push]

/-- An array node whose elements are constants makes the array of the constants. -/
theorem run_array_constants {stamp : Stamp} {element : Ty} {bounds : List Int32} {values : List Constant}
    (h : Shape.size? (bounds.map (·.toInt.toNat)) = some values.length) (s : Store σ Code) :
    (evalWith host m rule enter scopes (.node stamp (.array element bounds) (values.map const))).run s =
      (liftM (Grid.ofRowMajor element (bounds.map (·.toInt.toNat)) (values.map Value.ofConstant)) >>=
        Eval.newGrid).run s := by
  have hlen : (values.map (Value.ofConstant (α := Code))).length = values.length := List.length_map ..
  have hnew : (Grid.new element (bounds.map (·.toInt.toNat)) : Except Fault (Grid Code)) = .ok ⟨element,
      bounds.map (·.toInt.toNat), Array.replicate (values.map (Value.ofConstant (α := Code))).length
        (.defaultOf element)⟩ := by
    rw [Grid.new, Grid.size, h, hlen]
    rfl
  have hof : (Grid.ofRowMajor element (bounds.map (·.toInt.toNat)) (values.map Value.ofConstant) :
      Except Fault (Grid Code)) = .ok ⟨element, bounds.map (·.toInt.toNat), (values.map Value.ofConstant).toArray⟩ := by
    rw [Grid.ofRowMajor, Grid.size, h, hlen]
    exact if_pos rfl
  rw [evalWith, hnew, hof]
  refine (run_bind_of_ok (@run_fill_constants _ _ _ _ _ _ 0 values _ s.grids _ rfl)).trans ?_
  rw [Grid.setFrom_new]
  rfl

end Expr

/-! ### Filling element by element -/

section
variable {R : World → σ → σ' → Prop} {m : Machine} {host : Host σ Code} {host' : Host σ'} {enter : Enter σ Code}
  {enter' : Enter σ'} {w : World} {s : Store σ Code} {s' : Store σ'} {scopes scopes' : List Scope}
  {array : Var} {bounds : List Nat} {a : GridId} {c : CellId}

/-- The place of the element at an offset, while the array is in its temporary. -/
theorem run_locate_offset {i : Nat} {is : List Prim} (hl : m.lookup scopes' array = some c)
    (hc : s'.cells.getD c .null = .array a) (ha : (s'.grids.getD a default).bounds = bounds) (hi : i < bounds.prod)
    (his : indexConstants? bounds i = some is) :
    (Machine.locate host' m id enter' scopes' (.element (.read array) is)).run s' = (.ok (.element a i), s') := by
  have hread : (Machine.evalWith host' m id enter' scopes' (.read array)).run s' = (.ok (.array a), s') := by
    rw [run_read hl, hc]
  have hints : (Machine.evalInts host' m id enter' scopes' Value.asIndex is).run s' =
      (.ok ((Shape.unflatten bounds i).map Int.ofNat), s') := by
    exact run_indexConstants his (fun w hk _ => Value.asIndex_of_kind hk) s'
  rw [Machine.locate, run_bind_of_ok hread, run_bind_of_ok hints, run_elementLocation, Grid.offset,
    ha, Shape.offset_unflatten hi]
  rfl

/-- Evaluating elements and storing them, from offset `i` on. -/
theorem sim_fill {K : CellId → Prop} {i : Nat} {es : List Expr} {ps stores : List Prim}
    (hes : List.Forall₂ (fun e p => Sims R m w (e.evalWith host m .split enter scopes)
      (Machine.evalWith host' m id enter' scopes' p) Value.Agrees) es ps)
    (hst : storeElements? array bounds i ps = some stores) (hlen : i + ps.length ≤ bounds.prod)
    (hs : s.Agrees R m w s') (hl : m.lookup scopes' array = some c) (hlt : c < s'.cells.size) (hw : c ∉ w.cells)
    (hc : s'.cells.getD c .null = .array a) (ha : w.shapes[a]? = some bounds) :
    Sim R m K w s s' (Expr.fill host m .split enter scopes a i es >>= fun _ => pure (Value.array a))
      (runThen (stores.map (Machine.evalWith host' m id enter' scopes'))
        (Machine.evalWith host' m id enter' scopes' (.read array)))
      fun w₁ _ v v' => v.Agrees w₁ v' := by
  induction es generalizing w s s' i ps stores with
  | nil =>
    cases hes
    cases hst
    rw [Expr.fill, pure_bind]
    have hread : (Machine.evalWith host' m id enter' scopes' (.read array)).run s' = (.ok (.array a), s') := by
      rw [run_read hl, hc]
    exact .of_value hs hread (.array (List.getElem?_eq_some_iff.1 ha).1)
  | cons e es ih =>
    cases hes with
    | @cons _ p _ ps he hes =>
      obtain ⟨is, rest, his, hrest, rfl⟩ := storeElements?_cons_eq_some.1 hst
      rw [List.length_cons] at hlen
      simp only [Expr.fill, List.map_cons, runThen, List.foldr_cons, Machine.evalWith_assign, bind_assoc, pure_bind]
      refine .right (run_locate_offset hl hc (hs.grids.bounds_eq ha) (by omega) his) .refl ?_
      refine (he.runsFrom hs).bind (fun _ _ => trivial) fun w₁ t t' v v' hf ht hv => ?_
      have hlt₁ : a < w₁.shapes.length := (List.getElem?_eq_some_iff.1 (World.shape_mono ha hf.le)).1
      refine ((Runs.store (C := agreement R m) (.element hlt₁) hv).runsFrom ht).bind (fun _ _ => trivial)
        fun w₂ t₂ t₂' _ _ hf₂ ht₂ _ => ?_
      have hf' := hf.trans hf₂
      exact ih (Runs.forall₂_mono hes hf'.le) hrest (by omega) ht₂ (Nat.lt_of_lt_of_le hlt hf'.size)
        (hf'.fresh c hlt hw) ((hf'.kept c hlt trivial hw).trans hc) (World.shape_mono ha hf'.le)

theorem sims_arrayBlock (hh : host.Agrees R host') {stamp : Stamp} {element : Ty} {bounds : List Int32} {n : Nat}
    {elements : List Expr} {ps : List Prim} {p : Prim} {u u₁ u₂ : Supply} {ty : Ty}
    (hcheck : checkBounds 0 1 bounds = .ok elements.length) (hu : u.fresh "__array" ty = (array, u₁))
    (hps : Threaded (Mirrors R m host host' enter enter') elements ps u₁ u₂)
    (hp : arrayBlock? array element (bounds.map (·.toInt.toNat)) ps = some p) (hb : ∀ e ∈ elements, e.Below n)
    (hn : n ≤ u.var) (hsc : w.SameScopes (fun x => x.val < n) scopes scopes') :
    Sims R m w (Expr.evalWith host m .split enter scopes (.node stamp (.array element bounds) elements))
      (Machine.evalWith host' m id enter' scopes' p) Value.Agrees := by
  obtain ⟨sizes, stores, hsizes, hstores, rfl⟩ := arrayBlock?_eq_some hp
  obtain ⟨-, -, hlen⟩ := checkBounds_eq_ok hcheck
  cases hu
  intro w₁ s s' hle hs
  refine Sim.scope hs (by simp) (by simp [Temp.ids]) fun scopes'' t' hout hown ht => ?_
  have hsc' := (hsc.mono hle).of_temps (n := n) (fun x hx => ?_) hout
  · obtain ⟨c, hl, hk, hlt, hw⟩ := hown.cell _ (List.mem_singleton.2 rfl)
    have hsplit : Expr.evalWith host m .split enter scopes (.node stamp (.array element bounds) elements) =
        (liftM (Grid.new element (bounds.map (·.toInt.toNat))) >>= Eval.newGrid) >>= fun v =>
          liftM v.asArray >>= fun a => Expr.fill host m .split enter scopes a 0 elements >>= fun _ => pure v := by
      rw [Expr.evalWith, bind_assoc]
    have hnew : Sim R m (fun _ => True) w₁ s t' (liftM (Grid.new element (bounds.map (·.toInt.toNat))) >>= Eval.newGrid)
        (Machine.evalWith host' m id enter' scopes'' (.newArray element sizes)) fun w _ v v' =>
          ∃ a, v = .array a ∧ v' = .array a ∧ w.shapes[a]? = some (bounds.map (·.toInt.toNat)) := by
      rw [Machine.evalWith]
      refine .right (run_boundConstants hsizes t') .refl ?_
      have hmap : ((bounds.map (·.toInt.toNat)).map Int.ofNat).map Int.toNat = bounds.map (·.toInt.toNat) := by
        simp [Function.comp_def]
      rw [hmap]
      exact (Runs.newArray hh.hosts element _).runsFrom ht
    rw [hsplit]
    refine Sim.setTemp hl hlt hw (Nat.not_lt.2 hk) hnew fun w₂ t₂ t₂' v v' hf hv ht₂ => ?_
    obtain ⟨a, rfl, rfl, ha⟩ := hv
    have hlt₂ := Nat.lt_of_lt_of_le hlt hf.size
    refine sim_fill (hps.sims hb (Nat.le_succ_of_le hn) (hsc'.mono hf.le)) hstores ?_ ht₂ hl ?_ (hf.fresh c hlt hw) ?_
      ha
    · rw [← hps.length, hlen]
      omega
    · rw [Array.size_setIfInBounds]
      exact hlt₂
    · rw [getD_setIfInBounds, if_pos ⟨rfl, hlt₂⟩]
  · rw [List.mem_singleton.1 hx]
    exact hn

theorem sims_constArray (hh : host.Agrees R host') {stamp : Stamp} {element : Ty} {bounds : List Int32}
    {values : List Constant} (hcheck : checkBounds 0 1 bounds = .ok values.length) :
    Sims R m w (Expr.evalWith host m .split enter scopes (.node stamp (.array element bounds) (values.map .const)))
      (Machine.evalWith host' m id enter' scopes' (.constArray element (bounds.map (·.toInt.toNat)) values))
      Value.Agrees := by
  obtain ⟨-, hsize, -⟩ := checkBounds_eq_ok hcheck
  intro w₁ s s' hle hs
  exact .of_run (Expr.run_array_constants hsize s) rfl id (fun _ _ _ _ => id)
    (Runs.constArray hh.hosts element _ values w₁ s s' (le_refl _) hs)

end

end ExprLowering
