import ExprLowering.Proofs.TempSimulation

/-!
# Increments and decrements in a simulation

A lowered increment finds its location from parts that were put into temporaries, or from constants and
variables. It may find it twice, once to read and once to write: in between only the temporaries for the old
and the new value are set, and an operator may have changed arrays but not their bounds, so it is the same
location.
-/

namespace ExprLowering

open Correspondence

variable {σ σ' α β γ δ : Type}

/-! ### Places with trivial parts -/

section
variable {m : Machine} {host' : Host σ'} {enter' : Enter σ'} {scopes : List Scope} {s t : Store σ'}

theorem run_read {x : Var} {c : CellId} (hl : m.lookup scopes x = some c) :
    (Machine.evalWith host' m id enter' scopes (.read x)).run s = (.ok (s.cells.getD c .null), s) := by
  rw [Machine.evalWith, Machine.cell, hl]
  rfl

/-- Constants and variables are evaluated without effect, and from what their cells hold. -/
theorem run_trivial {p : Prim} (hp : p.isTrivial = true)
    (hcells : ∀ x, p = .read x → ∀ c, m.lookup scopes x = some c →
      t.cells.getD c .null = s.cells.getD c .null) :
    ∃ r, (Machine.evalWith host' m id enter' scopes p).run s = (r, s) ∧
      (Machine.evalWith host' m id enter' scopes p).run t = (r, t) := by
  cases p with
  | const c => exact ⟨_, rfl, rfl⟩
  | read x =>
    rw [Machine.evalWith, Machine.cell]
    cases hl : m.lookup scopes x with
    | none => exact ⟨_, rfl, rfl⟩
    | some c =>
      refine ⟨_, rfl, ?_⟩
      simp only [pure_bind, Eval.load, run_mk, hcells x rfl c hl]
  | _ => cases hp

theorem run_ints_trivial {toInt : Value → Except Fault Int} {ps : List Prim} (hp : ∀ p ∈ ps, p.isTrivial = true)
    (hcells : ∀ x, .read x ∈ ps → ∀ c, m.lookup scopes x = some c →
      t.cells.getD c .null = s.cells.getD c .null) :
    ∃ r, (Machine.evalInts host' m id enter' scopes toInt ps).run s = (r, s) ∧
      (Machine.evalInts host' m id enter' scopes toInt ps).run t = (r, t) := by
  induction ps with
  | nil => exact ⟨_, rfl, rfl⟩
  | cons p ps ih =>
    rw [List.forall_mem_cons] at hp
    obtain ⟨r, hs, ht⟩ : ∃ r, (Machine.evalWith host' m id enter' scopes p).run s = (r, s) ∧
        (Machine.evalWith host' m id enter' scopes p).run t = (r, t) :=
      run_trivial hp.1 fun x hx => hcells x (hx ▸ List.mem_cons_self)
    obtain ⟨rs, hss, hts⟩ := ih hp.2 fun x hx => hcells x (List.mem_cons_of_mem _ hx)
    rw [Machine.evalInts]
    cases r with
    | error f => exact ⟨_, run_bind_of_error hs, run_bind_of_error ht⟩
    | ok v =>
      rw [run_bind_of_ok hs, run_bind_of_ok ht]
      cases hn : toInt v with
      | error f => exact ⟨.error f, rfl, rfl⟩
      | ok n =>
        have hlift (r : Store σ') : (liftM (Except.ok n) : Run σ' Prim Int).run r = (.ok n, r) := run_liftM _ r
        rw [run_bind_of_ok (hlift s), run_bind_of_ok (hlift t)]
        cases rs with
        | error f => exact ⟨_, run_bind_of_error hss, run_bind_of_error hts⟩
        | ok ns =>
          refine ⟨.ok (n :: ns), ?_, ?_⟩
          · exact run_bind_of_ok hss
          · exact run_bind_of_ok hts

theorem run_elementLocation (a : GridId) (is : List Int) (s : Store σ α) :
    (Machine.elementLocation (.array a) is).run s =
      (((s.grids.getD a default).offset is).map (Location.element a), s) := by
  simp only [Machine.elementLocation, Value.asArray, Eval.grid, run_bind, run_liftM, run_mk]
  cases (s.grids.getD a default).offset is <;> rfl

/-- Finding a place with trivial parts has no effect. The same location is found again when the variables among
its parts have the same values and the array the same bounds. -/
theorem run_locate_trivial {place : Place Prim} (hp : ∀ p ∈ place.parts, p.isTrivial = true)
    (hcells : ∀ x, .read x ∈ place.parts → ∀ c, m.lookup scopes x = some c →
      t.cells.getD c .null = s.cells.getD c .null) :
    ∃ r, (Machine.locate host' m id enter' scopes place).run s = (r, s) ∧
      ∀ l, r = .ok l → (∀ a i, l = .element a i →
          (t.grids.getD a default).bounds = (s.grids.getD a default).bounds) →
        (Machine.locate host' m id enter' scopes place).run t = (.ok l, t) := by
  cases place with
  | var v =>
    rw [Machine.locate, Machine.cell]
    cases m.lookup scopes v with
    | none => exact ⟨_, rfl, fun l hl => by cases hl⟩
    | some c => exact ⟨_, rfl, fun l hl _ => by cases hl; rfl⟩
  | element array indices =>
    rw [Place.parts, List.forall_mem_cons] at hp
    obtain ⟨r, hs, ht⟩ : ∃ r, (Machine.evalWith host' m id enter' scopes array).run s = (r, s) ∧
        (Machine.evalWith host' m id enter' scopes array).run t = (r, t) :=
      run_trivial hp.1 fun x hx => hcells x (hx ▸ List.mem_cons_self)
    obtain ⟨rs, hss, hts⟩ : ∃ r, (Machine.evalInts host' m id enter' scopes Value.asIndex indices).run s = (r, s) ∧
        (Machine.evalInts host' m id enter' scopes Value.asIndex indices).run t = (r, t) :=
      run_ints_trivial hp.2 fun x hx => hcells x (List.mem_cons_of_mem _ hx)
    rw [Machine.locate]
    cases r with
    | error f => exact ⟨_, run_bind_of_error hs, fun l hl => by cases hl⟩
    | ok v =>
      rw [run_bind_of_ok hs, run_bind_of_ok ht]
      cases rs with
      | error f => exact ⟨_, run_bind_of_error hss, fun l hl => by cases hl⟩
      | ok is =>
        rw [run_bind_of_ok hss, run_bind_of_ok hts]
        cases v with
        | array a =>
          refine ⟨_, run_elementLocation a is s, fun l hl hb => ?_⟩
          rw [run_elementLocation]
          cases ho : (s.grids.getD a default).offset is with
          | error f => rw [ho] at hl; cases hl
          | ok i =>
            rw [ho] at hl
            cases hl
            rw [Grid.offset] at ho ⊢
            rw [hb a i rfl, ho]
            rfl
        | _ => exact ⟨_, rfl, fun l hl => by cases hl⟩

end

/-! ### Finding the location -/

section
variable {R : World → σ → σ' → Prop} {m : Machine} {host : Host σ Code} {host' : Host σ'} {enter : Enter σ Code}
  {enter' : Enter σ'} {w : World} {s : Store σ Code} {s' : Store σ'} {scopes scopes' : List Scope} {n : Nat}
  {u u₁ u₂ : Supply} {operand : Expr} {place place' : Place Prim} {temps : List Temp}

theorem Place.Settled.uses {pinned : Bool} (h : place.Settled pinned operand place' temps u₁ u₂)
    (hread : ∀ x, .read x ∈ place.parts → x.id.val < n) :
    ∀ p ∈ place'.parts, p.isTrivial = true ∧ ∀ x, p = .read x → (∃ t ∈ temps, x = t.var) ∨ x.id.val < n := by
  intro p hmem
  cases h with
  | var => cases hmem
  | trivial _ ha hi =>
    exact ⟨(List.forall_mem_cons (p := fun q => Prim.isTrivial q = true)).2 ⟨ha, hi⟩ p hmem,
      fun x hx => .inr (hread x (hx ▸ hmem))⟩
  | kept _ hk =>
    refine ⟨hk.isTrivial p hmem, fun x hx => .inl ?_⟩
    rcases hk.uses p hmem with ⟨c, rfl⟩ | ⟨t, ht, rfl⟩
    · cases hx
    · cases hx
      exact ⟨t, ht, rfl⟩

theorem PlaceRel.read_lt (hp : PlaceRel (Mirrors R m host host' enter enter') operand place u u₁)
    (hb : operand.Below n) (x : Var) (hx : .read x ∈ place.parts) : x.id.val < n := by
  cases hp with
  | var => cases hx
  | element harray hindices =>
    have hall := Threaded.cons harray hindices
    exact hb.part _ (hall.var_mem hx) _ List.mem_cons_self

theorem Ready.ints {ps : List Prim} {vs : List (Value Code)} (h : List.Forall₂ (Ready m scopes w s') ps vs) :
    (Machine.evalInts host' m id enter' scopes Value.asIndex ps).run s' = (vs.mapM Value.asIndex, s') := by
  induction h with
  | nil => rfl
  | @cons p v ps vs hp _ ih =>
    obtain ⟨v', hrun, hv⟩ : ∃ v', (Machine.evalWith host' m id enter' scopes p).run s' = (.ok v', s') ∧
        v.Agrees w v' := hp.run
    rw [Machine.evalInts, run_bind_of_ok hrun, List.mapM_cons, hv.asIndex_eq]
    cases v'.asIndex with
    | error f => rfl
    | ok i =>
      have hlift : (liftM (Except.ok i) : Run σ' Prim Int).run s' = (.ok i, s') := run_liftM _ s'
      rw [run_bind_of_ok hlift]
      cases hm : vs.mapM Value.asIndex with
      | error f => exact run_bind_of_error (hm ▸ ih)
      | ok is => exact run_bind_of_ok (hm ▸ ih)

theorem Ready.sim_element {a : Prim} {is : List Prim} {v : Value Code} {vs : List (Value Code)}
    (hv : Ready m scopes w s' a v) (hvs : List.Forall₂ (Ready m scopes w s') is vs) (hs : s.Agrees R m w s') :
    Sim R m (fun _ => True) w s s' (Expr.resolve v vs) (Machine.locate host' m id enter' scopes (.element a is))
      fun w₁ _ l l' => l.Agrees w₁ l' := by
  obtain ⟨v', hrun, hv⟩ : ∃ v', (Machine.evalWith host' m id enter' scopes a).run s' = (.ok v', s') ∧
      v.Agrees w v' := hv.run
  have hints : (Machine.evalInts host' m id enter' scopes Value.asIndex is).run s' = (vs.mapM Value.asIndex, s') :=
    Ready.ints hvs
  rw [Machine.locate]
  refine .right hrun .refl ?_
  refine RunsFrom.bind (Q := fun _ _ => Eq) ?_ (fun _ h => h) fun w₁ t t' is _ hf ht his => ?_
  · refine sim_iff.2 ⟨w, ?_⟩
    rw [hints]
    exact ⟨.refl, hs, .of_eq rfl⟩
  · subst his
    exact (Runs.elementLocation (C := agreement R m) (hv.mono hf.le) is).runsFrom ht

/-- Indices are turned into integers early just where settling the place makes no temporaries. -/
theorem Threaded.isEarly_split {es : List Expr} {ps : List Prim}
    (h : Threaded (Mirrors R m host host' enter enter') es ps u u₁) (method : Option Method) (stamp : Stamp) :
    IndexRule.split.isEarly method (.node stamp .index es) = (!method.isSome && ps.all (·.isTrivial)) := by
  rw [IndexRule.isEarly, Expr.parts, h.all_isTrivial, Option.not_isSome]

/-- Finding the location of an operand, beside setting the temporaries of its settled form. What is left of the
direct evaluation then finds the location as the machine does. -/
theorem Place.Settled.sim {method : Option Method} {pinned : Bool} {K : CellId → Prop} {k : Nat}
    {G : Location → Run σ Code γ} {y : Run σ' Prim δ} {Q : World → Store σ' → γ → δ → Prop}
    (h : place.Settled pinned operand place' temps u₁ u₂) (hpin : pinned = method.isSome)
    (hp : PlaceRel (Mirrors R m host host' enter enter') operand place u u₁) (hb : operand.Below n)
    (hn : n ≤ u.var) (hsc : w.SameScopes (fun x => x.val < n) scopes scopes')
    (hown : Owned m scopes' k w s' (temps.map (·.var))) (hnd : (Temp.ids temps).Nodup) (hs : s.Agrees R m w s')
    (hK : ∀ c, K c → c < k)
    (hG : ∀ w₁ t t' r, Frame (fun c => ∀ t ∈ temps, m.lookup scopes' t.var ≠ some c) w s' w₁ t' →
      t.Agrees R m w₁ t' →
      Sim R m (fun _ => True) w₁ t t' r (Machine.locate host' m id enter' scopes' place')
        (fun w₂ _ l l' => l.Agrees w₂ l') →
      Sim R m K w₁ t t' (r >>= G) y Q) :
    Sim R m K w s s' (operand.operandLocation host m .split enter scopes method >>= G)
      (runThen ((Temp.stores temps).map (Machine.evalWith host' m id enter' scopes')) y) Q := by
  subst hpin
  cases h with
  | @var v =>
    have hcell : Sims R m w (m.cell scopes v) (m.cell scopes' v) World.SameCell :=
      .cell hsc (hb _ List.mem_cons_self)
    refine hG w s s' _ .refl hs ?_
    rw [Expr.operandLocation_var, Machine.locate]
    exact (hcell.bind fun _ _ _ _ hc => .pure fun _ hle => .cell (hc.mono hle)).runsFrom hs
  | trivial hm ha hi =>
    cases hp with
    | @element stamp array indices _ _ _ _ _ harray hindices =>
      have hall := Threaded.cons harray hindices
      have hearly : IndexRule.split.isEarly method (.node stamp .index (array :: indices)) = true := by
        rw [hall.isEarly_split, hm, Bool.not_false, Bool.true_and, List.all_eq_true]
        exact (List.forall_mem_cons (p := fun q => Prim.isTrivial q = true)).2 ⟨ha, hi⟩
      refine hG w s s' _ .refl hs ?_
      have hsims := hall.sims hb.part hn hsc
      cases hsims with
      | cons h hs' =>
        rw [Expr.operandLocation, if_pos hearly, Expr.locate, Machine.locate, Expr.evalInts_eq_mapM,
          Machine.evalInts_eq_mapM]
        exact (Runs.element h hs').runsFrom hs
  | @kept stamp array indices a _ _ _ _ _ _ hne hk =>
    cases hp with
    | element harray hindices =>
      have hall := Threaded.cons harray hindices
      have hlate : IndexRule.split.isEarly method (.node stamp .index (array :: indices)) = false := by
        rw [hall.isEarly_split, Bool.and_eq_false_iff, List.all_eq_false]
        rcases hne with hm | ha | ⟨i, hi, hf⟩
        · exact .inl (by rw [hm]; rfl)
        · exact .inr ⟨a, List.mem_cons_self, by rw [ha]; decide⟩
        · exact .inr ⟨i, List.mem_cons_of_mem _ hi, by rw [hf]; decide⟩
      rw [Expr.operandLocation_of_isEarly_eq_false _ _ _ _ _ hlate, bind_assoc]
      refine hk.sim (hall.sims hb.part hn hsc) hown hnd hs hK fun w₁ t t' vs hf ht hvs => ?_
      cases hvs with
      | cons hv hvs => exact hG w₁ t t' _ hf ht (hv.sim_element hvs ht)

/-! ### The new value -/

variable {k : StepKind} {method : Option Method} {ty : Ty} {pinned : Bool} {next : Prim → Prim}

theorem StepNext.pinned_eq (hn : StepNext k ty method pinned next) : pinned = method.isSome := by
  cases hn <;> rfl

theorem StepNext.sim (hh : host.Agrees R host') (hn : StepNext k ty method pinned next) {x : Var}
    {old : Value Code} {old' : Value} (hold : old.Agrees w old') (hs : s.Agrees R m w s')
    (hx : (Machine.evalWith host' m id enter' scopes' (.read x)).run s' = (.ok old', s')) :
    Sim R m (fun _ => True) w s s' (Expr.stepValue host m k method ty old)
      (Machine.evalWith host' m id enter' scopes' (next (.read x)))
      fun w₁ t' v v' => v.Agrees w₁ v' ∧ t'.cells = s'.cells := by
  cases hn with
  | @checked one hk hone =>
    have harith : Sims R m w (liftM (Value.arith k.op.arith true old (.ofConstant one)))
        (liftM (Value.arith k.op.arith true old' (.ofConstant one))) Value.Agrees :=
      .arith k.op.arith true hold (.ofConstant one)
    simp only [Expr.stepValue, hk, if_true, hone]
    rw [Machine.evalWith]
    refine .right hx .refl ?_
    rw [Machine.evalWith, pure_bind]
    refine (harith.runsFrom hs).with_run.imp (fun _ h => h) fun w₁ t' v v' ⟨hv, hrun⟩ => ⟨hv, ?_⟩
    rw [run_liftM] at hrun
    rw [(Prod.mk.inj hrun).2]
  | operator f =>
    rw [Expr.stepValue, Machine.evalWith]
    cases m.methods.lookup f.name with
    | none => exact .throw hs
    | some g =>
      have hall : (Machine.evalAll host' m id enter' scopes' [.read x]).run s' = (.ok [old'], s') := by
        rw [Machine.evalAll, run_bind_of_ok hx]
        rfl
      refine .right hall .refl ?_
      refine ((Runs.callHost hh.hosts g (.cons hold .nil)).runsFrom hs).with_run.imp (fun _ h => h)
        fun w₁ t' v v' ⟨hv, hrun⟩ => ⟨hv, ?_⟩
      rw [← (Prod.mk.inj hrun).2]

theorem sim_readPlace {r : Run σ Code Location} (htriv : ∀ p ∈ place'.parts, p.isTrivial = true)
    (hloc : Sim R m (fun _ => True) w s s' r (Machine.locate host' m id enter' scopes' place')
      fun w₁ _ l l' => l.Agrees w₁ l') :
    Sim R m (fun _ => True) w s s' (r >>= fun l => Eval.load l >>= fun v => pure (l, v))
      (Machine.evalWith host' m id enter' scopes' place'.read) fun w₁ t' lv v' => lv.2.Agrees w₁ v' ∧ t' = s' ∧
        ∃ l', lv.1.Agrees w₁ l' ∧ (Machine.locate host' m id enter' scopes' place').run s' = (.ok l', s') := by
  rw [Machine.evalWith_read]
  refine hloc.with_run.bind (fun _ h => h) fun w₁ t t' l l' hf ht ⟨hl, hrun⟩ => ?_
  obtain ⟨o, ho, -⟩ : ∃ o, (Machine.locate host' m id enter' scopes' place').run s' = (o, s') ∧
      ∀ l, o = .ok l → _ → (Machine.locate host' m id enter' scopes' place').run s' = (.ok l, s') :=
    run_locate_trivial htriv fun _ _ _ _ => rfl
  obtain ⟨rfl, rfl⟩ := Prod.mk.inj (ho.symm.trans hrun)
  rw [← bind_pure (Eval.load l')]
  refine ((Runs.load (C := agreement R m) hl).runsFrom ht).with_run.bind (fun _ h => h)
    fun w₂ t₂ t₂' v v' hf₂ ht₂ ⟨hv, hrun'⟩ => ?_
  have hquiet : t₂' = s' := by
    cases l' <;> exact (Prod.mk.inj hrun').2.symm
  exact .pure ht₂ ⟨hv, hquiet, l', hl.mono hf₂.le, hrun⟩

/-- A place with trivial parts that has been found is found again where the variables among its parts are as they
were: stores that agree keep the bounds of an array. -/
theorem run_locate_again {w₁ : World} {s₁ : Store σ Code} {s₁' t' : Store σ'} {l l' : Location}
    (htriv : ∀ p ∈ place'.parts, p.isTrivial = true) (hs : s.Agrees R m w s') (hs₁ : s₁.Agrees R m w₁ s₁')
    (hle : w ≤ w₁) (hl : l.Agrees w l')
    (hrun : (Machine.locate host' m id enter' scopes' place').run t' = (.ok l', t')) (hgrids : t'.grids = s'.grids)
    (hcells : ∀ x, .read x ∈ place'.parts → ∀ c, m.lookup scopes' x = some c →
      s₁'.cells.getD c .null = t'.cells.getD c .null) :
    (Machine.locate host' m id enter' scopes' place').run s₁' = (.ok l', s₁') := by
  obtain ⟨found, hfound, hagain⟩ : ∃ o, (Machine.locate host' m id enter' scopes' place').run t' = (o, t') ∧
      ∀ l, o = .ok l → (∀ a i, l = .element a i →
          (s₁'.grids.getD a default).bounds = (t'.grids.getD a default).bounds) →
        (Machine.locate host' m id enter' scopes' place').run s₁' = (.ok l, s₁') :=
    run_locate_trivial htriv hcells
  refine hagain l' (Prod.mk.inj (hfound.symm.trans hrun)).1 fun a i hai => ?_
  subst hai
  cases hl with
  | element ha =>
    have hshape := List.getElem?_eq_getElem ha
    rw [hgrids]
    exact (hs₁.grids.bounds_eq (World.shape_mono hshape hle)).trans (hs.grids.bounds_eq hshape).symm

/-- Storing at a place that has been found, from one variable, and yielding the value of another, which is the
machine's own. -/
theorem sim_writeBack {K : CellId → Prop} {l l' : Location} {v a : Value Code} {v' : Value} {x y : Var} {e : CellId}
    (hs : s.Agrees R m w s') (hl : l.Agrees w l') (hv : v.Agrees w v')
    (hloc : (Machine.locate host' m id enter' scopes' place').run s' = (.ok l', s'))
    (hx : (Machine.evalWith host' m id enter' scopes' (.read x)).run s' = (.ok v', s'))
    (hy : m.lookup scopes' y = some e) (he : e < s'.cells.size ∧ e ∉ w.cells)
    (ha : a.Agrees w (s'.cells.getD e .null)) :
    Sim R m K w s s' (Eval.store v l >>= fun _ => pure a)
      (Machine.evalWith host' m id enter' scopes' (.assign place' (.read x)) >>= fun _ =>
        Machine.evalWith host' m id enter' scopes' (.read y))
      fun w₁ _ v v' => v.Agrees w₁ v' := by
  simp only [Machine.evalWith_assign, bind_assoc, pure_bind]
  refine .right hloc .refl (.right hx .refl ?_)
  refine ((Runs.store (C := agreement R m) hl hv).runsFrom hs).bind (fun _ _ => trivial) fun w₁ t t' _ _ hf ht _ => ?_
  refine .of_value ht (run_read hy) ?_
  rw [hf.kept e he.1 trivial he.2]
  exact ha.mono hf.le

/-- A step that reads its location, computes the new value and writes it back, by two temporaries. -/
theorem sim_functionalStep (hh : host.Agrees R host') (hn : StepNext k ty method pinned next) {K : CellId → Prop}
    {old new : Var} {c d : CellId} {r : Run σ Code Location} (hlc : m.lookup scopes' old = some c)
    (hld : m.lookup scopes' new = some d) (hc : c < s'.cells.size ∧ c ∉ w.cells ∧ ¬ K c)
    (hd : d < s'.cells.size ∧ d ∉ w.cells ∧ ¬ K d) (hcd : c ≠ d)
    (htriv : ∀ p ∈ place'.parts, p.isTrivial = true)
    (hreads : ∀ x, .read x ∈ place'.parts → ∀ e, m.lookup scopes' x = some e → e ≠ c ∧ e ≠ d)
    (hloc : Sim R m (fun _ => True) w s s' r (Machine.locate host' m id enter' scopes' place')
      fun w₁ _ l l' => l.Agrees w₁ l') :
    Sim R m K w s s' (r >>= Expr.stepAt host m k method ty)
      (runThen ([.assign (.var old) place'.read, .assign (.var new) (next (.read old)),
          .assign place' (.read new)].map (Machine.evalWith host' m id enter' scopes'))
        (Machine.evalWith host' m id enter' scopes' (if k.op.yieldsNew then .read new else .read old)))
      fun w₁ _ v v' => v.Agrees w₁ v' := by
  -- the direct evaluation finds the location and loads the old value
  have hsplit : r >>= Expr.stepAt host m k method ty =
      (r >>= fun l => Eval.load l >>= fun v => pure (l, v)) >>= fun lv =>
        Expr.stepValue host m k method ty lv.2 >>= fun v => Eval.store v lv.1 >>= fun _ =>
          pure (if k.op.yieldsNew then v else lv.2) := by
    simp only [bind_assoc, pure_bind]
    rfl
  rw [hsplit]
  refine Sim.setTemp hlc hc.1 hc.2.1 hc.2.2 (sim_readPlace htriv hloc)
    fun w₁ t t' lv o' hf ⟨ho, htt', l', hl, hrun⟩ ht => ?_
  subst htt'
  obtain ⟨l, o⟩ := lv
  dsimp only at ho hl ⊢
  have hread : (Machine.evalWith host' m id enter' scopes' (.read old)).run
      { t' with cells := t'.cells.setIfInBounds c o' } =
        (.ok o', { t' with cells := t'.cells.setIfInBounds c o' }) := by
    rw [run_read hlc, getD_setIfInBounds, if_pos ⟨rfl, hc.1⟩]
  have hd₁ : d < (t'.cells.setIfInBounds c o').size := by
    rw [Array.size_setIfInBounds]
    exact hd.1
  refine Sim.setTemp hld hd₁ (hf.fresh d hd.1 hd.2.1) hd.2.2 (hn.sim hh ho ht hread)
    fun w₂ t₂ t₂' v v' hf₂ ⟨hv, hcells⟩ ht₂ => ?_
  -- the machine's store, in which the location is found once more
  generalize hr : ({ t₂' with cells := t₂'.cells.setIfInBounds d v' } : Store σ') = r' at ht₂ ⊢
  have hcellsr : r'.cells = (t'.cells.setIfInBounds c o').setIfInBounds d v' := by
    rw [← hr]
    exact congrArg (·.setIfInBounds d v') hcells
  have hother {e : CellId} (he : e ≠ c ∧ e ≠ d) : r'.cells.getD e .null = t'.cells.getD e .null := by
    rw [hcellsr, getD_setIfInBounds, if_neg fun h => he.2 h.1.symm, getD_setIfInBounds,
      if_neg fun h => he.1 h.1.symm]
  have hcell : r'.cells.getD c .null = o' := by
    rw [hcellsr, getD_setIfInBounds, if_neg fun h => hcd h.1.symm, getD_setIfInBounds, if_pos ⟨rfl, hc.1⟩]
  have hdell : r'.cells.getD d .null = v' := by
    rw [hcellsr, getD_setIfInBounds, if_pos ⟨rfl, hd₁⟩]
  have hsize : r'.cells.size = t'.cells.size := by rw [hcellsr, Array.size_setIfInBounds, Array.size_setIfInBounds]
  have hagain : (Machine.locate host' m id enter' scopes' place').run r' = (.ok l', r') :=
    run_locate_again htriv ht ht₂ hf₂.le hl hrun rfl fun x hx e he => hother (hreads x hx e he)
  have hnew : (Machine.evalWith host' m id enter' scopes' (.read new)).run r' = (.ok v', r') := by
    rw [run_read hld, hdell]
  have hfresh {e : CellId} (he : e < t'.cells.size ∧ e ∉ w.cells) : e < r'.cells.size ∧ e ∉ w₂.cells := by
    refine ⟨hsize ▸ he.1, hf₂.fresh e ?_ (hf.fresh e he.1 he.2)⟩
    rw [Array.size_setIfInBounds]
    exact he.1
  cases k.op.yieldsNew with
  | true =>
    refine sim_writeBack ht₂ (hl.mono hf₂.le) hv hagain hnew hld (hfresh ⟨hd.1, hd.2.1⟩) ?_
    rw [hdell]
    exact hv
  | false =>
    refine sim_writeBack ht₂ (hl.mono hf₂.le) hv hagain hnew hlc (hfresh ⟨hc.1, hc.2.1⟩) ?_
    rw [hcell]
    exact ho.mono hf₂.le

/-! ### Lowered steps -/

theorem mem_cells_of_lookup {P : VarId → Prop} {x : Var} {c : CellId} (hs : s.Agrees R m w s')
    (hsc : w.SameScopes P scopes scopes') (hx : P x.id) (hl : m.lookup scopes' x = some c) : c ∈ w.cells := by
  have hc : w.SameCell? (m.lookup scopes x) (m.lookup scopes' x) := World.sameCell?_or (hsc x.id hx) (hs.globals x.id)
  rw [hl] at hc
  generalize m.lookup scopes x = d at hc
  cases hc with
  | some hc => exact hc.mem

/-- Scopes that differ by temporaries only have the same cells for other variables. -/
theorem World.SameScopes.of_temps {scopes'' : List Scope} {ids : List VarId}
    (h : w.SameScopes (fun x => x.val < n) scopes scopes') (hids : ∀ x ∈ ids, n ≤ x.val)
    (hout : ∀ x, x ∉ ids → scopes''.findSome? (·.lookup x) = scopes'.findSome? (·.lookup x)) :
    w.SameScopes (fun x => x.val < n) scopes scopes'' := by
  intro x hx
  rw [hout x fun hm => absurd hx (Nat.not_lt.2 (hids x hm))]
  exact h x hx

theorem stepAt_unchecked (hk : k.checked = false) (l : Location) :
    Expr.stepAt host m k none ty l = Machine.step k.op l := by
  simp only [Expr.stepAt, Expr.stepValue, Machine.step, hk, Bool.false_eq_true, if_false, bind_assoc]

theorem StepForm.sims (hh : host.Agrees R host') {p : Prim} (hform : StepForm k method operand place p u₁ u₂)
    (hp : PlaceRel (Mirrors R m host host' enter enter') operand place u u₁) (hb : operand.Below n)
    (hn : n ≤ u.var) (hsc : w.SameScopes (fun x => x.val < n) scopes scopes') :
    Sims R m w (operand.operandLocation host m .split enter scopes method >>= Expr.stepAt host m k method operand.ty)
      (Machine.evalWith host' m id enter' scopes' p) Value.Agrees := by
  intro w₁ s s' hle hs
  have hnu := Nat.le_trans hn (hp.le Mirrors.le)
  cases hform with
  | @primitive place' temps _ _ hm hk hsettled =>
    subst hm
    have hnodup : (Temp.ids temps).Nodup := hsettled.ids_eq ▸ Supply.nodup_taken
    refine Sim.scope hs (fun _ => rfl) hnodup fun scopes'' t' hout hown ht => ?_
    have hsc' := (hsc.mono hle).of_temps
      (fun x hx => Nat.le_trans hnu (Supply.le_of_mem_taken (hsettled.ids_eq ▸ hx))) hout
    rw [List.append_nil]
    refine hsettled.sim rfl hp hb hn hsc' hown hnodup ht (fun _ h => h) fun w₂ t t' r hf ht hloc => ?_
    rw [Machine.evalWith]
    refine hloc.bind (fun _ _ => trivial) fun w₃ t₃ t₃' l l' hf₃ ht₃ hl => ?_
    rw [stepAt_unchecked hk]
    exact (Runs.step (C := agreement R m) k.op hl).runsFrom ht₃
  | @functional pinned next place' temps old new _ v₁ v₂ _ hnext hsettled ho hw =>
    have hids := Temp.ids_append_old_new hsettled.ids_eq hsettled.le ho hw place'.read (next (.read old))
    have hnodup : (Temp.ids (temps ++ [⟨old, place'.read⟩] ++ [⟨new, next (.read old)⟩])).Nodup :=
      hids ▸ Supply.nodup_taken
    refine Sim.scope hs (fun h => absurd h (by simp)) hnodup fun scopes'' t' hout hown ht => ?_
    have hsc' := (hsc.mono hle).of_temps (fun x hx => Nat.le_trans hnu (Supply.le_of_mem_taken (hids ▸ hx))) hout
    have hstores : Temp.stores (temps ++ [⟨old, place'.read⟩] ++ [⟨new, next (.read old)⟩]) ++
        [.assign place' (.read new)] = Temp.stores temps ++ [.assign (.var old) place'.read,
          .assign (.var new) (next (.read old)), .assign place' (.read new)] := by simp [Temp.stores]
    rw [hstores, List.map_append, runThen_append]
    refine hsettled.sim hnext.pinned_eq hp hb hn hsc' (hown.subset (by simp +contextual))
      (hsettled.ids_eq ▸ Supply.nodup_taken) ht (fun _ h => h) fun w₂ t₂ t₂' r hf ht₂ hloc => ?_
    have hown₂ := hown.frame hf
    obtain ⟨c, hlc, hkc, hltc, hwc⟩ := hown₂.cell old (by simp)
    obtain ⟨d, hld, hkd, hltd, hwd⟩ := hown₂.cell new (by simp)
    have hval : old.id.val = v₁.var ∧ new.id.val = v₁.var + 1 := by
      cases ho
      cases hw
      exact ⟨rfl, rfl⟩
    refine sim_functionalStep hh hnext hlc hld ⟨hltc, hwc, Nat.not_lt.2 hkc⟩ ⟨hltd, hwd, Nat.not_lt.2 hkd⟩
      (hown.cell_ne (by simp) (by simp) (by omega) hlc hld)
      (fun p hmem => (hsettled.uses (hp.read_lt hb) p hmem).1) (fun x hmem e he => ?_) hloc
    rcases (hsettled.uses (hp.read_lt hb) _ hmem).2 x rfl with ⟨t, ht, rfl⟩ | hx
    · have hids : t.var.id ∈ Temp.ids temps := List.mem_map_of_mem ht
      rw [hsettled.ids_eq] at hids
      have hlt : t.var.id.val < v₁.var := (Supply.mem_taken.1 hids).2
      have hmem := List.mem_map_of_mem (f := fun t => t.var) (List.mem_append_left [⟨new, next (.read old)⟩]
        (List.mem_append_left [⟨old, place'.read⟩] ht))
      exact ⟨hown.cell_ne hmem (by simp) (by omega) he hlc, hown.cell_ne hmem (by simp) (by omega) he hld⟩
    · have hmem := mem_cells_of_lookup ht₂ (hsc'.mono hf.le) hx he
      exact ⟨fun hec => hwc (hec ▸ hmem), fun hed => hwd (hed ▸ hmem)⟩

end

end ExprLowering
