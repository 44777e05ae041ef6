import ExprLowering.Proofs.ArraySimulation
import ExprLowering.Proofs.InvokeSimulation

/-!
# Lowering preserves meaning

The machine's evaluation of a lowered expression does what the direct evaluation of the expression does: it
ends in a value that agrees or in the same fault, after the same calls of the host, with the same contents of
the variables and arrays (`Lowerer.eval_lower`). By rule induction (`mirrors_rules`) this holds of every
lowering as long as it holds of the closures that are entered, and by induction on the number of calls that
may still be nested (`enterAgrees`) it holds of those.
-/

namespace ExprLowering

open Correspondence

variable {σ σ' : Type} {R : World → σ → σ' → Prop} {m : Machine} {host : Host σ Code} {host' : Host σ'}
  {enter : Enter σ Code} {enter' : Enter σ'}

/-! ### No node becomes a constant or a variable -/

theorem Temp.isTrivial_scope {temps : List Temp} {statements : List Prim} {result : Prim}
    (h : temps = [] → result.isTrivial = false) : (Temp.scope temps statements result).isTrivial = false := by
  cases temps with
  | nil => exact h rfl
  | cons t temps => rfl

theorem StepForm.isTrivial {k : StepKind} {method : Option Method} {operand : Expr} {place : Place Prim} {p : Prim}
    {u u' : Supply} (h : StepForm k method operand place p u u') : p.isTrivial = false := by
  cases h with
  | primitive => exact Temp.isTrivial_scope fun _ => rfl
  | functional => exact Temp.isTrivial_scope fun h => absurd h (by simp)

theorem InvokeForm.isTrivial {params : List Descriptor} {ty : Ty} {tys : List Ty} {c p : Prim} {vs : List Prim}
    {u u' : Supply} (h : InvokeForm params ty tys c vs p u u') : p.isTrivial = false := by
  cases h with
  | direct => rfl
  | spilled => exact Temp.isTrivial_scope fun _ => rfl

/-! ### Every lowering mirrors its expression -/

theorem PlaceRel.sims {n : Nat} {w : World} {scopes scopes' : List Scope} {target : Expr} {place : Place Prim}
    {u u' : Supply} (h : PlaceRel (Mirrors R m host host' enter enter') target place u u') (hb : target.Below n)
    (hn : n ≤ u.var) (hsc : w.SameScopes (fun x => x.val < n) scopes scopes') :
    Sims R m w (target.locate host m .split enter scopes) (Machine.locate host' m id enter' scopes' place)
      Location.Agrees := by
  cases h with
  | @var v =>
    rw [Expr.locate, Machine.locate]
    exact (Sims.cell hsc (hb _ List.mem_cons_self)).bind fun _ _ _ _ hc => .pure fun _ hle => .cell (hc.mono hle)
  | element harray hindices =>
    rw [Expr.locate, Machine.locate, Expr.evalInts_eq_mapM, Machine.evalInts_eq_mapM]
    cases (Threaded.cons harray hindices).sims hb.part hn hsc with
    | cons h hs => exact .element h hs

theorem mirrors_rules (hh : host.Agrees R host') (henter : EnterAgrees R m enter enter') (o : LowerOptions) :
    LowerRules o (Mirrors R m host host' enter enter') where
  const {c _} := ⟨Nat.le_refl _, .inl ⟨c, rfl, rfl⟩, fun _ _ _ => .pure fun _ _ => .ofConstant c⟩
  var {v _} := by
    refine ⟨Nat.le_refl _, .inr (.inl ⟨v, rfl, rfl⟩), fun hb _ hsc => ?_⟩
    exact (Sims.cell hsc (hb _ List.mem_cons_self)).bind fun _ _ _ _ hc => .load (.cell hc)
  index {_ _ _ a is _ _ _} _ ha hi := by
    refine ⟨Nat.le_trans ha.le (hi.le Mirrors.le), .inr (.inr ⟨rfl, rfl⟩), fun {_ w _ scopes'} hb hn hsc => ?_⟩
    show Sims R m w _ (Machine.evalWith host' m id enter' scopes' (Place.element a is).read) _
    rw [Expr.evalWith_index, Machine.evalWith_read]
    exact ((PlaceRel.element ha hi).sims hb hn hsc).bind fun _ _ _ _ hl => .load hl
  binary _ hl hr := by
    refine ⟨Nat.le_trans hl.le hr.le, .inr (.inr ⟨rfl, rfl⟩), fun hb hn hsc => ?_⟩
    rw [Expr.evalWith, Machine.evalWith]
    exact .binary _ _ (hl.sims (hb.part _ (by simp [Expr.parts])) hn hsc)
      (hr.sims (hb.part _ (by simp [Expr.parts])) (Nat.le_trans hn hl.le) hsc)
  call _ hc ha := by
    refine ⟨Nat.le_trans hc.le (ha.le Mirrors.le), .inr (.inr ⟨rfl, rfl⟩), fun hb hn hsc => ?_⟩
    rw [Expr.evalWith, Machine.evalWith, Expr.evalAll_eq_mapM, Machine.evalAll_eq_mapM]
    cases (Threaded.cons hc ha).sims hb.part hn hsc with
    | cons h hs => exact .call hh.hosts henter h hs
  assign _ ht hv := by
    refine ⟨Nat.le_trans (ht.le Mirrors.le) hv.le, .inr (.inr ⟨rfl, rfl⟩), fun hb hn hsc => ?_⟩
    rw [Expr.evalWith, Machine.evalWith]
    exact .assign (ht.sims (hb.part _ (by simp [Expr.parts])) hn hsc)
      (hv.sims (hb.part _ (by simp [Expr.parts])) (Nat.le_trans hn (ht.le Mirrors.le)) hsc)
  block _ hbody := by
    refine ⟨hbody.le Mirrors.le, .inr (.inr ⟨rfl, rfl⟩), fun hb hn hsc => ?_⟩
    simp only [Expr.evalWith, Machine.evalWith, Expr.evalAll_eq_mapM, Machine.evalAll_eq_mapM]
    exact .block hh.hosts hsc.named (.inl rfl) rfl fun hsc => hbody.sims hb.part hn (.of_bindAll hsc)
  lambda he hlow hbody := by
    refine ⟨hbody.le, .inr (.inr ⟨rfl, rfl⟩), fun hb hn hsc => ?_⟩
    rw [Expr.evalWith, Machine.evalWith]
    refine .newClosure ⟨_, ⟨rfl, rfl, ?_⟩, hsc.capture⟩
    exact .expr (he.part _ (by simp [Expr.parts])) (hb.part _ (by simp [Expr.parts])) hn hlow
  quote he hlow hbody := by
    refine ⟨hbody.le, .inr (.inr ⟨rfl, rfl⟩), fun hb hn hsc => ?_⟩
    have he := (he.part _ (List.mem_singleton.2 rfl)).part _ (List.mem_singleton.2 rfl)
    have hb := (hb.part _ (List.mem_singleton.2 rfl)).part _ (List.mem_singleton.2 rfl)
    rw [Expr.evalWith, Machine.evalWith]
    exact .pure fun _ _ => .quoted ⟨_, rfl, rfl, .expr he hb hn hlow⟩
  step _ hp hform := by
    refine ⟨Nat.le_trans (hp.le Mirrors.le) hform.le, .inr (.inr ⟨rfl, hform.isTrivial⟩), fun hb hn hsc => ?_⟩
    rw [Expr.evalWith_step]
    exact hform.sims hh hp (hb.part _ (by simp [Expr.parts])) hn hsc
  fold he _ := by
    refine ⟨Nat.le_refl _, .inr (.inr ⟨rfl, rfl⟩), fun _ _ _ => ?_⟩
    cases he.allows with
    | array _ _ hcheck => exact sims_constArray hh (by simpa using hcheck)
  array he hu hps hp := by
    refine ⟨Nat.le_trans (Supply.le_fresh hu) (hps.le Mirrors.le), .inr (.inr ⟨rfl, ?_⟩), fun hb hn hsc => ?_⟩
    · obtain ⟨_, _, -, -, rfl⟩ := arrayBlock?_eq_some hp
      rfl
    · cases he.allows with
      | array _ _ hcheck => exact sims_arrayBlock hh hcheck hu hps hp hb.part hn hsc
  invoke he hc hvs hform := by
    refine ⟨?_, .inr (.inr ⟨rfl, hform.isTrivial⟩), fun hb hn hsc => ?_⟩
    · exact Nat.le_trans ((Threaded.cons hc hvs).le Mirrors.le) hform.le
    · exact hform.sims hh henter he (.cons hc hvs) hb.part hn hsc

/-! ### Closures -/

/-- Entering a closure, when equally many calls may still be nested on both sides. -/
theorem enterAgrees (hh : host.Agrees R host') (depth : Nat) :
    EnterAgrees R m (Code.enter host m .split depth) (Machine.enter host' m depth) := by
  induction depth with
  | zero => exact fun _ _ _ => .throw
  | succ depth ih =>
    rintro w ⟨signature, params, body⟩ ⟨_, _, body'⟩ captured captured' args args' ⟨P, hcode, hc⟩ hlen hargs
    obtain ⟨rfl : signature = _, rfl : params = _, hbody : body.Agrees P body'⟩ := hcode
    rw [Code.enter, Machine.enter]
    refine (Runs.frame hh.hosts hc.named hlen hargs).bind fun w₁ frame frame' _ hscope => ?_
    have hscopes := World.SameScopes.of_bindAll hscope
    cases hbody with
    | prim => exact sims_prim hh ih body' hscopes
    | expr he hb hn hlow => exact ((mirrors_rules hh ih _).of_loweredTo he hlow).sims hb hn hscopes

/-! ### The starting store

The direct evaluation starts from the machine's own store, in which the functions have primitive trees. -/

/-- The value with its code embedded. -/
def Value.embed : Value → Value Code
  | null => null
  | lit l => lit l
  | array a => array a
  | native f => native f
  | closure stamp code captured => closure stamp (code.map .prim) captured
  | quoted stamp code => quoted stamp (code.map .prim)

def Grid.embed (g : Grid) : Grid Code :=
  ⟨g.element, g.bounds, g.data.map Value.embed⟩

/-- The store with its code embedded, and with another state of the host. -/
def Store.embed (s : Store σ') (a : σ) : Store σ Code where
  cells := s.cells.map Value.embed
  grids := s.grids.map Grid.embed
  closures := s.closures
  host := a

/-- All cells and arrays that the value names are there. -/
def Value.Within (cells grids : Nat) : Value → Prop
  | array a => a < grids
  | closure _ _ captured => ∀ e ∈ captured, e.2 < cells
  | _ => True

/-- All cells and arrays that are named anywhere are there. -/
structure Store.Closed (m : Machine) (s : Store σ') : Prop where
  globals : ∀ e ∈ m.globals, e.2 < s.cells.size
  cells : ∀ v ∈ s.cells, v.Within s.cells.size s.grids.size
  grids : ∀ g ∈ s.grids, ∀ v ∈ g.data, v.Within s.cells.size s.grids.size

/-- The world in which each cell stands for itself. -/
def Store.world (s : Store σ') : World where
  cells := List.range s.cells.size
  shapes := s.grids.toList.map Grid.bounds

theorem Grid.getAt_embed (g : Grid) (i : Nat) : g.embed.getAt i = (g.getAt i).embed :=
  getD_map Value.embed g.data i .null

theorem Value.within_getD {cells grids : Nat} {vs : Array Value} (h : ∀ v ∈ vs, v.Within cells grids) (i : Nat) :
    (vs.getD i .null).Within cells grids := by
  rw [Array.getD_eq_getD_getElem?]
  cases hv : vs[i]? with
  | none => exact trivial
  | some v => exact h v (Array.mem_of_getElem? hv)

section
variable {s : Store σ'}

theorem Store.sameCell?_lookup {scope : Scope} (h : ∀ e ∈ scope, e.2 < s.cells.size) (x : VarId) :
    s.world.SameCell? (scope.lookup x) (scope.lookup x) := by
  cases hl : scope.lookup x with
  | none => exact .none
  | some c =>
    obtain ⟨l₁, l₂, rfl, -⟩ := List.lookup_eq_some_iff.1 hl
    exact .some (List.getElem?_range (h (x, c) (by simp)))

theorem Value.Within.agrees {v : Value} (h : v.Within s.cells.size s.grids.size) : v.embed.Agrees s.world v := by
  cases v with
  | null => exact .null
  | lit l => exact .lit l
  | array a =>
    have hlt : a < s.grids.size := h
    exact .array (by simpa [Store.world] using hlt)
  | native f => exact .native f
  | closure stamp code captured =>
    refine .closure ⟨fun _ => True, ⟨rfl, rfl, .prim _⟩, fun x _ => ?_⟩
    rw [findSome?_lookup_cons]
    exact World.sameCell?_or (Store.sameCell?_lookup h x) .none
  | quoted stamp code => exact .quoted ⟨fun _ => True, rfl, rfl, .prim _⟩

theorem Store.Closed.agrees (h : s.Closed m) {a : σ} (ha : R s.world a s.host) :
    (s.embed a).Agrees R m s.world s where
  globals := sameCell?_lookup h.globals
  size := by simp [embed, world]
  nodup := List.nodup_range
  lt c hc := List.mem_range.1 hc
  cell c c' hc := by
    obtain ⟨_, hc⟩ := List.getElem?_eq_some_iff.1 hc
    cases (List.getElem_range _).symm.trans hc
    exact getD_map Value.embed s.cells c .null ▸ (Value.within_getD h.cells c).agrees
  grids := {
    size := by simp [embed, world]
    size' := by simp [world]
    grid := fun a bounds ha => by
      obtain ⟨g, hg, rfl⟩ : ∃ g, s.grids[a]? = some g ∧ g.bounds = bounds := by simpa [world] using ha
      simp only [embed, Array.getD_eq_getD_getElem?, Array.getElem?_map, hg, Option.map_some, Option.getD_some]
      refine ⟨⟨rfl, rfl, by simp [Grid.embed], fun i => ?_⟩, rfl⟩
      rw [Grid.getAt_embed]
      exact (Value.within_getD (h.grids g (Array.mem_of_getElem? hg)) i).agrees }
  closures := rfl
  host := ha

end

/-! ### Preservation -/

/-- Functions that agree can be called in each other's place. -/
theorem sims_call (hh : host.Agrees R host') {w : World} {f : Value Code} {f' : Value} {args : List (Value Code)}
    {args' : List Value} (hf : f.Agrees w f') (hargs : List.Forall₂ (Value.Agrees w) args args') :
    Sims R m w (Machine.apply host (Code.enter host m .split m.maxCallDepth) f args) (m.call host' f' args')
      Value.Agrees :=
  .apply hh.hosts (enterAgrees hh m.maxCallDepth) hf hargs

/-- From stores that agree, say from one and the same store (`Store.Closed.agrees`), the machine's evaluation of
a lowered expression ends like the direct evaluation of the expression, and in stores that agree. -/
theorem Lowerer.eval_lower {l l' : Lowerer} {e : Expr} {p : Prim} {supply supply' : Supply} {w : World}
    {s : Store σ Code} {s' : Store σ'} (he : e.Obtained) (hb : e.Below supply.var)
    (h : l.lower e supply = (.ok p, l', supply')) (hh : host.Agrees R host') (hs : s.Agrees R m w s') :
    ∃ w', w ≤ w' ∧ ((e.eval host m .split).run s).2.Agrees R m w' ((m.eval host' p).run s').2 ∧
      SameResult (Value.Agrees w') ((e.eval host m .split).run s).1 ((m.eval host' p).run s').1 := by
  have henter : EnterAgrees R m _ _ := enterAgrees hh m.maxCallDepth
  have hmirrors := (mirrors_rules hh henter l.options).of_loweredTo he.wellMade (loweredTo h)
  obtain ⟨w', hframe, hstores, hresult⟩ := sim_iff.1 (hmirrors.sims hb (Nat.le_refl _) .nil w s s' (le_refl _) hs)
  exact ⟨w', hframe.le, hstores, hresult⟩

/-! ### Increments of an array element

The array `xs`, with the element zero, and the host function `f` are bound, `j` is not. -/

namespace Increment

/-- A host that counts the calls and answers zero. -/
def counter {α : Type} : Host Nat α where
  call _ _ gs n := (.ok (.ofWord (.zero .i32)), gs, n + 1)

theorem counter_agrees : counter.Agrees (fun _ => Eq) counter where
  mono _ _ _ _ _ h := h
  call _ _ hgs h := ⟨_, le_refl _, rfl, .ok (.lit _), hgs, congrArg (· + 1) h⟩

def xs (rank : Nat) : Var := ⟨⟨0⟩, "xs", .array (.int .i32) rank⟩
def f : Var := ⟨⟨1⟩, "f", .fn ⟨⟨"f"⟩, "f", [], .int .i32⟩⟩
def j : Var := ⟨⟨2⟩, "j", .int .i32⟩

def machine : Machine := { globals := [(⟨0⟩, 0), (⟨1⟩, 1)] }

def store (bounds : List Nat) : Store Nat where
  cells := #[.array 0, .native ⟨0, "f"⟩]
  grids := #[⟨.int .i32, bounds, #[.ofWord (.zero .i32)]⟩]
  host := 0

theorem store_closed (bounds : List Nat) : (store bounds).Closed machine where
  globals := by simp [machine, store]
  cells := by simp [store, Value.Within]
  grids := by simp [store, Value.Within, Value.ofWord]

/-- `xs[indices]++` -/
def expr (indices : List Expr) : Expr :=
  .node 2 (.step ⟨.postIncrement, false⟩ none) [.node 1 .index (.var (xs indices.length) :: indices)]

def callF : Expr := .node 0 .call [.var f]

theorem obtained {indices : List Expr} (hi : ∀ i ∈ indices, i.Obtained)
    (h : Expr.mkIndex (.var (xs indices.length)) indices 1 =
      .ok (.node 1 .index (.var (xs indices.length) :: indices), 2)) :
    (expr indices).Obtained := by
  have hstep : Expr.mkStep ⟨.postIncrement, false⟩ (.node 1 .index (.var (xs indices.length) :: indices)) none 2 =
      .ok (expr indices, 3) := rfl
  have hindex : (Expr.node 1 .index (.var (xs indices.length) :: indices)).Obtained :=
    .made (List.forall_mem_cons.2 ⟨.var _, hi⟩) h
  exact .made (List.forall_mem_singleton.2 hindex) hstep

theorem below {indices : List Expr} (hi : ∀ i ∈ indices, i.Below 3) : (expr indices).Below 3 := by
  intro x hx
  simp only [expr, Expr.vars, Expr.varsAll, Expr.binders, List.nil_append, List.append_nil, List.singleton_append,
    List.mem_cons, Expr.mem_varsAll] at hx
  rcases hx with rfl | ⟨i, hmem, hx⟩
  · exact Nat.zero_lt_succ 2
  · exact hi i hmem x hx

theorem callF_obtained : callF.Obtained := by
  have hcall : Expr.mkCall (.var f) [] 0 = .ok (callF, 1) := rfl
  exact .made (List.forall_mem_singleton.2 (.var f)) hcall

theorem callF_below : callF.Below 3 := by
  simp [Expr.Below, callF, Expr.vars, Expr.varsAll, Expr.binders, f]

end Increment

open Increment in
/-- In `xs[f()]++` the array and the index are kept in temporaries. -/
theorem Lowerer.eval_lower_increment :
    ∃ p, lower {} (expr [callF]) { var := 3 } = (.ok p, {}, { var := 5 }) ∧
      ((machine.eval counter p).run (store [1])).2.host = 1 ∧
      ∃ w, (store [1]).world ≤ w ∧
        (((expr [callF]).eval counter machine .split).run ((store [1]).embed 0)).2.Agrees (fun _ => Eq) machine w
          ((machine.eval counter p).run (store [1])).2 ∧
        SameResult (Value.Agrees w) (((expr [callF]).eval counter machine .split).run ((store [1]).embed 0)).1
          ((machine.eval counter p).run (store [1])).1 := by
  have hobtained : (expr [callF]).Obtained := obtained (List.forall_mem_singleton.2 callF_obtained) rfl
  have hbelow : (expr [callF]).Below 3 := below (List.forall_mem_singleton.2 callF_below)
  obtain ⟨p, hp, hcalls⟩ : ∃ p, lower {} (expr [callF]) { var := 3 } = (.ok p, {}, { var := 5 }) ∧
      ((machine.eval counter p).run (store [1])).2.host = 1 := ⟨_, rfl, by decide +kernel⟩
  exact ⟨p, hp, hcalls, eval_lower hobtained hbelow hp counter_agrees ((store_closed [1]).agrees rfl)⟩

open Increment in
/-- No rule but `split` will do. Of `xs[null, j]++` the machine reports the index, though `j` is unbound;
of `xs[null, f()]++` it reports the index after `f` was called. -/
theorem Lowerer.eval_lower_ne_of_uniform :
    (∃ p, (expr [.const (.null (.int .i32)), .var j]).Obtained ∧
      (expr [.const (.null (.int .i32)), .var j]).Below 3 ∧
      lower {} (expr [.const (.null (.int .i32)), .var j]) { var := 3 } = (.ok p, {}, { var := 3 }) ∧
      ¬ ∃ w, SameResult (Value.Agrees w)
        (((expr [.const (.null (.int .i32)), .var j]).eval counter machine .late).run ((store [1, 1]).embed 0)).1
        ((machine.eval counter p).run (store [1, 1])).1) ∧
    ∃ p, (expr [.const (.null (.int .i32)), callF]).Obtained ∧
      (expr [.const (.null (.int .i32)), callF]).Below 3 ∧
      lower {} (expr [.const (.null (.int .i32)), callF]) { var := 3 } = (.ok p, {}, { var := 5 }) ∧
      ¬ ∃ w, (((expr [.const (.null (.int .i32)), callF]).eval counter machine .early).run
        ((store [1, 1]).embed 0)).2.Agrees (fun _ => Eq) machine w ((machine.eval counter p).run (store [1, 1])).2 := by
  have hconst := Expr.Obtained.const (.null (.int .i32))
  constructor
  · have hbelow : ∀ i ∈ [Expr.const (.null (.int .i32)), .var j], i.Below 3 := by simp [Expr.Below, Expr.vars, j]
    refine ⟨_, obtained (by simp [hconst, Expr.Obtained.var]) rfl, below hbelow, rfl, fun ⟨w, h⟩ => ?_⟩
    have hlate : (((expr [.const (.null (.int .i32)), .var j]).eval counter machine .late).run
        ((store [1, 1]).embed 0)).1 = .error (.unbound j) := rfl
    rw [hlate] at h
    obtain _ | h := h
    cases h
  · obtain ⟨p, hp, hcalls⟩ : ∃ p, lower {} (expr [.const (.null (.int .i32)), callF]) { var := 3 } =
        (.ok p, {}, { var := 5 }) ∧ ((machine.eval counter p).run (store [1, 1])).2.host = 1 :=
      ⟨_, rfl, by decide +kernel⟩
    have hbelow : ∀ i ∈ [Expr.const (.null (.int .i32)), callF], i.Below 3 :=
      List.forall_mem_cons.2 ⟨by simp [Expr.Below, Expr.vars], List.forall_mem_singleton.2 callF_below⟩
    refine ⟨p, obtained (by simp [hconst, callF_obtained]) rfl, below hbelow, hp, fun ⟨w, h⟩ => ?_⟩
    have hearly : (((expr [.const (.null (.int .i32)), callF]).eval counter machine .early).run
        ((store [1, 1]).embed 0)).2.host = 0 := rfl
    exact absurd (hearly.symm.trans (h.host.trans hcalls)) Nat.zero_ne_one

end ExprLowering
