import Mathlib.Logic.Relation
import ExprLowering.Machine
import ExprLowering.Proofs.Alike
import ExprLowering.Proofs.Outcome

/-!
# Evaluation ends

`Machine.evalOnce` is what the evaluation of a tree does itself. The evaluations nested in it are a parameter, and so
is the monad: any to which computations on the store can be lifted. A nested evaluation is that of a part, at the same
call depth, or that of the body of a closure, one call deeper and no deeper than the limit.

The machine's evaluation is the only solution of the equation `f = evalOnce f`. In the monad `Attempt`, where a
computation may be given up, unfolding the equation often enough gives its results (`evalUpTo`); in the monad
`Recorded` every nested evaluation leaves a mark, so that `nestedIn` lists them.
-/

namespace ExprLowering

namespace Machine

/-! ### One level of evaluation -/

section
variable {σ : Type} {M : Type → Type} [Monad M] [MonadLiftT (Eval σ) M] (host : Host σ) (m : Machine)
  (nested : Nat → List Scope → Prim → M Value) (depth : Nat) (scopes : List Scope)

/-- Evaluates the trees in order. -/
def allOnce : List Prim → M (List Value)
  | [] => pure []
  | p :: ps => do
    let v ← nested depth scopes p
    let vs ← allOnce ps
    return v :: vs

variable (σ) in
/-- Evaluates the trees in order, each to an integer before the next one. -/
def intsOnce (toInt : Value → Except Fault Int) : List Prim → M (List Int)
  | [] => pure []
  | p :: ps => do
    let v ← nested depth scopes p
    let n ← liftM (liftM (toInt v) : Eval σ Int)
    let ns ← intsOnce toInt ps
    return n :: ns

variable (σ) in
/-- Finds the location of a place. -/
def locateOnce : Place Prim → M Location
  | .var v => do
    let c ← liftM (m.cell scopes v : Eval σ CellId)
    return .cell c
  | .element array indices => do
    let v ← nested depth scopes array
    let is ← intsOnce σ nested depth scopes Value.asIndex indices
    liftM (elementLocation v is : Eval σ Location)

/-- Calls a value at a call depth. -/
def applyOnce (callee : Value) (args : List Value) : M Value :=
  match callee with
  | .native f => liftM (callHost host f args)
  | .closure _ code captured =>
    if args.length = code.params.length then
      if depth < m.maxCallDepth then do
        let frame ← liftM (Eval.extend [] ((code.params.map (·.id)).zip args) : Eval σ Scope)
        nested (depth + 1) [frame, captured] code.body
      else liftM (throw (.stackOverflow m.maxCallDepth) : Eval σ Value)
    else liftM (throw (.argumentCount code.params.length args.length) : Eval σ Value)
  | v => liftM (throw (.notCallable v.typeName) : Eval σ Value)

def callOnce (callee : Prim) (args : List Prim) : M Value := do
  let f ← nested depth scopes callee
  let vs ← allOnce nested depth scopes args
  applyOnce host m nested depth f vs

/-- Evaluates a tree at a call depth, but for what is nested in it. -/
def evalOnce : Prim → M Value
  | .const c => pure (.ofConstant c)
  | .read v => do
    let c ← liftM (m.cell scopes v : Eval σ CellId)
    liftM (Eval.load (.cell c) : Eval σ Value)
  | .assign target value => do
    let l ← locateOnce σ m nested depth scopes target
    let v ← nested depth scopes value
    liftM (Eval.store v l : Eval σ Unit)
    return v
  | .block locals body => do
    let scope ← liftM (Eval.extend [] (locals.map fun v => (v.id, .defaultOf v.ty)) : Eval σ Scope)
    let values ← allOnce nested depth (scope :: scopes) body
    return values.getLastD .null
  | .arith op checked left right => do
    let a ← nested depth scopes left
    let b ← nested depth scopes right
    liftM (liftM (Value.arith op checked a b) : Eval σ Value)
  | .step op target => do
    let l ← locateOnce σ m nested depth scopes target
    liftM (step op l : Eval σ Value)
  | .newArray element bounds => do
    let ns ← intsOnce σ nested depth scopes Value.asBound bounds
    let g ← liftM (liftM (Grid.new element (ns.map Int.toNat)) : Eval σ (Grid Prim))
    liftM (Eval.newGrid g : Eval σ Value)
  | .constArray element bounds values => do
    let g ← liftM (liftM (Grid.ofRowMajor element bounds (values.map Value.ofConstant)) : Eval σ (Grid Prim))
    liftM (Eval.newGrid g : Eval σ Value)
  | .element array indices => do
    let v ← nested depth scopes array
    let is ← intsOnce σ nested depth scopes Value.asIndex indices
    let l ← liftM (elementLocation v is : Eval σ Location)
    liftM (Eval.load l : Eval σ Value)
  | .call callee args => callOnce host m nested depth scopes callee args
  | .callMethod method args =>
    match m.methods.lookup method.name with
    | none => liftM (throw (.undefinedMethod method.name) : Eval σ Value)
    | some f => do
      let vs ← allOnce nested depth scopes args
      liftM (callHost host f vs)
  | .lambda code => liftM (Eval.newClosure (code.map id) (capture scopes) : Eval σ Value)
  | .quote stamp code => pure (.quoted stamp (code.map id))

end

/-! ### The machine's evaluation -/

section
variable {σ : Type} (host : Host σ) (m : Machine) (depth : Nat) (scopes : List Scope)

/-- Evaluates a tree at a call depth. -/
def evalAt (p : Prim) : Eval σ Value :=
  evalWith host m id (enter host m (m.maxCallDepth - depth)) scopes p

theorem eval_eq_evalAt (p : Prim) : eval host m p = evalAt host m 0 [] p := rfl

theorem apply_eq_applyOnce (callee : Value) (args : List Value) :
    apply host (enter host m (m.maxCallDepth - depth)) callee args =
      applyOnce host m (evalAt host m) depth callee args := by
  cases callee with
  | closure stamp code captured =>
    show (if _ then _ else _) = (if _ then _ else _)
    refine if_congr Iff.rfl ?_ rfl
    by_cases hdepth : depth < m.maxCallDepth
    · -- One of the calls to spare is used up by entering the body.
      have hspare : m.maxCallDepth - depth = m.maxCallDepth - (depth + 1) + 1 := by omega
      rw [if_pos hdepth, hspare]
      rfl
    · rw [if_neg hdepth, Nat.sub_eq_zero_of_le (Nat.not_lt.1 hdepth)]
      rfl
  | native | null | lit | array | quoted => rfl

theorem evalAll_eq_allOnce (ps : List Prim) :
    evalAll host m id (enter host m (m.maxCallDepth - depth)) scopes ps = allOnce (evalAt host m) depth scopes ps := by
  induction ps with
  | nil => rfl
  | cons p ps ih =>
    rw [evalAll, allOnce, ih]
    rfl

theorem evalInts_eq_intsOnce (toInt : Value → Except Fault Int) (ps : List Prim) :
    evalInts host m id (enter host m (m.maxCallDepth - depth)) scopes toInt ps =
      intsOnce σ (evalAt host m) depth scopes toInt ps := by
  induction ps with
  | nil => rfl
  | cons p ps ih =>
    rw [evalInts, intsOnce, ih]
    rfl

theorem locate_eq_locateOnce (place : Place Prim) :
    locate host m id (enter host m (m.maxCallDepth - depth)) scopes place =
      locateOnce σ m (evalAt host m) depth scopes place := by
  cases place with
  | var v => rfl
  | element array indices =>
    rw [locate, locateOnce, evalInts_eq_intsOnce]
    rfl

theorem evalAt_eq_evalOnce (p : Prim) :
    evalAt host m depth scopes p = evalOnce host m (evalAt host m) depth scopes p := by
  cases p with
  | const | read | arith | constArray | lambda | quote => rfl
  | assign target value | step op target =>
    rw [evalAt, evalWith, evalOnce, locate_eq_locateOnce]
    rfl
  | block locals body =>
    simp only [evalAt, evalWith, evalOnce, evalAll_eq_allOnce]
    rfl
  | newArray element bounds | element array indices =>
    rw [evalAt, evalWith, evalOnce, evalInts_eq_intsOnce]
    rfl
  | call callee args =>
    simp only [evalAt, evalWith, evalOnce, callOnce, evalAll_eq_allOnce, apply_eq_applyOnce]
  | callMethod method args =>
    rw [evalAt, evalWith, evalOnce, evalAll_eq_allOnce]
    rfl

end

/-! ### One level in two monads -/

/-- A relation between the computations of two monads that holds for what is done on the store alone and is kept by
sequences. -/
structure Matching (σ : Type) (M M' : Type → Type) [Monad M] [MonadLiftT (Eval σ) M] [Monad M']
    [MonadLiftT (Eval σ) M'] where
  Rel : ∀ {α : Type}, M α → M' α → Prop
  pure : ∀ {α : Type} (a : α), Rel (pure a) (pure a)
  bind : ∀ {α β : Type} {x : M α} {y : M' α} {f : α → M β} {g : α → M' β},
    Rel x y → (∀ a, Rel (f a) (g a)) → Rel (x >>= f) (y >>= g)
  lift : ∀ {α : Type} (x : Eval σ α), Rel (liftM x) (liftM x)

namespace Matching
variable {σ : Type} {M M' : Type → Type} [Monad M] [MonadLiftT (Eval σ) M] [Monad M'] [MonadLiftT (Eval σ) M']
  (r : Matching σ M M') {host : Host σ} {m : Machine} {nested : Nat → List Scope → Prim → M Value}
  {nested' : Nat → List Scope → Prim → M' Value} {depth : Nat} {scopes : List Scope}

theorem all {ps : List Prim} (h : ∀ q ∈ ps, r.Rel (nested depth scopes q) (nested' depth scopes q)) :
    r.Rel (allOnce nested depth scopes ps) (allOnce nested' depth scopes ps) := by
  induction ps with
  | nil => exact r.pure []
  | cons p ps ih =>
    rw [List.forall_mem_cons] at h
    exact r.bind h.1 fun v => r.bind (ih h.2) fun vs => r.pure (v :: vs)

theorem ints {ps : List Prim} {toInt : Value → Except Fault Int}
    (h : ∀ q ∈ ps, r.Rel (nested depth scopes q) (nested' depth scopes q)) :
    r.Rel (intsOnce σ nested depth scopes toInt ps) (intsOnce σ nested' depth scopes toInt ps) := by
  induction ps with
  | nil => exact r.pure []
  | cons p ps ih =>
    rw [List.forall_mem_cons] at h
    exact r.bind h.1 fun v => r.bind (r.lift _) fun n => r.bind (ih h.2) fun ns => r.pure (n :: ns)

theorem locate {place : Place Prim}
    (h : ∀ q ∈ place.parts, r.Rel (nested depth scopes q) (nested' depth scopes q)) :
    r.Rel (locateOnce σ m nested depth scopes place) (locateOnce σ m nested' depth scopes place) := by
  cases place with
  | var v => exact r.bind (r.lift _) fun c => r.pure _
  | element array indices =>
    rw [Place.parts, List.forall_mem_cons] at h
    exact r.bind h.1 fun v => r.bind (r.ints h.2) fun is => r.lift _

/-- A call nests nothing but the body of a closure, and that only below the limit. -/
theorem apply {callee : Value} {args : List Value}
    (h : ∀ stamp code captured, callee = .closure stamp code captured → depth < m.maxCallDepth → ∀ frame,
      r.Rel (nested (depth + 1) [frame, captured] code.body) (nested' (depth + 1) [frame, captured] code.body)) :
    r.Rel (applyOnce host m nested depth callee args) (applyOnce host m nested' depth callee args) := by
  cases callee with
  | closure stamp code captured =>
    rw [applyOnce, applyOnce]
    split_ifs with hargs hdepth
    · exact r.bind (r.lift _) fun frame => h stamp code captured rfl hdepth frame
    · exact r.lift _
    · exact r.lift _
  | native | null | lit | array | quoted => exact r.lift _

theorem call {callee : Prim} {args : List Prim}
    (hparts : ∀ q ∈ callee :: args, r.Rel (nested depth scopes q) (nested' depth scopes q))
    (hbody : depth < m.maxCallDepth → ∀ scopes q, r.Rel (nested (depth + 1) scopes q) (nested' (depth + 1) scopes q)) :
    r.Rel (callOnce host m nested depth scopes callee args) (callOnce host m nested' depth scopes callee args) := by
  rw [List.forall_mem_cons] at hparts
  exact r.bind hparts.1 fun f => r.bind (r.all hparts.2) fun vs =>
    r.apply fun _ code captured _ hdepth frame => hbody hdepth [frame, captured] code.body

/-- Evaluation nests the parts at the same depth and, blocks apart, in the same scopes; calls apart it nests nothing
else. -/
theorem once_of_cases {p : Prim} (hparts : ∀ q ∈ p.parts, r.Rel (nested depth scopes q) (nested' depth scopes q))
    (hblock : ∀ locals body, p = .block locals body →
      r.Rel (evalOnce host m nested depth scopes p) (evalOnce host m nested' depth scopes p))
    (hcall : ∀ callee args, p = .call callee args →
      r.Rel (callOnce host m nested depth scopes callee args) (callOnce host m nested' depth scopes callee args)) :
    r.Rel (evalOnce host m nested depth scopes p) (evalOnce host m nested' depth scopes p) := by
  cases p with
  | const c | quote stamp code => exact r.pure _
  | read v => exact r.bind (r.lift _) fun c => r.lift _
  | assign target value =>
    rw [Prim.parts, List.forall_mem_append, List.forall_mem_singleton] at hparts
    exact r.bind (r.locate hparts.1) fun l => r.bind hparts.2 fun v => r.bind (r.lift _) fun _ => r.pure v
  | block locals body => exact hblock locals body rfl
  | arith op checked left right =>
    rw [Prim.parts, List.forall_mem_cons, List.forall_mem_singleton] at hparts
    exact r.bind hparts.1 fun a => r.bind hparts.2 fun b => r.lift _
  | step op target => exact r.bind (r.locate hparts) fun l => r.lift _
  | newArray element bounds => exact r.bind (r.ints hparts) fun ns => r.bind (r.lift _) fun g => r.lift _
  | constArray element bounds values => exact r.bind (r.lift _) fun g => r.lift _
  | element array indices =>
    rw [Prim.parts, List.forall_mem_cons] at hparts
    exact r.bind hparts.1 fun v => r.bind (r.ints hparts.2) fun is => r.bind (r.lift _) fun l => r.lift _
  | call callee args => exact hcall callee args rfl
  | callMethod method args =>
    rw [evalOnce, evalOnce]
    cases m.methods.lookup method.name with
    | none => exact r.lift _
    | some f => exact r.bind (r.all hparts) fun vs => r.lift _
  | lambda code => exact r.lift _

theorem once_of_call {p : Prim}
    (hparts : ∀ q ∈ p.parts, ∀ scopes, r.Rel (nested depth scopes q) (nested' depth scopes q))
    (hcall : ∀ callee args, p = .call callee args →
      r.Rel (callOnce host m nested depth scopes callee args) (callOnce host m nested' depth scopes callee args)) :
    r.Rel (evalOnce host m nested depth scopes p) (evalOnce host m nested' depth scopes p) := by
  refine r.once_of_cases (fun q hq => hparts q hq scopes) ?_ hcall
  rintro locals body rfl
  exact r.bind (r.lift _) fun scope => r.bind (r.all fun q hq => hparts q hq (scope :: scopes)) fun vs => r.pure _

theorem once {p : Prim}
    (hparts : ∀ q ∈ p.parts, ∀ scopes, r.Rel (nested depth scopes q) (nested' depth scopes q))
    (hbody : depth < m.maxCallDepth → ∀ scopes q, r.Rel (nested (depth + 1) scopes q) (nested' (depth + 1) scopes q)) :
    r.Rel (evalOnce host m nested depth scopes p) (evalOnce host m nested' depth scopes p) := by
  refine r.once_of_call hparts ?_
  rintro callee args rfl
  exact r.call (fun q hq => hparts q hq scopes) hbody

end Matching

/-! ### The order of nested evaluations -/

/-- What goes down from an evaluation to those nested in it: the calls left before the limit, then the number of nodes
of the tree. -/
def rank (m : Machine) (depth : Nat) (p : Prim) : Nat × Nat :=
  (m.maxCallDepth - depth, p.preorder.length)

/-- The lexicographic order of ranks. -/
def RankLt (a b : Nat × Nat) : Prop :=
  Prod.Lex (· < ·) (· < ·) a b

theorem rankLt_wf : WellFounded RankLt :=
  (Prod.lex Nat.lt_wfRel Nat.lt_wfRel).wf

theorem length_preorder_le {q : Prim} {ps : List Prim} (h : q ∈ ps) :
    q.preorder.length ≤ (Prim.listPreorder ps).length := by
  induction ps with
  | nil => exact absurd h List.not_mem_nil
  | cons p ps ih =>
    rw [Prim.listPreorder, List.length_append]
    rcases List.mem_cons.1 h with rfl | h
    · exact Nat.le_add_right _ _
    · exact Nat.le_trans (ih h) (Nat.le_add_left _ _)

section
variable {m : Machine} {depth : Nat} {p q : Prim}

theorem rankLt_part (h : q ∈ p.parts) : RankLt (m.rank depth q) (m.rank depth p) := by
  refine Prod.Lex.right _ ?_
  rw [Prim.preorder_eq p, List.length_cons]
  exact Nat.lt_succ_of_le (length_preorder_le h)

theorem rankLt_body (h : depth < m.maxCallDepth) : RankLt (m.rank (depth + 1) q) (m.rank depth p) := by
  refine Prod.Lex.left _ _ ?_
  omega

end

theorem induction_nested (m : Machine) {P : Nat → Prim → Prop}
    (h : ∀ depth p, (∀ depth' q, RankLt (m.rank depth' q) (m.rank depth p) → P depth' q) → P depth p)
    (depth : Nat) (p : Prim) : P depth p :=
  (InvImage.wf (fun a : Nat × Prim => m.rank a.1 a.2) rankLt_wf).induction (C := fun a => P a.1 a.2) (depth, p)
    fun a ih => h a.1 a.2 fun depth' q => ih (depth', q)

section
variable {σ : Type} {host : Host σ} {m : Machine} {depth : Nat} {scopes : List Scope} {p : Prim}

def Matching.equal (σ : Type) : Matching σ (Eval σ) (Eval σ) where
  Rel := Eq
  pure _ := rfl
  bind hx hf := by rw [hx, funext hf]
  lift _ := rfl

/-- One level of evaluation depends on the nested evaluations of lower rank alone. -/
theorem evalOnce_congr {f g : Nat → List Scope → Prim → Eval σ Value}
    (h : ∀ depth' scopes' q, RankLt (m.rank depth' q) (m.rank depth p) → f depth' scopes' q = g depth' scopes' q) :
    evalOnce host m f depth scopes p = evalOnce host m g depth scopes p :=
  (Matching.equal σ).once (fun q hq scopes' => h depth scopes' q (rankLt_part hq))
    fun hdepth scopes' q => h (depth + 1) scopes' q (rankLt_body hdepth)

/-- No other function unfolds to one level of evaluation. -/
theorem eq_evalAt {f : Nat → List Scope → Prim → Eval σ Value}
    (hf : ∀ depth scopes p, f depth scopes p = evalOnce host m f depth scopes p) (depth : Nat) (scopes : List Scope)
    (p : Prim) : f depth scopes p = evalAt host m depth scopes p := by
  induction depth, p using m.induction_nested generalizing scopes with
  | _ depth p ih =>
    rw [hf, evalAt_eq_evalOnce]
    exact evalOnce_congr fun depth' scopes' q hq => ih depth' q hq scopes'

end

/-! ### Unfolding the evaluation -/

/-- A computation on the store that may be given up. -/
abbrev Attempt (σ : Type) := ExceptT Fault (StateT (Store σ) Option)

instance (σ : Type) : MonadLift (Eval σ) (Attempt σ) where
  monadLift x := ExceptT.mk fun s => some (x.run s)

/-- Evaluates a tree and gives up when more than `n` evaluations are nested in each other. -/
def evalUpTo {σ : Type} (host : Host σ) (m : Machine) : Nat → Nat → List Scope → Prim → Attempt σ Value
  | 0 => fun _ _ _ => ExceptT.mk fun _ => none
  | n + 1 => evalOnce host m (evalUpTo host m n)

section
variable {σ α β : Type}

theorem run_attempt_bind_of_ok {x : Attempt σ α} {f : α → Attempt σ β} {s s' : Store σ} {a : α}
    (h : x.run s = some (.ok a, s')) : (x >>= f).run s = (f a).run s' := by
  show (x.run s).bind (fun y => ExceptT.bindCont f y.1 y.2) = _
  rw [h]
  rfl

theorem run_attempt_bind_of_error {x : Attempt σ α} {f : α → Attempt σ β} {s s' : Store σ} {e : Fault}
    (h : x.run s = some (.error e, s')) : (x >>= f).run s = some (.error e, s') := by
  show (x.run s).bind (fun y => ExceptT.bindCont f y.1 y.2) = _
  rw [h]
  rfl

/-- From some number on an attempt ends as the computation does. -/
def Settles (x : ReaderT Nat (Attempt σ) α) (y : Eval σ α) : Prop :=
  ∀ s, ∃ n, ∀ k, n ≤ k → (x.run k).run s = some (y.run s)

theorem Settles.bind {x : ReaderT Nat (Attempt σ) α} {y : Eval σ α} {f : α → ReaderT Nat (Attempt σ) β}
    {g : α → Eval σ β} (hx : Settles x y) (hf : ∀ a, Settles (f a) (g a)) : Settles (x >>= f) (y >>= g) := by
  intro s
  obtain ⟨n, hn⟩ := hx s
  rw [run_bind]
  rcases hy : y.run s with ⟨e | a, s'⟩
  · refine ⟨n, fun k hk => ?_⟩
    rw [ReaderT.run_bind, run_attempt_bind_of_error ((hn k hk).trans (congrArg some hy))]
  · obtain ⟨n', hn'⟩ := hf a s'
    refine ⟨max n n', fun k hk => ?_⟩
    rw [ReaderT.run_bind, run_attempt_bind_of_ok ((hn k (by omega)).trans (congrArg some hy))]
    exact hn' k (by omega)

def Matching.settles (σ : Type) : Matching σ (ReaderT Nat (Attempt σ)) (Eval σ) where
  Rel := Settles
  pure _ _ := ⟨0, fun _ _ => rfl⟩
  bind := Settles.bind
  lift _ _ := ⟨0, fun _ _ => rfl⟩

/-- The computations of a family are carried out one by one. -/
def Matching.single (σ : Type) (k : Nat) : Matching σ (ReaderT Nat (Attempt σ)) (Attempt σ) where
  Rel x y := x.run k = y
  pure _ := rfl
  bind hx hf := by rw [ReaderT.run_bind, hx, funext hf]
  lift _ := rfl

/-- The attempts to evaluate a tree, one for each number. -/
def attempts (host : Host σ) (m : Machine) (depth : Nat) (scopes : List Scope) (p : Prim) :
    ReaderT Nat (Attempt σ) Value :=
  fun k => evalUpTo host m k depth scopes p

theorem attempts_settle (host : Host σ) (m : Machine) (depth : Nat) (scopes : List Scope) (p : Prim) :
    Settles (attempts host m depth scopes p) (evalAt host m depth scopes p) := by
  induction depth, p using m.induction_nested generalizing scopes with
  | _ depth p ih =>
    have hlevel : Settles (evalOnce host m (attempts host m) depth scopes p)
        (evalOnce host m (evalAt host m) depth scopes p) :=
      (Matching.settles σ).once (fun q hq scopes' => ih depth q (rankLt_part hq) scopes')
        fun hdepth scopes' q => ih (depth + 1) q (rankLt_body hdepth) scopes'
    intro s
    obtain ⟨n, hn⟩ := hlevel s
    -- Attempt `k + 1` is one level over attempts `k`, and from `n` on these have settled where the level asks them.
    refine ⟨n + 1, fun k hk => ?_⟩
    obtain ⟨k, rfl⟩ : ∃ k', k = k' + 1 := ⟨k - 1, by omega⟩
    have hsingle : (evalOnce host m (attempts host m) depth scopes p).run k = evalUpTo host m (k + 1) depth scopes p :=
      (Matching.single σ k).once (fun _ _ _ => rfl) fun _ _ _ => rfl
    rw [evalAt_eq_evalOnce, ← hn k (by omega), hsingle]
    rfl

end

/-! ### The nested evaluations -/

/-- An evaluation as it begins. -/
structure Activation (σ : Type) where
  depth : Nat
  scopes : List Scope
  tree : Prim
  store : Store σ

/-- A computation on the store that keeps a list of evaluations. -/
abbrev Recorded (σ : Type) := ExceptT Fault (StateM (Store σ × List (Activation σ)))

instance (σ : Type) : MonadLift (Eval σ) (Recorded σ) where
  monadLift x := ExceptT.mk fun t => ((x.run t.1).1, (x.run t.1).2, t.2)

section
variable {σ : Type} (host : Host σ) (m : Machine)

/-- Evaluates a tree and adds the evaluation to the list. -/
def record (depth : Nat) (scopes : List Scope) (p : Prim) : Recorded σ Value :=
  ExceptT.mk fun t =>
    let ended := (evalAt host m depth scopes p).run t.1
    (ended.1, ended.2, t.2 ++ [⟨depth, scopes, p, t.1⟩])

/-- Evaluates a tree, with the list of the evaluations that are nested in it, in their order. -/
def recorded (a : Activation σ) : Except Fault Value × Store σ × List (Activation σ) :=
  (evalOnce host m (record host m) a.depth a.scopes a.tree).run (a.store, [])

def nestedIn (a : Activation σ) : List (Activation σ) :=
  (recorded host m a).2.2

/-- How the second evaluation is nested in the first. -/
inductive Nests (a b : Activation σ) : Prop
  | part (hdepth : b.depth = a.depth) (hpart : b.tree ∈ a.tree.parts) : Nests a b
  /-- The callee is a closure, and the limit is not reached. -/
  | body {callee : Prim} {args : List Prim} {stamp : Stamp} {code : Lambda Prim} {captured frame : Scope}
      (htree : a.tree = .call callee args)
      (hcallee : ((evalAt host m a.depth a.scopes callee).run a.store).1 = .ok (.closure stamp code captured))
      (hlimit : a.depth < m.maxCallDepth) (hdepth : b.depth = a.depth + 1) (hscopes : b.scopes = [frame, captured])
      (hbody : b.tree = code.body) : Nests a b

end

section
variable {σ : Type} {host : Host σ} {m : Machine} {a b : Activation σ}

theorem Nests.rankLt (h : Nests host m a b) : RankLt (m.rank b.depth b.tree) (m.rank a.depth a.tree) := by
  cases h with
  | part hdepth hpart => exact hdepth ▸ rankLt_part hpart
  | body _ _ hlimit hdepth => exact hdepth ▸ rankLt_body hlimit

theorem Nests.depth_le (h : Nests host m a b) (ha : a.depth ≤ m.maxCallDepth) : b.depth ≤ m.maxCallDepth := by
  cases h with
  | part hdepth => exact hdepth ▸ ha
  | body _ _ hlimit hdepth => exact hdepth ▸ hlimit

/-- The first computation does what the second one does, and adds to the list evaluations with the property. -/
def Lists {α : Type} (P : Activation σ → Prop) (t : Store σ × List (Activation σ)) (x : Recorded σ α) (y : Eval σ α) :
    Prop :=
  ∃ added, x.run t = ((y.run t.1).1, (y.run t.1).2, t.2 ++ added) ∧ ∀ b ∈ added, P b

section
variable {P : Activation σ → Prop} {t : Store σ × List (Activation σ)}

theorem Lists.bind {α β : Type} {x : Recorded σ α} {y : Eval σ α} {f : α → Recorded σ β} {g : α → Eval σ β}
    (hx : Lists P t x y) (hf : ∀ v, (y.run t.1).1 = .ok v → ∀ t, Lists P t (f v) (g v)) :
    Lists P t (x >>= f) (y >>= g) := by
  obtain ⟨added, hrun, hP⟩ := hx
  unfold Lists
  rw [run_bind, run_bind, hrun]
  rcases hy : y.run t.1 with ⟨e | v, s⟩
  · exact ⟨added, rfl, hP⟩
  · obtain ⟨added', hrun', hP'⟩ := hf v (congrArg Prod.fst hy) (s, t.2 ++ added)
    refine ⟨added ++ added', ?_, List.forall_mem_append.2 ⟨hP, hP'⟩⟩
    rw [← List.append_assoc]
    exact hrun'

theorem Lists.record {depth : Nat} {scopes : List Scope} {p : Prim} (h : P ⟨depth, scopes, p, t.1⟩) :
    Lists P t (record host m depth scopes p) (evalAt host m depth scopes p) :=
  ⟨_, rfl, List.forall_mem_singleton.2 h⟩

theorem lists_nothing {α : Type} {x : Recorded σ α} {y : Eval σ α}
    (h : x.run t = ((y.run t.1).1, (y.run t.1).2, t.2)) : Lists P t x y :=
  ⟨[], by rw [h, List.append_nil], List.forall_mem_nil _⟩

def Matching.lists (P : Activation σ → Prop) : Matching σ (Recorded σ) (Eval σ) where
  Rel x y := ∀ t, Lists P t x y
  pure _ _ := lists_nothing rfl
  bind hx hf t := (hx t).bind fun v _ => hf v
  lift _ _ := lists_nothing rfl

end

variable (host m) in
theorem lists_recorded (a : Activation σ) :
    Lists (Nests host m a) (a.store, []) (evalOnce host m (record host m) a.depth a.scopes a.tree)
      (evalOnce host m (evalAt host m) a.depth a.scopes a.tree) := by
  have hpart : ∀ q ∈ a.tree.parts, ∀ scopes t,
      Lists (Nests host m a) t (record host m a.depth scopes q) (evalAt host m a.depth scopes q) :=
    fun q hq scopes t => .record (.part rfl hq)
  by_cases hcall : ∃ callee args, a.tree = .call callee args
  · -- The callee is evaluated first and at the store of the activation, so its value is the closure that is entered.
    obtain ⟨callee, args, htree⟩ := hcall
    rw [htree] at hpart ⊢
    rw [Prim.parts, List.forall_mem_cons] at hpart
    refine Lists.bind (hpart.1 a.scopes _) fun f hf => ?_
    refine (Matching.lists _).bind ((Matching.lists _).all fun q hq => hpart.2 q hq a.scopes) fun vs => ?_
    refine (Matching.lists _).apply ?_
    rintro stamp code captured rfl hlimit frame t
    exact .record (.body htree hf hlimit rfl rfl rfl)
  · exact (Matching.lists _).once_of_call hpart
      (fun callee args htree => absurd ⟨callee, args, htree⟩ hcall) (a.store, [])

theorem recorded_eq (a : Activation σ) :
    ((recorded host m a).1, (recorded host m a).2.1) = (evalAt host m a.depth a.scopes a.tree).run a.store := by
  obtain ⟨added, hrun, -⟩ := lists_recorded host m a
  rw [evalAt_eq_evalOnce, recorded, hrun]
  rfl

theorem nests_of_mem (h : b ∈ nestedIn host m a) : Nests host m a b := by
  obtain ⟨added, hrun, hnests⟩ := lists_recorded host m a
  rw [nestedIn, recorded, hrun] at h
  exact hnests b h

/-- No evaluation on the way is deeper than the limit. -/
theorem depth_le_of_nested (ha : a.depth ≤ m.maxCallDepth)
    (h : Relation.ReflTransGen (fun a b => b ∈ nestedIn host m a) a b) : b.depth ≤ m.maxCallDepth := by
  induction h with
  | refl => exact ha
  | tail _ hnested ih => exact (nests_of_mem hnested).depth_le ih

/-- At the limit a closure is not entered, in whatever monad. -/
theorem applyOnce_limit {M : Type → Type} [Monad M] [MonadLiftT (Eval σ) M] {nested : Nat → List Scope → Prim → M Value}
    {stamp : Stamp} {code : Lambda Prim} {captured : Scope} {args : List Value}
    (hargs : args.length = code.params.length) :
    applyOnce host m nested m.maxCallDepth (.closure stamp code captured) args =
      liftM (throw (.stackOverflow m.maxCallDepth) : Eval σ Value) := by
  rw [applyOnce, if_pos hargs, if_neg (Nat.lt_irrefl _)]

/-- Every evaluation ends: unfolded often enough, the equation of one level gives the machine's result. An evaluation
nested in another is that of a part at the same depth or that of the body of a called closure one call deeper, so its
rank is lower and its depth within the limit; at the limit a call fails before the body is evaluated. One level depends
on what is nested at lower ranks alone, and the machine's evaluation is the one function that unfolds to it. -/
theorem eval_ends (host : Host σ) (m : Machine) :
    (∀ p, eval host m p = evalAt host m 0 [] p) ∧
    (∀ depth scopes p s, ∃ n, ∀ k, n ≤ k →
      (evalUpTo host m k depth scopes p).run s = some ((evalAt host m depth scopes p).run s)) ∧
    (∀ a : Activation σ,
      ((recorded host m a).1, (recorded host m a).2.1) = (evalAt host m a.depth a.scopes a.tree).run a.store ∧
      ∀ b ∈ nestedIn host m a, Nests host m a b ∧ RankLt (m.rank b.depth b.tree) (m.rank a.depth a.tree)) ∧
    (∀ a b : Activation σ, a.depth ≤ m.maxCallDepth →
      Relation.ReflTransGen (fun a b => b ∈ nestedIn host m a) a b → b.depth ≤ m.maxCallDepth) ∧
    (∀ stamp code captured args s, args.length = code.params.length →
      (apply host (enter host m (m.maxCallDepth - m.maxCallDepth)) (.closure stamp code captured) args).run s =
        (.error (.stackOverflow m.maxCallDepth), s) ∧
      (applyOnce host m (record host m) m.maxCallDepth (.closure stamp code captured) args).run (s, []) =
        (.error (.stackOverflow m.maxCallDepth), s, [])) ∧
    (∀ (f g : Nat → List Scope → Prim → Eval σ Value) depth scopes p,
      (∀ depth' scopes' q, RankLt (m.rank depth' q) (m.rank depth p) → f depth' scopes' q = g depth' scopes' q) →
      evalOnce host m f depth scopes p = evalOnce host m g depth scopes p) ∧
    ∀ f, (∀ depth scopes p, f depth scopes p = evalOnce host m f depth scopes p) ↔ f = evalAt host m := by
  refine ⟨eval_eq_evalAt host m, attempts_settle host m, fun a => ⟨recorded_eq a, fun b hb => ?_⟩,
    fun a b => depth_le_of_nested, fun stamp code captured args s hargs => ?_, fun f g depth scopes p => evalOnce_congr,
    fun f => ⟨fun hf => ?_, ?_⟩⟩
  · exact ⟨nests_of_mem hb, (nests_of_mem hb).rankLt⟩
  · rw [apply_eq_applyOnce, applyOnce_limit hargs, applyOnce_limit hargs]
    exact ⟨rfl, rfl⟩
  · funext depth scopes p
    exact eq_evalAt hf depth scopes p
  · rintro rfl
    exact evalAt_eq_evalOnce host m

end

namespace SelfCall

def idle : Host Unit where
  call _ _ gs state := (.ok .null, gs, state)

def f : Var := ⟨⟨0⟩, "f", .fn ⟨⟨"f"⟩, "f", [], .void⟩⟩

/-- `f()` -/
def tree : Prim := .call (.read f) []

/-- `() => f()` -/
def code : Lambda Prim := ⟨⟨⟨"f"⟩, "f", [], .void⟩, [], tree⟩

def machine : Machine := { maxCallDepth := 2, globals := [(⟨0⟩, 0)] }

/-- The function is in its own reach. -/
def store : Store Unit := { cells := #[.closure 0 code []], host := () }

def start : Activation Unit := ⟨0, [], tree, store⟩

end SelfCall

open SelfCall in
/-- A function that calls itself without end is stopped when two calls are open. -/
theorem eval_ends_selfCall :
    (∃ n, ∀ k, n ≤ k → (evalUpTo idle machine k 0 [] tree).run store = some (.error (.stackOverflow 2), store)) ∧
    Nests idle machine start ⟨1, [[], []], tree, store⟩ ∧
    (∀ b, Relation.ReflTransGen (fun a b => b ∈ nestedIn idle machine a) start b → b.depth ≤ 2) ∧
    (applyOnce idle machine (record idle machine) 2 (.closure 0 code []) []).run (store, []) =
      (.error (.stackOverflow 2), store, []) := by
  obtain ⟨-, hends, hnested, hdepth, hlimit, -⟩ := eval_ends idle machine
  have hlist : nestedIn idle machine start = [⟨0, [], .read f, store⟩, ⟨1, [[], []], tree, store⟩] := rfl
  refine ⟨hends 0 [] tree store, ?_, fun b => hdepth start b (Nat.zero_le 2), (hlimit 0 code [] [] store rfl).2⟩
  exact ((hnested start).2 _ (by simp [hlist])).1

end Machine

end ExprLowering
