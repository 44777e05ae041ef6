import ExprLowering.Proofs.MachineBasics
import ExprLowering.Proofs.Shape

/-!
# Evaluation leaves the machine as it found it

The evaluation of a tree is given its scopes and the calls it has to spare. Here the machine is run as one object
with a state of its own, as an interpreter does it: it keeps a stack of scopes, which a block pushes to and pops
from and which a call of a closure replaces and puts back, and counts the calls it is in. A run of this machine is
a run of `Machine.evalWith`, after which scopes, depth, globals, methods and limits are what they were, whether it
ended in a value or in a fault (`Exec.restores`).

Arrays may get other elements during a run, but no array gets another type, other bounds or another size. So an
element that was found is still there when a value computed afterwards is stored to it.
-/

namespace ExprLowering

/-- The state of a machine in the middle of a run. The innermost scope is the first. -/
structure MachineState (σ : Type) where
  machine : Machine
  scopes : List Scope := []
  depth : Nat := 0
  store : Store σ

/-- A computation on the state of a machine; what it did before a fault stays done. -/
abbrev Exec (σ : Type) := ExceptT Fault (StateM (MachineState σ))

namespace Exec
variable {σ α β : Type}

/-- A computation on the store alone. -/
def onStore (x : Eval σ α) : Exec σ α :=
  ExceptT.mk fun s =>
    let (result, store) := x.run s.store
    (result, { s with store })

def cell (v : Var) : Exec σ CellId :=
  ExceptT.mk fun s =>
    match s.machine.lookup s.scopes v with
    | some c => (.ok c, s)
    | none => (.error (.unbound v), s)

def capture : Exec σ Scope :=
  ExceptT.mk fun s => (.ok (Machine.capture s.scopes), s)

def method (name : String) : Exec σ NativeFn :=
  ExceptT.mk fun s =>
    match s.machine.methods.lookup name with
    | some f => (.ok f, s)
    | none => (.error (.undefinedMethod name), s)

/-- Pushes the scope, runs `x` and pops a scope, also after a fault. -/
def withScope (scope : Scope) (x : Exec σ α) : Exec σ α :=
  ExceptT.mk fun s =>
    let (result, s') := x.run { s with scopes := scope :: s.scopes }
    (result, { s' with scopes := s'.scopes.tail })

/-- Runs `x` one call deeper and in other scopes, and puts the scopes back, also after a fault. -/
def inCall (scopes : List Scope) (x : Exec σ α) : Exec σ α :=
  ExceptT.mk fun s =>
    let (result, s') := x.run { s with scopes, depth := s.depth + 1 }
    (result, { s' with scopes := s.scopes, depth := s'.depth - 1 })

def checkDepth : Exec σ Unit :=
  ExceptT.mk fun s =>
    if s.machine.maxCallDepth ≤ s.depth then (.error (.stackOverflow s.machine.maxCallDepth), s) else (.ok (), s)

/-- How a closure is entered. -/
abbrev Entry (σ : Type) := Lambda Prim → Scope → List Value → Exec σ Value

variable (host : Host σ)

def apply (enter : Entry σ) (callee : Value) (args : List Value) : Exec σ Value :=
  match callee with
  | .native f => onStore (Machine.callHost host f args)
  | .closure _ code captured =>
    if args.length = code.params.length then enter code captured args
    else throw (.argumentCount code.params.length args.length)
  | v => throw (.notCallable v.typeName)

mutual

def evalWith (enter : Entry σ) : Prim → Exec σ Value
  | .const c => pure (.ofConstant c)
  | .read v => do
    let c ← cell v
    onStore (Eval.load (.cell c))
  | .assign target value => do
    let l ← resolveWith enter target
    let v ← evalWith enter value
    onStore (Eval.store v l)
    return v
  | .block locals body => do
    let scope ← onStore (Eval.extend [] (locals.map fun v => (v.id, .defaultOf v.ty)))
    withScope scope (evalSeq enter .null body)
  | .arith op checked left right => do
    let a ← evalWith enter left
    let b ← evalWith enter right
    Value.arith op checked a b
  | .step op target => do
    let l ← resolveWith enter target
    onStore (Machine.step op l)
  | .newArray element bounds => do
    let ns ← evalInts enter Value.asBound bounds
    let g ← Grid.new element (ns.map Int.toNat)
    onStore (Eval.newGrid g)
  | .constArray element bounds values => do
    let g ← Grid.ofRowMajor element bounds (values.map Value.ofConstant)
    onStore (Eval.newGrid g)
  | .element array indices => do
    let v ← evalWith enter array
    let is ← evalInts enter Value.asIndex indices
    let l ← onStore (Machine.elementLocation v is)
    onStore (Eval.load l)
  | .call callee args => do
    let f ← evalWith enter callee
    let vs ← evalAll enter args
    apply host enter f vs
  | .callMethod m args => do
    let f ← method m.name
    let vs ← evalAll enter args
    onStore (Machine.callHost host f vs)
  | .lambda code => do
    let captured ← capture
    onStore (Eval.newClosure (code.map id) captured)
  | .quote stamp code => pure (.quoted stamp (code.map id))

/-- Evaluates the trees in order; the value is that of the last one, or else `last`. -/
def evalSeq (enter : Entry σ) (last : Value) : List Prim → Exec σ Value
  | [] => pure last
  | p :: ps => do
    let v ← evalWith enter p
    evalSeq enter v ps

def evalAll (enter : Entry σ) : List Prim → Exec σ (List Value)
  | [] => pure []
  | p :: ps => do
    let v ← evalWith enter p
    let vs ← evalAll enter ps
    return v :: vs

def evalInts (enter : Entry σ) (toInt : Value → Except Fault Int) : List Prim → Exec σ (List Int)
  | [] => pure []
  | p :: ps => do
    let v ← evalWith enter p
    let n ← toInt v
    let ns ← evalInts enter toInt ps
    return n :: ns

def resolveWith (enter : Entry σ) : Place Prim → Exec σ Location
  | .var v => do
    let c ← cell v
    return .cell c
  | .element array indices => do
    let v ← evalWith enter array
    let is ← evalInts enter Value.asIndex indices
    onStore (Machine.elementLocation v is)

end

/-- Enters a closure. The depth of calls is limited by the machine; `n` bounds it for the recursion. -/
def enter : Nat → Entry σ
  | 0 => fun _ _ _ => checkDepth >>= fun _ => pure .null
  | n + 1 => fun code captured args => do
    checkDepth
    let frame ← onStore (Eval.extend [] ((code.params.map (·.id)).zip args))
    inCall [frame, captured] (evalWith host (enter n) code.body)

/-- Evaluates a tree. -/
def eval (n : Nat) (p : Prim) : Exec σ Value :=
  evalWith host (enter host n) p

/-- Calls a value with arguments. -/
def call (n : Nat) (callee : Value) (args : List Value) : Exec σ Value :=
  apply host (enter host n) callee args

/-- Finds the location of a place. -/
def resolve (n : Nat) (place : Place Prim) : Exec σ Location :=
  resolveWith host (enter host n) place

end Exec

/-! ### What every operation does to the store -/

/-- Every element of the array is there. -/
def Grid.Full {α : Type} (g : Grid α) : Prop :=
  g.data.size = g.bounds.prod

/-- A relation between stores before and after that every operation on a store keeps to. -/
structure StepRelation {σ : Type} (host : Host σ) (R : Store σ → Store σ → Prop) : Prop where
  refl : ∀ s, R s s
  trans : ∀ {s t u}, R s t → R t u → R s u
  newCell : ∀ s v, R s { s with cells := s.cells.push v }
  newClosure : ∀ s, R s { s with closures := s.closures + 1 }
  newGrid : ∀ s {g}, g.Full → R s { s with grids := s.grids.push g }
  storeCell : ∀ s c v, R s { s with cells := s.cells.setIfInBounds c v }
  storeElement : ∀ s a i v, R s { s with grids := s.grids.modify a (·.setAt i v) }
  callHost : ∀ s f args, R s { s with
    grids := (host.call f args s.grids s.host).2.1, host := (host.call f args s.grids s.host).2.2 }

theorem StepRelation.unrestricted {σ : Type} (host : Host σ) : StepRelation host fun _ _ => True where
  refl _ := trivial
  trans _ _ := trivial
  newCell _ _ := trivial
  newClosure _ := trivial
  newGrid _ _ _ := trivial
  storeCell _ _ _ := trivial
  storeElement _ _ _ _ := trivial
  callHost _ _ _ := trivial

theorem StepRelation.grows {σ : Type} (host : Host σ) : StepRelation host fun s t => s.cells.size ≤ t.cells.size where
  refl _ := Nat.le_refl _
  trans h h' := Nat.le_trans h h'
  newCell _ _ := by simp
  newClosure _ := Nat.le_refl _
  newGrid _ _ _ := Nat.le_refl _
  storeCell _ _ _ := by simp
  storeElement _ _ _ _ := Nat.le_refl _
  callHost _ _ _ := Nat.le_refl _

namespace Exec
variable {σ α β : Type} {host : Host σ} {R : Store σ → Store σ → Prop} {m : Machine} {scopes : List Scope} {depth : Nat}

/-- Whatever it does, the computation ends in a store that is related to the one it started from. -/
def Keeps (R : Store σ → Store σ → Prop) (y : Eval σ α) : Prop :=
  ∀ s, R s (y.run s).2

section
variable (hR : StepRelation host R)
include hR

theorem Keeps.bind {y : Eval σ α} {g : α → Eval σ β} (hy : Keeps R y) (hg : ∀ a, Keeps R (g a)) :
    Keeps R (y >>= g) := by
  intro s
  have hrel := hy s
  rcases hrun : y.run s with ⟨_ | a, s'⟩
  · rw [run_bind_of_error hrun]
    rwa [hrun] at hrel
  · rw [run_bind_of_ok hrun]
    rw [hrun] at hrel
    exact hR.trans hrel (hg a s')

theorem Keeps.lift (r : Except Fault α) : Keeps R (liftM r) :=
  fun s => hR.refl s

theorem extend_keeps (entries : List (VarId × Value)) (scope : Scope) : Keeps R (Eval.extend scope entries) := by
  induction entries generalizing scope with
  | nil => exact hR.refl
  | cons entry entries ih =>
    obtain ⟨id, v⟩ := entry
    exact .bind hR (fun s => hR.newCell s v) fun c => ih _

theorem load_keeps (l : Location) : Keeps R (Eval.load l) := by
  cases l with
  | cell c => exact hR.refl
  | element a i => exact hR.refl

theorem store_keeps (v : Value) (l : Location) : Keeps R (Eval.store v l) := by
  cases l with
  | cell c => exact fun s => hR.storeCell s c v
  | element a i => exact fun s => hR.storeElement s a i v

theorem callHost_keeps (f : NativeFn) (args : List Value) : Keeps R (Machine.callHost host f args) :=
  fun s => hR.callHost s f args

theorem step_keeps (op : IncDec) (l : Location) : Keeps R (Machine.step op l) :=
  .bind hR (load_keeps hR l) fun old => .bind hR (.lift hR old.oneLike) fun one =>
    .bind hR (.lift hR (Value.arith op.arith false old one)) fun new =>
      .bind hR (store_keeps hR new l) fun _ => hR.refl

theorem elementLocation_keeps (v : Value) (is : List Int) : Keeps R (Machine.elementLocation v is) :=
  .bind hR (.lift hR v.asArray) fun _ => .bind hR hR.refl fun g => .bind hR (.lift hR (g.offset is)) fun _ => hR.refl

end

/-- In these scopes and at this depth, `x` does to the store what `y` does, in accordance with `R`, and nothing to
the rest of the state. -/
def Restores (R : Store σ → Store σ → Prop) (m : Machine) (scopes : List Scope) (depth : Nat) (x : Exec σ α)
    (y : Eval σ α) : Prop :=
  ∀ store, x.run ⟨m, scopes, depth, store⟩ = ((y.run store).1, ⟨m, scopes, depth, (y.run store).2⟩) ∧
    R store (y.run store).2

namespace Restores

theorem bind {x : Exec σ α} {y : Eval σ α} {f : α → Exec σ β} {g : α → Eval σ β} (hR : StepRelation host R)
    (hx : Restores R m scopes depth x y) (hf : ∀ a, Restores R m scopes depth (f a) (g a)) :
    Restores R m scopes depth (x >>= f) (y >>= g) := by
  intro store
  obtain ⟨hrun, hrel⟩ := hx store
  rcases hy : y.run store with ⟨_ | a, store'⟩
  · rw [hy] at hrun hrel
    rw [run_bind_of_error hrun, run_bind_of_error hy]
    exact ⟨rfl, hrel⟩
  · rw [hy] at hrun hrel
    rw [run_bind_of_ok hrun, run_bind_of_ok hy]
    obtain ⟨hrun', hrel'⟩ := hf a store'
    exact ⟨hrun', hR.trans hrel hrel'⟩

theorem lift (hR : StepRelation host R) (r : Except Fault α) : Restores R m scopes depth (liftM r) (liftM r) :=
  fun store => ⟨rfl, hR.refl store⟩

theorem pure (hR : StepRelation host R) (a : α) : Restores R m scopes depth (pure a) (pure a) :=
  fun store => ⟨rfl, hR.refl store⟩

theorem throw (hR : StepRelation host R) (e : Fault) :
    Restores R m scopes depth (throw e : Exec σ α) (throw e) :=
  fun store => ⟨rfl, hR.refl store⟩

theorem lift_bind {r : Except Fault α} {f : α → Exec σ β} {g : α → Eval σ β} (hR : StepRelation host R)
    (hf : ∀ a, r = .ok a → Restores R m scopes depth (f a) (g a)) :
    Restores R m scopes depth (liftM r >>= f) (liftM r >>= g) := by
  cases r with
  | error e => exact throw hR e
  | ok a => exact hf a rfl

theorem onStore {y : Eval σ α} (h : Keeps R y) : Restores R m scopes depth (onStore y) y :=
  fun store => ⟨rfl, h store⟩

theorem cell (hR : StepRelation host R) (v : Var) : Restores R m scopes depth (cell v) (m.cell scopes v) := by
  intro store
  rw [Exec.cell, run_mk, Machine.cell]
  cases m.lookup scopes v with
  | none => exact ⟨rfl, hR.refl store⟩
  | some c => exact ⟨rfl, hR.refl store⟩

theorem method {name : String} {f : NativeFn → Exec σ α} {g : NativeFn → Eval σ α} (hR : StepRelation host R)
    (hf : ∀ fn, Restores R m scopes depth (f fn) (g fn)) :
    Restores R m scopes depth (method name >>= f)
      (match m.methods.lookup name with
      | none => MonadExcept.throw (.undefinedMethod name)
      | some fn => g fn) := by
  intro store
  rw [run_bind, Exec.method, run_mk]
  cases m.methods.lookup name with
  | none => exact ⟨rfl, hR.refl store⟩
  | some fn => exact hf fn store

theorem withScope {scope : Scope} {x : Exec σ α} {y : Eval σ α} (h : Restores R m (scope :: scopes) depth x y) :
    Restores R m scopes depth (withScope scope x) y := by
  intro store
  obtain ⟨hrun, hrel⟩ := h store
  refine ⟨?_, hrel⟩
  show (let (result, s') := x.run ⟨m, scope :: scopes, depth, store⟩
    (result, { s' with scopes := s'.scopes.tail })) = _
  rw [hrun]
  rfl

theorem overflow {f : Unit → Exec σ α} (hR : StepRelation host R) (h : m.maxCallDepth ≤ depth) :
    Restores R m scopes depth (checkDepth >>= f) (MonadExcept.throw (.stackOverflow m.maxCallDepth)) := by
  have hcheck (store : Store σ) : (checkDepth : Exec σ Unit).run ⟨m, scopes, depth, store⟩ =
      (.error (.stackOverflow m.maxCallDepth), ⟨m, scopes, depth, store⟩) := if_pos h
  intro store
  rw [run_bind_of_error (hcheck store)]
  exact ⟨rfl, hR.refl store⟩

theorem deeper {f : Unit → Exec σ α} {y : Eval σ α} (h : depth < m.maxCallDepth)
    (hf : Restores R m scopes depth (f ()) y) : Restores R m scopes depth (checkDepth >>= f) y := by
  have hcheck (store : Store σ) : (checkDepth : Exec σ Unit).run ⟨m, scopes, depth, store⟩ =
      (.ok (), ⟨m, scopes, depth, store⟩) := if_neg (Nat.not_le.2 h)
  intro store
  rw [run_bind_of_ok (hcheck store)]
  exact hf store

/-- Scopes that are replaced are put back, and the depth is counted down. -/
theorem inCall {callScopes : List Scope} {x : Exec σ α} {y : Eval σ α}
    (h : Restores R m callScopes (depth + 1) x y) : Restores R m scopes depth (inCall callScopes x) y := by
  intro store
  obtain ⟨hrun, hrel⟩ := h store
  refine ⟨?_, hrel⟩
  show (let (result, s') := x.run ⟨m, callScopes, depth + 1, store⟩
    (result, { s' with scopes, depth := s'.depth - 1 })) = _
  rw [hrun]
  rfl

end Restores

/-! ### Evaluation -/

theorem full_new {element : Ty} {bounds : List Nat} {g : Grid} (h : Grid.new element bounds = .ok g) : g.Full := by
  obtain ⟨n, hn, hg⟩ := except_bind_eq_ok.1 h
  cases hg
  unfold Grid.size at hn
  split at hn
  · cases hn
    rw [Grid.Full, Array.size_replicate]
    exact Shape.size?_eq_prod ‹_›
  · cases hn

theorem full_ofRowMajor {element : Ty} {bounds : List Nat} {values : List Value} {g : Grid}
    (h : Grid.ofRowMajor element bounds values = .ok g) : g.Full := by
  obtain ⟨n, hn, hg⟩ := except_bind_eq_ok.1 h
  split_ifs at hg with hlen
  cases hg
  unfold Grid.size at hn
  split at hn
  · cases hn
    rw [Grid.Full, List.size_toArray, hlen]
    exact Shape.size?_eq_prod ‹_›
  · cases hn

/-- At this depth, the two ways to enter a closure agree. -/
def EntryRestores (R : Store σ → Store σ → Prop) (m : Machine) (depth : Nat) (entry : Entry σ)
    (entry' : Enter σ) : Prop :=
  ∀ scopes code captured args, Restores R m scopes depth (entry code captured args) (entry' code captured args)

section
variable {entry : Entry σ} {entry' : Enter σ}

theorem apply_restores (hR : StepRelation host R) (hentry : EntryRestores R m depth entry entry')
    (scopes : List Scope) (callee : Value) (args : List Value) :
    Restores R m scopes depth (apply host entry callee args) (Machine.apply host entry' callee args) := by
  cases callee with
  | native f => exact .onStore (callHost_keeps hR f args)
  | closure stamp code captured =>
    show Restores R m scopes depth (if _ then _ else _) (if _ then _ else _)
    split_ifs
    · exact hentry scopes code captured args
    · exact .throw hR _
  | null | lit | array | quoted => exact .throw hR _

mutual

theorem evalWith_restores (hR : StepRelation host R) (hentry : EntryRestores R m depth entry entry') :
    ∀ (p : Prim) (scopes : List Scope),
    Restores R m scopes depth (evalWith host entry p) (Machine.evalWith host m id entry' scopes p)
  | .const c, scopes => by
    rw [evalWith, Machine.evalWith]
    exact .pure hR _
  | .read v, scopes => by
    rw [evalWith, Machine.evalWith]
    exact .bind hR (.cell hR v) fun c => .onStore (load_keeps hR _)
  | .assign target value, scopes => by
    rw [evalWith, Machine.evalWith]
    exact .bind hR (resolveWith_restores hR hentry target scopes) fun l =>
      .bind hR (evalWith_restores hR hentry value scopes) fun v =>
      .bind hR (.onStore (store_keeps hR v l)) fun _ => .pure hR v
  | .block locals body, scopes => by
    rw [evalWith, Machine.evalWith]
    exact .bind hR (.onStore (extend_keeps hR _ _)) fun scope =>
      .withScope (evalSeq_restores hR hentry body (scope :: scopes) .null)
  | .arith op checked left right, scopes => by
    rw [evalWith, Machine.evalWith]
    exact .bind hR (evalWith_restores hR hentry left scopes) fun a =>
      .bind hR (evalWith_restores hR hentry right scopes) fun b =>
      .lift hR _
  | .step op target, scopes => by
    rw [evalWith, Machine.evalWith]
    exact .bind hR (resolveWith_restores hR hentry target scopes) fun l => .onStore (step_keeps hR op l)
  | .newArray element bounds, scopes => by
    rw [evalWith, Machine.evalWith]
    exact .bind hR (evalInts_restores hR hentry bounds scopes _) fun ns =>
      .lift_bind hR fun g hg => .onStore fun s => hR.newGrid s (full_new hg)
  | .constArray element bounds values, scopes => by
    rw [evalWith, Machine.evalWith]
    exact .lift_bind hR fun g hg => .onStore fun s => hR.newGrid s (full_ofRowMajor hg)
  | .element array indices, scopes => by
    rw [evalWith, Machine.evalWith]
    exact .bind hR (evalWith_restores hR hentry array scopes) fun v =>
      .bind hR (evalInts_restores hR hentry indices scopes _) fun is =>
      .bind hR (.onStore (elementLocation_keeps hR v is)) fun l => .onStore (load_keeps hR l)
  | .call callee args, scopes => by
    rw [evalWith, Machine.evalWith]
    exact .bind hR (evalWith_restores hR hentry callee scopes) fun f =>
      .bind hR (evalAll_restores hR hentry args scopes) fun vs =>
      apply_restores hR hentry scopes f vs
  | .callMethod method args, scopes => by
    rw [evalWith, Machine.evalWith]
    exact .method hR fun f => .bind hR (evalAll_restores hR hentry args scopes) fun vs =>
      .onStore (callHost_keeps hR f vs)
  | .lambda code, scopes => by
    rw [evalWith, Machine.evalWith]
    exact fun store => ⟨rfl, hR.newClosure store⟩
  | .quote stamp code, scopes => by
    rw [evalWith, Machine.evalWith]
    exact .pure hR _

theorem evalSeq_restores (hR : StepRelation host R) (hentry : EntryRestores R m depth entry entry') :
    ∀ (ps : List Prim) (scopes : List Scope) (last : Value),
    Restores R m scopes depth (evalSeq host entry last ps)
      (Machine.evalAll host m id entry' scopes ps >>= fun vs => pure (vs.getLastD last))
  | [], scopes, last => by
    rw [evalSeq, Machine.evalAll, pure_bind]
    exact .pure hR last
  | p :: ps, scopes, last => by
    rw [evalSeq, Machine.evalAll, bind_assoc]
    refine .bind hR (evalWith_restores hR hentry p scopes) fun v => ?_
    rw [bind_assoc]
    simp only [pure_bind, List.getLastD_cons]
    exact evalSeq_restores hR hentry ps scopes v

theorem evalAll_restores (hR : StepRelation host R) (hentry : EntryRestores R m depth entry entry') :
    ∀ (ps : List Prim) (scopes : List Scope),
    Restores R m scopes depth (evalAll host entry ps) (Machine.evalAll host m id entry' scopes ps)
  | [], scopes => by
    rw [evalAll, Machine.evalAll]
    exact .pure hR []
  | p :: ps, scopes => by
    rw [evalAll, Machine.evalAll]
    exact .bind hR (evalWith_restores hR hentry p scopes) fun v =>
      .bind hR (evalAll_restores hR hentry ps scopes) fun vs =>
      .pure hR (v :: vs)

theorem evalInts_restores (hR : StepRelation host R) (hentry : EntryRestores R m depth entry entry') :
    ∀ (ps : List Prim) (scopes : List Scope) (toInt : Value → Except Fault Int),
    Restores R m scopes depth (evalInts host entry toInt ps) (Machine.evalInts host m id entry' scopes toInt ps)
  | [], scopes, toInt => by
    rw [evalInts, Machine.evalInts]
    exact .pure hR []
  | p :: ps, scopes, toInt => by
    rw [evalInts, Machine.evalInts]
    exact .bind hR (evalWith_restores hR hentry p scopes) fun v => .bind hR (.lift hR (toInt v)) fun n =>
      .bind hR (evalInts_restores hR hentry ps scopes toInt) fun ns => .pure hR (n :: ns)

theorem resolveWith_restores (hR : StepRelation host R) (hentry : EntryRestores R m depth entry entry') :
    ∀ (place : Place Prim) (scopes : List Scope),
    Restores R m scopes depth (resolveWith host entry place) (Machine.locate host m id entry' scopes place)
  | .var v, scopes => by
    rw [resolveWith, Machine.locate]
    exact .bind hR (.cell hR v) fun c => .pure hR (Location.cell c)
  | .element array indices, scopes => by
    rw [resolveWith, Machine.locate]
    exact .bind hR (evalWith_restores hR hentry array scopes) fun v =>
      .bind hR (evalInts_restores hR hentry indices scopes _) fun is =>
      .onStore (elementLocation_keeps hR v is)

end

end

/-- A closure is entered with as many calls to spare as the machine is away from its limit. -/
theorem enter_restores (hR : StepRelation host R) {n : Nat} (hn : m.maxCallDepth ≤ depth + n) :
    EntryRestores R m depth (enter host n) (Machine.enter host m (m.maxCallDepth - depth)) := by
  induction n generalizing depth with
  | zero =>
    intro scopes code captured args
    rw [Nat.sub_eq_zero_of_le (by omega), enter, Machine.enter]
    exact .overflow hR hn
  | succ n ih =>
    intro scopes code captured args
    rw [enter]
    by_cases hdepth : m.maxCallDepth ≤ depth
    · rw [Nat.sub_eq_zero_of_le hdepth, Machine.enter]
      exact .overflow hR hdepth
    · have hspare : m.maxCallDepth - depth = m.maxCallDepth - (depth + 1) + 1 := by omega
      rw [hspare, Machine.enter]
      refine .deeper (Nat.not_le.1 hdepth) (.bind hR (.onStore (extend_keeps hR _ _)) fun frame => .inCall ?_)
      exact evalWith_restores hR (ih (by omega)) code.body [frame, captured]

end Exec

/-! ### The shapes of arrays -/

namespace Grid
variable {α : Type} {g g' g'' : Grid α}

/-- The same array but for its elements. -/
structure SameShape (g g' : Grid α) : Prop where
  element : g'.element = g.element
  bounds : g'.bounds = g.bounds
  size : g'.data.size = g.data.size

theorem SameShape.refl (g : Grid α) : SameShape g g := ⟨rfl, rfl, rfl⟩

theorem SameShape.trans (h : SameShape g g') (h' : SameShape g' g'') : SameShape g g'' :=
  ⟨h'.element.trans h.element, h'.bounds.trans h.bounds, h'.size.trans h.size⟩

theorem SameShape.full (h : SameShape g g') (hg : g.Full) : g'.Full := by
  rw [Full, h.size, h.bounds]
  exact hg

theorem setAt_sameShape (g : Grid α) (i : Nat) (v : Value α) : SameShape g (g.setAt i v) :=
  ⟨rfl, rfl, Array.size_setIfInBounds⟩

theorem set_sameShape {indices : List Int} {v : Value α} (h : g.set indices v = .ok g') : SameShape g g' := by
  obtain ⟨i, -, hg'⟩ := except_bind_eq_ok.1 h
  cases hg'
  exact setAt_sameShape g i v

end Grid

/-- Every array is still there and has the shape it had; arrays that are new have all their elements. -/
structure KeepsShapes (gs gs' : Array Grid) : Prop where
  shape : ∀ (a : GridId) (g : Grid), gs[a]? = some g → ∃ g', gs'[a]? = some g' ∧ g.SameShape g'
  full : (∀ g ∈ gs, g.Full) → ∀ g ∈ gs', g.Full

/-- Changes to arrays through `Grid.set`, and new arrays. -/
inductive SetSteps : Array Grid → Array Grid → Prop
  | refl (gs : Array Grid) : SetSteps gs gs
  | set {gs gs' : Array Grid} {a : GridId} {g g' : Grid} {indices : List Int} {v : Value} (h : SetSteps gs gs')
      (ha : gs'[a]? = some g) (hs : g.set indices v = .ok g') : SetSteps gs (gs'.setIfInBounds a g')
  | new {gs gs' : Array Grid} {g : Grid} (h : SetSteps gs gs') (hg : g.Full) : SetSteps gs (gs'.push g)

/-- The functions of the host change arrays through `Grid.set` only. -/
def Host.OnlySets {σ : Type} (host : Host σ) : Prop :=
  ∀ f args gs state, SetSteps gs (host.call f args gs state).2.1

namespace KeepsShapes
variable {gs gs' gs'' : Array Grid}

theorem refl (gs : Array Grid) : KeepsShapes gs gs :=
  ⟨fun _ g h => ⟨g, h, .refl g⟩, id⟩

theorem trans (h : KeepsShapes gs gs') (h' : KeepsShapes gs' gs'') : KeepsShapes gs gs'' := by
  refine ⟨fun a g hg => ?_, fun hfull => h'.full (h.full hfull)⟩
  obtain ⟨g', hg', hshape⟩ := h.shape a g hg
  obtain ⟨g'', hg'', hshape'⟩ := h'.shape a g' hg'
  exact ⟨g'', hg'', hshape.trans hshape'⟩

theorem push {g : Grid} (hg : g.Full) : KeepsShapes gs (gs.push g) := by
  constructor
  · intro a g' ha
    have hlt := (Array.getElem?_eq_some_iff.1 ha).1
    exact ⟨g', by rw [Array.getElem?_push, if_neg (Nat.ne_of_lt hlt), ha], .refl g'⟩
  · intro hfull g' hg'
    rcases Array.mem_push.1 hg' with hg' | rfl
    · exact hfull g' hg'
    · exact hg

theorem of_replaced {a : GridId} (h : ∀ b, b ≠ a → gs'[b]? = gs[b]?)
    (ha : ∀ g, gs[a]? = some g → ∃ g', gs'[a]? = some g' ∧ g.SameShape g') (hnone : gs[a]? = none → gs'[a]? = none) :
    KeepsShapes gs gs' := by
  constructor
  · intro b g hg
    by_cases hb : b = a
    · subst hb
      exact ha g hg
    · exact ⟨g, by rw [h b hb, hg], .refl g⟩
  · intro hfull g' hg'
    obtain ⟨b, hb⟩ := Array.mem_iff_getElem?.1 hg'
    by_cases hba : b = a
    · subst hba
      cases hg : gs[b]? with
      | none =>
        rw [hnone hg] at hb
        cases hb
      | some g =>
        obtain ⟨g'', hg'', hshape⟩ := ha g hg
        cases hg''.symm.trans hb
        exact hshape.full (hfull g (Array.mem_of_getElem? hg))
    · rw [h b hba] at hb
      exact hfull g' (Array.mem_of_getElem? hb)

theorem modify (a : GridId) (i : Nat) (v : Value) : KeepsShapes gs (gs.modify a (·.setAt i v)) := by
  refine of_replaced (a := a) (fun b hb => ?_) (fun g hg => ⟨g.setAt i v, ?_, Grid.setAt_sameShape g i v⟩) fun hg => ?_
  · rw [Array.getElem?_modify, if_neg (Ne.symm hb)]
  · rw [Array.getElem?_modify, if_pos rfl, hg]
    rfl
  · rw [Array.getElem?_modify, if_pos rfl, hg]
    rfl

theorem setIfInBounds {a : GridId} {g g' : Grid} (ha : gs[a]? = some g) (hshape : g.SameShape g') :
    KeepsShapes gs (gs.setIfInBounds a g') := by
  have hlt := (Array.getElem?_eq_some_iff.1 ha).1
  refine of_replaced (a := a) (fun b hb => ?_) (fun g₁ hg₁ => ⟨g', ?_, ?_⟩) fun hnone => ?_
  · rw [Array.getElem?_setIfInBounds, if_neg (Ne.symm hb)]
  · rw [Array.getElem?_setIfInBounds, if_pos rfl, if_pos hlt]
  · cases ha.symm.trans hg₁
    exact hshape
  · rw [ha] at hnone
    cases hnone

theorem of_setSteps (h : SetSteps gs gs') : KeepsShapes gs gs' := by
  induction h with
  | refl => exact refl _
  | set _ ha hs ih => exact ih.trans (setIfInBounds ha (Grid.set_sameShape hs))
  | new _ hg ih => exact ih.trans (push hg)

/-- No operation changes the shape of an array. -/
theorem stepRelation {σ : Type} {host : Host σ} (hh : host.OnlySets) :
    StepRelation host fun s s' => KeepsShapes s.grids s'.grids where
  refl s := refl s.grids
  trans := trans
  newCell s _ := refl s.grids
  newClosure s := refl s.grids
  newGrid _ _ hg := push hg
  storeCell s _ _ := refl s.grids
  storeElement _ a i v := modify a i v
  callHost s f args := of_setSteps (hh f args s.grids s.host)

end KeepsShapes

theorem lt_size_of_locate {σ : Type} {host : Host σ} {m : Machine} {enter : Enter σ} {scopes : List Scope}
    {place : Place Prim} {s s' : Store σ} {a : GridId} {i : Nat} {g : Grid}
    (h : (Machine.locate host m id enter scopes place).run s = (.ok (.element a i), s'))
    (hg : s'.grids[a]? = some g) (hfull : g.Full) : i < g.data.size := by
  cases place with
  | var v =>
    rw [Machine.locate] at h
    obtain ⟨c, _, -, h⟩ := run_bind_eq_ok.1 h
    cases h
  | element array indices =>
    rw [Machine.locate] at h
    obtain ⟨v, _, -, h⟩ := run_bind_eq_ok.1 h
    obtain ⟨is, t, -, h⟩ := run_bind_eq_ok.1 h
    obtain ⟨b, t₁, hb, h⟩ := run_bind_eq_ok.1 h
    obtain ⟨g', t₂, hg', h⟩ := run_bind_eq_ok.1 h
    obtain ⟨j, t₃, hj, h⟩ := run_bind_eq_ok.1 h
    obtain ⟨-, rfl⟩ := Prod.mk.inj hb
    cases hg'
    obtain ⟨hj, rfl⟩ := Prod.mk.inj hj
    cases h
    rw [Array.getD_eq_getD_getElem?, hg, Option.getD_some, Grid.offset] at hj
    split at hj
    · cases hj
      rw [hfull]
      exact Shape.offset_lt ‹_›
    · cases hj
    · cases hj

namespace Exec
variable {σ : Type} {host : Host σ}

/-- Evaluating a tree, and calling a value, ends as `Machine.evalWith` and `Machine.apply` do. It leaves the machine,
the scopes and the depth as they were and keeps the shapes of arrays; so an element that was found before the
evaluation of a value is still there afterwards. -/
theorem restores {n : Nat} {s : MachineState σ} (hn : s.machine.maxCallDepth ≤ s.depth + n) :
    (∀ p, ∃ result store, (eval host n p).run s = (result, { s with store }) ∧
      (Machine.evalWith host s.machine id (Machine.enter host s.machine (s.machine.maxCallDepth - s.depth)) s.scopes
        p).run s.store = (result, store) ∧
      (host.OnlySets → ∀ (a : GridId) (g : Grid), s.store.grids[a]? = some g →
        ∃ g', store.grids[a]? = some g' ∧ g.SameShape g')) ∧
    (∀ callee args, ∃ result store, (call host n callee args).run s = (result, { s with store }) ∧
      (Machine.apply host (Machine.enter host s.machine (s.machine.maxCallDepth - s.depth)) callee args).run s.store =
        (result, store) ∧
      (host.OnlySets → ∀ (a : GridId) (g : Grid), s.store.grids[a]? = some g →
        ∃ g', store.grids[a]? = some g' ∧ g.SameShape g')) ∧
    ∀ place value a i s₁ result s₂, host.OnlySets → (∀ g ∈ s.store.grids, g.Full) →
      (resolve host n place).run s = (.ok (.element a i), s₁) → (eval host n value).run s₁ = (result, s₂) →
      ∀ g, s₁.store.grids[a]? = some g → ∃ g', s₂.store.grids[a]? = some g' ∧ i < g'.data.size := by
  obtain ⟨m, scopes, depth, store⟩ := s
  have hany := StepRelation.unrestricted host
  have hentry {R : Store σ → Store σ → Prop} (hR : StepRelation host R) := enter_restores hR hn
  refine ⟨fun p => ⟨_, _, ?_, rfl, fun hh => ?_⟩, fun callee args => ⟨_, _, ?_, rfl, fun hh => ?_⟩, ?_⟩
  · exact (evalWith_restores hany (hentry hany) p scopes store).1
  · have hR := KeepsShapes.stepRelation hh
    exact (evalWith_restores hR (hentry hR) p scopes store).2.shape
  · exact (apply_restores hany (hentry hany) scopes callee args store).1
  · have hR := KeepsShapes.stepRelation hh
    exact (apply_restores hR (hentry hR) scopes callee args store).2.shape
  · intro place value a i s₁ result s₂ hh hfull hfound hvalue g hg
    have hR := KeepsShapes.stepRelation hh
    obtain ⟨hrun, hkept⟩ := resolveWith_restores hR (hentry hR) place scopes store
    obtain ⟨hlocated, rfl⟩ := Prod.mk.inj (hrun.symm.trans hfound)
    obtain ⟨hrun', hkept'⟩ := evalWith_restores hR (hentry hR) value scopes
      ((Machine.locate host m id (Machine.enter host m (m.maxCallDepth - depth)) scopes place).run store).2
    obtain ⟨-, rfl⟩ := Prod.mk.inj (hrun'.symm.trans hvalue)
    have hlt : i < g.data.size :=
      lt_size_of_locate (Prod.ext hlocated rfl) hg (hkept.full hfull g (Array.mem_of_getElem? hg))
    obtain ⟨g', hg', hshape⟩ := hkept'.shape a g hg
    exact ⟨g', hg', hshape.size ▸ hlt⟩

namespace FailingCall

def silent : Host Unit where
  call _ _ gs state := (.ok .null, gs, state)

def t : Var := ⟨⟨1⟩, "t", .int .i32⟩
def u : Var := ⟨⟨2⟩, "u", .int .i32⟩

/-- `(() => { var t; t = u })()` -/
def tree : Prim :=
  .call (.lambda ⟨⟨⟨"f"⟩, "f", [], .int .i32⟩, [], .block [t] [.assign (.var t) (.read u)]⟩) []

/-- In one scope, with 7 of 8 calls open. -/
def start : MachineState Unit where
  machine := { maxCallDepth := 8 }
  scopes := [[(⟨0⟩, 0)]]
  depth := 7
  store := { cells := #[.null], host := () }

end FailingCall

open FailingCall in
/-- A read of an unbound variable, in a block within a call, leaves no scope and no call behind. -/
theorem restores_failingCall :
    ∃ store, (eval silent 1 tree).run start = (.error (.unbound u), { start with store }) := by
  obtain ⟨htree, -, -⟩ := restores (n := 1) (s := start) (by decide)
  obtain ⟨result, store, hrun, hmachine, -⟩ := htree tree
  cases hmachine
  exact ⟨_, hrun⟩

end Exec

end ExprLowering
