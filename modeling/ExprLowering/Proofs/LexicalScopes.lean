import Mathlib.Logic.Function.Basic
import ExprLowering.Proofs.AlikeRuns
import ExprLowering.Proofs.Restoration
import ExprLowering.Proofs.Termination

/-!
# Closures are lexically scoped

A closure keeps the scopes it was made in as one scope. When it is called, wherever that is, its body starts in two
scopes: the new cells of the parameters, and around them that one scope. So a variable of the body stands for the cell
of a parameter, or for the cell it stood for where the closure was made, or else it is global (`Resolves`).

`Encloses` relates an evaluation to those that are lexically inside it: the parts of its tree, and the bodies of the
closures that are made there, whenever they are called, and so on to any depth. The scopes of an evaluation inside
are those of the outer one, with the binders in between, in what they say about every variable
(`Encloses.localCell?_eq`); so the two share the cells that no binder in between hides.
-/

namespace ExprLowering

/-! ### Binders -/

/-- Variables that are bound together, to new cells that are numbered on from `first`. -/
structure Binder where
  names : List VarId
  first : CellId

namespace Binder
variable {b : Binder} {x : VarId}

/-- The cells of the variables; of two for one variable the later counts. -/
def scope (b : Binder) : Scope :=
  (b.names.zipIdx b.first).reverse

theorem scope_cons (x : VarId) (names : List VarId) (first : CellId) :
    scope ⟨x :: names, first⟩ = scope ⟨names, first + 1⟩ ++ [(x, first)] := by
  rw [scope, scope, List.zipIdx_cons, List.reverse_cons]

theorem lookup_scope_of_notMem (h : x ∉ b.names) : b.scope.lookup x = none := by
  rw [List.lookup_eq_none_iff]
  rintro ⟨y, c⟩ hy
  have hmem : y ∈ b.names := List.fst_mem_of_mem_zipIdx (List.mem_reverse.1 hy)
  simpa using fun hxy : x = y => h (hxy ▸ hmem)

/-- Of several variables with one id, the last has the cell. -/
theorem lookup_scope_of_last {before after : List VarId} (hnames : b.names = before ++ x :: after)
    (hlast : x ∉ after) : b.scope.lookup x = some (b.first + before.length) := by
  have hafter := lookup_scope_of_notMem (b := ⟨after, b.first + before.length + 1⟩) hlast
  rw [scope] at hafter
  rw [scope, hnames, List.zipIdx_append, List.zipIdx_cons, List.reverse_append, List.reverse_cons, List.append_assoc,
    List.lookup_append, hafter, Option.none_or, List.singleton_append, List.lookup_cons_self]

theorem exists_last (h : x ∈ b.names) : ∃ before after, b.names = before ++ x :: after ∧ x ∉ after := by
  obtain ⟨after, before, hreverse, hlast⟩ := List.eq_append_cons_of_mem (List.mem_reverse.2 h)
  refine ⟨before.reverse, after.reverse, ?_, by simpa using hlast⟩
  rw [← List.reverse_reverse b.names, hreverse]
  simp

end Binder

section
variable {σ : Type}

theorem run_extend_eq (scope : Scope) (entries : List (VarId × Value)) (s : Store σ) :
    (Eval.extend scope entries).run s =
      (.ok (Binder.scope ⟨entries.map (·.1), s.cells.size⟩ ++ scope),
        { s with cells := s.cells ++ (entries.map (·.2)).toArray }) := by
  induction entries generalizing scope s with
  | nil =>
    show (Except.ok scope, s) = _
    simp [Binder.scope]
  | cons entry entries ih =>
    obtain ⟨x, v⟩ := entry
    have hcell : (Eval.newCell v).run s = (.ok s.cells.size, { s with cells := s.cells.push v }) := rfl
    rw [Eval.extend, run_bind_of_ok hcell, ih, List.map_cons, Binder.scope_cons]
    simp

end

/-! ### The cell that a variable stands for -/

/-- The cell that the innermost scope with the variable has for it. -/
def localCell? (scopes : List Scope) (x : VarId) : Option CellId :=
  scopes.findSome? (·.lookup x)

theorem localCell?_cons (scope : Scope) (scopes : List Scope) (x : VarId) :
    localCell? (scope :: scopes) x = (scope.lookup x).or (localCell? scopes x) :=
  findSome?_lookup_cons x scope scopes

/-- The cell that a variable stands for inside `binders`, which are inside `scopes`: the cell of the innermost binder
that binds it, where the last variable with its id counts; or else a cell of the scopes; or else a global one. -/
inductive Resolves (binders : List Binder) (scopes : List Scope) (globals : Scope) (x : VarId) : Option CellId → Prop
  | bound {inner outer : List Binder} {b : Binder} {before after : List VarId}
      (hbinders : binders = inner ++ b :: outer) (hinner : ∀ b' ∈ inner, x ∉ b'.names)
      (hnames : b.names = before ++ x :: after) (hlast : x ∉ after) :
      Resolves binders scopes globals x (some (b.first + before.length))
  | captured {c : CellId} (hfree : ∀ b ∈ binders, x ∉ b.names) (hc : localCell? scopes x = some c) :
      Resolves binders scopes globals x (some c)
  | global (hfree : ∀ b ∈ binders, x ∉ b.names) (hnone : localCell? scopes x = none) :
      Resolves binders scopes globals x (globals.lookup x)

theorem localCell?_map_scope_of_free {binders : List Binder} {x : VarId} (h : ∀ b ∈ binders, x ∉ b.names) :
    localCell? (binders.map Binder.scope) x = none := by
  induction binders with
  | nil => rfl
  | cons b binders ih =>
    rw [List.forall_mem_cons] at h
    rw [List.map_cons, localCell?_cons, Binder.lookup_scope_of_notMem h.1, ih h.2]
    rfl

theorem localCell?_append (inner outer : List Scope) (x : VarId) :
    localCell? (inner ++ outer) x = (localCell? inner x).or (localCell? outer x) :=
  List.findSome?_append

theorem Resolves.skip {binders : List Binder} {scopes : List Scope} {globals : Scope} {x : VarId} {b : Binder}
    {c : Option CellId} (h : Resolves binders scopes globals x c) (hb : x ∉ b.names) :
    Resolves (b :: binders) scopes globals x c := by
  cases h with
  | bound hbinders hinner hnames hlast =>
    exact .bound (by rw [hbinders, List.cons_append]) (List.forall_mem_cons.2 ⟨hb, hinner⟩) hnames hlast
  | captured hfree hc => exact .captured (List.forall_mem_cons.2 ⟨hb, hfree⟩) hc
  | global hfree hnone => exact .global (List.forall_mem_cons.2 ⟨hb, hfree⟩) hnone

theorem resolves_lookup (binders : List Binder) (scopes : List Scope) (globals : Scope) (x : VarId) :
    Resolves binders scopes globals x
      ((localCell? (binders.map Binder.scope ++ scopes) x).or (globals.lookup x)) := by
  induction binders with
  | nil =>
    rw [List.map_nil, List.nil_append]
    cases hc : localCell? scopes x with
    | none => exact .global (by simp) hc
    | some c => exact .captured (by simp) hc
  | cons b binders ih =>
    rw [List.map_cons, List.cons_append, localCell?_cons]
    by_cases hb : x ∈ b.names
    · obtain ⟨before, after, hnames, hlast⟩ := Binder.exists_last hb
      rw [Binder.lookup_scope_of_last hnames hlast]
      exact .bound (List.nil_append _).symm (by simp) hnames hlast
    · rw [Binder.lookup_scope_of_notMem hb, Option.none_or]
      exact ih.skip hb

theorem Machine.lookup_eq_or (m : Machine) (scopes : List Scope) (v : Var) :
    m.lookup scopes v = (localCell? scopes v.id).or (m.globals.lookup v.id) :=
  rfl

theorem resolves_of_localCell? {binders : List Binder} {scopes scopes' : List Scope} (m : Machine) (v : Var)
    (h : ∀ x, localCell? scopes' x = localCell? (binders.map Binder.scope ++ scopes) x) :
    Resolves binders scopes m.globals v.id (m.lookup scopes' v) := by
  rw [m.lookup_eq_or, h]
  exact resolves_lookup ..

/-! ### Taking scopes together by overwriting -/

/-- The entries of a scope in some order: each variable once, with the cell that it has. -/
structure IsListing (scope : Scope) (entries : List (VarId × CellId)) : Prop where
  nodup : (entries.map (·.1)).Nodup
  mem_iff : ∀ x c, (x, c) ∈ entries ↔ scope.lookup x = some c

/-- Puts the entries one by one into a map, over what it has for their variables. -/
def overwrite (entries : List (VarId × CellId)) (map : VarId → Option CellId) : VarId → Option CellId :=
  entries.foldl (fun map entry => Function.update map entry.1 (some entry.2)) map

theorem overwrite_of_notMem {entries : List (VarId × CellId)} {x : VarId} (h : x ∉ entries.map (·.1))
    (map : VarId → Option CellId) : overwrite entries map x = map x := by
  induction entries generalizing map with
  | nil => rfl
  | cons entry entries ih =>
    rw [List.map_cons, List.mem_cons, not_or] at h
    rw [overwrite, List.foldl_cons]
    exact (ih h.2 _).trans (Function.update_of_ne h.1 ..)

theorem overwrite_of_mem {entries : List (VarId × CellId)} {x : VarId} {c : CellId}
    (hnodup : (entries.map (·.1)).Nodup) (h : (x, c) ∈ entries) (map : VarId → Option CellId) :
    overwrite entries map x = some c := by
  induction entries generalizing map with
  | nil => cases h
  | cons entry entries ih =>
    rw [List.map_cons, List.nodup_cons] at hnodup
    rw [overwrite, List.foldl_cons]
    rcases List.mem_cons.1 h with rfl | h
    · exact (overwrite_of_notMem hnodup.1 _).trans (Function.update_self ..)
    · exact ih hnodup.2 h _

theorem IsListing.overwrite {scope : Scope} {entries : List (VarId × CellId)} (h : IsListing scope entries)
    (map : VarId → Option CellId) (x : VarId) : overwrite entries map x = (scope.lookup x).or (map x) := by
  cases hx : scope.lookup x with
  | none =>
    refine overwrite_of_notMem (fun hmem => ?_) map
    obtain ⟨⟨y, c⟩, hc, rfl⟩ := List.mem_map.1 hmem
    cases hx.symm.trans ((h.mem_iff y c).1 hc)
  | some c => exact overwrite_of_mem h.nodup ((h.mem_iff x c).2 hx) map

/-- Going through the scopes from the outermost to the innermost, and through each in any order, gives for each variable
the cell that is found in the innermost. -/
theorem foldr_overwrite {scopes : List Scope} {listings : List (List (VarId × CellId))}
    (h : List.Forall₂ IsListing scopes listings) (x : VarId) :
    listings.foldr overwrite (fun _ => none) x = (Machine.capture scopes).lookup x := by
  rw [lookup_capture]
  induction h with
  | nil => rfl
  | cons hscope _ ih => rw [List.foldr_cons, hscope.overwrite, ih, findSome?_lookup_cons]

/-- The store with new cells for the values. -/
def Store.withCells {σ : Type} (s : Store σ) (values : List Value) : Store σ :=
  { s with cells := s.cells ++ values.toArray }

namespace Machine
variable {σ : Type} {host : Host σ} {m : Machine}

/-! ### Calls -/

/-- The parameters of a function, bound to the cells that are made next. -/
def paramBinder (code : Lambda Prim) (s : Store σ) : Binder :=
  ⟨code.params.map (·.id), s.cells.size⟩

/-- The scopes in which the body of a closure starts: its parameters, and around them what it captured. -/
def bodyScopes (code : Lambda Prim) (captured : Scope) (s : Store σ) : List Scope :=
  [(paramBinder code s).scope, captured]

/-- The scope that a closure captured stands for the scopes it was made in. -/
theorem localCell?_bodyScopes (code : Lambda Prim) (scopes : List Scope) (s : Store σ) (x : VarId) :
    localCell? (bodyScopes code (capture scopes) s) x = localCell? ((paramBinder code s).scope :: scopes) x := by
  rw [bodyScopes, localCell?_cons, localCell?_cons, localCell?_cons, lookup_capture]
  exact congrArg _ (Option.or_none ..)

section
variable {depth : Nat} {stamp : Stamp} {code : Lambda Prim} {captured : Scope} {args : List Value}

theorem run_extend_params (hargs : args.length = code.params.length) (s : Store σ) :
    (Eval.extend [] ((code.params.map (·.id)).zip args)).run s =
      (.ok (paramBinder code s).scope, s.withCells args) := by
  rw [run_extend_eq, List.map_fst_zip (by simp [hargs]), List.map_snd_zip (by simp [hargs]), List.append_nil]
  rfl

theorem applyOnce_closure {M : Type → Type} [Monad M] [MonadLiftT (Eval σ) M]
    {nested : Nat → List Scope → Prim → M Value} (hargs : args.length = code.params.length)
    (hdepth : depth < m.maxCallDepth) :
    applyOnce host m nested depth (.closure stamp code captured) args =
      liftM (Eval.extend [] ((code.params.map (·.id)).zip args) : Eval σ Scope) >>= fun frame =>
        nested (depth + 1) [frame, captured] code.body := by
  rw [applyOnce, if_pos hargs, if_pos hdepth]

theorem run_apply_closure (hargs : args.length = code.params.length) (hdepth : depth < m.maxCallDepth) (s : Store σ) :
    (apply host (enter host m (m.maxCallDepth - depth)) (.closure stamp code captured) args).run s =
      (evalAt host m (depth + 1) (bodyScopes code captured s) code.body).run (s.withCells args) := by
  rw [apply_eq_applyOnce, applyOnce_closure hargs hdepth]
  exact run_bind_of_ok (run_extend_params hargs s)

theorem run_record_closure (hargs : args.length = code.params.length) (hdepth : depth < m.maxCallDepth)
    (t : Store σ × List (Activation σ)) :
    (applyOnce host m (record host m) depth (.closure stamp code captured) args).run t =
      (record host m (depth + 1) (bodyScopes code captured t.1) code.body).run (t.1.withCells args, t.2) := by
  have hextend : (liftM (Eval.extend [] ((code.params.map (·.id)).zip args) : Eval σ Scope) : Recorded σ Scope).run t =
      (.ok (paramBinder code t.1).scope, t.1.withCells args, t.2) := by
    show (((Eval.extend [] _).run t.1).1, ((Eval.extend [] _).run t.1).2, t.2) = _
    rw [run_extend_params hargs]
  rw [applyOnce_closure hargs hdepth]
  exact run_bind_of_ok hextend

/-- The evaluations that begin when a value is called, what is nested in them apart. -/
def entered (host : Host σ) (m : Machine) (depth : Nat) (callee : Value) (args : List Value) (s : Store σ) :
    List (Activation σ) :=
  ((applyOnce host m (record host m) depth callee args).run (s, [])).2.2

theorem entered_closure (hargs : args.length = code.params.length) (hdepth : depth < m.maxCallDepth) (s : Store σ) :
    entered host m depth (.closure stamp code captured) args s =
      [⟨depth + 1, bodyScopes code captured s, code.body, s.withCells args⟩] := by
  rw [entered, run_record_closure hargs hdepth]
  rfl

/-- What a call of a closure begins is the evaluation of its body. -/
theorem eq_of_mem_entered {s : Store σ} {a : Activation σ}
    (h : a ∈ entered host m depth (.closure stamp code captured) args s) :
    a = ⟨depth + 1, bodyScopes code captured s, code.body, s.withCells args⟩ := by
  by_cases hargs : args.length = code.params.length
  · by_cases hdepth : depth < m.maxCallDepth
    · rw [entered_closure hargs hdepth] at h
      exact List.mem_singleton.1 h
    · rw [entered, applyOnce, if_pos hargs, if_neg hdepth] at h
      cases h
  · rw [entered, applyOnce, if_neg hargs] at h
    cases h

/-- A call of a closure from a tree: the body is evaluated in the closure's scopes, whatever those of the tree are. -/
theorem run_call_closure {scopes : List Scope} {callee : Prim} {ps : List Prim} {s₀ s₁ s : Store σ}
    (hcallee : (evalAt host m depth scopes callee).run s₀ = (.ok (.closure stamp code captured), s₁))
    (hps : (evalAll host m id (enter host m (m.maxCallDepth - depth)) scopes ps).run s₁ = (.ok args, s))
    (hargs : args.length = code.params.length) (hdepth : depth < m.maxCallDepth) :
    (evalAt host m depth scopes (.call callee ps)).run s₀ =
      (evalAt host m (depth + 1) (bodyScopes code captured s) code.body).run (s.withCells args) := by
  rw [evalAll_eq_allOnce] at hps
  rw [evalAt_eq_evalOnce, evalOnce, callOnce, run_bind_of_ok hcallee, run_bind_of_ok hps, ← apply_eq_applyOnce]
  exact run_apply_closure hargs hdepth s

theorem mem_nestedIn_call {scopes : List Scope} {callee : Prim} {ps : List Prim} {s₀ s₁ s : Store σ}
    (hcallee : (evalAt host m depth scopes callee).run s₀ = (.ok (.closure stamp code captured), s₁))
    (hps : (evalAll host m id (enter host m (m.maxCallDepth - depth)) scopes ps).run s₁ = (.ok args, s))
    (hargs : args.length = code.params.length) (hdepth : depth < m.maxCallDepth) :
    ⟨depth + 1, bodyScopes code captured s, code.body, s.withCells args⟩ ∈
      nestedIn host m ⟨depth, scopes, .call callee ps, s₀⟩ := by
  have hrecord : (record host m depth scopes callee).run (s₀, []) =
      (.ok (.closure stamp code captured), s₁, [⟨depth, scopes, callee, s₀⟩]) := by
    show (((evalAt host m depth scopes callee).run s₀).1, ((evalAt host m depth scopes callee).run s₀).2, _) = _
    rw [hcallee]
    rfl
  -- The arguments add what they nest after the callee; the body is added last.
  have hlists : Lists (fun _ => True) (s₁, [⟨depth, scopes, callee, s₀⟩]) (allOnce (record host m) depth scopes ps)
      (allOnce (evalAt host m) depth scopes ps) := (Matching.lists _).all (fun q _ t => .record trivial) _
  obtain ⟨added, hrun, -⟩ := hlists
  rw [evalAll_eq_allOnce] at hps
  simp only [hps] at hrun
  rw [nestedIn, recorded, evalOnce, callOnce, run_bind_of_ok hrecord, run_bind_of_ok hrun,
    run_record_closure hargs hdepth]
  exact List.mem_append_right _ (List.mem_singleton_self _)

end

/-! ### Evaluations inside others -/

/-- What a block binds before its body is evaluated. -/
def Activation.binders (a : Activation σ) : List Binder :=
  match a.tree with
  | .block locals _ => [⟨locals.map (·.id), a.store.cells.size⟩]
  | _ => []

variable (host m) in
theorem lists_scopes (a : Activation σ) :
    Lists (fun b => b.depth = a.depth → b.scopes = a.binders.map Binder.scope ++ a.scopes) (a.store, [])
      (evalOnce host m (record host m) a.depth a.scopes a.tree)
      (evalOnce host m (evalAt host m) a.depth a.scopes a.tree) := by
  obtain ⟨depth, scopes, tree, store⟩ := a
  cases tree with
  | block locals body =>
    refine Lists.bind (lists_nothing rfl) fun scope hscope => ?_
    have hextend : ((Eval.extend [] (locals.map fun v => (v.id, .defaultOf v.ty))).run store).1 = .ok scope := hscope
    rw [run_extend_eq] at hextend
    cases hextend
    refine (Matching.lists _).bind ((Matching.lists _).all fun q _ t => .record fun _ => ?_) fun vs =>
      (Matching.lists _).pure _
    simp [Activation.binders, Function.comp_def]
  | call callee args =>
    -- The body of a callee is one call deeper, so nothing is asked about its scopes.
    refine (Matching.lists _).call (fun q _ t => .record fun _ => rfl) (fun _ _ q t => .record fun hdepth => ?_) _
    exact absurd hdepth (Nat.succ_ne_self depth)
  | const | read | assign | arith | step | newArray | constArray | element | callMethod | lambda | quote =>
    refine (Matching.lists _).once_of_cases (fun q _ t => .record fun _ => rfl) ?_ ?_ (store, [])
    · rintro _ _ ⟨⟩
    · rintro _ _ ⟨⟩

theorem scopes_of_nested {a b : Activation σ} (h : b ∈ nestedIn host m a) (hdepth : b.depth = a.depth) :
    b.scopes = a.binders.map Binder.scope ++ a.scopes := by
  obtain ⟨added, hrun, hscopes⟩ := lists_scopes host m a
  rw [nestedIn, recorded, hrun] at h
  exact hscopes b h hdepth

/-- The second evaluation is lexically inside the first one, with these binders in between, innermost first. Each
step may be taken on another machine: globals may be bound between the making of a closure and its call. -/
inductive Encloses (host : Host σ) (a : Activation σ) : List Binder → Activation σ → Prop
  | refl : Encloses host a [] a
  | part {m : Machine} {binders : List Binder} {b c : Activation σ} (h : Encloses host a binders b)
      (hnested : c ∈ nestedIn host m b) (hdepth : c.depth = b.depth) : Encloses host a (b.binders ++ binders) c
  /-- A closure is made, and called with some arguments, at some depth and in some store. -/
  | body {m m' : Machine} {binders : List Binder} {b c : Activation σ} {code : Lambda Prim} {f : Value}
      {args : List Value} {depth : Nat} {s s₁ : Store σ} (h : Encloses host a binders b) (htree : b.tree = .lambda code)
      (hmade : (evalAt host m b.depth b.scopes b.tree).run b.store = (.ok f, s₁))
      (hcalled : c ∈ entered host m' depth f args s) : Encloses host a (paramBinder code s :: binders) c

theorem run_lambda (depth : Nat) (scopes : List Scope) (code : Lambda Prim) (s : Store σ) :
    (evalAt host m depth scopes (.lambda code)).run s =
      (.ok (.closure s.closures code (capture scopes)), { s with closures := s.closures + 1 }) :=
  rfl

/-- Inside, a variable is searched for in the binders in between and then in the scopes outside. -/
theorem Encloses.localCell?_eq {a c : Activation σ} {binders : List Binder} (h : Encloses host a binders c)
    (x : VarId) : localCell? c.scopes x = localCell? (binders.map Binder.scope ++ a.scopes) x := by
  induction h with
  | refl => rfl
  | part _ hnested hdepth ih =>
    rw [scopes_of_nested hnested hdepth, List.map_append, List.append_assoc, localCell?_append, ih,
      ← localCell?_append]
  | body _ htree hmade hcalled ih =>
    rw [htree, run_lambda] at hmade
    cases hmade
    -- The closure holds the scopes it was made in as one scope, and those are as the induction says.
    rw [eq_of_mem_entered hcalled, localCell?_bodyScopes, localCell?_cons, ih, List.map_cons, List.cons_append,
      localCell?_cons]

/-! ### Shared cells -/

/-- A local variable that no binder in between hides stands for its cell outside. -/
theorem Encloses.lookup_of_free {a c : Activation σ} {binders : List Binder} (h : Encloses host a binders c)
    (m : Machine) {v : Var} {x : CellId} (hfree : ∀ b ∈ binders, v.id ∉ b.names)
    (hx : localCell? a.scopes v.id = some x) : m.lookup c.scopes v = some x := by
  rw [lookup_eq_or, h.localCell?_eq, localCell?_append, localCell?_map_scope_of_free hfree, hx]
  rfl

theorem size_cells_le (host : Host σ) (m : Machine) (depth : Nat) (scopes : List Scope) (p : Prim) (s : Store σ) :
    s.cells.size ≤ ((evalAt host m depth scopes p).run s).2.cells.size :=
  have hgrows := StepRelation.grows host
  (Exec.evalWith_restores hgrows (Exec.enter_restores hgrows (Nat.le_add_left _ _)) p scopes s).2

/-- What is assigned to a variable is read from whatever variable has the same cell. -/
theorem run_read_of_assign {m m' : Machine} {depth depth' : Nat} {scopes scopes' : List Scope} {v v' : Var} {x : CellId}
    {p : Prim} {w : Value} {s s' : Store σ} (hv : m.lookup scopes v = some x) (hv' : m'.lookup scopes' v' = some x)
    (hlive : x < s.cells.size)
    (h : (evalAt host m depth scopes (.assign (.var v) p)).run s = (.ok w, s')) :
    (evalAt host m' depth' scopes' (.read v')).run s' = (.ok w, s') := by
  obtain ⟨s₁, hp, rfl⟩ := run_assignVar_eq_ok hv h
  -- Evaluating the right side loses no cell, so the write is not out of bounds.
  have hle := size_cells_le host m depth scopes p s
  rw [evalAt, hp] at hle
  have hcell : (s₁.setAt w (.cell x)).cells.getD x .null = w :=
    (getD_setIfInBounds ..).trans (if_pos ⟨rfl, Nat.lt_of_lt_of_le hlive hle⟩)
  rw [evalAt, run_read hv', hcell]

/-- Closures made in the scopes `S`, on any host. The closure holds what the scopes have for each variable, whatever
order they are gone through in. When it is called, by whomever and from whatever scopes, its body starts in scopes that
are its own: each variable stands for the new cell of the last parameter that it is, or else for its cell in `S`, or
else for the global one at the time. So it is for closures that are made inside the body, to any depth, with the
binders in between; and what is assigned to a variable in one of two places that share its cell is read in the other. -/
theorem closures_lexical (host : Host σ) (S : List Scope) :
    (∀ (m : Machine) (depth : Nat) (code : Lambda Prim) (s : Store σ), (evalAt host m depth S (.lambda code)).run s =
      (.ok (.closure s.closures code (capture S)), { s with closures := s.closures + 1 })) ∧
    (∀ (m : Machine) (v : Var) (x : CellId), localCell? S v.id = some x → m.lookup S v = some x) ∧
    (∀ listings, List.Forall₂ IsListing S listings →
      ∀ x, listings.foldr overwrite (fun _ => none) x = (capture S).lookup x) ∧
    (∀ (m : Machine) (code : Lambda Prim) (args : List Value) (depth : Nat) (s : Store σ),
      args.length = code.params.length → depth < m.maxCallDepth → ∃ T,
        (∀ stamp,
          entered host m depth (.closure stamp code (capture S)) args s =
            [⟨depth + 1, T, code.body, s.withCells args⟩] ∧
          (apply host (enter host m (m.maxCallDepth - depth)) (.closure stamp code (capture S)) args).run s =
            (evalAt host m (depth + 1) T code.body).run (s.withCells args)) ∧
        (∀ stamp scopes callee ps s₀ s₁,
          (evalAt host m depth scopes callee).run s₀ = (.ok (.closure stamp code (capture S)), s₁) →
          (evalAll host m id (enter host m (m.maxCallDepth - depth)) scopes ps).run s₁ = (.ok args, s) →
          (evalAt host m depth scopes (.call callee ps)).run s₀ =
            (evalAt host m (depth + 1) T code.body).run (s.withCells args) ∧
          ⟨depth + 1, T, code.body, s.withCells args⟩ ∈ nestedIn host m ⟨depth, scopes, .call callee ps, s₀⟩) ∧
        ∀ v, Resolves [paramBinder code s] S m.globals v.id (m.lookup T v)) ∧
    (∀ (a c : Activation σ) (binders : List Binder), a.scopes = S → Encloses host a binders c →
      ∀ (m : Machine) (v : Var), Resolves binders S m.globals v.id (m.lookup c.scopes v)) ∧
    ∀ (a c c' : Activation σ) (binders binders' : List Binder), a.scopes = S →
      Encloses host a binders c → Encloses host a binders' c' →
      ∀ (m m' : Machine) (v : Var) (x : CellId) (p : Prim) (w : Value) (s s' : Store σ),
        (∀ b ∈ binders ++ binders', v.id ∉ b.names) → localCell? S v.id = some x → x < s.cells.size →
        (evalAt host m c.depth c.scopes (.assign (.var v) p)).run s = (.ok w, s') →
        (evalAt host m' c'.depth c'.scopes (.read v)).run s' = (.ok w, s') := by
  refine ⟨fun m depth code s => run_lambda depth S code s, fun m v x hx => ?_, fun listings => foldr_overwrite,
    fun m code args depth s hargs hdepth => ⟨bodyScopes code (capture S) s, fun stamp => ?_, ?_, fun v => ?_⟩, ?_, ?_⟩
  · rw [lookup_eq_or, hx, Option.some_or]
  · exact ⟨entered_closure hargs hdepth s, run_apply_closure hargs hdepth s⟩
  · intro stamp scopes callee ps s₀ s₁ hcallee hps
    exact ⟨run_call_closure hcallee hps hargs hdepth, mem_nestedIn_call hcallee hps hargs hdepth⟩
  · exact resolves_of_localCell? m v (localCell?_bodyScopes code S s)
  · rintro a c binders rfl h m v
    exact resolves_of_localCell? m v h.localCell?_eq
  · rintro a c c' binders binders' rfl h h' m m' v x p w s s' hfree hx hlive hassign
    rw [List.forall_mem_append] at hfree
    exact run_read_of_assign (h.lookup_of_free m hfree.1 hx) (h'.lookup_of_free m' hfree.2 hx) hlive hassign

namespace Constantly

def idle : Host Unit where
  call _ _ gs state := (.ok .null, gs, state)

def x : Var := ⟨⟨0⟩, "x", .int .i32⟩

/-- `() => x` -/
def inner : Lambda Prim := ⟨⟨⟨"g"⟩, "g", [], .int .i32⟩, [], .read x⟩

/-- `x => () => x` -/
def outer : Lambda Prim := ⟨⟨⟨"f"⟩, "f", [], .void⟩, [x], .lambda inner⟩

/-- The outer function is made where `x` is a local variable with cell 0. -/
def start : Activation Unit := ⟨0, [[(x.id, 0)]], .lambda outer, { cells := #[.null], host := () }⟩

/-- It is called, and `x` is bound to cell 1. -/
def first : Activation Unit :=
  ⟨1, [[(x.id, 1)], [(x.id, 0)]], .lambda inner, { cells := #[.null, .null], closures := 1, host := () }⟩

/-- The inner function, which that call made, is called when there are three cells. -/
def second : Activation Unit :=
  ⟨1, [[], [(x.id, 1), (x.id, 0)]], .read x, { cells := #[.null, .null, .null], closures := 2, host := () }⟩

theorem encloses_first : Encloses idle start [⟨[x.id], 1⟩] first := by
  have hmade : (evalAt idle {} start.depth start.scopes start.tree).run start.store =
      (.ok (.closure 0 outer [(x.id, 0)]), { start.store with closures := 1 }) := rfl
  have hcalled : first ∈ entered idle {} 0 (.closure 0 outer [(x.id, 0)]) [.null] { start.store with closures := 1 } :=
    List.mem_singleton.2 rfl
  exact .body .refl rfl hmade hcalled

theorem encloses_second {a : Activation Unit} {binders : List Binder} (h : Encloses idle a binders first) :
    Encloses idle a (⟨[], 3⟩ :: binders) second := by
  have hmade : (evalAt idle {} first.depth first.scopes first.tree).run first.store =
      (.ok (.closure 1 inner [(x.id, 1), (x.id, 0)]), { first.store with closures := 2 }) := rfl
  have hcalled : second ∈ entered idle {} 0 (.closure 1 inner [(x.id, 1), (x.id, 0)]) [] second.store :=
    List.mem_singleton.2 rfl
  exact .body h rfl hmade hcalled

/-- `x = true`, where the inner function is made. -/
def update : Prim := .assign (.var x) (.const (.lit (.bool true)))

end Constantly

open Constantly in
/-- Two functions deep, `x` is the parameter of the outer function, whatever the global `x` is; what that function
assigns to it is read there. Where the outer function was made, the map has the same cell for `x` as the scope. -/
theorem closures_lexical_constantly :
    Resolves [⟨[], 3⟩, ⟨[x.id], 1⟩] [[(x.id, 0)]] [(x.id, 9)] x.id
      (({ globals := [(x.id, 9)] } : Machine).lookup second.scopes x) ∧
    ({ globals := [(x.id, 9)] } : Machine).lookup second.scopes x = some 1 ∧
    ((evalAt idle {} second.depth second.scopes (.read x)).run
      ((evalAt idle {} first.depth first.scopes update).run second.store).2).1 = .ok (.lit (.bool true)) ∧
    [[(x.id, 0)]].foldr overwrite (fun _ => none) x.id = some 0 := by
  obtain ⟨-, -, horder, -, hnested, -⟩ := closures_lexical idle start.scopes
  obtain ⟨-, -, -, -, -, hshared⟩ := closures_lexical idle first.scopes
  have hinside : Encloses idle first [⟨[], 3⟩] second := encloses_second .refl
  have hread := hshared first first second [] [⟨[], 3⟩] rfl .refl hinside {} {} x 1 (.const (.lit (.bool true)))
    (.lit (.bool true)) second.store _ (by simp) rfl (by decide) rfl
  refine ⟨?_, rfl, congrArg Prod.fst hread, ?_⟩
  · exact hnested start second _ rfl (encloses_second encloses_first) { globals := [(x.id, 9)] } x
  · refine horder [[(x.id, 0)]] (.cons ⟨by simp, fun y c => ?_⟩ .nil) x.id
    rw [List.mem_singleton, List.lookup_cons]
    by_cases hy : y = x.id
    · simp [hy, eq_comm]
    · simp [hy, beq_eq_false_iff_ne.2 hy]

end Machine

end ExprLowering
