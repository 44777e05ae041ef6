import ExprLowering.Proofs.Coupling

/-!
# Operations and trees side by side

What the machine does to its store, and the nodes of a tree do with their parts, two sides do in step. Only three
operations change what corresponds: new cells, new arrays and calls of the host, which a correspondence of hosts
(`Correspondence.Hosts`) answers for. Trees of the same form run in step if their parts do (`Prim.SameForm.runs`), and
so does every tree beside itself (`Prim.runs_self`).
-/

namespace ExprLowering

variable {W σ σ' α α' ι κ : Type} [Preorder W] {m : Machine} {C : Coupling W m σ σ' α α'} {w : W} {Γ : Naming}
  {scopes scopes' : List Scope}

namespace Correspondence

/-! ### Operations on the store -/

namespace Runs

theorem cell {v v' : Var} (hΓ : C.Scopes w Γ scopes scopes') (hv : Γ v.id v'.id) (hsame : v = v' ∨ C.Renames) :
    C.Runs w (m.cell scopes v) (m.cell scopes' v') C.Cells := by
  intro w₁ s t hle hs
  have hc := C.lookup hs (C.scopes_mono hle hΓ) hv
  unfold Machine.cell
  rw [Machine.lookup_eq, Machine.lookup_eq]
  revert hc
  generalize m.cell? scopes v.id = c, m.cell? scopes' v'.id = d
  rintro (hc | _)
  · exact .pure hs hc
  · rcases hsame with rfl | hrenames
    · exact .throw hs
    · exact .inr ⟨w₁, C.moves_refl, hs, .error (hrenames _ _)⟩

theorem load {l l' : Location} (h : C.Locations w l l') : C.Runs w (Eval.load l) (Eval.load l') C.Values := by
  intro w₁ s t hle hs
  rw [RunsFrom, run_load, run_load]
  exact .inr ⟨w₁, C.moves_refl, hs, .ok (C.valueAt hs (h.mono hle))⟩

theorem store {l l' : Location} {v : Value α} {v' : Value α'} (h : C.Locations w l l') (hv : C.Values w v v') :
    C.Runs w (Eval.store v l) (Eval.store v' l') fun _ _ _ => True := by
  intro w₁ s t hle hs
  obtain ⟨hset, hmoves⟩ := C.setAt hs (h.mono hle) (hv.mono hle)
  rw [RunsFrom, run_store, run_store]
  exact .inr ⟨w₁, hmoves _, hset, .ok trivial⟩

theorem newClosure {code : Lambda α} {code' : Lambda α'} {captured captured' : Scope}
    (h : C.Closures w code captured code' captured') :
    C.Runs w (Eval.newClosure code captured) (Eval.newClosure code' captured') C.Values := by
  intro w₁ s t hle hs
  refine .inr ⟨w₁, C.moves_of_cells rfl rfl, C.nextClosure hs, ?_⟩
  simp only [Eval.newClosure, run_mk, C.closures_eq hs]
  exact .ok (.closure (C.closures_mono hle h))

theorem grid {a : GridId} (h : C.Arrays w a) :
    C.Runs w (Eval.grid a) (Eval.grid a) fun _ g g' => g.bounds = g'.bounds :=
  fun w₁ _ _ hle hs => .inr ⟨w₁, C.moves_refl, hs, .ok (C.bounds_eq hs (C.arrays_mono hle h))⟩

theorem elementLocation {v : Value α} {v' : Value α'} (h : C.Values w v v') (is : List Int) :
    C.Runs w (Machine.elementLocation v is) (Machine.elementLocation v' is) C.Locations := by
  refine bind (lift fun w₁ hle => (h.mono hle).asArray) fun w₁ a a' _ ⟨heq, ha⟩ => ?_
  subst heq
  refine (grid ha).bind fun w₂ g g' hle hg => ?_
  have hoffset : g.offset is = g'.offset is := by rw [Grid.offset, Grid.offset, hg]
  rw [hoffset]
  refine bind (Q := fun _ => Eq) (.lift fun _ _ => .of_eq rfl) fun w₃ i i' hle' hi => ?_
  subst hi
  exact .pure fun w₄ hle₄ => .element (C.arrays_mono (le_trans hle (le_trans hle' hle₄)) ha)

theorem arith {v u : Value α} {v' u' : Value α'} (op : ArithOp) (checked : Bool) (hv : C.Values w v v')
    (hu : C.Values w u u') :
    C.Runs w (liftM (Value.arith op checked v u)) (liftM (Value.arith op checked v' u')) C.Values :=
  .lift fun _ _ => (Value.Rel.arith op checked hv hu).imp fun _ _ => .of_sameAtom

theorem step {l l' : Location} (op : IncDec) (h : C.Locations w l l') :
    C.Runs w (Machine.step op l) (Machine.step op l') C.Values := by
  refine (load h).bind fun w₁ old old' hle hold => ?_
  have hone : C.Runs w₁ (liftM old.oneLike) (liftM old'.oneLike) C.Values :=
    .lift fun _ _ => (Value.Rel.oneLike hold).imp fun _ _ => .of_sameAtom
  refine hone.bind fun w₂ one one' hle₂ hone => ?_
  refine (arith op.arith false (hold.mono hle₂) hone).bind fun w₃ new new' hle₃ hnew => ?_
  refine (store (h.mono (le_trans hle (le_trans hle₂ hle₃))) hnew).bind fun w₄ _ _ hle₄ _ => ?_
  refine .pure fun w₅ hle₅ => ?_
  cases op.yieldsNew with
  | true => exact hnew.mono (le_trans hle₄ hle₅)
  | false => exact hold.mono (le_trans hle₂ (le_trans hle₃ (le_trans hle₄ hle₅)))

end Runs

/-! ### New cells and arrays, and calls -/

/-- What is new to both sides comes to correspond, and so does what the hosts do. -/
structure Hosts (C : Correspondence W σ σ' α α') (host : Host σ α) (host' : Host σ' α') : Prop where
  newCell : ∀ {w s t v v'}, C.Stores w s t → C.Values w v v' →
    C.RunsFrom (fun _ => True) w s t (Eval.newCell v) (Eval.newCell v') fun w _ => C.Cells w
  newGrid : ∀ {w s t} {g : Grid α} {g' : Grid α'}, C.Stores w s t → g.Rel (C.Values w) g' →
    C.RunsFrom (fun _ => True) w s t (Eval.newGrid g) (Eval.newGrid g') fun w _ v v' =>
      ∃ a, v = .array a ∧ v' = .array a ∧ C.Shaped w a g.bounds
  call : ∀ {w s t} {args : List (Value α)} {args' : List (Value α')} (f : NativeFn), C.Stores w s t →
    List.Forall₂ (C.Values w) args args' →
    C.RunsFrom (fun _ => True) w s t (Machine.callHost host f args) (Machine.callHost host' f args') fun w _ =>
      C.Values w

/-- Entering closures that correspond gives results that correspond. -/
def Enters (C : Correspondence W σ σ' α α') (enter : Enter σ α) (enter' : Enter σ' α') : Prop :=
  ∀ {w : W} {code : Lambda α} {code' : Lambda α'} {captured captured' : Scope} {args : List (Value α)}
    {args' : List (Value α')}, C.Closures w code captured code' captured' → args.length = code.params.length →
    List.Forall₂ (C.Values w) args args' → C.Runs w (enter code captured args) (enter' code' captured' args') C.Values

theorem Values.forall₂_mono {w₁ : W} {vs : List (Value α)} {vs' : List (Value α')}
    (h : List.Forall₂ (C.Values w) vs vs') (hle : w ≤ w₁) : List.Forall₂ (C.Values w₁) vs vs' :=
  h.imp fun _ _ h => h.mono hle

namespace Runs
variable {host : Host σ α} {host' : Host σ' α'} (hh : C.Hosts host host')
include hh

theorem newCell {v : Value α} {v' : Value α'} (hv : C.Values w v v') :
    C.Runs w (Eval.newCell v) (Eval.newCell v') C.Cells :=
  fun _ _ _ hle hs => hh.newCell hs (hv.mono hle)

theorem newGrid {g : Grid α} {g' : Grid α'} (hg : g.Rel (C.Values w) g') :
    C.Runs w (Eval.newGrid g) (Eval.newGrid g') fun w v v' =>
      ∃ a, v = .array a ∧ v' = .array a ∧ C.Shaped w a g.bounds :=
  fun _ _ _ hle hs => hh.newGrid hs (hg.imp fun _ _ h => h.mono hle)

theorem callHost {args : List (Value α)} {args' : List (Value α')} (f : NativeFn)
    (h : List.Forall₂ (C.Values w) args args') :
    C.Runs w (Machine.callHost host f args) (Machine.callHost host' f args') C.Values :=
  fun _ _ _ hle hs => hh.call f hs (Values.forall₂_mono h hle)

/-- New cells for variables that then stand for each other. -/
theorem extend {scope scope' : Scope} {entries : List (VarId × Value α)} {entries' : List (VarId × Value α')}
    (hΓ : C.Scopes w Γ (scope :: scopes) (scope' :: scopes'))
    (hsame : entries.map (·.1) = entries'.map (·.1) ∨ C.Renames)
    (h : List.Forall₂ (fun e e' => C.Values w e.2 e'.2) entries entries') :
    C.Runs w (Eval.extend scope entries) (Eval.extend scope' entries') fun w scope scope' =>
      C.Scopes w (Γ.bindAll (entries.map (·.1)) (entries'.map (·.1))) (scope :: scopes) (scope' :: scopes') := by
  induction entries generalizing w Γ scope scope' entries' with
  | nil =>
    cases h
    exact .pure fun w₁ hle => C.scopes_mono hle hΓ
  | cons e entries ih =>
    rcases h with _ | ⟨he, h⟩
    rw [List.map_cons, List.map_cons, List.cons.injEq] at hsame
    refine (newCell hh he).bind fun w₁ c d hle hc => ?_
    exact ih (C.scopes_insert (C.scopes_mono hle hΓ) hc (hsame.imp_left And.left)) (hsame.imp_left And.right)
      (h.imp fun _ _ h => h.mono hle)

theorem frame {captured captured' : Scope} {params : List Var} {args : List (Value α)} {args' : List (Value α')}
    (hΓ : C.Scopes w Γ [captured] [captured']) (hlen : args.length = params.length)
    (hargs : List.Forall₂ (C.Values w) args args') :
    C.Runs w (Eval.extend [] ((params.map (·.id)).zip args)) (Eval.extend [] ((params.map (·.id)).zip args'))
      fun w frame frame' =>
        C.Scopes w (Γ.bindAll (params.map (·.id)) (params.map (·.id))) [frame, captured] [frame', captured'] := by
  have hids : ((params.map (·.id)).zip args).map (·.1) = params.map (·.id) := List.map_fst_zip (by simp [hlen])
  have hids' : ((params.map (·.id)).zip args').map (·.1) = params.map (·.id) :=
    List.map_fst_zip (by simp [← hargs.length_eq, hlen])
  have hentries (ids : List VarId) :
      List.Forall₂ (fun e e' => C.Values w e.2 e'.2) (ids.zip args) (ids.zip args') := by
    clear hlen hids hids'
    induction hargs generalizing ids with
    | nil => simp
    | cons hv _ ih =>
      cases ids with
      | nil => exact .nil
      | cons x ids => exact .cons hv (ih ids)
  have hframe := extend hh (C.scopes_nil hΓ) (.inl (hids.trans hids'.symm)) (hentries _)
  rwa [hids, hids'] at hframe

theorem apply {enter : Enter σ α} {enter' : Enter σ' α'} (henter : C.Enters enter enter') {v : Value α}
    {v' : Value α'} {args : List (Value α)} {args' : List (Value α')} (hv : C.Values w v v')
    (h : List.Forall₂ (C.Values w) args args') :
    C.Runs w (Machine.apply host enter v args) (Machine.apply host' enter' v' args') C.Values := by
  cases hv with
  | native f => exact callHost hh f h
  | closure hc =>
    simp only [Machine.apply, ← h.length_eq, ← C.closures_params hc]
    split
    · next hlen => exact henter hc hlen h
    · exact .throw
  | lit l => cases l <;> exact .throw
  | _ => exact .throw

end Runs

/-! ### Nodes

What the nodes of a tree do with their parts. -/

namespace Runs

theorem values {f : ι → Run σ α (Value α)} {g : κ → Run σ' α' (Value α')} {as : List ι} {bs : List κ}
    (h : List.Forall₂ (fun a b => C.Runs w (f a) (g b) C.Values) as bs) :
    C.Runs w (as.mapM f) (bs.mapM g) fun w => List.Forall₂ (C.Values w) :=
  .mapM (fun hle h => h.mono hle) h

theorem ints {f : ι → Run σ α (Value α)} {g : κ → Run σ' α' (Value α')} {as : List ι} {bs : List κ}
    {toInt : Value α → Except Fault Int} {toInt' : Value α' → Except Fault Int}
    (hint : ∀ {w v v'}, C.Values w v v' → toInt v = toInt' v')
    (h : List.Forall₂ (fun a b => C.Runs w (f a) (g b) C.Values) as bs) :
    C.Runs w (as.mapM fun a => f a >>= fun v => liftM (toInt v))
      (bs.mapM fun b => g b >>= fun v => liftM (toInt' v)) fun _ => Eq := by
  refine imp (Q := fun _ => List.Forall₂ Eq) ?_ fun _ _ _ h => List.forall₂_eq_eq_eq ▸ h
  refine .mapM (fun _ h => h) (h.imp fun a b hab => hab.bind fun w₁ v v' _ hv => ?_)
  exact .lift fun _ _ => .of_eq (hint hv)

theorem element {x : Run σ α (Value α)} {y : Run σ' α' (Value α')} {f : ι → Run σ α (Value α)}
    {g : κ → Run σ' α' (Value α')} {as : List ι} {bs : List κ} (hx : C.Runs w x y C.Values)
    (h : List.Forall₂ (fun a b => C.Runs w (f a) (g b) C.Values) as bs) :
    C.Runs w
      (do
        let v ← x
        let is ← as.mapM fun a => f a >>= fun v => liftM v.asIndex
        Machine.elementLocation v is)
      (do
        let v ← y
        let is ← bs.mapM fun b => g b >>= fun v => liftM v.asIndex
        Machine.elementLocation v is)
      C.Locations := by
  refine hx.bind fun w₁ v v' hle hv => ?_
  refine (ints Value.Rel.asIndex_eq (forall₂_mono h hle)).bind fun w₂ is is' hle₂ his => ?_
  subst his
  exact elementLocation (hv.mono hle₂) is

theorem assign {x : Run σ α Location} {y : Run σ' α' Location} {x' : Run σ α (Value α)} {y' : Run σ' α' (Value α')}
    (hl : C.Runs w x y C.Locations) (hv : C.Runs w x' y' C.Values) :
    C.Runs w
      (do
        let l ← x
        let v ← x'
        Eval.store v l
        return v)
      (do
        let l ← y
        let v ← y'
        Eval.store v l
        return v)
      C.Values := by
  refine hl.bind fun w₁ l l' hle hl => (hv.mono hle).bind fun w₂ v v' hle₂ hv => ?_
  refine (store (hl.mono hle₂) hv).bind fun w₃ _ _ hle₃ _ => ?_
  exact .pure fun w₄ hle₄ => hv.mono (le_trans hle₃ hle₄)

theorem binary {x x' : Run σ α (Value α)} {y y' : Run σ' α' (Value α')} (op : ArithOp) (checked : Bool)
    (hx : C.Runs w x y C.Values) (hx' : C.Runs w x' y' C.Values) :
    C.Runs w
      (do
        let a ← x
        let b ← x'
        Value.arith op checked a b)
      (do
        let a ← y
        let b ← y'
        Value.arith op checked a b)
      C.Values := by
  refine hx.bind fun w₁ a a' hle ha => (hx'.mono hle).bind fun w₂ b b' hle₂ hb => ?_
  exact arith op checked (ha.mono hle₂) hb

variable {host : Host σ α} {host' : Host σ' α'} (hh : C.Hosts host host')
include hh

theorem call {enter : Enter σ α} {enter' : Enter σ' α'} (henter : C.Enters enter enter') {x : Run σ α (Value α)}
    {y : Run σ' α' (Value α')} {f : ι → Run σ α (Value α)} {g : κ → Run σ' α' (Value α')} {as : List ι} {bs : List κ}
    (hx : C.Runs w x y C.Values) (h : List.Forall₂ (fun a b => C.Runs w (f a) (g b) C.Values) as bs) :
    C.Runs w
      (do
        let callee ← x
        let args ← as.mapM f
        Machine.apply host enter callee args)
      (do
        let callee ← y
        let args ← bs.mapM g
        Machine.apply host' enter' callee args)
      C.Values := by
  refine hx.bind fun w₁ v v' hle hv => (values (forall₂_mono h hle)).bind fun w₂ vs vs' hle₂ hvs => ?_
  exact apply hh henter (hv.mono hle₂) hvs

theorem newArray (element : Ty) (bounds : List Nat) :
    C.Runs w (liftM (Grid.new element bounds) >>= Eval.newGrid) (liftM (Grid.new element bounds) >>= Eval.newGrid)
      fun w v v' => ∃ a, v = .array a ∧ v' = .array a ∧ C.Shaped w a bounds := by
  refine bind (lift fun w₁ _ => Grid.new_rel (V := C.Values w₁) element bounds .null (.defaultOf element))
    fun w₁ g g' _ hg => ?_
  exact hg.2 ▸ newGrid hh hg.1

theorem constArray (element : Ty) (bounds : List Nat) (values : List Constant) :
    C.Runs w (liftM (Grid.ofRowMajor element bounds (values.map Value.ofConstant)) >>= Eval.newGrid)
      (liftM (Grid.ofRowMajor element bounds (values.map Value.ofConstant)) >>= Eval.newGrid) C.Values := by
  have hvs (w : W) : List.Forall₂ (C.Values w) (values.map Value.ofConstant) (values.map Value.ofConstant) := by
    rw [List.forall₂_map_left_iff, List.forall₂_map_right_iff, List.forall₂_same]
    exact fun c _ => .ofConstant c
  refine bind (lift fun w₁ _ => Grid.ofRowMajor_rel element bounds .null (hvs w₁)) fun w₂ g g' _ hg => ?_
  refine (newGrid hh hg).imp fun w₃ v v' h => ?_
  obtain ⟨a, rfl, rfl, ha⟩ := h
  exact .array (C.arrays_of_shaped ha)

theorem block {locals locals' : List Var} {f : List Scope → ι → Run σ α (Value α)}
    {g : List Scope → κ → Run σ' α' (Value α')} {as : List ι} {bs : List κ} (hΓ : C.Scopes w Γ scopes scopes')
    (hsame : locals = locals' ∨ C.Renames) (hty : locals.map (·.ty) = locals'.map (·.ty))
    (h : ∀ {w scopes scopes'}, C.Scopes w (Γ.bindAll (locals.map (·.id)) (locals'.map (·.id))) scopes scopes' →
      List.Forall₂ (fun a b => C.Runs w (f scopes a) (g scopes' b) C.Values) as bs) :
    C.Runs w
      (do
        let scope ← Eval.extend [] (locals.map fun v => (v.id, .defaultOf v.ty))
        let values ← as.mapM (f (scope :: scopes))
        return values.getLastD .null)
      (do
        let scope ← Eval.extend [] (locals'.map fun v => (v.id, .defaultOf v.ty))
        let values ← bs.mapM (g (scope :: scopes'))
        return values.getLastD .null)
      C.Values := by
  have hlocals : List.Forall₂ (fun e e' => C.Values w e.2 e'.2)
      (locals.map fun v => (v.id, Value.defaultOf v.ty)) (locals'.map fun v => (v.id, Value.defaultOf v.ty)) := by
    rw [List.forall₂_map_left_iff, List.forall₂_map_right_iff]
    rw [← List.forall₂_eq_eq_eq, List.forall₂_map_left_iff, List.forall₂_map_right_iff] at hty
    refine hty.imp fun v v' hv => ?_
    rw [hv]
    exact .defaultOf v'.ty
  refine (extend hh (C.scopes_nil hΓ) (hsame.imp_left fun h => by simp [h]) hlocals).bind
    fun w₁ scope scope' _ hscope => ?_
  simp only [List.map_map, Function.comp_def] at hscope
  refine (values (h hscope)).bind fun w₂ vs vs' _ hvs => ?_
  exact .pure fun w₃ hle₃ => (forall₂_getLastD hvs .null).mono hle₃

end Runs

end Correspondence

/-! ### Trees -/

section
variable {host : Host σ α} {host' : Host σ' α'} {embed : Prim → α} {embed' : Prim → α'} {enter : Enter σ α}
  {enter' : Enter σ' α'}

open Correspondence

theorem Place.SameForm.runs {place place' : Place Prim} (hform : place.SameForm Γ place')
    (hsame : place = place' ∨ C.Renames) (hΓ : C.Scopes w Γ scopes scopes')
    (h : List.Forall₂ (fun p q => C.Runs w (m.evalWith host embed enter scopes p)
      (m.evalWith host' embed' enter' scopes' q) C.Values) place.parts place'.parts) :
    C.Runs w (m.locate host embed enter scopes place) (m.locate host' embed' enter' scopes' place') C.Locations := by
  rcases hform with hv | _
  · rw [Machine.locate, Machine.locate]
    refine (Runs.cell hΓ hv (hsame.imp_left Place.var.inj)).bind fun w₁ c d _ hc => ?_
    exact .pure fun w₂ hle => .cell (C.cells_mono hle hc)
  · rcases h with _ | ⟨harray, hindices⟩
    rw [Machine.locate, Machine.locate, Machine.evalInts_eq_mapM, Machine.evalInts_eq_mapM]
    exact .element harray hindices

/-- Trees of the same form, from their parts and from the functions at their roots. -/
theorem Prim.SameForm.runs (hh : C.Hosts host host') (henter : C.Enters enter enter') {p q : Prim}
    (hform : p.SameForm Γ q) (hsame : p = q ∨ C.Renames) (hΓ : C.Scopes w Γ scopes scopes')
    (hlambda : ∀ {code code'}, p = .lambda code → q = .lambda code' →
      C.Closures w (code.map embed) (Machine.capture scopes) (code'.map embed') (Machine.capture scopes'))
    (hquote : ∀ {stamp code stamp' code'}, p = .quote stamp code → q = .quote stamp' code' →
      C.Quotes stamp (code.map embed) stamp' (code'.map embed'))
    (h : ∀ {w scopes scopes'}, C.Scopes w ((p.naming Γ).bindAll p.binders q.binders) scopes scopes' →
      List.Forall₂ (fun p q => C.Runs w (m.evalWith host embed enter scopes p)
        (m.evalWith host' embed' enter' scopes' q) C.Values) p.parts q.parts) :
    C.Runs w (m.evalWith host embed enter scopes p) (m.evalWith host' embed' enter' scopes' q) C.Values := by
  cases hform with
  | const c =>
    rw [Machine.evalWith, Machine.evalWith]
    exact .pure fun _ _ => .ofConstant c
  | read hv =>
    rw [Machine.evalWith, Machine.evalWith]
    exact (Runs.cell hΓ hv (hsame.imp_left Prim.read.inj)).bind fun _ _ _ _ hc => .load (.cell hc)
  | @assign target target' value value' hform =>
    have hall := h hΓ
    rw [parts, parts, List.forall₂_iff_zip, List.zip_append hform.length_parts] at hall
    have hplace := List.forall₂_iff_zip.2 ⟨hform.length_parts, fun hmem => hall.2 (List.mem_append_left _ hmem)⟩
    have hvalue := hall.2 (List.mem_append_right _ (List.mem_singleton.2 rfl))
    rw [Machine.evalWith, Machine.evalWith]
    exact .assign (hform.runs (hsame.imp_left fun h => (Prim.assign.inj h).1) hΓ hplace) hvalue
  | @block locals locals' body body' hty hlen =>
    simp only [Machine.evalWith, Machine.evalAll_eq_mapM]
    exact .block hh hΓ (hsame.imp_left fun h => (Prim.block.inj h).1) hty h
  | arith op checked =>
    obtain ⟨hleft, hright⟩ := List.forall₂_cons.1 (h hΓ)
    rw [Machine.evalWith, Machine.evalWith]
    exact .binary op checked hleft (List.forall₂_cons.1 hright).1
  | step op hform =>
    rw [Machine.evalWith, Machine.evalWith]
    exact (hform.runs (hsame.imp_left fun h => (Prim.step.inj h).2) hΓ (h hΓ)).bind fun _ _ _ _ hl => .step op hl
  | newArray element =>
    rw [Machine.evalWith, Machine.evalWith, Machine.evalInts_eq_mapM, Machine.evalInts_eq_mapM]
    refine (Runs.ints Value.Rel.asBound_eq (h hΓ)).bind fun w₁ ns ns' _ hns => ?_
    subst hns
    refine (Runs.newArray hh element _).imp fun w₂ v v' h => ?_
    obtain ⟨a, rfl, rfl, ha⟩ := h
    exact .array (C.arrays_of_shaped ha)
  | constArray element bounds values =>
    rw [Machine.evalWith, Machine.evalWith]
    exact .constArray hh element bounds values
  | element =>
    obtain ⟨harray, hindices⟩ := List.forall₂_cons.1 (h hΓ)
    rw [Machine.evalWith, Machine.evalWith, Machine.evalInts_eq_mapM, Machine.evalInts_eq_mapM]
    simpa only [bind_assoc] using (Runs.element harray hindices).bind fun _ _ _ _ hl => .load hl
  | call =>
    obtain ⟨hcallee, hargs⟩ := List.forall₂_cons.1 (h hΓ)
    rw [Machine.evalWith, Machine.evalWith, Machine.evalAll_eq_mapM, Machine.evalAll_eq_mapM]
    exact .call hh henter hcallee hargs
  | callMethod method =>
    rw [Machine.evalWith, Machine.evalWith, Machine.evalAll_eq_mapM, Machine.evalAll_eq_mapM]
    cases m.methods.lookup method.name with
    | none => exact .throw
    | some f => exact (Runs.values (h hΓ)).bind fun _ _ _ _ hvs => .callHost hh f hvs
  | lambda signature params =>
    rw [Machine.evalWith, Machine.evalWith]
    exact .newClosure (hlambda rfl rfl)
  | quote signature params =>
    rw [Machine.evalWith, Machine.evalWith]
    exact .pure fun _ _ => .quoted (hquote rfl rfl)

/-- A tree beside itself, where variables keep their names. -/
theorem Prim.runs_self (hh : C.Hosts host host') (henter : C.Enters enter enter')
    (hlambda : ∀ {w scopes scopes'} (code : Lambda Prim), C.Scopes w Eq scopes scopes' →
      C.Closures w (code.map embed) (Machine.capture scopes) (code.map embed') (Machine.capture scopes'))
    (hquote : ∀ stamp (code : Lambda Prim), C.Quotes stamp (code.map embed) stamp (code.map embed')) (p : Prim) :
    ∀ {w scopes scopes'}, C.Scopes w Eq scopes scopes' →
      C.Runs w (m.evalWith host embed enter scopes p) (m.evalWith host' embed' enter' scopes' p) C.Values := by
  induction p using induction_parts with
  | _ p ih =>
    intro w scopes scopes' hs
    have hnaming : ∀ x, p.naming Eq x x := fun x => by cases p <;> rfl
    refine (SameForm.refl (fun _ => rfl) p).runs hh henter (.inl rfl) hs (fun hcode hcode' => ?_)
      (fun hcode hcode' => ?_) fun hs' => List.forall₂_same.2 fun q hq => ih q hq (C.scopes_anti ?_ hs')
    · cases hcode
      cases hcode'
      exact hlambda _ hs
    · cases hcode
      cases hcode'
      exact hquote _ _
    · rintro x _ rfl
      exact Naming.bindAll_self (hnaming x)

end

end ExprLowering
