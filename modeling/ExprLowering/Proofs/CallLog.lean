import ExprLowering.Proofs.AlikeStores

/-!
# The calls of a run

`Host.logged` does what a host does and notes every call that it gets, with the arguments and the arrays of the
moment. The calls of a run are those that the logged host notes in it (`Machine.calls`). Noting calls makes no
difference to the run (`Machine.run_eval_logged`); that is so for every host of which another one is a projection.
-/

namespace ExprLowering

variable {σ τ : Type}

/-! ### Projections of hosts -/

/-- The store with the state of the host seen through `φ`. -/
def Store.mapHost (φ : τ → σ) (s : Store τ) : Store σ where
  cells := s.cells
  grids := s.grids
  closures := s.closures
  host := φ s.host

/-- Seen through `φ`, the first host does what the second one does. -/
def Host.Projects (φ : τ → σ) (host : Host τ) (host' : Host σ) : Prop :=
  ∀ f args gs a, host'.call f args gs (φ a) =
    ((host.call f args gs a).1, (host.call f args gs a).2.1, φ (host.call f args gs a).2.2)

section
variable {W : Type} [Preorder W] {φ : τ → σ} {m : Machine}

theorem Store.mapHost_setAt (s : Store τ) (v : Value) (l : Location) :
    (s.setAt v l).mapHost φ = (s.mapHost φ).setAt v l := by
  cases l <;> rfl

theorem Location.eq_of_rel {A : GridId → Prop} {l l' : Location} (h : l.Rel Eq A l') : l = l' := by
  rcases h with rfl | _ <;> rfl

/-- Nothing but the state of the host differs on the two sides. -/
def SameValue : Value → Value → Prop :=
  Value.Rel (fun _ => True) (fun code captured code' captured' => code = code' ∧ captured = captured')
    fun stamp code stamp' code' => stamp = stamp' ∧ code = code'

theorem sameValue_iff {v v' : Value} : SameValue v v' ↔ v = v' := by
  constructor
  · intro h
    cases h with
    | null | lit | array | native => rfl
    | closure h | quoted h =>
      obtain ⟨rfl, rfl⟩ := h
      rfl
  · rintro rfl
    cases v with
    | null => exact .null
    | lit l => exact .lit l
    | array a => exact .array trivial
    | native f => exact .native f
    | closure stamp code captured => exact .closure ⟨rfl, rfl⟩
    | quoted stamp code => exact .quoted ⟨rfl, rfl⟩

theorem Grid.eq_of_rel {g g' : Grid} (h : g.Rel SameValue g') : g = g' := by
  obtain ⟨element, bounds, data⟩ := g
  obtain ⟨_, _, data'⟩ := g'
  obtain ⟨rfl : element = _, rfl : bounds = _, hsize, hvalue⟩ := h
  congr 1
  refine Array.ext hsize fun i hi hi' => ?_
  have hi := sameValue_iff.1 (hvalue i)
  simpa [Grid.getAt, *] using hi

/-- A store and what is seen of it through `φ`. Nothing depends on the world. -/
def projection (W : Type) [Preorder W] (φ : τ → σ) (m : Machine) : Coupling W m τ σ Prim Prim where
  Cells _ := Eq
  Arrays _ _ := True
  Shaped _ _ _ := True
  Closures _ code captured code' captured' := code = code' ∧ captured = captured'
  Quotes stamp code stamp' code' := stamp = stamp' ∧ code = code'
  Scopes _ Γ scopes scopes' := Γ ≤ Eq ∧ scopes = scopes'
  Stores _ s t := t = s.mapHost φ
  Moves _ w _ _ w₁ _ _ := w ≤ w₁
  Faults := Eq
  Lenient := False
  cells_mono _ h := h
  arrays_mono _ h := h
  arrays_of_shaped h := h
  closures_mono _ h := h
  closures_params h := congrArg Lambda.params h.1
  scopes_mono _ h := h
  scopes_anti hΓ h := ⟨le_trans hΓ h.1, h.2⟩
  scopes_nil h := ⟨h.1, congrArg _ h.2⟩
  scopes_insert := by
    rintro _ Γ scope scopes scope' scopes' a b c _ ⟨hΓ, hscopes⟩ rfl hsame
    obtain rfl : a = b := hsame.resolve_right Fault.not_forall_eq
    cases hscopes
    exact ⟨Naming.bind_le_eq hΓ a, rfl⟩
  lookup := by
    rintro _ s t Γ scopes _ x y - ⟨hΓ, rfl⟩ hxy
    cases hΓ x y hxy
    cases m.cell? scopes x with
    | none => exact .none
    | some c => exact .some rfl
  faults_refl _ := rfl
  moves_refl := le_refl _
  moves_trans := le_trans
  moves_imp _ h := h
  moves_le h := h
  moves_of_cells _ _ := le_refl _
  valueAt := by
    rintro _ s _ l _ rfl hl
    cases Location.eq_of_rel hl
    refine sameValue_iff.2 ?_
    cases l <;> rfl
  setAt := by
    rintro _ s _ l _ v _ rfl hl hv
    cases Location.eq_of_rel hl
    cases sameValue_iff.1 hv
    exact ⟨(s.mapHost_setAt v l).symm, fun _ => le_refl _⟩
  bounds_eq := by
    rintro _ s _ a rfl -
    rfl
  closures_eq := by
    rintro _ s _ rfl
    rfl
  nextClosure := by
    rintro _ s _ rfl
    rfl

theorem forall₂_sameValue {vs vs' : List Value} (h : List.Forall₂ SameValue vs vs') : vs = vs' := by
  rw [← List.forall₂_eq_eq_eq]
  exact h.imp fun _ _ => sameValue_iff.1

theorem Host.Projects.hosts {host : Host τ} {host' : Host σ} (hh : host.Projects φ host') :
    (projection W φ m).Hosts host host' where
  newCell := by
    rintro w s _ v _ rfl hv
    cases sameValue_iff.1 hv
    exact .inr ⟨w, le_refl _, rfl, .ok rfl⟩
  newGrid := by
    rintro w s _ g _ rfl hg
    cases Grid.eq_of_rel hg
    exact .inr ⟨w, le_refl _, rfl, .ok ⟨s.grids.size, rfl, rfl, trivial⟩⟩
  call := by
    rintro w s _ args _ f rfl hargs
    cases forall₂_sameValue hargs
    have hcall := hh f args s.grids s.host
    have hrun : (Machine.callHost host' f args).run (s.mapHost φ) =
        (((Machine.callHost host f args).run s).1, ((Machine.callHost host f args).run s).2.mapHost φ) := by
      simp only [Machine.callHost, run_mk, Store.mapHost, hcall]
    rw [Correspondence.RunsFrom, hrun]
    exact .inr ⟨w, le_refl _, rfl, (EndsAs.of_eq rfl).imp fun _ _ => sameValue_iff.2⟩

variable {host : Host τ} {host' : Host σ}

theorem Host.Projects.runs (hh : host.Projects φ host') {enter : Enter τ} {enter' : Enter σ}
    (henter : (projection W φ m).Enters enter enter') (p : Prim) (scopes : List Scope) (w : W) :
    (projection W φ m).Runs w (m.evalWith host id enter scopes p) (m.evalWith host' id enter' scopes p)
      fun _ => SameValue :=
  p.runs_self hh.hosts henter (fun _ hs => ⟨rfl, congrArg _ hs.2⟩) (fun _ _ => ⟨rfl, rfl⟩) ⟨le_refl _, rfl⟩

theorem Host.Projects.enters (hh : host.Projects φ host') (depth : Nat) :
    (projection W φ m).Enters (m.enter host depth) (m.enter host' depth) := by
  induction depth with
  | zero => exact fun _ _ _ => .throw
  | succ depth ih =>
    rintro w code _ captured _ args args' ⟨rfl, rfl⟩ hlen hargs
    rw [Machine.enter, Machine.enter]
    have hscopes : (projection W φ m).Scopes w Eq [captured] [captured] := ⟨le_refl _, rfl⟩
    refine (Correspondence.Runs.frame hh.hosts hscopes hlen hargs).bind fun w₁ frame frame' _ hframe => ?_
    obtain ⟨rfl⟩ : frame = frame' := (List.cons.inj hframe.2).1
    exact hh.runs ih code.body [frame, captured] w₁

/-- Seen through `φ`, evaluation on the first host is evaluation on the second one. -/
theorem Host.Projects.run_eval (hh : host.Projects φ host') (p : Prim) (s : Store τ) :
    (m.eval host' p).run (s.mapHost φ) =
      (((m.eval host p).run s).1, ((m.eval host p).run s).2.mapHost φ) := by
  have hruns := hh.runs (m := m) (hh.enters m.maxCallDepth) p [] () () s _ (le_refl _) rfl
  obtain ⟨_, _, hstores, hend⟩ := hruns.resolve_left And.left
  exact Prod.ext (hend.imp fun _ _ => sameValue_iff.1).eq.symm hstores

end

/-! ### Calls -/

/-- What a function of the host is called with. -/
structure HostCall where
  function : NativeFn
  args : List Value
  grids : Array Grid

/-- The host, which notes its calls. -/
def Host.logged (host : Host σ) : Host (σ × List HostCall) where
  call f args gs a := ((host.call f args gs a.1).1, (host.call f args gs a.1).2.1,
    (host.call f args gs a.1).2.2, a.2 ++ [⟨f, args, gs⟩])

/-- The store, when no call is noted yet. -/
def Store.logged (s : Store σ) : Store (σ × List HostCall) :=
  s.mapHost fun a => (a, [])

/-- The calls of host functions, also as operators, when a tree is evaluated. -/
def Machine.calls (host : Host σ) (m : Machine) (p : Prim) (s : Store σ) : List HostCall :=
  ((m.eval host.logged p).run s.logged).2.host.2

/-- Noting calls makes no difference to the run. -/
theorem Machine.run_eval_logged (host : Host σ) (m : Machine) (p : Prim) (s : Store σ) :
    (m.eval host p).run s = (((m.eval host.logged p).run s.logged).1,
      ((m.eval host.logged p).run s.logged).2.mapHost Prod.fst) := by
  have hh : host.logged.Projects Prod.fst host := fun _ _ _ _ => rfl
  exact hh.run_eval p s.logged

section
variable {L : Prop} {R : Pairing → σ → σ → Prop} {m : Machine} {w w' : Pairing}

/-- The same function is called with arguments and arrays that are alike. -/
structure HostCall.Alike (L : Prop) (m : Machine) (w : Pairing) (c c' : HostCall) : Prop where
  function : c.function = c'.function
  args : List.Forall₂ (Value.Alike L m w) c.args c'.args
  grids : GridsAlike L m w c.grids c'.grids

theorem HostCall.Alike.mono {c c' : HostCall} (h : c.Alike L m w c') (hle : w ≤ w') : c.Alike L m w' c' :=
  ⟨h.function, h.args.imp fun _ _ h => h.mono hle, h.grids.mono hle⟩

/-- The states of the host are related, and the calls were alike. -/
def LoggedAlike (L : Prop) (R : Pairing → σ → σ → Prop) (m : Machine) (w : Pairing) (a b : σ × List HostCall) : Prop :=
  R w a.1 b.1 ∧ List.Forall₂ (HostCall.Alike L m w) a.2 b.2

theorem Host.Opaque.logged {host : Host σ} (h : host.Opaque L R m) : host.logged.Opaque L (LoggedAlike L R m) m where
  mono hle hab := ⟨h.mono hle hab.1, hab.2.imp fun _ _ h => h.mono hle⟩
  call f hargs hgrids hab := by
    obtain ⟨hr, hgrids', hstate⟩ := h.call f hargs hgrids hab.1
    exact ⟨hr, hgrids', hstate, List.rel_append hab.2 (.cons ⟨rfl, hargs, hgrids⟩ .nil)⟩

end

end ExprLowering
