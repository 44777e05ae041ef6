import ExprLowering.Proofs.AlikeRuns
import ExprLowering.Proofs.CallLog
import ExprLowering.Proofs.Effects
import ExprLowering.Proofs.Preservation
import ExprLowering.Proofs.UncheckedLowering

/-!
# Runs without overflow checks

From one and the same store, where the cells stand for themselves (`Store.identity`), the lowering of an expression
without overflow checks returns a value whenever the lowering of the expression does (`eval_lower_uncheck`).
-/

namespace ExprLowering

variable {σ : Type} {L : Prop} {R : Pairing → σ → σ → Prop} {m : Machine} {s : Store σ}

/-! ### A store is like itself -/

/-- Each cell of the store stands for itself. -/
def Store.identity (s : Store σ) : Pairing :=
  fun c d => c = d ∧ c < s.cells.size

theorem Store.rel_lookup {scope : Scope} (hscope : ∀ e ∈ scope, e.2 < s.cells.size) (x : VarId) :
    Option.Rel s.identity (scope.lookup x) (scope.lookup x) := by
  cases hl : scope.lookup x with
  | none => exact .none
  | some c =>
    obtain ⟨l₁, l₂, rfl, -⟩ := List.lookup_eq_some_iff.1 hl
    exact .some ⟨rfl, hscope (x, c) (by simp)⟩

namespace Store.Closed

theorem paired (h : s.Closed m) {scope : Scope} (hscope : ∀ e ∈ scope, e.2 < s.cells.size) :
    Naming.Paired m s.identity Eq [scope] [scope] := by
  rintro x _ rfl
  have hlocal := rel_lookup hscope x
  have hglobal := rel_lookup h.globals x
  rw [Machine.cell?, findSome?_lookup_cons, List.findSome?_nil, Option.or_none]
  cases hl : scope.lookup x with
  | none => exact hglobal
  | some c =>
    rw [hl] at hlocal
    exact hlocal

theorem value (h : s.Closed m) {v : Value} (hv : v.Within s.cells.size s.grids.size) :
    v.Alike L m s.identity v := by
  have hcode (params : List VarId) (p : Prim) : p.Alike L (Naming.bindAll Eq params params) p :=
    .refl (fun _ => Naming.bindAll_self rfl) p
  cases v with
  | null => exact .null
  | lit l => exact .lit l
  | array a => exact .array trivial
  | native f => exact .native f
  | closure stamp code captured => exact .closure ⟨Eq, ⟨rfl, rfl, hcode _ _⟩, h.paired hv⟩
  | quoted stamp code => exact .quoted ⟨rfl, rfl, hcode _ _⟩

theorem alike (h : s.Closed m) (hR : R s.identity s.host s.host) : s.Alike L R m s.identity s where
  left := fun hc => hc.2
  right := by
    rintro c d ⟨rfl, hc⟩
    exact hc
  inj := by
    rintro c d c' d' ⟨rfl, -⟩ ⟨rfl, -⟩
    exact Iff.rfl
  cell := by
    rintro c d ⟨rfl, -⟩
    exact h.value (Value.within_getD h.cells c)
  grids := by
    refine ⟨rfl, fun a => ⟨rfl, rfl, rfl, fun i => h.value ?_⟩⟩
    rw [Array.getD_eq_getD_getElem?]
    cases hg : s.grids[a]? with
    | none => exact trivial
    | some g => exact Value.within_getD (h.grids g (Array.mem_of_getElem? hg)) i
  closures := rfl
  host := hR

end Store.Closed

/-! ### Evaluation from one store -/

theorem Store.Alike.of_logged {w : Pairing} {s t : Store (σ × List HostCall)}
    (h : s.Alike L (LoggedAlike L R m) m w t) : (s.mapHost Prod.fst).Alike L R m w (t.mapHost Prod.fst) :=
  ⟨h.left, h.right, h.inj, h.cell, h.grids, h.closures, h.host.1⟩

theorem EvalFollows.eval {host : Host σ} {p q : Prim}
    (h : EvalFollows L (LoggedAlike L R m) m host.logged (m.enter host.logged m.maxCallDepth) s.identity [] [] p q)
    (hs : s.Closed m) (hR : R s.identity s.host s.host) :
    (L ∧ ∃ f, ((m.eval host p).run s).1 = .error f) ∨
      ∃ w, s.identity ≤ w ∧ EndAlike (Value.Alike L m w) ((m.eval host p).run s).1 ((m.eval host q).run s).1 ∧
        ((m.eval host p).run s).2.Alike L R m w ((m.eval host q).run s).2 ∧
        List.Forall₂ (HostCall.Alike L m w) (m.calls host p s) (m.calls host q s) := by
  have hclosed : s.logged.Closed m := ⟨hs.globals, hs.cells, hs.grids⟩
  have hstart : s.logged.Alike L (LoggedAlike L R m) m s.logged.identity s.logged := hclosed.alike ⟨hR, .nil⟩
  rw [Machine.run_eval_logged host m p s, Machine.run_eval_logged host m q s]
  rcases Correspondence.Runs.runsFrom (K := fun _ => True) h hstart with herror | ⟨w, hgrow, hstores, hend⟩
  · exact .inl herror
  · exact .inr ⟨w, hgrow.le, hend, hstores.of_logged, hstores.host.2⟩

/-- No variable is in scope at first but the global ones, which keep their names. -/
theorem Store.Closed.paired_nil (h : s.Closed m) : Naming.Paired m s.identity Eq [] [] := by
  have hempty : Naming.Paired m s.identity Eq [[]] [[]] := h.paired fun _ he => nomatch he
  exact hempty

/-- Where the evaluation of a tree returns, that of a tree like it does. -/
theorem Prim.Alike.eval {host : Host σ} {p q : Prim} (h : p.Alike L Eq q) (hh : host.Opaque L R m) (hs : s.Closed m)
    (hR : R s.identity s.host s.host) {v : Value} {s₁ : Store σ} (hrun : (m.eval host p).run s = (.ok v, s₁)) :
    ∃ w v' t₁, (m.eval host q).run s = (.ok v', t₁) ∧ s.identity ≤ w ∧ v.Alike L m w v' ∧ s₁.Alike L R m w t₁ ∧
      List.Forall₂ (HostCall.Alike L m w) (m.calls host p s) (m.calls host q s) := by
  have hfollows := h.follows hh.logged (enterFollows hh.logged m.maxCallDepth) hs.paired_nil
  rcases EvalFollows.eval hfollows hs hR with ⟨-, f, hf⟩ | ⟨w, hle, hend, hstores, hcalls⟩
  · rw [hrun] at hf
    cases hf
  · rcases hrun' : (m.eval host q).run s with ⟨r, t₁⟩
    rw [hrun, hrun'] at hend hstores
    cases hend with
    | ok hv => exact ⟨w, _, t₁, rfl, hle, hv, hstores, hcalls⟩

/-- Overflow checks on increments only ever turn success into failure. The checks of an expression can be dropped; the
result has the same type, and is lowered whenever the expression is. If then the lowered expression returns a value,
the one without checks returns the corresponding value from the same store, after corresponding calls of the host, and
leaves corresponding values in all variables and arrays. -/
theorem Lowerer.eval_lower_uncheck {e : Expr} {ts : TraversalState Nat} (he : e.Obtained) (hold : e.Older ts.stamp) :
    ∃ e' ts', (e.traverse .uncheck).run ts = (.ok e', ts') ∧ e.Unchecks e' ∧ e'.ty = e.ty ∧
      (∀ (l : Lowerer) (u u' : Supply), (∃ p, (l.lower e u).1 = .ok p) ↔ ∃ p, (l.lower e' u').1 = .ok p) ∧
      ∀ {l : Lowerer} {u u' : Supply} {p p' : Prim}, e.Below u.var → e.Below u'.var →
        (l.lower e u).1 = .ok p → (l.lower e' u').1 = .ok p' →
      ∀ {σ : Type} {R : Pairing → σ → σ → Prop} {m : Machine} {host : Host σ} {s s₁ : Store σ} {v : Value},
        host.Opaque True R m → s.Closed m → R s.identity s.host s.host →
        (m.eval host p).run s = (.ok v, s₁) →
      ∃ w v' t₁, (m.eval host p').run s = (.ok v', t₁) ∧ v.Alike True m w v' ∧
        (∀ c, c < s.cells.size → w c c ∧ (s₁.cells.getD c .null).Alike True m w (t₁.cells.getD c .null)) ∧
        (∀ a, a < s.grids.size → (s₁.grids.getD a default).Alike True m w (t₁.grids.getD a default)) ∧
        s₁.Alike True R m w t₁ ∧
        List.Forall₂ (HostCall.Alike True m w) (m.calls host p s) (m.calls host p' s) := by
  obtain ⟨e', ts', hrun, -, hun, -⟩ := Expr.dropsChecks he.wellMade ts hold
  refine ⟨e', ts', hrun, hun, hun.ty_eq, fun l => lower_succeeds_of_unchecks he.wellMade hun, ?_⟩
  intro l u u' p p' hb hb' hp hp' σ R m host s s₁ v hh hs hR heval
  have hmin : e.Below (min u.var u'.var) := fun x hx => lt_min (hb x hx) (hb' x hx)
  have hlowered {e : Expr} {u : Supply} {p : Prim} (h : (l.lower e u).1 = .ok p) : ∃ u₁, LoweredTo l.options e p u u₁ :=
    ⟨_, loweredTo (Prod.ext h rfl)⟩
  obtain ⟨u₁, hp⟩ := hlowered hp
  obtain ⟨u₁', hp'⟩ := hlowered hp'
  obtain ⟨halike, -⟩ := hun.lowersAlike he.wellMade hmin _ _ _ _ _ _ (min_le_left _ _) (min_le_right _ _) hp hp'
  obtain ⟨w, v', t₁, heval', hle, hv, hstores, hcalls⟩ := (halike Eq fun _ _ => rfl).eval hh hs hR heval
  refine ⟨w, v', t₁, heval', hv, fun c hc => ?_, fun a _ => hstores.grids.grid a, hstores, hcalls⟩
  have hcc := hle c c ⟨rfl, hc⟩
  exact ⟨hcc, hstores.cell hcc⟩

theorem Increment.counter_opaque : counter.Opaque L (fun _ => Eq) m where
  mono _ h := h
  call _ _ hgrids h := ⟨.ok (.lit _), hgrids, congrArg (· + 1) h⟩

open Increment (counter machine store) in
/-- Without its check `xs[f()]++` returns the old element and stores the new one, and calls `f` once. -/
theorem Lowerer.eval_lower_uncheck_increment :
    ∃ e' t p' v' t₁, (CheckedIncrement.expr.traverse .uncheck).run ⟨3, 0⟩ = (.ok e', t) ∧
      (lower {} e' { var := 2 }).1 = .ok p' ∧ (machine.eval counter p').run (store [1]) = (.ok v', t₁) ∧
      v'.asIndex.toOption = some 0 ∧ ((t₁.grids.getD 0 default).getAt 0).asIndex.toOption = some 1 ∧
      (machine.calls counter p' (store [1])).map (·.function) = [⟨0, "f"⟩] := by
  have hbelow : CheckedIncrement.expr.Below 2 := by
    simp [Expr.Below, CheckedIncrement.expr, CheckedIncrement.location, CheckedIncrement.callF, CheckedIncrement.xs,
      CheckedIncrement.f, Expr.vars, Expr.varsAll, Expr.binders]
  have hold : CheckedIncrement.expr.Older (TraversalState.mk 3 0).stamp := by
    have hvar (v : Var) : (Expr.var v).Older 3 := .leaf rfl
    have hcall : CheckedIncrement.callF.Older 3 := .node (by decide) (by simp [hvar])
    have hlocation : CheckedIncrement.location.Older 3 := .node (by decide) (by simp [hvar, hcall])
    exact .node (by decide) (by simp [hlocation])
  obtain ⟨e', t, htraverse, -, -, hlowers, hreturns⟩ := eval_lower_uncheck CheckedIncrement.expr_obtained hold
  -- The checked increment itself is run here.
  obtain ⟨p, hp, hvalue, helement, hcalls⟩ : ∃ p, (lower {} CheckedIncrement.expr { var := 2 }).1 = .ok p ∧
      (((machine.eval counter p).run (store [1])).1.bind Value.asIndex).toOption = some 0 ∧
      ((((machine.eval counter p).run (store [1])).2.grids.getD 0 default).getAt 0).asIndex.toOption = some 1 ∧
      (machine.calls counter p (store [1])).map (·.function) = [⟨0, "f"⟩] :=
    ⟨_, rfl, by decide +kernel, by decide +kernel, by decide +kernel⟩
  obtain ⟨p', hp'⟩ := (hlowers {} { var := 2 } { var := 2 }).1 ⟨p, hp⟩
  rcases hrun : (machine.eval counter p).run (store [1]) with ⟨v | v, s₁⟩
  · rw [hrun] at hvalue
    cases hvalue
  · rw [hrun] at hvalue helement
    obtain ⟨w, v', t₁, hrun', hv, -, hgrids, -, hcalls'⟩ :=
      hreturns hbelow hbelow hp hp' Increment.counter_opaque (Increment.store_closed [1]) rfl hrun
    refine ⟨e', t, p', v', t₁, htraverse, hp', hrun', ?_, ?_, ?_⟩
    · exact hv.asIndex_eq ▸ hvalue
    · exact ((hgrids 0 (by decide)).value 0).asIndex_eq ▸ helement
    · rw [← hcalls, ← List.forall₂_eq_eq_eq, List.forall₂_map_left_iff, List.forall₂_map_right_iff]
      exact hcalls'.flip.imp fun _ _ h => h.function.symm

end ExprLowering
