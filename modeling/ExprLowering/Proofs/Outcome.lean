/-!
# Runs of computations with state and failure

Lowering, evaluation and traversal are computations that thread a state and may fail, the state
outliving the failure; making nodes threads one that is lost with it. The lemmas here take such runs
apart step by step.
-/

namespace ExprLowering

section
variable {ε σ α β : Type} {x : ExceptT ε (StateM σ) α} {f : α → ExceptT ε (StateM σ) β}

theorem run_bind (x : ExceptT ε (StateM σ) α) (f : α → ExceptT ε (StateM σ) β) (s : σ) :
    (x >>= f).run s = match x.run s with
      | (.ok a, s') => (f a).run s'
      | (.error e, s') => (.error e, s') := by
  show (match x.run s with | (a, s') => ExceptT.bindCont f a s') = _
  rcases x.run s with ⟨_ | _, _⟩ <;> rfl

theorem run_liftM (r : Except ε α) (s : σ) : (liftM r : ExceptT ε (StateM σ) α).run s = (r, s) := rfl

theorem run_mk (f : σ → Except ε α × σ) (s : σ) : (ExceptT.mk f : ExceptT ε (StateM σ) α).run s = f s :=
  rfl

theorem run_bind_of_ok {s s' : σ} {a : α} (h : x.run s = (.ok a, s')) :
    (x >>= f).run s = (f a).run s' := by
  rw [run_bind, h]

theorem run_bind_of_error {s s' : σ} {e : ε} (h : x.run s = (.error e, s')) :
    (x >>= f).run s = (.error e, s') := by
  rw [run_bind, h]

theorem run_bind_eq_ok {s s'' : σ} {b : β} :
    (x >>= f).run s = (.ok b, s'') ↔
      ∃ a s', x.run s = (.ok a, s') ∧ (f a).run s' = (.ok b, s'') := by
  rw [run_bind]
  rcases x.run s with ⟨e | a, s'⟩
  · constructor
    · intro h
      cases h
    · rintro ⟨a, t, ht, -⟩
      cases ht
  · constructor
    · intro h
      exact ⟨a, s', rfl, h⟩
    · rintro ⟨a', t, ht, h⟩
      cases ht
      exact h

end

section
variable {ε σ α β : Type} {x : StateT σ (Except ε) α} {f : α → StateT σ (Except ε) β} {s s' : σ}

theorem build_bind_of_ok {a : α} {t : σ} (h : x s = .ok (a, t)) : (x >>= f) s = f a t := by
  show (x s >>= fun p => f p.1 p.2) = _
  rw [h]
  rfl

theorem build_bind_of_error {e : ε} (h : x s = .error e) : (x >>= f) s = .error e := by
  show (x s >>= fun p => f p.1 p.2) = _
  rw [h]
  rfl

theorem build_bind_eq_ok {b : β} :
    (x >>= f) s = .ok (b, s') ↔ ∃ a t, x s = .ok (a, t) ∧ f a t = .ok (b, s') := by
  rcases hx : x s with e | ⟨a, t⟩
  · rw [build_bind_of_error hx]
    exact ⟨nofun, nofun⟩
  · rw [build_bind_of_ok hx]
    constructor
    · intro h
      exact ⟨a, t, rfl, h⟩
    · rintro ⟨a', t', ht, h⟩
      cases ht
      exact h

theorem build_liftM_eq_ok {r : Except ε α} {a : α} :
    (liftM r : StateT σ (Except ε) α) s = .ok (a, s') ↔ r = .ok a ∧ s = s' := by
  show (r >>= fun a => .ok (a, s)) = .ok (a, s') ↔ _
  cases r with
  | error => simp [bind, Except.bind]
  | ok b => simp [bind, Except.bind]

end

end ExprLowering
