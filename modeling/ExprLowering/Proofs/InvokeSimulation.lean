import ExprLowering.Proofs.StepSimulation

/-!
# Invocations in a simulation

The values of an invocation are evaluated in binding order and passed in declaration order. If the two orders
are the same, a lowered invocation is a call whose arguments are the values, with constants for defaults in
between; otherwise the values are held in temporaries.
-/

namespace ExprLowering

open Correspondence

variable {σ σ' : Type} {R : World → σ → σ' → Prop} {m : Machine} {host : Host σ Code} {host' : Host σ'}
  {enter : Enter σ Code} {enter' : Enter σ'} {w : World} {s : Store σ Code} {s' : Store σ'}
  {scopes scopes' : List Scope} {slots : List Slot}

/-- Evaluating bindings and laying them out, beside evaluating the arguments that are laid out already. Each
slot takes the next binding, or none. -/
theorem sims_arguments {ι : Type} {f : ι → Run σ Code (Value Code)} {es : List ι} {ps : List Prim}
    (before : List Prim) (first : List (Value Code))
    (hes : List.Forall₂ (fun e p => Sims R m w (f e) (Machine.evalWith host' m id enter' scopes' p) Value.Agrees)
      es ps)
    (hb : slots.filterMap Slot.binding? = List.range' before.length es.length)
    (hlen : first.length = before.length) :
    Sims R m w (es.mapM f >>= fun vs => pure (slots.map (Slot.pick Value.ofConstant (first ++ vs))))
      ((slots.map (Slot.pick .const (before ++ ps))).mapM (Machine.evalWith host' m id enter' scopes'))
      fun w => List.Forall₂ (Value.Agrees w) := by
  induction slots generalizing w es ps before first with
  | nil =>
    cases hes with
    | nil => exact .pure fun _ _ => .nil
    | cons => cases hb
  | cons slot slots ih =>
    cases slot with
    | default c =>
      rw [List.filterMap_cons] at hb
      have hsplit : (es.mapM f >>= fun vs =>
            pure ((.default c :: slots).map (Slot.pick Value.ofConstant (first ++ vs)))) =
          (es.mapM f >>= fun vs => pure (slots.map (Slot.pick Value.ofConstant (first ++ vs)))) >>= fun args =>
            pure (.ofConstant c :: args) := by
        simp only [bind_assoc, pure_bind, List.map_cons, Slot.pick]
      rw [hsplit]
      simp only [List.map_cons, List.mapM_cons, Slot.pick, Machine.evalWith, pure_bind]
      refine (ih before first hes hb hlen).bind fun w₁ args args' _ h => ?_
      exact .pure fun w₂ hle => .cons (.ofConstant c) (h.imp fun _ _ h => h.mono hle)
    | bound i =>
      rw [List.filterMap_cons] at hb
      simp only [Slot.binding?] at hb
      cases hes with
      | nil => cases hb
      | @cons e p es ps he hes =>
        rw [List.length_cons, List.range'_succ, List.cons.injEq] at hb
        obtain ⟨rfl, hb⟩ := hb
        have hp : Slot.pick .const (before ++ p :: ps) (.bound before.length) = p := by simp [Slot.pick]
        have hv (v : Value Code) (vs : List (Value Code)) :
            Slot.pick Value.ofConstant (first ++ v :: vs) (.bound before.length) = v := by simp [Slot.pick, ← hlen]
        simp only [List.map_cons, List.mapM_cons, hp, bind_assoc, pure_bind, hv]
        refine he.bind fun w₁ v v' hle hv => ?_
        have hsplit : (es.mapM f >>= fun vs =>
              pure (v :: slots.map (Slot.pick Value.ofConstant (first ++ v :: vs)))) =
            (es.mapM f >>= fun vs => pure (slots.map (Slot.pick Value.ofConstant (first ++ [v] ++ vs)))) >>= fun args =>
              pure (v :: args) := by
          simp only [bind_assoc, pure_bind, List.append_assoc, List.singleton_append]
        have ih := ih (before ++ [p]) (first ++ [v]) (Runs.forall₂_mono hes hle) (by simpa using hb)
          (by simp [hlen])
        rw [List.append_assoc, List.singleton_append] at ih
        rw [hsplit]
        refine ih.bind fun w₂ args args' hle₂ h => ?_
        exact .pure fun w₃ hle₃ => .cons (hv.mono (le_trans hle₂ hle₃)) (h.imp fun _ _ h => h.mono hle₃)

theorem Ready.values {ps : List Prim} {vs : List (Value Code)} (h : List.Forall₂ (Ready m scopes' w s') ps vs) :
    ∃ vs', (ps.mapM (Machine.evalWith host' m id enter' scopes')).run s' = (.ok vs', s') ∧
      List.Forall₂ (Value.Agrees w) vs vs' := by
  induction h with
  | nil => exact ⟨[], rfl, .nil⟩
  | @cons p v ps vs hp _ ih =>
    obtain ⟨v', hrun, hv⟩ : ∃ v', (Machine.evalWith host' m id enter' scopes' p).run s' = (.ok v', s') ∧
        v.Agrees w v' := hp.run
    obtain ⟨vs', hruns, hvs⟩ := ih
    refine ⟨v' :: vs', ?_, .cons hv hvs⟩
    rw [List.mapM_cons, run_bind_of_ok hrun, run_bind_of_ok hruns]
    rfl

theorem Expr.arguments_eq {params : List Descriptor} {ty : Ty} {signature : Signature}
    (hc : ty.signature? = some signature) (hs : signature.slots? params = some slots) (vs : List (Value Code)) :
    (Expr.arguments params ty vs : Run σ Code _) = pure (slots.map (Slot.pick Value.ofConstant vs)) := by
  have hslots : ty.signature?.bind (·.slots? params) = some slots := by rw [hc, Option.bind_some, hs]
  rw [Expr.arguments, hslots]

theorem InvokeForm.sims (hh : host.Agrees R host') (henter : EnterAgrees R m enter enter') {stamp : Stamp} {n : Nat}
    {params : List Descriptor} {callee : Expr} {values : List Expr} {c p : Prim} {vs : List Prim}
    {u u₁ u₂ : Supply} (hform : InvokeForm params callee.ty (values.map Expr.ty) c vs p u₁ u₂)
    (he : Expr.WellMade (.node stamp (.invoke params) (callee :: values)))
    (hall : Threaded (Mirrors R m host host' enter enter') (callee :: values) (c :: vs) u u₁)
    (hb : ∀ e ∈ callee :: values, e.Below n) (hn : n ≤ u.var)
    (hsc : w.SameScopes (fun x => x.val < n) scopes scopes') :
    Sims R m w (Expr.evalWith host m .split enter scopes (.node stamp (.invoke params) (callee :: values)))
      (Machine.evalWith host' m id enter' scopes' p) Value.Agrees := by
  have hbound {signature : Signature} (hc : callee.ty.signature? = some signature) : signature.Bound params := by
    cases he.allows with
    | invoke hc' _ hb =>
      cases hc.symm.trans hc'
      exact hb
  have hlen : vs.length = params.length := by
    rw [he.invoke_length]
    exact (Nat.succ.inj hall.length).symm
  have heval : Expr.evalWith host m .split enter scopes (.node stamp (.invoke params) (callee :: values)) =
      callee.evalWith host m .split enter scopes >>= fun f =>
        values.mapM (Expr.evalWith host m .split enter scopes) >>= fun vs =>
          Expr.arguments params callee.ty vs >>= Machine.apply host enter f := by
    rw [Expr.evalWith, Expr.evalAll_eq_mapM]
  cases hform with
  | @direct signature slots args _ hc hs ho ha =>
    cases (hbound hc).arrange hs hlen ▸ ha
    cases hall.sims hb hn hsc with
    | cons hcallee hvalues =>
      simp only [heval, Expr.arguments_eq hc hs, Machine.evalWith, Machine.evalAll_eq_mapM]
      refine hcallee.bind fun w₁ f f' hle hf => ?_
      have hrange : slots.filterMap Slot.binding? = List.range' 0 values.length := by
        rw [(hbound hc).bindings_eq_range hs ho, he.invoke_length, List.range_eq_range']
      have hargs := sims_arguments [] [] (Runs.forall₂_mono hvalues hle) hrange rfl
      simp only [List.nil_append] at hargs
      rw [← bind_assoc]
      exact hargs.bind fun w₂ args args' hle₂ h => .apply hh.hosts henter (hf.mono hle₂) h
  | @spilled signature slots callee' values' args temps _ _ hc hs ho hk ha =>
    have hlen' : values'.length = params.length := by
      rw [← hlen]
      exact Nat.succ.inj hk.length
    cases (hbound hc).arrange hs hlen' ▸ ha
    have hnodup : (Temp.ids temps).Nodup := hk.ids_eq ▸ Supply.nodup_taken
    have hsplit : Expr.evalWith host m .split enter scopes (.node stamp (.invoke params) (callee :: values)) =
        (callee :: values).mapM (Expr.evalWith host m .split enter scopes) >>= fun vs =>
          Expr.arguments params callee.ty vs.tail >>= Machine.apply host enter (vs.headD .null) := by
      rw [heval, List.mapM_cons]
      simp only [bind_assoc, pure_bind, List.tail_cons, List.headD_cons]
    intro w₁ s s' hle hs'
    refine Sim.scope hs' (fun _ => rfl) hnodup fun scopes'' t' hout hown ht => ?_
    have hnu := Nat.le_trans hn (hall.le Mirrors.le)
    have hsc' := (hsc.mono hle).of_temps (fun x hx => Nat.le_trans hnu (Supply.le_of_mem_taken (hk.ids_eq ▸ hx))) hout
    rw [List.append_nil, hsplit]
    refine hk.sim (hall.sims hb hn hsc') hown hnodup ht (fun _ h => h) fun w₂ t t' vs hf ht hvs => ?_
    cases hvs with
    | @cons _ f _ vs hf hvs =>
      obtain ⟨f', hrun, hf⟩ : ∃ f', (Machine.evalWith host' m id enter' scopes'' callee').run t' = (.ok f', t') ∧
          f.Agrees w₂ f' := hf.run
      have hready := Slot.forall₂_pick (fun c => Ready.const (.ofConstant c)) hvs fun i hi =>
        hlen' ▸ (hbound hc).binding_lt hs i hi
      obtain ⟨args', hruns, hargs⟩ : ∃ args', ((slots.map (Slot.pick .const values')).mapM
          (Machine.evalWith host' m id enter' scopes'')).run t' = (.ok args', t') ∧
            List.Forall₂ (Value.Agrees w₂) (slots.map (Slot.pick Value.ofConstant vs)) args' :=
        Ready.values hready
      simp only [List.tail_cons, List.headD_cons, Expr.arguments_eq hc hs, pure_bind, Machine.evalWith,
        Machine.evalAll_eq_mapM]
      exact .right hrun .refl (.right hruns .refl ((Runs.apply hh.hosts henter hf hargs).runsFrom ht))

end ExprLowering
