import ExprLowering.Proofs.TypeModels

/-!
# Type soundness

The values that have the types, in a given setting, are a model of the types (`Setting.model`). So the machine
evaluates a lowered expression in a store whose cells and arrays have their types, if the host respects the signatures
that its functions are used at, to a value of the type of the expression or to a fault of typed code, and leaves such a
store (`Lowerer.eval_lower_safe`).
-/

namespace ExprLowering

section
variable {σ : Type} {E : Setting σ} {Γ : Ctx} {W : StoreTy} {t : NominalTy} {r : Nat} {v : Value}

/-! ### The model -/

theorem Fault.Dynamic.allowed {f : Fault} (h : f.Dynamic) : f.Allowed E := by
  cases h with
  | unbound x => exact .unbound x
  | undefinedMethod name => exact .undefinedMethod name
  | indexOutOfRange d i b => exact .indexOutOfRange d i b
  | stackOverflow limit => exact .stackOverflow limit

namespace Value.Has

theorem asArray (h : v.Has E W (.array t r)) :
    Ends (Fault.Allowed E) (fun a => W.grids[a]? = some (t, r)) v.asArray := by
  cases h.fits with
  | null => exact .error .nullArray
  | array ha => exact .ok ha

theorem asIndex (h : v.Has E W (.int .i32)) : Ends (Fault.Allowed E) (fun _ => True) v.asIndex := by
  cases h.fits with
  | null => exact .error .nullIndex
  | @int _ w hw =>
    rw [Value.asIndex, hw]
    exact .ok trivial

theorem calledBy {id : SigId} (h : v.Has E W (.fn id)) :
    v.CalledBy E.toVocabulary E.Used (fun Γ => W.Binds E.machine Γ) (Fault.Allowed E) id := by
  obtain ⟨hfits, hsound⟩ := h
  cases hfits with
  | null => exact .other rfl .nullCallee
  | native hf => exact .native hf
  | closure hid =>
    obtain ⟨Γ, hcode, hc⟩ := hsound
    exact .closure hid hcode hc

end Value.Has

theorem StoreTy.Binds.insert {m : Machine} {scope : Scope} {scopes : List Scope} {x : VarId} {c : CellId}
    (h : W.Binds m Γ (scope :: scopes)) (hc : W.cells[c]? = some t) :
    W.Binds m (Function.update Γ x t) (((x, c) :: scope) :: scopes) := by
  intro y d hd
  rw [Machine.lookup, findSome?_lookup_cons, List.lookup_cons] at hd
  by_cases hxy : y.id = x
  · rw [hxy, Function.update_self]
    simp only [hxy, beq_self_eq_true, Option.some_or, Option.some.injEq] at hd
    rwa [← hd]
  · rw [Function.update_of_ne hxy]
    simp only [beq_eq_false_iff_ne.2 hxy] at hd
    exact h y d (by rwa [Machine.lookup, findSome?_lookup_cons])

/-- The types as sets of values: those that fit the type and whose closures are sound. -/
def Setting.model (E : Setting σ) : TypeModel σ E.toVocabulary where
  Serves m := m = E.machine
  Has := Value.Has E
  Env _ W Γ scopes := W.Binds E.machine Γ scopes
  Element _ := True
  Allowed := Fault.Allowed E
  Used := E.Used
  Inv := E.Inv
  registered hm ho hf := E.registered ho (hm ▸ hf)
  dynamic h := h.allowed
  has_mono hle h := h.mono hle
  env_mono hle h := h.mono hle
  inv_mono := E.inv_mono
  null := .null
  const := .ofConstant
  one := .one
  paramDefault hs hf hc := .of_accepts (E.default hs hf hc) (.ofConstant _)
  defaultOf := .defaultOf
  array h := ⟨.array h, trivial⟩
  closure hcode h := ⟨.closure rfl, _, hcode, h.capture⟩
  quoted _ _ := ⟨.quoted rfl, trivial⟩
  of_accepts ha h := h.of_accepts ha
  void h := ⟨.void, h.sound⟩
  element _ := trivial
  asArray := Value.Has.asArray
  asIndex := Value.Has.asIndex
  oneLike ht h := h.oneLike ht
  arith op checked ht h hu := h.arith op checked ht hu
  callee _ h := h.calledBy
  env_cell hm h hc := h _ _ (hm ▸ hc)
  env_nil h := h
  env_insert := StoreTy.Binds.insert

/-! ### Soundness -/

/-- A lowered expression, evaluated in a typed store, leaves a typed store; it has a value that fits the type of
the expression, or fails with one of the allowed faults. -/
theorem Lowerer.eval_lower_safe {host : Host σ} {l l' : Lowerer} {e : Expr} {p : Prim} {supply supply' : Supply}
    {s : Store σ} (he : e.Obtained) (hb : e.Below supply.var) (hc : e.Coherent E.toVocabulary Γ)
    (h : l.lower e supply = (.ok p, l', supply')) (hh : E.model.Obeys host) (hs : E.model.Typed W s)
    (hg : W.Binds E.machine Γ []) :
    ∃ W', W ≤ W' ∧ W'.Binds E.machine Γ [] ∧ E.model.Typed W' ((E.machine.eval host p).run s).2 ∧
      Ends (Fault.Allowed E) (Value.Has E W' e.ty.nominal) ((E.machine.eval host p).run s).1 := by
  obtain ⟨W', hle, hs', hresult⟩ := TypeModel.runs_lower rfl hh he hb hc h hg W (le_refl _) s hs
  exact ⟨W', hle, hg.mono hle, hs', hresult⟩

end

/-! ### A call with a default

The host function `f` gives back its argument; its only parameter has the default one. -/

namespace DefaultCall

def signature : Signature := ⟨⟨"f"⟩, "f", [⟨"by", .int .i32, some (.lit (.int (.one .i32)))⟩], .int .i32⟩

def f : Var := ⟨⟨0⟩, "f", .fn signature⟩

/-- `f()` -/
def expr : Expr := .node 0 (.invoke []) [.var f]

def echo : Host Unit where
  call _ args gs a := (.ok (args.headD .null), gs, a)

def setting : Setting Unit where
  machine := { globals := [(⟨0⟩, 0)] }
  Known s := s = signature
  unique hs ht _ := hs.trans ht.symm
  default := by
    rintro _ f c rfl hf hc
    rw [List.mem_singleton.1 hf] at hc ⊢
    cases hc
    rfl
  Operator _ := False
  Used _ id := id = signature.id
  registered h := h.elim
  Inv _ _ := True
  inv_mono _ h := h
  Reports _ := False

theorem obeys : setting.model.Obeys echo := by
  rintro W _ _ args gs a rfl - hargs hgs -
  cases hargs with
  | cons hv _ => exact ⟨W, le_refl _, rfl, hgs, trivial, .ok hv⟩

def store : Store Unit where
  cells := #[.native ⟨0, "f"⟩]
  host := ()

def storeTy : StoreTy := ⟨[.fn signature.id], []⟩

theorem store_typed : setting.model.Typed storeTy store where
  size := rfl
  cell c t h := by
    obtain ⟨hlt, rfl⟩ := List.getElem?_eq_some_iff.1 h
    obtain rfl := Nat.lt_one_iff.1 hlt
    exact ⟨.native rfl, trivial⟩
  grids := ⟨rfl, fun _ _ _ h => by cases h⟩
  host := trivial

end DefaultCall

open DefaultCall in
/-- The call passes the default, and gets it back. -/
theorem Lowerer.eval_lower_safe_defaultCall :
    ∃ p, lower {} expr { var := 1 } = (.ok p, {}, { var := 1 }) ∧
      ((setting.machine.eval echo p).run store).1 = .ok (.lit (.int (.one .i32))) ∧
      ∃ W, storeTy ≤ W ∧ W.Binds setting.machine (fun _ => f.ty.nominal) [] ∧
        setting.model.Typed W ((setting.machine.eval echo p).run store).2 ∧
        Ends (Fault.Allowed setting) (Value.Has setting W (.int .i32))
          ((setting.machine.eval echo p).run store).1 := by
  have hmake : Expr.mkInvoke (.var f) [] 0 = .ok (expr, 1) := rfl
  have hobtained : expr.Obtained := .made (List.forall_mem_singleton.2 (.var f)) hmake
  have hbelow : expr.Below 1 := by simp [Expr.Below, expr, Expr.vars, Expr.varsAll, Expr.binders, f]
  have hcoherent : expr.Coherent setting.toVocabulary fun _ => f.ty.nominal :=
    .node (by simp [Head.locals]) (by simp [Head.signatures, f, Expr.ty, Ty.signature?, setting])
      (by simp [Head.methods]) (List.forall_mem_singleton.2 (.var rfl))
  have hbinds : storeTy.Binds setting.machine (fun _ => f.ty.nominal) [] := by
    intro v c hc
    simp only [Machine.lookup, setting, List.findSome?_nil, Option.none_or, List.lookup_cons] at hc
    split at hc
    · cases hc; rfl
    · cases hc
  obtain ⟨p, hp, hresult⟩ : ∃ p, lower {} expr { var := 1 } = (.ok p, {}, { var := 1 }) ∧
      ((setting.machine.eval echo p).run store).1 = .ok (.lit (.int (.one .i32))) := ⟨_, rfl, rfl⟩
  exact ⟨p, hp, hresult, eval_lower_safe hobtained hbelow hcoherent hp obeys store_typed hbinds⟩

end ExprLowering
