import ExprLowering.Expr.Check
import ExprLowering.Proofs.Invocation

/-!
# What the check of a head establishes

`Head.Allows` is the rule of each node, one constructor for each head; the two forms of a step have one
each. Parts that pass `Head.check` obey it (`allows_of_check`).
-/

namespace ExprLowering

/-- The rule of a node. -/
inductive Head.Allows : Head → List Expr → Prop
  | index {base : Expr} {indices : List Expr} {element : Ty}
      (hb : base.ty.element? = some (element, indices.length))
      (hi : ∀ i ∈ indices, (Ty.int .i32).accepts i.ty = true) : Allows .index (base :: indices)
  | binary {op : ArithOp} {checked : Bool} {left right : Expr} (hl : left.ty.isArithmetic = true)
      (hr : right.ty == left.ty) : Allows (.binary op checked) [left, right]
  | call {callee : Expr} {args : List Expr} {signature : Signature}
      (hc : callee.ty.signature? = some signature)
      (ha : List.Forall₂ (fun (f : Formal) (e : Expr) => f.ty.accepts e.ty = true) signature.params args) :
      Allows .call (callee :: args)
  | assign {target value : Expr} (hl : target.isLocation = true) (hv : target.ty.accepts value.ty = true) :
      Allows .assign [target, value]
  | block {locals : List Var} {body : List Expr} (hb : body ≠ []) : Allows (.block locals) body
  | lambda {signature : Signature} {params : List Var} {body : Expr}
      (hp : List.Forall₂ (fun (f : Formal) (v : Var) => (f.ty == v.ty) = true) signature.params params)
      (hb : signature.result == .void ∨ signature.result.accepts body.ty = true) :
      Allows (.lambda signature params) [body]
  | quote {operand : Expr} (h : operand.isLambda = true) : Allows .quote [operand]
  | stepByOne {k : StepKind} {operand : Expr} (hl : operand.isLocation = true)
      (ha : operand.ty.isArithmetic = true) : Allows (.step k none) [operand]
  | stepByMethod {k : StepKind} {m : Method} {operand : Expr} {param : Formal}
      (hl : operand.isLocation = true) (hm : m.signature.params = [param])
      (hp : param.ty.accepts operand.ty = true) (hr : operand.ty.accepts m.signature.result = true) :
      Allows (.step k (some m)) [operand]
  | array {element : Ty} {bounds : List Int32} {elements : List Expr} (hv : (element == .void) = false)
      (hb : bounds ≠ []) (hs : checkBounds 0 1 bounds = .ok elements.length) :
      Allows (.array element bounds) elements
  | invoke {params : List Descriptor} {callee : Expr} {values : List Expr} {signature : Signature}
      (hc : callee.ty.signature? = some signature)
      (hv : List.Forall₂ (fun (d : Descriptor) (e : Expr) => d.ty.accepts e.ty = true) params values)
      (hb : signature.Bound params) : Allows (.invoke params) (callee :: values)

section
variable {es : List Expr}

theorem except_bind_eq_ok {ε α β : Type} {x : Except ε α} {f : α → Except ε β} {b : β} :
    (x >>= f) = .ok b ↔ ∃ a, x = .ok a ∧ f a = .ok b := by
  cases x with
  | error => simp [bind, Except.bind]
  | ok a => simp [bind, Except.bind]

theorem checkAssignable_eq_ok {t : Ty} {e : Expr} : checkAssignable t e = .ok () ↔ t.accepts e.ty = true := by
  simp [checkAssignable]

theorem checkCount_eq_ok {m n : Nat} : checkCount m n = .ok () ↔ n = m := by
  simp [checkCount]

theorem checkLocation_eq_ok {e : Expr} : checkLocation e = .ok () ↔ e.isLocation = true := by
  simp [checkLocation]

theorem accepts_of_checkAll {ts : List Ty} (hl : es.length = ts.length) (h : checkAll ts es = .ok ()) :
    List.Forall₂ (fun (t : Ty) (e : Expr) => t.accepts e.ty = true) ts es := by
  induction ts generalizing es with
  | nil =>
    obtain rfl := List.length_eq_zero_iff.1 hl
    exact .nil
  | cons t ts ih =>
    cases es with
    | nil => cases hl
    | cons e es =>
      obtain ⟨_, he, hes⟩ := except_bind_eq_ok.1 h
      exact .cons (checkAssignable_eq_ok.1 he) (ih (Nat.succ.inj hl) hes)

theorem beq_of_checkParams {fs : List Formal} {vs : List Var} (hl : vs.length = fs.length)
    (h : checkParams fs vs = .ok ()) :
    List.Forall₂ (fun (f : Formal) (v : Var) => (f.ty == v.ty) = true) fs vs := by
  induction fs generalizing vs with
  | nil =>
    obtain rfl := List.length_eq_zero_iff.1 hl
    exact .nil
  | cons f fs ih =>
    cases vs with
    | nil => cases hl
    | cons v vs =>
      rw [checkParams] at h
      split_ifs at h with hv
      exact .cons hv (ih (Nat.succ.inj hl) h)

theorem check_array_eq_ok {element : Ty} {bounds : List Int32} :
    Head.check (.array element bounds) es = .ok () ↔
      (element == .void) = false ∧ bounds ≠ [] ∧ checkBounds 0 1 bounds = .ok es.length := by
  rw [Head.check, ← List.isEmpty_eq_false_iff]
  cases element == .void <;> cases bounds.isEmpty <;> simp [bind, Except.bind]
  cases checkBounds 0 1 bounds with
  | error => simp
  | ok n => simp [eq_comm]

end

/-! ### The rule from the check -/

theorem Method.allows_of_checkOperator {k : StepKind} {m : Method} {operand : Expr}
    (hl : operand.isLocation = true) (h : m.checkOperator operand.ty = .ok ()) :
    Head.Allows (.step k (some m)) [operand] := by
  unfold checkOperator at h
  split at h
  · split_ifs at h with hp hr
    exact .stepByMethod hl ‹_› hp hr
  · cases h

theorem Head.allows_of_check {head : Head} {parts : List Expr} (h : head.check parts = .ok ()) :
    head.Allows parts := by
  unfold Head.check at h
  split at h
  · -- `index`
    split at h
    · cases h
    · split_ifs at h with hn
      refine .index (by rw [hn]; assumption) ?_
      have hall := List.forall₂_map_left_iff.1 (accepts_of_checkAll (List.length_map ..).symm h)
      exact (List.forall₂_same.1 hall)
  · -- `binary`
    split_ifs at h with hl hr
    exact .binary hl hr
  · -- `call`
    split at h
    · cases h
    · obtain ⟨_, hn, hc⟩ := except_bind_eq_ok.1 h
      have hall := accepts_of_checkAll (by rw [List.length_map, checkCount_eq_ok.1 hn]) hc
      exact .call ‹_› (List.forall₂_map_left_iff.1 hall)
  · -- `assign`
    obtain ⟨_, hl, hv⟩ := except_bind_eq_ok.1 h
    exact .assign (checkLocation_eq_ok.1 hl) (checkAssignable_eq_ok.1 hv)
  · -- `block`
    split_ifs at h with hb
    exact .block fun hn => hb (by rw [hn]; rfl)
  · -- `lambda`
    obtain ⟨_, hn, h'⟩ := except_bind_eq_ok.1 h
    obtain ⟨_, hp, hb⟩ := except_bind_eq_ok.1 h'
    refine .lambda (beq_of_checkParams (checkCount_eq_ok.1 hn) hp) ?_
    split_ifs at hb with hr
    · exact .inl hr
    · exact .inr (checkAssignable_eq_ok.1 hb)
  · -- `quote`
    split_ifs at h with hl
    exact .quote hl
  · -- `step`
    obtain ⟨_, hl, hm⟩ := except_bind_eq_ok.1 h
    split at hm
    · exact Method.allows_of_checkOperator (checkLocation_eq_ok.1 hl) hm
    · split_ifs at hm with ha
      exact .stepByOne (checkLocation_eq_ok.1 hl) ha
  · -- `array`
    obtain ⟨hv, hb, hs⟩ := check_array_eq_ok.1 h
    exact .array hv hb hs
  · -- `invoke`
    split_ifs at h with hn
    obtain ⟨_, hv, hb⟩ := except_bind_eq_ok.1 h
    split at hb
    · cases hb
    · have hall := accepts_of_checkAll (by rw [List.length_map, hn]) hv
      exact .invoke ‹_› (List.forall₂_map_left_iff.1 hall) (Signature.checkBound_eq_ok hb)
  · cases h

end ExprLowering
