import ExprLowering.Lowering
import ExprLowering.Proofs.WellMade

/-!
# The rules of lowering

What a successful lowering looks like, kind of node by kind of node (`LowerForm`). `LowerRules o Q` says
that a relation `Q` between an expression, its lowering and the supply before and after is closed under
these rules; then `Q` holds of every successful lowering of a well-made expression
(`LowerRules.of_loweredTo`).
-/

namespace ExprLowering

theorem run_nested {α : Type} (limit : Nat) (x : LowerM α) (s : LowerState) :
    (LowerM.nested limit x).run s =
      if limit ≤ s.depth then (.error (.depthLimit limit), s)
      else ((x.run { s with depth := s.depth + 1 }).1,
        { (x.run { s with depth := s.depth + 1 }).2 with
          depth := (x.run { s with depth := s.depth + 1 }).2.depth - 1 }) :=
  rfl

/-! ### Steps that succeed -/

section
variable {α : Type} {s s' : LowerState}

theorem demand_eq_ok {reason : String} {x : Option α} {a : α} :
    (LowerM.demand reason x).run s = (.ok a, s') ↔ x = some a ∧ s = s' := by
  cases x with
  | none =>
    constructor
    · intro h; cases h
    · intro h; cases h.1
  | some b =>
    constructor
    · intro h; cases h; exact ⟨rfl, rfl⟩
    · rintro ⟨h, rfl⟩; cases h; rfl

theorem nested_eq_ok {limit : Nat} {x : LowerM α} {a : α} (h : (LowerM.nested limit x).run s = (.ok a, s')) :
    ∃ t t', t.supply = s.supply ∧ x.run t = (.ok a, t') ∧ t'.supply = s'.supply := by
  rw [run_nested] at h
  split_ifs at h
  · cases h
  · rcases hx : x.run { s with depth := s.depth + 1 } with ⟨r, t⟩
    rw [hx] at h
    cases h
    exact ⟨{ s with depth := s.depth + 1 }, t, rfl, hx, rfl⟩

end

namespace Temp

/-- What keeping values gives: the trees to use in their place, and the temporaries. A constant is used as
it is, any other value through a fresh variable. -/
inductive Kept : List (String × Ty) → List Prim → List Prim → List Temp → Supply → Supply → Prop
  | nil {u : Supply} : Kept [] [] [] [] u u
  | const {name : String} {ty : Ty} {labels : List (String × Ty)} {c : Constant} {values ps : List Prim}
      {temps : List Temp} {u u' : Supply} (rest : Kept labels values ps temps u u') :
      Kept ((name, ty) :: labels) (.const c :: values) (.const c :: ps) temps u u'
  | held {name : String} {ty : Ty} {labels : List (String × Ty)} {value : Prim} {values ps : List Prim}
      {temps : List Temp} {u u' : Supply} (hv : ∀ c, value ≠ .const c)
      (rest : Kept labels values ps temps (u.fresh name ty).2 u') :
      Kept ((name, ty) :: labels) (value :: values) (.read (u.fresh name ty).1 :: ps)
        (⟨(u.fresh name ty).1, value⟩ :: temps) u u'

theorem Kept.cons {name : String} {ty : Ty} {value p : Prim} {labels : List (String × Ty)}
    {values ps : List Prim} {temps rest : List Temp} {s s' : LowerState} {u : Supply}
    (h : (keep name ty value).run s = (.ok (p, temps), s')) (hs : Kept labels values ps rest s'.supply u) :
    Kept ((name, ty) :: labels) (value :: values) (p :: ps) (temps ++ rest) s.supply u := by
  cases value with
  | const c => cases h; exact .const hs
  | _ => cases h; exact .held (fun _ hc => by cases hc) hs

theorem Kept.length {labels : List (String × Ty)} {values ps : List Prim} {temps : List Temp} {u u' : Supply}
    (h : Kept labels values ps temps u u') : ps.length = values.length := by
  induction h with
  | nil => rfl
  | const _ ih => simp [ih]
  | held _ _ ih => simp [ih]

theorem keepAll_eq_ok {labels : List (String × Ty)} {values ps : List Prim} {temps : List Temp}
    {s s' : LowerState} (hl : labels.length = values.length)
    (h : (keepAll labels values).run s = (.ok (ps, temps), s')) :
    Kept labels values ps temps s.supply s'.supply := by
  induction labels generalizing values ps temps s with
  | nil =>
    obtain rfl := List.length_eq_zero_iff.1 hl.symm
    cases h
    exact .nil
  | cons l labels ih =>
    obtain ⟨name, ty⟩ := l
    cases values with
    | nil => cases hl
    | cons value values =>
      obtain ⟨⟨p, own⟩, s₁, h₁, h⟩ := run_bind_eq_ok.1 h
      obtain ⟨⟨ps', rest⟩, s₂, h₂, h⟩ := run_bind_eq_ok.1 h
      cases h
      exact .cons h₁ (ih (Nat.succ.inj hl) h₂)

end Temp

open Temp (Kept)

/-- The names and types of the variables that keep the parts of an array element. -/
def elementLabels (array : Expr) (indices : List Expr) : List (String × Ty) :=
  ("__array", array.ty) :: indices.zipIdx.map fun (e, i) => (s!"__index{i}", e.ty)

/-- What settling a location gives: a location and the temporaries that it relies on. -/
inductive Place.Settled (pinned : Bool) : Expr → Place Prim → Place Prim → List Temp → Supply → Supply → Prop
  | var {v : Var} {u : Supply} : Settled pinned (.var v) (.var v) (.var v) [] u u
  | trivial {operand : Expr} {array : Prim} {indices : List Prim} {u : Supply} (hp : pinned = false)
      (ha : array.isTrivial = true) (hi : ∀ i ∈ indices, i.isTrivial = true) :
      Settled pinned operand (.element array indices) (.element array indices) [] u u
  | kept {stamp : Stamp} {arrayExpr : Expr} {indexExprs : List Expr} {array array' : Prim}
      {indices indices' : List Prim} {temps : List Temp} {u u' : Supply}
      (hn : pinned = true ∨ array.isTrivial = false ∨ ∃ i ∈ indices, i.isTrivial = false)
      (hk : Kept (elementLabels arrayExpr indexExprs) (array :: indices) (array' :: indices') temps u u') :
      Settled pinned (.node stamp .index (arrayExpr :: indexExprs)) (.element array indices)
        (.element array' indices') temps u u'

theorem Place.settle_element_eq_ok {pinned : Bool} {stamp : Stamp} {arrayExpr : Expr} {indexExprs : List Expr}
    {array : Prim} {indices : List Prim} {place' : Place Prim} {temps : List Temp} {s s' : LowerState}
    (hl : indexExprs.length = indices.length)
    (h : ((Place.element array indices).settle pinned (.node stamp .index (arrayExpr :: indexExprs))).run s =
      (.ok (place', temps), s')) :
    Settled pinned (.node stamp .index (arrayExpr :: indexExprs)) (.element array indices) place' temps
      s.supply s'.supply := by
  rw [settle] at h
  split_ifs at h with ht
  · simp only [Bool.and_eq_true, Bool.not_eq_true', List.all_eq_true] at ht
    cases h
    exact .trivial ht.1.1 ht.1.2 ht.2
  · obtain ⟨⟨array', own⟩, s₁, h₁, h⟩ := run_bind_eq_ok.1 h
    obtain ⟨⟨indices', rest⟩, s₂, h₂, h⟩ := run_bind_eq_ok.1 h
    cases h
    refine .kept ?_ (.cons h₁ (Temp.keepAll_eq_ok (by simp [hl]) h₂))
    simp only [Bool.and_eq_true, Bool.not_eq_true', List.all_eq_true, not_and_or, Bool.not_eq_false,
      Bool.not_eq_true, not_forall, exists_prop] at ht
    rwa [or_assoc] at ht

/-- How a step without the primitive operation gets the new value from the old one, and whether code of
the user runs in between. -/
inductive StepNext (k : StepKind) (ty : Ty) : Option Method → Bool → (Prim → Prim) → Prop
  | checked {one : Constant} (hk : k.checked = true) (h : Constant.one? ty = some one) :
      StepNext k ty none false fun old => .arith k.op.arith true old (.const one)
  | operator (m : Method) : StepNext k ty (some m) true fun old => .callMethod m [old]

/-- The two forms of a lowered step on a lowered location. -/
inductive StepForm (k : StepKind) (method : Option Method) (operand : Expr) (place : Place Prim) :
    Prim → Supply → Supply → Prop
  | primitive {place' : Place Prim} {temps : List Temp} {u u' : Supply} (hm : method = none)
      (hk : k.checked = false) (hp : place.Settled false operand place' temps u u') :
      StepForm k method operand place (Temp.scope temps [] (.step k.op place')) u u'
  | functional {pinned : Bool} {next : Prim → Prim} {place' : Place Prim} {temps : List Temp} {old new : Var}
      {u u₁ u₂ u₃ : Supply} (hn : StepNext k operand.ty method pinned next)
      (hp : place.Settled pinned operand place' temps u u₁) (ho : u₁.fresh "__old" operand.ty = (old, u₂))
      (hw : u₂.fresh "__new" operand.ty = (new, u₃)) :
      StepForm k method operand place
        (Temp.scope (temps ++ [⟨old, place'.read⟩] ++ [⟨new, next (.read old)⟩]) [.assign place' (.read new)]
          (if k.op.yieldsNew then .read new else .read old)) u u₃

theorem functionalStep_eq_ok {k : StepKind} {method : Option Method} {operand : Expr} {pinned : Bool}
    {place place' : Place Prim} {temps : List Temp} {next : Prim → Prim} {p : Prim} {u : Supply}
    {s s' : LowerState} (hn : StepNext k operand.ty method pinned next)
    (hp : place.Settled pinned operand place' temps u s.supply)
    (h : (functionalStep k operand.ty place' temps next).run s = (.ok p, s')) :
    StepForm k method operand place p u s'.supply := by
  obtain ⟨⟨old, holdOld⟩, s₁, h₁, h⟩ := run_bind_eq_ok.1 h
  obtain ⟨⟨new, holdNew⟩, s₂, h₂, h⟩ := run_bind_eq_ok.1 h
  cases h₁
  cases h₂
  cases h
  exact .functional hn hp rfl rfl

theorem lowerStep_eq_ok {k : StepKind} {method : Option Method} {operand : Expr} {place : Place Prim}
    {p : Prim} {s s' : LowerState}
    (hp : ∀ {pinned place' temps s s'}, (place.settle pinned operand).run s = (.ok (place', temps), s') →
      place.Settled pinned operand place' temps s.supply s'.supply)
    (h : (lowerStep k method operand place).run s = (.ok p, s')) :
    StepForm k method operand place p s.supply s'.supply := by
  unfold lowerStep at h
  cases method with
  | some m =>
    obtain ⟨⟨place', temps⟩, s₁, h₁, h⟩ := run_bind_eq_ok.1 h
    exact functionalStep_eq_ok (.operator m) (hp h₁) h
  | none =>
    cases hk : k.checked with
    | true =>
      simp only [StepKind.strategy, hk, if_true] at h
      obtain ⟨⟨place', temps⟩, s₁, h₁, h⟩ := run_bind_eq_ok.1 h
      obtain ⟨one, s₂, h₂, h⟩ := run_bind_eq_ok.1 h
      obtain ⟨hone, rfl⟩ := demand_eq_ok.1 h₂
      exact functionalStep_eq_ok (.checked hk hone) (hp h₁) h
    | false =>
      simp only [StepKind.strategy, hk, Bool.false_eq_true, if_false] at h
      obtain ⟨⟨place', temps⟩, s₁, h₁, h⟩ := run_bind_eq_ok.1 h
      cases h
      exact .primitive rfl hk (hp h₁)

/-- The names and types of the variables that keep the parts of an invocation. -/
def invokeLabels (params : List Descriptor) (calleeTy : Ty) (valueTys : List Ty) : List (String × Ty) :=
  ("__callee", calleeTy) :: (params.zip valueTys).map fun (d, ty) => ("__arg_" ++ d.name, ty)

/-- The two forms of a lowered invocation with lowered parts. -/
inductive InvokeForm (params : List Descriptor) (calleeTy : Ty) (valueTys : List Ty) (callee : Prim)
    (values : List Prim) : Prim → Supply → Supply → Prop
  | direct {signature : Signature} {slots : List Slot} {args : List Prim} {u : Supply}
      (hc : calleeTy.signature? = some signature) (hs : signature.slots? params = some slots)
      (ho : Descriptor.inOrder params = true) (ha : Slot.arrange slots (values.map some) = some args) :
      InvokeForm params calleeTy valueTys callee values (.call callee args) u u
  | spilled {signature : Signature} {slots : List Slot} {callee' : Prim} {values' args : List Prim}
      {temps : List Temp} {u u' : Supply} (hc : calleeTy.signature? = some signature)
      (hs : signature.slots? params = some slots) (ho : Descriptor.inOrder params = false)
      (hk : Kept (invokeLabels params calleeTy valueTys) (callee :: values) (callee' :: values') temps u u')
      (ha : Slot.arrange slots (values'.map some) = some args) :
      InvokeForm params calleeTy valueTys callee values (Temp.scope temps [] (.call callee' args)) u u'

theorem lowerInvoke_eq_ok {params : List Descriptor} {calleeTy : Ty} {valueTys : List Ty} {callee : Prim}
    {values : List Prim} {p : Prim} {s s' : LowerState} (hp : params.length = values.length)
    (ht : valueTys.length = values.length)
    (h : (lowerInvoke params calleeTy valueTys callee values).run s = (.ok p, s')) :
    InvokeForm params calleeTy valueTys callee values p s.supply s'.supply := by
  obtain ⟨slots, s₁, h₁, h⟩ := run_bind_eq_ok.1 h
  obtain ⟨hslots, rfl⟩ := demand_eq_ok.1 h₁
  obtain ⟨signature, hc, hs⟩ := Option.bind_eq_some_iff.1 hslots
  cases ho : Descriptor.inOrder params with
  | true =>
    rw [ho, if_pos rfl] at h
    obtain ⟨args, s₂, h₂, h⟩ := run_bind_eq_ok.1 h
    obtain ⟨ha, rfl⟩ := demand_eq_ok.1 h₂
    cases h
    exact .direct hc hs ho ha
  | false =>
    rw [ho, if_neg Bool.false_ne_true] at h
    obtain ⟨⟨callee', own⟩, s₂, h₂, h⟩ := run_bind_eq_ok.1 h
    obtain ⟨⟨values', rest⟩, s₃, h₃, h⟩ := run_bind_eq_ok.1 h
    obtain ⟨args, s₄, h₄, h⟩ := run_bind_eq_ok.1 h
    obtain ⟨ha, rfl⟩ := demand_eq_ok.1 h₄
    cases h
    exact .spilled hc hs ho (.cons h₂ (Temp.keepAll_eq_ok (by simp [hp, ht]) h₃)) ha

theorem indexConstant?_eq_some {n : Nat} {p : Prim} (h : indexConstant? n = some p) :
    ∃ w : Word, p = .const (.lit (.int w)) ∧ w.kind = .i32 ∧ w.val = n := by
  obtain ⟨w, hw, rfl⟩ := Option.map_eq_some_iff.1 h
  rw [Word.ofInt?] at hw
  split at hw
  · cases hw
    exact ⟨_, rfl, rfl, rfl⟩
  · cases hw

theorem const_of_mapM_indexConstant {ns : List Nat} {is : List Prim} (h : ns.mapM indexConstant? = some is) :
    ∀ i ∈ is, ∃ c, i = .const c := by
  refine Expr.forall_mem_of_forall₂ (mapM_eq_some_iff.1 h) fun n _ i hi => ?_
  obtain ⟨w, rfl, -⟩ := indexConstant?_eq_some hi
  exact ⟨_, rfl⟩

theorem storeElements?_cons_eq_some {array : Var} {bounds : List Nat} {linear : Nat} {p : Prim}
    {ps stores : List Prim} :
    storeElements? array bounds linear (p :: ps) = some stores ↔
      ∃ is rest, indexConstants? bounds linear = some is ∧
        storeElements? array bounds (linear + 1) ps = some rest ∧
        stores = .assign (.element (.read array) is) p :: rest := by
  rw [storeElements?]
  constructor
  · intro h
    obtain ⟨is, hi, h⟩ := Option.bind_eq_some_iff.1 h
    obtain ⟨rest, hr, h⟩ := Option.bind_eq_some_iff.1 h
    exact ⟨is, rest, hi, hr, (Option.some.inj h).symm⟩
  · rintro ⟨is, rest, hi, hr, rfl⟩
    simp [hi, hr]

theorem arrayBlock?_eq_some {array : Var} {element : Ty} {bounds : List Nat} {ps : List Prim} {p : Prim}
    (h : arrayBlock? array element bounds ps = some p) :
    ∃ sizes stores, bounds.mapM indexConstant? = some sizes ∧
      storeElements? array bounds 0 ps = some stores ∧
      p = Temp.scope [⟨array, .newArray element sizes⟩] stores (.read array) := by
  obtain ⟨sizes, hs, h⟩ := Option.bind_eq_some_iff.1 h
  obtain ⟨stores, hr, h⟩ := Option.bind_eq_some_iff.1 h
  exact ⟨sizes, stores, hs, hr, (Option.some.inj h).symm⟩

/-! ### The rules -/

/-- A relation between expressions, trees and the supply before and after. -/
abbrev LowerRel := Expr → Prim → Supply → Supply → Prop

/-- The expression is lowered to the tree, at some depth. -/
def LoweredTo (o : LowerOptions) : LowerRel := fun e p u u' =>
  ∃ s s', (e.lowerNode o).run s = (.ok p, s') ∧ s.supply = u ∧ s'.supply = u'

/-- The relation holds of each expression of a list and its tree, the supply being handed on. -/
inductive Threaded (Q : LowerRel) : List Expr → List Prim → Supply → Supply → Prop
  | nil {u : Supply} : Threaded Q [] [] u u
  | cons {e : Expr} {p : Prim} {es : List Expr} {ps : List Prim} {u u₁ u₂ : Supply} (head : Q e p u u₁)
      (tail : Threaded Q es ps u₁ u₂) : Threaded Q (e :: es) (p :: ps) u u₂

theorem Threaded.length {Q : LowerRel} {es : List Expr} {ps : List Prim} {u u' : Supply}
    (h : Threaded Q es ps u u') : es.length = ps.length := by
  induction h with
  | nil => rfl
  | cons _ _ ih => simp [ih]

/-- The relation holds of the parts of a location. -/
inductive PlaceRel (Q : LowerRel) : Expr → Place Prim → Supply → Supply → Prop
  | var {v : Var} {u : Supply} : PlaceRel Q (.var v) (.var v) u u
  | element {stamp : Stamp} {array : Expr} {indices : List Expr} {a : Prim} {is : List Prim}
      {u u₁ u₂ : Supply} (harray : Q array a u u₁) (hindices : Threaded Q indices is u₁ u₂) :
      PlaceRel Q (.node stamp .index (array :: indices)) (.element a is) u u₂

section
variable {Q Q' : LowerRel} {u u' : Supply}

theorem Threaded.imp {es : List Expr} {ps : List Prim} (h : Threaded Q es ps u u')
    (hQ : ∀ e ∈ es, ∀ p u u', Q e p u u' → Q' e p u u') : Threaded Q' es ps u u' := by
  induction h with
  | nil => exact .nil
  | cons h _ ih =>
    rw [List.forall_mem_cons] at hQ
    exact .cons (hQ.1 _ _ _ h) (ih hQ.2)

theorem PlaceRel.imp {target : Expr} {place : Place Prim} (h : PlaceRel Q target place u u')
    (hQ : ∀ e ∈ target.parts, ∀ p u u', Q e p u u' → Q' e p u u') : PlaceRel Q' target place u u' := by
  cases h with
  | var => exact .var
  | element ha hi =>
    rw [Expr.parts, List.forall_mem_cons] at hQ
    exact .element (hQ.1 _ _ _ ha) (hi.imp hQ.2)

theorem Threaded.le {es : List Expr} {ps : List Prim} (h : Threaded Q es ps u u')
    (hQ : ∀ {e p u u'}, Q e p u u' → u.var ≤ u'.var) : u.var ≤ u'.var := by
  induction h with
  | nil => exact Nat.le_refl _
  | cons h _ ih => exact Nat.le_trans (hQ h) ih

theorem PlaceRel.le {target : Expr} {place : Place Prim} (h : PlaceRel Q target place u u')
    (hQ : ∀ {e p u u'}, Q e p u u' → u.var ≤ u'.var) : u.var ≤ u'.var := by
  cases h with
  | var => exact Nat.le_refl _
  | element ha hi => exact Nat.le_trans (hQ ha) (hi.le hQ)

end

/-- The relation is closed under the rules of lowering. The body of a function is run later and on its own,
so its lowering is given as well. -/
structure LowerRules (o : LowerOptions) (Q : LowerRel) : Prop where
  const : ∀ {c u}, Q (.const c) (.const c) u u
  var : ∀ {v u}, Q (.var v) (.read v) u u
  index : ∀ {stamp array indices a is u u₁ u₂}, Expr.WellMade (.node stamp .index (array :: indices)) →
    Q array a u u₁ → Threaded Q indices is u₁ u₂ →
    Q (.node stamp .index (array :: indices)) (.element a is) u u₂
  binary : ∀ {stamp op checked left right l r u u₁ u₂},
    Expr.WellMade (.node stamp (.binary op checked) [left, right]) → Q left l u u₁ → Q right r u₁ u₂ →
    Q (.node stamp (.binary op checked) [left, right]) (.arith op checked l r) u u₂
  call : ∀ {stamp callee args f as u u₁ u₂}, Expr.WellMade (.node stamp .call (callee :: args)) →
    Q callee f u u₁ → Threaded Q args as u₁ u₂ → Q (.node stamp .call (callee :: args)) (.call f as) u u₂
  assign : ∀ {stamp target value place v u u₁ u₂}, Expr.WellMade (.node stamp .assign [target, value]) →
    PlaceRel Q target place u u₁ → Q value v u₁ u₂ →
    Q (.node stamp .assign [target, value]) (.assign place v) u u₂
  block : ∀ {stamp locals body ps u u'}, Expr.WellMade (.node stamp (.block locals) body) →
    Threaded Q body ps u u' → Q (.node stamp (.block locals) body) (.block locals ps) u u'
  lambda : ∀ {stamp signature params body p u u'},
    Expr.WellMade (.node stamp (.lambda signature params) [body]) → LoweredTo o body p u u' → Q body p u u' →
    Q (.node stamp (.lambda signature params) [body]) (.lambda ⟨signature, params, p⟩) u u'
  quote : ∀ {stamp inner signature params body p u u'},
    Expr.WellMade (.node stamp .quote [.node inner (.lambda signature params) [body]]) →
    LoweredTo o body p u u' → Q body p u u' →
    Q (.node stamp .quote [.node inner (.lambda signature params) [body]])
      (.quote u'.stamp ⟨signature, params, p⟩) u u'.freshStamp.2
  step : ∀ {stamp k method operand place p u u₁ u₂}, Expr.WellMade (.node stamp (.step k method) [operand]) →
    PlaceRel Q operand place u u₁ → StepForm k method operand place p u₁ u₂ →
    Q (.node stamp (.step k method) [operand]) p u u₂
  fold : ∀ {stamp element bounds values u},
    Expr.WellMade (.node stamp (.array element bounds) (values.map .const)) → o.foldConstantArrays = true →
    Q (.node stamp (.array element bounds) (values.map .const))
      (.constArray element (bounds.map (·.toInt.toNat)) values) u u
  array : ∀ {stamp element bounds elements array ps p u u₁ u₂},
    Expr.WellMade (.node stamp (.array element bounds) elements) →
    u.fresh "__array" (.array element bounds.length) = (array, u₁) → Threaded Q elements ps u₁ u₂ →
    arrayBlock? array element (bounds.map (·.toInt.toNat)) ps = some p →
    Q (.node stamp (.array element bounds) elements) p u u₂
  invoke : ∀ {stamp params callee values c vs p u u₁ u₂ u₃},
    Expr.WellMade (.node stamp (.invoke params) (callee :: values)) → Q callee c u u₁ →
    Threaded Q values vs u₁ u₂ → InvokeForm params callee.ty (values.map Expr.ty) c vs p u₂ u₃ →
    Q (.node stamp (.invoke params) (callee :: values)) p u u₃

namespace Expr

theorem constants?_eq_some {es : List Expr} {values : List Constant} (h : constants? es = some values) :
    es = values.map const := by
  induction es generalizing values with
  | nil => cases h; rfl
  | cons e es ih =>
    simp only [constants?, List.mapM_cons] at h
    obtain ⟨c, hc, h⟩ := Option.bind_eq_some_iff.1 h
    obtain ⟨cs, hcs, h⟩ := Option.bind_eq_some_iff.1 h
    cases h
    cases e with
    | const c' => cases hc; rw [ih hcs]; rfl
    | _ => cases hc

theorem WellMade.invoke_length {stamp : Stamp} {params : List Descriptor} {callee : Expr} {values : List Expr}
    (h : WellMade (.node stamp (.invoke params) (callee :: values))) : params.length = values.length := by
  cases h.allows with
  | invoke _ hv _ => exact hv.length_eq

end Expr

/-- The lowering of an expression from the lowerings of its parts. An array whose elements are all constants
is stored element by element only if constant arrays are not folded. -/
inductive LowerForm (o : LowerOptions) (Q : LowerRel) : LowerRel
  | const {c : Constant} {u : Supply} : LowerForm o Q (.const c) (.const c) u u
  | var {v : Var} {u : Supply} : LowerForm o Q (.var v) (.read v) u u
  | index {stamp : Stamp} {array : Expr} {indices : List Expr} {a : Prim} {is : List Prim} {u u₁ u₂ : Supply}
      (harray : Q array a u u₁) (hindices : Threaded Q indices is u₁ u₂) :
      LowerForm o Q (.node stamp .index (array :: indices)) (.element a is) u u₂
  | binary {stamp : Stamp} {op : ArithOp} {checked : Bool} {left right : Expr} {l r : Prim} {u u₁ u₂ : Supply}
      (hleft : Q left l u u₁) (hright : Q right r u₁ u₂) :
      LowerForm o Q (.node stamp (.binary op checked) [left, right]) (.arith op checked l r) u u₂
  | call {stamp : Stamp} {callee : Expr} {args : List Expr} {f : Prim} {as : List Prim} {u u₁ u₂ : Supply}
      (hcallee : Q callee f u u₁) (hargs : Threaded Q args as u₁ u₂) :
      LowerForm o Q (.node stamp .call (callee :: args)) (.call f as) u u₂
  | assign {stamp : Stamp} {target value : Expr} {place : Place Prim} {v : Prim} {u u₁ u₂ : Supply}
      (hplace : PlaceRel Q target place u u₁) (hvalue : Q value v u₁ u₂) :
      LowerForm o Q (.node stamp .assign [target, value]) (.assign place v) u u₂
  | block {stamp : Stamp} {locals : List Var} {body : List Expr} {ps : List Prim} {u u' : Supply}
      (hbody : Threaded Q body ps u u') : LowerForm o Q (.node stamp (.block locals) body) (.block locals ps) u u'
  | lambda {stamp : Stamp} {signature : Signature} {params : List Var} {body : Expr} {p : Prim} {u u' : Supply}
      (hbody : Q body p u u') :
      LowerForm o Q (.node stamp (.lambda signature params) [body]) (.lambda ⟨signature, params, p⟩) u u'
  | quote {stamp inner : Stamp} {signature : Signature} {params : List Var} {body : Expr} {p : Prim}
      {u u' : Supply} (hbody : Q body p u u') :
      LowerForm o Q (.node stamp .quote [.node inner (.lambda signature params) [body]])
        (.quote u'.stamp ⟨signature, params, p⟩) u u'.freshStamp.2
  | step {stamp : Stamp} {k : StepKind} {method : Option Method} {operand : Expr} {place : Place Prim} {p : Prim}
      {u u₁ u₂ : Supply} (hplace : PlaceRel Q operand place u u₁)
      (hform : StepForm k method operand place p u₁ u₂) :
      LowerForm o Q (.node stamp (.step k method) [operand]) p u u₂
  | fold {stamp : Stamp} {element : Ty} {bounds : List Int32} {values : List Constant} {elements : List Expr}
      {u : Supply} (hfold : o.foldConstantArrays = true) (hvalues : Expr.constants? elements = some values) :
      LowerForm o Q (.node stamp (.array element bounds) elements)
        (.constArray element (bounds.map (·.toInt.toNat)) values) u u
  | array {stamp : Stamp} {element : Ty} {bounds : List Int32} {elements : List Expr} {array : Var}
      {ps : List Prim} {p : Prim} {u u₁ u₂ : Supply}
      (hfold : o.foldConstantArrays = true → Expr.constants? elements = none)
      (hfresh : u.fresh "__array" (.array element bounds.length) = (array, u₁))
      (helements : Threaded Q elements ps u₁ u₂)
      (hblock : arrayBlock? array element (bounds.map (·.toInt.toNat)) ps = some p) :
      LowerForm o Q (.node stamp (.array element bounds) elements) p u u₂
  | invoke {stamp : Stamp} {params : List Descriptor} {callee : Expr} {values : List Expr} {c : Prim}
      {vs : List Prim} {p : Prim} {u u₁ u₂ u₃ : Supply} (hcallee : Q callee c u u₁)
      (hvalues : Threaded Q values vs u₁ u₂)
      (hform : InvokeForm params callee.ty (values.map Expr.ty) c vs p u₂ u₃) :
      LowerForm o Q (.node stamp (.invoke params) (callee :: values)) p u u₃

section
variable {o : LowerOptions} {s s' : LowerState}

theorem threaded_of_lowerAll {es : List Expr} {ps : List Prim} (h : (Expr.lowerAll o es).run s = (.ok ps, s')) :
    Threaded (LoweredTo o) es ps s.supply s'.supply := by
  induction es generalizing s ps with
  | nil => cases h; exact .nil
  | cons e es ih =>
    rw [Expr.lowerAll] at h
    obtain ⟨p, s₁, h₁, h⟩ := run_bind_eq_ok.1 h
    obtain ⟨ps', s₂, h₂, h⟩ := run_bind_eq_ok.1 h
    cases h
    exact .cons ⟨_, _, h₁, rfl, rfl⟩ (ih h₂)

theorem placeRel_of_lowerPlace {e : Expr} {place : Place Prim}
    (h : (Expr.lowerPlace o e).run s = (.ok place, s')) :
    PlaceRel (LoweredTo o) e place s.supply s'.supply := by
  unfold Expr.lowerPlace at h
  split at h
  · cases h; exact .var
  · obtain ⟨a, s₁, h₁, h⟩ := run_bind_eq_ok.1 h
    obtain ⟨is, s₂, h₂, h⟩ := run_bind_eq_ok.1 h
    cases h
    exact .element ⟨_, _, h₁, rfl, rfl⟩ (threaded_of_lowerAll h₂)
  · cases h

/-- A location that was lowered from an operand settles as described. -/
theorem PlaceRel.settled {Q : LowerRel} {operand : Expr} {place : Place Prim} {u u' : Supply}
    (h : PlaceRel Q operand place u u') {pinned : Bool} {place' : Place Prim} {temps : List Temp}
    (hr : (place.settle pinned operand).run s = (.ok (place', temps), s')) :
    place.Settled pinned operand place' temps s.supply s'.supply := by
  cases h with
  | var => cases hr; exact .var
  | element _ hindices => exact Place.settle_element_eq_ok hindices.length hr

/-- A successful lowering of a node, taken apart. -/
theorem LoweredTo.form {e : Expr} {p : Prim} {u u' : Supply} (he : e.WellMade) (h : LoweredTo o e p u u') :
    LowerForm o (LoweredTo o) e p u u' := by
  obtain ⟨s, s', hrun, rfl, rfl⟩ := h
  unfold Expr.lowerNode at hrun
  obtain ⟨t, t', ht, h, ht'⟩ := nested_eq_ok hrun
  clear hrun
  rw [← ht, ← ht']
  split at h
  · cases h
    exact .const
  · cases h
    exact .var
  · obtain ⟨a, s₁, h₁, h⟩ := run_bind_eq_ok.1 h
    obtain ⟨is, s₂, h₂, h⟩ := run_bind_eq_ok.1 h
    cases h
    exact .index ⟨_, _, h₁, rfl, rfl⟩ (threaded_of_lowerAll h₂)
  · obtain ⟨l, s₁, h₁, h⟩ := run_bind_eq_ok.1 h
    obtain ⟨r, s₂, h₂, h⟩ := run_bind_eq_ok.1 h
    cases h
    exact .binary ⟨_, _, h₁, rfl, rfl⟩ ⟨_, _, h₂, rfl, rfl⟩
  · obtain ⟨f, s₁, h₁, h⟩ := run_bind_eq_ok.1 h
    obtain ⟨as, s₂, h₂, h⟩ := run_bind_eq_ok.1 h
    cases h
    exact .call ⟨_, _, h₁, rfl, rfl⟩ (threaded_of_lowerAll h₂)
  · obtain ⟨place, s₁, h₁, h⟩ := run_bind_eq_ok.1 h
    obtain ⟨v, s₂, h₂, h⟩ := run_bind_eq_ok.1 h
    cases h
    exact .assign (placeRel_of_lowerPlace h₁) ⟨_, _, h₂, rfl, rfl⟩
  · obtain ⟨ps, s₁, h₁, h⟩ := run_bind_eq_ok.1 h
    cases h
    exact .block (threaded_of_lowerAll h₁)
  · obtain ⟨body, s₁, h₁, h⟩ := run_bind_eq_ok.1 h
    cases h
    exact .lambda ⟨_, _, h₁, rfl, rfl⟩
  · obtain ⟨body, s₁, h₁, h⟩ := run_bind_eq_ok.1 h
    obtain ⟨n, s₂, h₂, h⟩ := run_bind_eq_ok.1 h
    cases h₂
    cases h
    exact .quote ⟨_, _, h₁, rfl, rfl⟩
  · obtain ⟨place, s₁, h₁, h⟩ := run_bind_eq_ok.1 h
    have hplace := placeRel_of_lowerPlace h₁
    exact .step hplace (lowerStep_eq_ok hplace.settled h)
  · split at h
    · cases h
      exact .fold ‹_› ‹_›
    · rename_i hne
      obtain ⟨array, s₁, h₁, h⟩ := run_bind_eq_ok.1 h
      obtain ⟨ps, s₂, h₂, h⟩ := run_bind_eq_ok.1 h
      obtain ⟨hblock, rfl⟩ := demand_eq_ok.1 h
      cases h₁
      refine .array (fun hfold => ?_) rfl (threaded_of_lowerAll h₂) hblock
      exact Option.eq_none_iff_forall_ne_some.2 fun values hvalues => hne values hfold hvalues
  · obtain ⟨c, s₁, h₁, h⟩ := run_bind_eq_ok.1 h
    obtain ⟨vs, s₂, h₂, h⟩ := run_bind_eq_ok.1 h
    have hvs := threaded_of_lowerAll h₂
    refine .invoke ⟨_, _, h₁, rfl, rfl⟩ hvs (lowerInvoke_eq_ok ?_ ?_ h)
    · rw [he.invoke_length, hvs.length]
    · rw [List.length_map, hvs.length]
  · cases h

end

namespace LowerRules
variable {o : LowerOptions} {Q : LowerRel}

/-- The relation holds of each successful lowering of the expression. -/
def HoldsOf (o : LowerOptions) (Q : LowerRel) (e : Expr) : Prop :=
  ∀ p u u', LoweredTo o e p u u' → Q e p u u'

/-- Rule induction over successful lowerings. -/
theorem holds (rules : LowerRules o Q) {e : Expr} (he : e.WellMade) : HoldsOf o Q e := by
  -- The body of a quoted lambda and the parts of a location are parts of a part.
  suffices h : e.WellMade → HoldsOf o Q e ∧ ∀ p ∈ e.parts, HoldsOf o Q p from (h he).1
  clear he
  induction e using Expr.induction_parts with
  | const c =>
    refine fun he => ⟨fun p u u' h => ?_, by simp [Expr.parts]⟩
    cases h.form he with
    | const => exact rules.const
  | var v =>
    refine fun he => ⟨fun p u u' h => ?_, by simp [Expr.parts]⟩
    cases h.form he with
    | var => exact rules.var
  | node stamp head parts ih =>
    intro he
    have hpart : ∀ p ∈ parts, HoldsOf o Q p := fun p hp => (ih p hp (he.part p hp)).1
    have hinner : ∀ p ∈ parts, ∀ q ∈ p.parts, HoldsOf o Q q := fun p hp => (ih p hp (he.part p hp)).2
    refine ⟨fun p u u' h => ?_, hpart⟩
    cases h.form he with
    | index ha hi =>
      rw [List.forall_mem_cons] at hpart
      exact rules.index he (hpart.1 _ _ _ ha) (hi.imp hpart.2)
    | binary hl hr => exact rules.binary he (hpart _ (by simp) _ _ _ hl) (hpart _ (by simp) _ _ _ hr)
    | call hf has =>
      rw [List.forall_mem_cons] at hpart
      exact rules.call he (hpart.1 _ _ _ hf) (has.imp hpart.2)
    | assign hp hv => exact rules.assign he (hp.imp (hinner _ (by simp))) (hpart _ (by simp) _ _ _ hv)
    | block hb => exact rules.block he (hb.imp hpart)
    | lambda hb => exact rules.lambda he hb (hpart _ (by simp) _ _ _ hb)
    | quote hb => exact rules.quote he hb (hinner _ (List.mem_singleton.2 rfl) _ (List.mem_singleton.2 rfl) _ _ _ hb)
    | step hp hform => exact rules.step he (hp.imp (hinner _ (by simp))) hform
    | fold hfold hvalues =>
      obtain rfl := Expr.constants?_eq_some hvalues
      exact rules.fold he hfold
    | array _ hfresh hes hblock => exact rules.array he hfresh (hes.imp hpart) hblock
    | invoke hc hvs hform =>
      rw [List.forall_mem_cons] at hpart
      exact rules.invoke he (hpart.1 _ _ _ hc) (hvs.imp hpart.2) hform

theorem of_loweredTo (rules : LowerRules o Q) {e : Expr} {p : Prim} {u u' : Supply} (he : e.WellMade)
    (h : LoweredTo o e p u u') : Q e p u u' :=
  rules.holds he p u u' h

end LowerRules

theorem Lowerer.loweredTo {l l' : Lowerer} {e : Expr} {p : Prim} {supply supply' : Supply}
    (h : l.lower e supply = (.ok p, l', supply')) : LoweredTo l.options e p supply supply' := by
  rcases hr : (e.lowerNode l.options).run { depth := l.depth, supply } with ⟨r, s'⟩
  simp only [lower, hr, Prod.mk.injEq] at h
  exact ⟨_, s', by rw [hr, h.1], rfl, h.2.2⟩

theorem Lowerer.exists_loweredTo {l : Lowerer} {e : Expr} {p : Prim} {supply : Supply}
    (h : (l.lower e supply).1 = .ok p) : ∃ supply', LoweredTo l.options e p supply supply' :=
  ⟨_, loweredTo (Prod.ext h rfl)⟩

end ExprLowering
