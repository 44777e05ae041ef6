import ExprLowering.Proofs.Hygiene

/-!
# Lowering keeps every operation

A call, an operator, an arithmetic operation, a primitive step, a function, a quotation and a new array are
operations: it matters how often they are carried out. The operations of a lowered tree are those of the
expression, each as often as it occurs there (`lowersOperations_rules`). Locations that are found twice, and
arguments that are passed in another order than they are evaluated, are made of constants and variables by then,
which are no operations.
-/

namespace ExprLowering

inductive Operation where
  | call
  | method (m : Method)
  | arith (op : ArithOp) (checked : Bool)
  | step (op : IncDec)
  | lambda
  | quote
  | array

/-! ### Operations of expressions -/

/-- A composite node by its head, together with the head of the node right above it. -/
structure Occurrence where
  parent : Option Head
  head : Head

namespace Occurrence

/-- The node stands right under a quotation. -/
def quoted (o : Occurrence) : Bool :=
  o.parent matches some .quote

/-- The operation that a node carries out. The lambda of a quotation is part of the quotation. -/
def operation? (o : Occurrence) : Option Operation :=
  match o.head with
  | .call | .invoke _ => some .call
  | .step _ (some m) => some (.method m)
  | .step ⟨op, true⟩ none => some (.arith op.arith true)
  | .step ⟨op, false⟩ none => some (.step op)
  | .binary op checked => some (.arith op checked)
  | .lambda _ _ => if o.quoted then none else some .lambda
  | .quote => some .quote
  | .array _ _ => some .array
  | .index | .assign | .block _ => none

end Occurrence

namespace Expr

mutual

/-- All composite nodes, each before its parts. A node that occurs several times is listed as often. -/
def occurrences (parent : Option Head) : Expr → List Occurrence
  | const _ | var _ => []
  | node _ head parts => ⟨parent, head⟩ :: occurrencesAll head parts

def occurrencesAll (parent : Head) : List Expr → List Occurrence
  | [] => []
  | e :: es => occurrences (some parent) e ++ occurrencesAll parent es

end

def operations (e : Expr) : List Operation :=
  (e.occurrences none).filterMap Occurrence.operation?

/-- The parent matters to a lambda only, and only if it is a quotation. -/
theorem filterMap_occurrences {parent : Head} {e : Expr} (h : parent.kind ≠ .quote) :
    (e.occurrences (some parent)).filterMap Occurrence.operation? = e.operations := by
  cases e with
  | const | var => rfl
  | node stamp head parts =>
    have hhead : Occurrence.operation? ⟨some parent, head⟩ = Occurrence.operation? ⟨none, head⟩ := by
      cases head with
      | lambda signature params =>
        cases parent with
        | quote => exact absurd rfl h
        | _ => rfl
      | step k method => rcases k with ⟨_, _ | _⟩ <;> rcases method with _ | _ <;> rfl
      | _ => rfl
    simp only [operations, occurrences, List.filterMap_cons, hhead]

theorem filterMap_occurrencesAll {parent : Head} {es : List Expr} (h : parent.kind ≠ .quote) :
    (occurrencesAll parent es).filterMap Occurrence.operation? = es.flatMap operations := by
  induction es with
  | nil => rfl
  | cons e es ih => rw [occurrencesAll, List.filterMap_append, filterMap_occurrences h, ih, List.flatMap_cons]

theorem operations_node {stamp : Stamp} {head : Head} {parts : List Expr} (h : head.kind ≠ .quote) :
    (node stamp head parts).operations =
      (Occurrence.operation? ⟨none, head⟩).toList ++ parts.flatMap operations := by
  rw [operations, occurrences, ← filterMap_occurrencesAll h, List.filterMap_cons]
  cases Occurrence.operation? ⟨none, head⟩ <;> rfl

theorem operations_quote {stamp inner : Stamp} {signature : Signature} {params : List Var} {body : Expr} :
    (node stamp .quote [node inner (.lambda signature params) [body]]).operations = .quote :: body.operations := by
  have hbody : (occurrencesAll (.lambda signature params) [body]).filterMap Occurrence.operation? =
      body.operations := by
    rw [filterMap_occurrencesAll (by simp [Head.kind]), List.flatMap_singleton]
  have hlist : (node stamp .quote [node inner (.lambda signature params) [body]]).occurrences none =
      ⟨none, .quote⟩ :: ⟨some .quote, .lambda signature params⟩ ::
        occurrencesAll (.lambda signature params) [body] := by
    simp [occurrences, occurrencesAll]
  rw [operations, hlist, ← hbody]
  rfl

end Expr

/-! ### Operations of trees -/

namespace Prim

/-- The operation that the root carries out. -/
def operation? : Prim → Option Operation
  | call _ _ => some .call
  | callMethod m _ => some (.method m)
  | arith op checked _ _ => some (.arith op checked)
  | step op _ => some (.step op)
  | lambda _ => some .lambda
  | quote _ _ => some .quote
  | newArray _ _ | constArray _ _ _ => some .array
  | const _ | read _ | assign _ _ | block _ _ | element _ _ => none

def operations (ps : List Prim) : List Operation :=
  (listPreorder ps).filterMap operation?

@[simp] theorem operations_nil : operations [] = [] := rfl

@[simp] theorem operations_append (ps qs : List Prim) : operations (ps ++ qs) = operations ps ++ operations qs := by
  rw [operations, listPreorder_append, List.filterMap_append]
  rfl

theorem operations_cons (p : Prim) (ps : List Prim) : operations (p :: ps) = operations [p] ++ operations ps :=
  operations_append [p] ps

theorem operations_singleton (p : Prim) : operations [p] = p.operation?.toList ++ operations p.parts := by
  have hpre : listPreorder [p] = p :: listPreorder p.parts := by simp [listPreorder, preorder_eq p]
  rw [operations, hpre, List.filterMap_cons]
  cases p.operation? <;> rfl

theorem operations_of_isTrivial {ps : List Prim} (h : ∀ p ∈ ps, p.isTrivial = true) : operations ps = [] := by
  rw [operations, List.filterMap_eq_nil_iff]
  intro q hq
  have hq := h q (mem_of_mem_listPreorder h hq)
  cases q with
  | const | read => rfl
  | _ => cases hq

theorem operations_perm {ps qs : List Prim} (h : ps.Perm qs) : (operations ps).Perm (operations qs) := by
  rw [operations, operations, listPreorder_eq_flatMap, listPreorder_eq_flatMap]
  exact (h.flatMap_right _).filterMap _

end Prim

open Prim (operations operations_singleton operations_cons operations_of_isTrivial)
open Temp (inits stores)

/-! ### Temporaries -/

theorem Temp.operations_stores (temps : List Temp) : operations (stores temps) = operations (inits temps) := by
  induction temps with
  | nil => rfl
  | cons t temps ih =>
    have hstore : operations [.assign (.var t.var) t.init] = operations [t.init] := by
      rw [operations_singleton]
      rfl
    have hstores : stores (t :: temps) = .assign (.var t.var) t.init :: stores temps := rfl
    have hinits : inits (t :: temps) = t.init :: inits temps := rfl
    rw [hstores, hinits, operations_cons, hstore, ih, ← operations_cons]

theorem Temp.operations_scope {temps : List Temp} {statements : List Prim} (result : Prim)
    (h : temps = [] → statements = []) :
    operations [scope temps statements result] = operations (inits temps ++ (statements ++ [result])) := by
  by_cases hne : temps = []
  · subst hne
    rw [h rfl]
    rfl
  · rw [scope_of_ne_nil hne, List.append_assoc, operations_singleton, Prim.operations_append (inits temps),
      ← Temp.operations_stores temps, ← Prim.operations_append]
    rfl

/-- What is kept in temporaries is carried out when they are set. -/
theorem Temp.Kept.operations_inits {labels : List (String × Ty)} {values ps : List Prim} {temps : List Temp}
    {u u' : Supply} (h : Kept labels values ps temps u u') : operations (inits temps) = operations values := by
  induction h with
  | nil => rfl
  | @const _ _ _ c values _ _ _ _ _ ih =>
    have hconst : operations [.const c] = [] := rfl
    rw [ih, operations_cons, hconst, List.nil_append]
  | @held _ _ _ value _ _ temps u _ _ _ ih =>
    have hinits (v : Var) : inits (⟨v, value⟩ :: temps) = value :: inits temps := rfl
    rw [hinits, operations_cons, ih, ← operations_cons]

/-- Finding a settled location once more carries nothing out. -/
theorem Place.Settled.operations_eq {pinned : Bool} {operand : Expr} {place place' : Place Prim} {temps : List Temp}
    {u u' : Supply} (h : place.Settled pinned operand place' temps u u') :
    operations (inits temps) = operations place.parts ∧ operations place'.parts = [] := by
  cases h with
  | var => exact ⟨rfl, rfl⟩
  | trivial _ ha hi =>
    have hnone := operations_of_isTrivial (List.forall_mem_cons.2 ⟨ha, hi⟩)
    exact ⟨hnone.symm, hnone⟩
  | kept _ hk => exact ⟨hk.operations_inits, operations_of_isTrivial hk.isTrivial⟩

/-! ### Lowered expressions -/

/-- The tree has the operations of the expression. -/
def LowersOperations : LowerRel := fun e p _ _ =>
  (operations [p]).Perm e.operations

section
variable {u u' : Supply}

theorem Threaded.operations {es : List Expr} {ps : List Prim} (h : Threaded LowersOperations es ps u u') :
    (Prim.operations ps).Perm (es.flatMap Expr.operations) := by
  induction h with
  | nil => exact .nil
  | cons he _ ih =>
    rw [operations_cons, List.flatMap_cons]
    exact he.append ih

/-- The parts of a location. The location itself is no operation. -/
theorem PlaceRel.operations {e : Expr} {place : Place Prim} (h : PlaceRel LowersOperations e place u u') :
    (Prim.operations place.parts).Perm e.operations := by
  cases h with
  | var => exact .nil
  | element ha hi =>
    rw [Expr.operations_node (by simp [Head.kind])]
    exact (Threaded.cons ha hi).operations

theorem StepForm.operations {k : StepKind} {method : Option Method} {operand : Expr} {place : Place Prim} {p : Prim}
    (h : StepForm k method operand place p u u') :
    (Prim.operations [p]).Perm
      ((Occurrence.operation? ⟨none, .step k method⟩).toList ++ Prim.operations place.parts) := by
  cases h with
  | primitive hm hk hs =>
    obtain ⟨hinits, hparts⟩ := hs.operations_eq
    obtain ⟨op, checked⟩ := k
    subst hm hk
    rw [Temp.operations_scope _ fun _ => rfl, List.nil_append, Prim.operations_append, hinits,
      operations_singleton, Prim.parts, hparts, List.append_nil]
    exact List.perm_append_comm
  | @functional _ next place' temps old new _ _ _ _ hn hs =>
    obtain ⟨hinits, hparts⟩ := hs.operations_eq
    have hnext : Prim.operations [next (.read old)] = (Occurrence.operation? ⟨none, .step k method⟩).toList := by
      cases hn with
      | @checked one hk _ =>
        have hnone : Prim.operations [.read old, .const one] = [] := operations_of_isTrivial (by simp [Prim.isTrivial])
        obtain ⟨op, checked⟩ := k
        subst hk
        rw [operations_singleton, Prim.parts, hnone]
        rfl
      | operator m => rfl
    have hread : Prim.operations [place'.read] = [] := by
      rw [operations_singleton, Prim.parts_read, hparts]
      cases place' <;> rfl
    have hassign : Prim.operations [.assign place' (.read new)] = [] := by
      rw [operations_singleton, Prim.parts, Prim.operations_append, hparts]
      rfl
    have hresult : Prim.operations [if k.op.yieldsNew then .read new else .read old] = [] := by
      split <;> rfl
    have htemps : inits (temps ++ [⟨old, place'.read⟩] ++ [⟨new, next (.read old)⟩]) =
        inits temps ++ [place'.read] ++ [next (.read old)] := by simp [inits]
    rw [Temp.operations_scope _ fun h => absurd h (by simp), htemps]
    simp only [Prim.operations_append, hinits, hread, hnext, hassign, hresult, List.append_nil]
    exact List.perm_append_comm

theorem operations_storeElements {array : Var} {bounds : List Nat} {linear : Nat} {ps stores : List Prim}
    (h : storeElements? array bounds linear ps = some stores) : operations stores = operations ps := by
  induction ps generalizing linear stores with
  | nil => cases h; rfl
  | cons p ps ih =>
    obtain ⟨is, rest, hi, hr, rfl⟩ := storeElements?_cons_eq_some.1 h
    have htrivial : ∀ q ∈ Prim.read array :: is, q.isTrivial = true := by
      refine List.forall_mem_cons.2 ⟨rfl, fun i hmem => ?_⟩
      obtain ⟨c, rfl⟩ := const_of_mapM_indexConstant hi i hmem
      rfl
    have hstore : operations [.assign (.element (.read array) is) p] = operations [p] := by
      rw [operations_singleton, Prim.parts, Prim.operations_append, Place.parts, operations_of_isTrivial htrivial]
      rfl
    rw [operations_cons, hstore, ih hr, ← operations_cons]

theorem operations_arrayBlock {array : Var} {element : Ty} {bounds : List Nat} {ps : List Prim} {p : Prim}
    (h : arrayBlock? array element bounds ps = some p) : operations [p] = .array :: operations ps := by
  obtain ⟨sizes, stores, hs, hr, rfl⟩ := arrayBlock?_eq_some h
  have hsizes : operations sizes = [] := operations_of_isTrivial fun q hq => by
    obtain ⟨c, rfl⟩ := const_of_mapM_indexConstant hs q hq
    rfl
  have hnew : operations [.newArray element sizes] = [.array] := by
    rw [operations_singleton, Prim.parts, hsizes]
    rfl
  have hread : operations [.read array] = [] := rfl
  rw [Temp.operations_scope _ fun h => absurd h (by simp), Prim.operations_append, Prim.operations_append,
    operations_storeElements hr, hread, List.append_nil]
  exact congrArg (· ++ operations ps) hnew

/-- Arguments in declaration order have the operations of the values in binding order. -/
theorem operations_pick {slots : List Slot} {values : List Prim}
    (h : (slots.filterMap Slot.binding?).Perm (List.range values.length)) :
    (operations (slots.map (Slot.pick .const values))).Perm (operations values) := by
  refine List.Perm.trans (List.Perm.of_eq ?_) (Prim.operations_perm (perm_picked h))
  clear h
  induction slots with
  | nil => rfl
  | cons slot slots ih =>
    rw [List.map_cons, operations_cons, ih]
    cases slot with
    | bound i => exact (operations_cons _ _).symm
    | default c => rfl

theorem InvokeForm.operations {params : List Descriptor} {callee : Expr} {tys : List Ty} {c p : Prim}
    {vs : List Prim} {signature : Signature} (h : InvokeForm params callee.ty tys c vs p u u')
    (hs : callee.ty.signature? = some signature) (hb : signature.Bound params) (hv : vs.length = params.length) :
    (Prim.operations [p]).Perm (.call :: Prim.operations (c :: vs)) := by
  cases h with
  | @direct _ slots _ _ hc hslots _ harr =>
    obtain rfl := Option.some.inj (hs.symm.trans hc)
    obtain rfl := Option.some.inj ((hb.arrange hslots hv).symm.trans harr)
    have hargs := operations_pick (hv ▸ hb.perm hslots)
    rw [operations_singleton, Prim.parts, operations_cons, operations_cons c vs]
    exact (hargs.append_left _).cons _
  | @spilled _ slots c' vs' _ temps _ _ hc hslots _ hk harr =>
    have hv' : vs'.length = params.length := (Nat.succ.inj hk.length).trans hv
    obtain rfl := Option.some.inj (hs.symm.trans hc)
    obtain rfl := Option.some.inj ((hb.arrange hslots hv').symm.trans harr)
    obtain ⟨hc', hvs'⟩ := List.forall_mem_cons.1 hk.isTrivial
    have hargs : Prim.operations (slots.map (Slot.pick .const vs')) = [] := by
      have hperm := operations_pick (hv' ▸ hb.perm hslots)
      rw [operations_of_isTrivial hvs'] at hperm
      exact hperm.eq_nil
    have hcallee : Prim.operations [c'] = [] := operations_of_isTrivial (List.forall_mem_singleton.2 hc')
    have hcall : Prim.operations [.call c' (slots.map (Slot.pick .const vs'))] = [.call] := by
      rw [operations_singleton, Prim.parts, operations_cons, hcallee, hargs]
      rfl
    rw [Temp.operations_scope _ fun _ => rfl, List.nil_append, Prim.operations_append, hk.operations_inits, hcall]
    exact List.perm_append_singleton _ _

end

theorem lowersOperations_rules (o : LowerOptions) : LowerRules o LowersOperations where
  const := .nil
  var := .nil
  index _ ha hi := by
    rw [LowersOperations, Expr.operations_node (by simp [Head.kind]), operations_singleton]
    exact (Threaded.cons ha hi).operations
  binary _ hl hr := by
    rw [LowersOperations, Expr.operations_node (by simp [Head.kind]), operations_singleton]
    exact (Threaded.cons hl (.cons hr .nil)).operations.append_left [.arith _ _]
  call _ hc ha := by
    rw [LowersOperations, Expr.operations_node (by simp [Head.kind]), operations_singleton]
    exact (Threaded.cons hc ha).operations.append_left [.call]
  assign {_ target value _ v _ _ _} _ ht hv := by
    have hboth := ht.operations.append hv
    rw [LowersOperations, Expr.operations_node (by simp [Head.kind]), operations_singleton, Prim.parts,
      Prim.operations_append]
    simpa [Prim.operation?, Occurrence.operation?] using hboth
  block _ hbody := by
    rw [LowersOperations, Expr.operations_node (by simp [Head.kind]), operations_singleton]
    exact hbody.operations
  lambda {_ _ _ body p _ _} _ _ hbody := by
    rw [LowersOperations, Expr.operations_node (by simp [Head.kind]), operations_singleton, List.flatMap_singleton]
    exact hbody.append_left [.lambda]
  quote {_ _ _ _ body p _ _} _ _ hbody := by
    rw [LowersOperations, Expr.operations_quote, operations_singleton]
    exact hbody.append_left [.quote]
  step _ hp hform := by
    rw [LowersOperations, Expr.operations_node (by simp [Head.kind]), List.flatMap_singleton]
    exact hform.operations.trans (hp.operations.append_left _)
  fold {_ _ _ values _} _ _ := by
    have hnone : (values.map Expr.const).flatMap Expr.operations = [] :=
      List.flatMap_eq_nil_iff.2 fun e he => by
        obtain ⟨c, -, rfl⟩ := List.mem_map.1 he
        rfl
    rw [LowersOperations, Expr.operations_node (by simp [Head.kind]), hnone]
    exact .refl _
  array _ _ hps hp := by
    rw [LowersOperations, Expr.operations_node (by simp [Head.kind]), operations_arrayBlock hp]
    exact hps.operations.append_left [.array]
  invoke he hc hvs hform := by
    rw [LowersOperations, Expr.operations_node (by simp [Head.kind])]
    cases he.allows with
    | invoke hs hv hb =>
      refine (hform.operations hs hb ?_).trans ((Threaded.cons hc hvs).operations.cons .call)
      rw [← hvs.length, hv.length_eq]

/-! ### Counting nodes -/

namespace Prim

/-- How many nodes of the tree pass the test. -/
def count (test : Prim → Bool) (p : Prim) : Nat :=
  p.preorder.countP test

def callsMethod (m : Method) : Prim → Bool
  | callMethod m' _ => m' == m
  | _ => false

def isArith (op : ArithOp) (checked : Bool) : Prim → Bool
  | arith op' checked' _ _ => op' == op && checked' == checked
  | _ => false

def isStep (op : IncDec) : Prim → Bool
  | step op' _ => op' == op
  | _ => false

end Prim

/-- How many occurrences of composite nodes pass the test. -/
def Expr.count (test : Occurrence → Bool) (e : Expr) : Nat :=
  (e.occurrences none).countP test

namespace Occurrence

def isStepBy (m : Method) (o : Occurrence) : Bool :=
  match o.head with
  | .step _ (some m') => m' == m
  | _ => false

def isBinary (op : ArithOp) (checked : Bool) (o : Occurrence) : Bool :=
  match o.head with
  | .binary op' checked' => op' == op && checked' == checked
  | _ => false

/-- A checked increment (`add`) or decrement (`sub`) without an operator. -/
def isCheckedStep (op : ArithOp) (o : Occurrence) : Bool :=
  match o.head with
  | .step k none => k.checked && k.op.arith == op
  | _ => false

/-- An unchecked increment or decrement without an operator. -/
def isUncheckedStep (op : IncDec) (o : Occurrence) : Bool :=
  match o.head with
  | .step k none => !k.checked && k.op == op
  | _ => false

end Occurrence

theorem count_eq_count {p : Prim} {e : Expr} (h : (operations [p]).Perm e.operations) (Q : Operation → Bool)
    {f : Prim → Bool} {g : Occurrence → Bool} (hf : ∀ q, f q = (q.operation?.map Q).getD false)
    (hg : ∀ o, g o = (o.operation?.map Q).getD false) : p.count f = e.count g := by
  have hone : Prim.listPreorder [p] = p.preorder := by simp [Prim.listPreorder]
  have hcount := h.countP_eq Q
  rw [operations, Expr.operations, List.countP_filterMap, List.countP_filterMap, hone] at hcount
  rw [Prim.count, Expr.count, funext hf, funext hg]
  exact hcount

theorem countP_or {α : Type} {f g : α → Bool} (h : ∀ a, f a = true → g a = false) (as : List α) :
    as.countP (fun a => f a || g a) = as.countP f + as.countP g := by
  induction as with
  | nil => rfl
  | cons a as ih =>
    have ha := h a
    simp only [List.countP_cons, ih]
    by_cases hf : f a = true
    · simp only [hf, ha hf, Bool.or_false, if_true, Bool.false_eq_true, if_false]
      omega
    · simp only [Bool.not_eq_true] at hf
      simp only [hf, Bool.false_or, Bool.false_eq_true, if_false]
      omega

/-- Lowering neither duplicates nor drops an operation. -/
theorem Lowerer.count_lower {l l' : Lowerer} {e : Expr} {p : Prim} {supply supply' : Supply} (he : e.Obtained)
    (h : l.lower e supply = (.ok p, l', supply')) :
    p.count (· matches .call ..) = e.count (·.head matches .call) + e.count (·.head matches .invoke _) ∧
    (∀ m, p.count (Prim.callsMethod m) = e.count (Occurrence.isStepBy m)) ∧
    (∀ op, p.count (Prim.isArith op false) = e.count (Occurrence.isBinary op false)) ∧
    (∀ op, p.count (Prim.isArith op true) =
      e.count (Occurrence.isBinary op true) + e.count (Occurrence.isCheckedStep op)) ∧
    (∀ op, p.count (Prim.isStep op) = e.count (Occurrence.isUncheckedStep op)) ∧
    p.count (· matches .quote ..) = e.count (·.head matches .quote) ∧
    p.count (· matches .lambda _) =
      e.count (fun o => (o.head matches .lambda ..) && !o.quoted) ∧
    p.count (· matches .newArray ..) + p.count (· matches .constArray ..) =
      e.count (·.head matches .array ..) := by
  have hperm : (operations [p]).Perm e.operations :=
    (lowersOperations_rules l.options).of_loweredTo he.wellMade (loweredTo h)
  refine ⟨?_, fun m => ?_, fun op => ?_, fun op => ?_, fun op => ?_, ?_, ?_, ?_⟩
  · rw [Expr.count, Expr.count, ← countP_or (by rintro ⟨_, head⟩; cases head <;> simp)]
    refine count_eq_count hperm (· matches .call) (fun q => by cases q <;> rfl) fun o => ?_
    fun_cases Occurrence.operation? o <;> simp [*]
  · refine count_eq_count hperm (fun | .method m' => m' == m | _ => false) (fun q => by cases q <;> rfl) fun o => ?_
    fun_cases Occurrence.operation? o <;> simp [Occurrence.isStepBy, *]
  · refine count_eq_count hperm (fun | .arith op' c => op' == op && c == false | _ => false)
      (fun q => by cases q <;> rfl) fun o => ?_
    fun_cases Occurrence.operation? o <;> simp [Occurrence.isBinary, *]
  · rw [Expr.count, Expr.count, ← countP_or (by
      rintro ⟨_, head⟩; cases head <;> simp [Occurrence.isBinary, Occurrence.isCheckedStep])]
    refine count_eq_count hperm (fun | .arith op' c => op' == op && c == true | _ => false)
      (fun q => by cases q <;> rfl) fun o => ?_
    fun_cases Occurrence.operation? o <;> simp [Occurrence.isBinary, Occurrence.isCheckedStep, *]
  · refine count_eq_count hperm (fun | .step op' => op' == op | _ => false) (fun q => by cases q <;> rfl) fun o => ?_
    fun_cases Occurrence.operation? o <;> simp [Occurrence.isUncheckedStep, *]
  · refine count_eq_count hperm (· matches .quote) (fun q => by cases q <;> rfl) fun o => ?_
    fun_cases Occurrence.operation? o <;> simp [*]
  · refine count_eq_count hperm (· matches .lambda) (fun q => by cases q <;> rfl) fun o => ?_
    fun_cases Occurrence.operation? o <;> simp [*]
  · rw [Prim.count, Prim.count, ← countP_or (by intro q; cases q <;> simp)]
    refine count_eq_count hperm (· matches .array) (fun q => by cases q <;> rfl) fun o => ?_
    fun_cases Occurrence.operation? o <;> simp [*]

namespace CheckedIncrement

def xs : Var := ⟨⟨0⟩, "xs", .array (.int .i32) 1⟩
def f : Var := ⟨⟨1⟩, "f", .fn ⟨⟨"f"⟩, "f", [], .int .i32⟩⟩

def callF : Expr := .node 0 .call [.var f]
def location : Expr := .node 1 .index [.var xs, callF]

/-- `checked(xs[f()]++)` -/
def expr : Expr := .node 2 (.step ⟨.postIncrement, true⟩ none) [location]

theorem expr_obtained : expr.Obtained := by
  have hcall : Expr.mkCall (.var f) [] 0 = .ok (callF, 1) := rfl
  have hindex : Expr.mkIndex (.var xs) [callF] 1 = .ok (location, 2) := rfl
  have hstep : Expr.mkStep ⟨.postIncrement, true⟩ location none 2 = .ok (expr, 3) := rfl
  have hcallF : callF.Obtained := .made (List.forall_mem_singleton.2 (.var f)) hcall
  have hlocation : location.Obtained := .made (by simp [hcallF, Expr.Obtained.var]) hindex
  exact .made (List.forall_mem_singleton.2 hlocation) hstep

end CheckedIncrement

open CheckedIncrement in
/-- The element of `checked(xs[f()]++)` is found twice, to read it and to store it. Nevertheless `f` is called
once, and one sum is computed. -/
theorem Lowerer.count_lower_checkedIncrement :
    ∃ p, lower {} expr { var := 2 } = (.ok p, {}, { var := 6 }) ∧
      p.count (· matches .call ..) = 1 ∧ p.count (Prim.isArith .add true) = 1 := by
  obtain ⟨p, hp⟩ : ∃ p, lower {} expr { var := 2 } = (.ok p, {}, { var := 6 }) := ⟨_, rfl⟩
  obtain ⟨hcalls, _, _, hsums, _⟩ := count_lower expr_obtained hp
  exact ⟨p, hp, hcalls, hsums .add⟩

end ExprLowering
