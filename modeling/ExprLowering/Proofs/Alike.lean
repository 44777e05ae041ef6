import Mathlib.Data.List.Forall2
import ExprLowering.Proofs.TempBlocks

/-!
# Trees that are alike

Two primitive trees are alike if they do the same by the same operations, up to the names of variables and
the stamps of quotations. Where `L` holds the right tree may be more lenient than the left one: the left one
may increment a location by a checked addition, through temporaries for the old and the new value, where the
right one has the primitive operation, which wraps.
-/

namespace ExprLowering

/-- Which variable of the right tree stands for which one of the left tree. -/
abbrev Naming := VarId → VarId → Prop

namespace Naming
variable {Γ : Naming} {a b x y : VarId} {as bs : List VarId}

/-- The two variables are bound and stand for each other. -/
def bind (Γ : Naming) (a b : VarId) : Naming :=
  fun x y => x = a ∧ y = b ∨ x ≠ a ∧ y ≠ b ∧ Γ x y

/-- The variables are bound one after the other. -/
def bindAll (Γ : Naming) : List VarId → List VarId → Naming
  | a :: as, b :: bs => bindAll (Γ.bind a b) as bs
  | _, _ => Γ

/-- The variable is bound on the left only. -/
def hide (Γ : Naming) (a : VarId) : Naming :=
  fun x y => x ≠ a ∧ Γ x y

theorem bindAll_of_notMem (h : Γ x y) (hx : x ∉ as) (hy : y ∉ bs) : Γ.bindAll as bs x y := by
  induction as generalizing Γ bs with
  | nil => exact h
  | cons a as ih =>
    cases bs with
    | nil => exact h
    | cons b bs =>
      rw [List.mem_cons, not_or] at hx hy
      exact ih (.inr ⟨hx.1, hy.1, h⟩) hx.2 hy.2

theorem bindAll_of_mem_zip (ha : as.Nodup) (hb : bs.Nodup) (h : (x, y) ∈ as.zip bs) : Γ.bindAll as bs x y := by
  induction as generalizing Γ bs with
  | nil => cases h
  | cons a as ih =>
    cases bs with
    | nil => cases h
    | cons b bs =>
      rw [List.nodup_cons] at ha hb
      rw [List.zip_cons_cons, List.mem_cons] at h
      rcases h with h | h
      · cases h
        show (Γ.bind x y).bindAll as bs x y
        exact bindAll_of_notMem (.inl ⟨rfl, rfl⟩) ha.1 hb.1
      · exact ih ha.2 hb.2 h

theorem bindAll_self (h : Γ x x) : Γ.bindAll as as x x := by
  induction as generalizing Γ with
  | nil => exact h
  | cons a as ih =>
    refine ih ?_
    by_cases hx : x = a
    · exact .inl ⟨hx, hx⟩
    · exact .inr ⟨hx, hx, h⟩

end Naming

/-! ### Trees -/

/-- The locations are of one kind. -/
inductive Place.SameForm (Γ : Naming) : Place Prim → Place Prim → Prop
  | var {v v' : Var} (h : Γ v.id v'.id) : SameForm Γ (.var v) (.var v')
  | element {array array' : Prim} {indices indices' : List Prim} (h : indices.length = indices'.length) :
      SameForm Γ (.element array indices) (.element array' indices')

namespace Prim

/-- The roots do the same with their parts. -/
inductive SameForm (Γ : Naming) : Prim → Prim → Prop
  | const (c : Constant) : SameForm Γ (.const c) (.const c)
  | read {v v' : Var} (h : Γ v.id v'.id) : SameForm Γ (.read v) (.read v')
  | assign {target target' : Place Prim} {value value' : Prim} (h : target.SameForm Γ target') :
      SameForm Γ (.assign target value) (.assign target' value')
  | block {locals locals' : List Var} {body body' : List Prim} (ht : locals.map (·.ty) = locals'.map (·.ty))
      (h : body.length = body'.length) : SameForm Γ (.block locals body) (.block locals' body')
  | arith (op : ArithOp) (checked : Bool) {left left' right right' : Prim} :
      SameForm Γ (.arith op checked left right) (.arith op checked left' right')
  | step (op : IncDec) {target target' : Place Prim} (h : target.SameForm Γ target') :
      SameForm Γ (.step op target) (.step op target')
  | newArray (element : Ty) {bounds bounds' : List Prim} (h : bounds.length = bounds'.length) :
      SameForm Γ (.newArray element bounds) (.newArray element bounds')
  | constArray (element : Ty) (bounds : List Nat) (values : List Constant) :
      SameForm Γ (.constArray element bounds values) (.constArray element bounds values)
  | element {array array' : Prim} {indices indices' : List Prim} (h : indices.length = indices'.length) :
      SameForm Γ (.element array indices) (.element array' indices')
  | call {callee callee' : Prim} {args args' : List Prim} (h : args.length = args'.length) :
      SameForm Γ (.call callee args) (.call callee' args')
  | callMethod (method : Method) {args args' : List Prim} (h : args.length = args'.length) :
      SameForm Γ (.callMethod method args) (.callMethod method args')
  | lambda (signature : Signature) (params : List Var) {body body' : Prim} :
      SameForm Γ (.lambda ⟨signature, params, body⟩) (.lambda ⟨signature, params, body'⟩)
  | quote (signature : Signature) (params : List Var) {stamp stamp' : Stamp} {body body' : Prim} :
      SameForm Γ (.quote stamp ⟨signature, params, body⟩) (.quote stamp' ⟨signature, params, body'⟩)

end Prim

/-- The temporaries have one type and stand for each other. -/
def Temp.SameForm (Γ : Naming) (t t' : Temp) : Prop :=
  t.var.ty = t'.var.ty ∧ Γ t.var.id t'.var.id

namespace Prim

/-- A checked increment of a location with trivial parts, through temporaries for the old and the new value. -/
def checkedIncrement (op : IncDec) (one : Constant) (place : Place Prim) (temps : List Temp) (old new : Var) : Prim :=
  Temp.scope (temps ++ [⟨old, place.read⟩] ++ [⟨new, .arith op.arith true (.read old) (.const one)⟩])
    [.assign place (.read new)] (if op.yieldsNew then .read new else .read old)

/-- The names in a checked increment, beside those in the primitive one. -/
def incrementNaming (Γ : Naming) (temps temps' : List Temp) (old new : Var) : Naming :=
  ((Γ.bindAll (Temp.ids temps) (Temp.ids temps')).hide old.id).hide new.id

/-- The names in the parts of a tree. A quotation is not run where it stands, so the variables in it are known by
their names. -/
def naming (Γ : Naming) : Prim → Naming
  | .quote _ _ => Eq
  | _ => Γ

inductive Alike (L : Prop) : Naming → Prim → Prim → Prop
  | node {Γ : Naming} {p q : Prim} (hform : p.SameForm Γ q)
      (hparts : ∀ a b, (a, b) ∈ p.parts.zip q.parts → Alike L ((p.naming Γ).bindAll p.binders q.binders) a b) :
      Alike L Γ p q
  | increment {Γ : Naming} {op : IncDec} {ty : Ty} {one : Constant} {place place' : Place Prim}
      {temps temps' : List Temp} {old new : Var} (hL : L) (hone : Constant.one? ty = some one)
      (hne : old.id ≠ new.id)
      (htemps : List.Forall₂ (Temp.SameForm (incrementNaming Γ temps temps' old new)) temps temps')
      (hinits : ∀ t t', (t, t') ∈ temps.zip temps' →
        Alike L (incrementNaming Γ temps temps' old new) t.init t'.init)
      (hplace : place.SameForm (incrementNaming Γ temps temps' old new) place')
      (htrivial : ∀ p ∈ place.parts, p.isTrivial = true)
      (hparts : ∀ a b, (a, b) ∈ place.parts.zip place'.parts →
        Alike L (incrementNaming Γ temps temps' old new) a b) :
      Alike L Γ (checkedIncrement op one place temps old new) (Temp.scope temps' [] (.step op place'))

end Prim

theorem Place.SameForm.length_parts {Γ : Naming} {place place' : Place Prim} (h : place.SameForm Γ place') :
    place.parts.length = place'.parts.length := by
  cases h with
  | var => rfl
  | element h => simp [Place.parts, h]

namespace Prim
variable {L : Prop} {Γ : Naming} {p q : Prim}

mutual

theorem induction_parts {P : Prim → Prop} (h : ∀ p, (∀ q ∈ p.parts, P q) → P p) : ∀ p, P p
  | .const _ | .read _ | .constArray _ _ _ => h _ fun _ hq => nomatch hq
  | .assign target value =>
    h _ (List.forall_mem_append.2 ⟨induction_place h target, List.forall_mem_singleton.2 (induction_parts h value)⟩)
  | .block _ body => h _ (induction_all h body)
  | .arith _ _ left right =>
    h _ (List.forall_mem_cons.2 ⟨induction_parts h left, List.forall_mem_singleton.2 (induction_parts h right)⟩)
  | .step _ target => h _ (induction_place h target)
  | .newArray _ bounds => h _ (induction_all h bounds)
  | .element array indices => h _ (List.forall_mem_cons.2 ⟨induction_parts h array, induction_all h indices⟩)
  | .call callee args => h _ (List.forall_mem_cons.2 ⟨induction_parts h callee, induction_all h args⟩)
  | .callMethod _ args => h _ (induction_all h args)
  | .lambda ⟨_, _, body⟩ | .quote _ ⟨_, _, body⟩ => h _ (List.forall_mem_singleton.2 (induction_parts h body))

theorem induction_place {P : Prim → Prop} (h : ∀ p, (∀ q ∈ p.parts, P q) → P p) :
    ∀ place : Place Prim, ∀ q ∈ place.parts, P q
  | .var _ => fun _ hq => nomatch hq
  | .element array indices => List.forall_mem_cons.2 ⟨induction_parts h array, induction_all h indices⟩

theorem induction_all {P : Prim → Prop} (h : ∀ p, (∀ q ∈ p.parts, P q) → P p) : ∀ ps : List Prim, ∀ q ∈ ps, P q
  | [] => fun _ hq => nomatch hq
  | p :: ps => List.forall_mem_cons.2 ⟨induction_parts h p, induction_all h ps⟩

end

theorem SameForm.length_parts (h : p.SameForm Γ q) : p.parts.length = q.parts.length := by
  cases h with
  | const | read | arith | constArray | lambda | quote => rfl
  | assign h => simp [parts, h.length_parts]
  | step _ h => exact h.length_parts
  | block _ h | newArray _ h | callMethod _ h => exact h
  | element h | call h => simp [parts, h]

theorem SameForm.refl (h : ∀ x, Γ x x) (p : Prim) : p.SameForm Γ p := by
  have hplace : ∀ place : Place Prim, place.SameForm Γ place := fun place => by
    cases place with
    | var v => exact .var (h v.id)
    | element array indices => exact .element rfl
  cases p with
  | const c => exact .const c
  | read v => exact .read (h v.id)
  | assign target value => exact .assign (hplace target)
  | block locals body => exact .block rfl rfl
  | arith op checked left right => exact .arith op checked
  | step op target => exact .step op (hplace target)
  | newArray element bounds => exact .newArray element rfl
  | constArray element bounds values => exact .constArray element bounds values
  | element array indices => exact .element rfl
  | call callee args => exact .call rfl
  | callMethod method args => exact .callMethod method rfl
  | lambda code => exact .lambda code.signature code.params
  | quote stamp code => exact .quote code.signature code.params

namespace Alike

theorem of_parts (hform : p.SameForm Γ q)
    (hparts : List.Forall₂ (Alike L ((p.naming Γ).bindAll p.binders q.binders)) p.parts q.parts) : Alike L Γ p q :=
  .node hform fun _ _ h => (List.forall₂_iff_zip.1 hparts).2 h

/-- A tree is like itself if its variables keep their names. -/
theorem refl (h : ∀ x, Γ x x) (p : Prim) : Alike L Γ p p := by
  induction p using induction_parts generalizing Γ with
  | _ p ih =>
    have hnaming : ∀ x, p.naming Γ x x := fun x => by
      cases p with
      | quote => rfl
      | _ => exact h x
    refine .of_parts (.refl h p) (List.forall₂_same.2 fun q hq => ?_)
    exact ih q hq fun x => Naming.bindAll_self (hnaming x)

theorem isTrivial_eq (h : Alike L Γ p q) : p.isTrivial = q.isTrivial := by
  cases h with
  | node hform _ => cases hform <;> rfl
  | @increment _ op _ _ _ _ temps temps' =>
    rw [checkedIncrement, Temp.scope_of_ne_nil (by simp)]
    cases temps' <;> rfl

theorem const_left {c : Constant} (h : Alike L Γ (.const c) q) : q = .const c := by
  generalize hp : Prim.const c = p at h
  cases h with
  | node hform _ =>
    subst hp
    cases hform
    rfl
  | increment =>
    rw [checkedIncrement, Temp.scope_of_ne_nil (by simp)] at hp
    cases hp

theorem const_right {c : Constant} (h : Alike L Γ p (.const c)) : p = .const c := by
  generalize hq : Prim.const c = q at h
  cases h with
  | node hform _ =>
    subst hq
    cases hform
    rfl
  | @increment _ _ _ _ _ _ _ temps' => cases temps' <;> cases hq

theorem read_left {v : Var} (h : Alike L Γ (.read v) q) : ∃ y, Γ v.id y := by
  generalize hp : Prim.read v = p at h
  cases h with
  | node hform _ =>
    subst hp
    cases hform with
    | read hv => exact ⟨_, hv⟩
  | increment =>
    rw [checkedIncrement, Temp.scope_of_ne_nil (by simp)] at hp
    cases hp

theorem stores {temps temps' : List Temp} (htemps : List.Forall₂ (Temp.SameForm Γ) temps temps')
    (hinits : List.Forall₂ (fun t t' => Alike L Γ t.init t'.init) temps temps') :
    List.Forall₂ (Alike L Γ) (Temp.stores temps) (Temp.stores temps') := by
  rw [Temp.stores, Temp.stores, List.forall₂_map_left_iff, List.forall₂_map_right_iff]
  induction htemps with
  | nil => exact .nil
  | cons ht _ ih =>
    cases hinits with
    | cons hi hinits => exact .cons (.of_parts (.assign (.var ht.2)) (.cons hi .nil)) (ih hinits)

theorem scope {temps temps' : List Temp} {statements statements' : List Prim} {result result' : Prim}
    (htemps : List.Forall₂ (Temp.SameForm (Γ.bindAll (Temp.ids temps) (Temp.ids temps'))) temps temps')
    (hinits : List.Forall₂ (fun t t' => Alike L (Γ.bindAll (Temp.ids temps) (Temp.ids temps')) t.init t'.init)
      temps temps')
    (hstatements : List.Forall₂ (Alike L (Γ.bindAll (Temp.ids temps) (Temp.ids temps'))) statements statements')
    (hresult : Alike L (Γ.bindAll (Temp.ids temps) (Temp.ids temps')) result result') :
    Alike L Γ (Temp.scope temps statements result) (Temp.scope temps' statements' result') := by
  have hstores := stores htemps hinits
  have htys : temps.map (·.var.ty) = temps'.map (·.var.ty) := by
    rw [← List.forall₂_eq_eq_eq, List.forall₂_map_left_iff, List.forall₂_map_right_iff]
    exact htemps.imp fun _ _ h => h.1
  cases htemps with
  | nil => exact hresult
  | cons =>
    rw [Temp.scope_of_ne_nil (List.cons_ne_nil _ _), Temp.scope_of_ne_nil (List.cons_ne_nil _ _)]
    have hbody := List.rel_append (List.rel_append hstores hstatements) (.cons hresult .nil)
    refine .of_parts (.block ?_ hbody.length_eq) ?_
    · simpa [Function.comp_def] using htys
    · simpa [parts, binders, naming, Temp.ids, Function.comp_def] using hbody

end Alike
end Prim

end ExprLowering
