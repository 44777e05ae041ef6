import ExprLowering.Proofs.Unchecked

/-!
# Other expressions in the place of constants

A traversal may put expressions in the place of the constants it meets. If each of them has the type of the constant
it stands for, the traversal cannot fail: a node looks at its parts for their types, and for whether they are
locations or lambdas, which constants never are. `Refilled e e'` is what comes out: the tree of `e`, node by node,
with other expressions where the constants were.

Types are compared by the identities of their signatures. `Ty.Named` says that an identity stands for one signature,
so that types with the same identities are one type.
-/

namespace ExprLowering

/-! ### Signatures known by their identities -/

/-- Every signature the type is made of is the one that `sig` has for its identity. -/
def Ty.Named (sig : SigId → Signature) : Ty → Prop
  | .array element _ => element.Named sig
  | .fn s => sig s.id = s
  | .quoted inner => inner.Named sig
  | .nullable inner => inner.Named sig
  | _ => True

theorem Ty.Named.eq_of_nominal {sig : SigId → Signature} {t u : Ty} (ht : t.Named sig) (hu : u.Named sig)
    (h : t.nominal = u.nominal) : t = u := by
  -- Only a type made of others, or of a signature, has something that its shape does not fix.
  induction t using Ty.nominal.induct generalizing u with
  | case7 element rank ih =>
    cases u with
    | array element' rank' =>
      obtain ⟨helement, rfl⟩ := NominalTy.array.inj h
      rw [ih (u := element') ht hu helement]
    | _ => cases h
  | case8 s =>
    cases u with
    | fn s' =>
      have hid : s.id = s'.id := NominalTy.fn.inj h
      have hs : sig s.id = s := ht
      have hs' : sig s'.id = s' := hu
      rw [← hs, hid, hs']
    | _ => cases h
  | case9 inner ih =>
    cases u with
    | quoted inner' => rw [ih (u := inner') ht hu (NominalTy.quoted.inj h)]
    | _ => cases h
  | case10 inner ih =>
    cases u with
    | nullable inner' => rw [ih (u := inner') ht hu (NominalTy.nullable.inj h)]
    | _ => cases h
  | _ =>
    cases u <;> cases h
    rfl

/-- Equal types, of signatures known by their identities, are one type. -/
theorem Ty.Named.eq_of_beq {sig : SigId → Signature} {t u : Ty} (ht : t.Named sig) (hu : u.Named sig)
    (h : (t == u) = true) : t = u :=
  ht.eq_of_nominal hu (Ty.beq_iff.1 h)

namespace Expr

/-! ### Expressions with other constants -/

theorem isLocation_node_eq {stamp stamp' : Stamp} {head : Head} {parts parts' : List Expr} :
    (node stamp' head parts').isLocation = (node stamp head parts).isLocation := by
  cases head <;> rfl

/-- Expressions stand in the place of constants of their types, and nothing else has changed. -/
inductive Refilled : Expr → Expr → Prop
  | const {c : Constant} {e : Expr} (h : e.ty = c.ty) : Refilled (const c) e
  | var (v : Var) : Refilled (var v) (var v)
  | node {stamp stamp' : Stamp} {head : Head} {parts parts' : List Expr}
      (hparts : List.Forall₂ Refilled parts parts') : Refilled (node stamp head parts) (node stamp' head parts')

namespace Refilled
variable {e e' d : Expr}

theorem refl (e : Expr) : e.Refilled e := by
  induction e using induction_parts with
  | const c => exact .const rfl
  | var v => exact .var v
  | node stamp head parts ih => exact .node (List.forall₂_same.2 ih)

theorem ty_eq (h : e.Refilled e') : e'.ty = e.ty := by
  induction e using induction_parts generalizing e' with
  | const c =>
    obtain h | _ | _ := h
    exact h
  | var v => cases h; rfl
  | node stamp head parts ih =>
    obtain _ | _ | hparts := h
    exact ty_node_congr ((List.forall₂_and_left _ _ |>.2 ⟨@ih, hparts⟩).imp fun _ _ h => h.1 h.2)

theorem suits (h : e.Refilled e') : e.Suits e' := by
  refine ⟨h.ty_eq, ?_, ?_⟩
  · intro hl
    rcases h with _ | _ | _
    · cases hl
    · exact hl
    · rw [isLocation_node_eq]
      exact hl
  · intro hl
    rcases h with _ | _ | @⟨_, _, head⟩
    · cases hl
    · exact hl
    · cases head with
      | lambda => rfl
      | _ => cases hl

theorem at_eq {path : List Nat} (h : e.Refilled e') (hat : e.at? path = some d) :
    ∃ d', e'.at? path = some d' ∧ d.Refilled d' := by
  induction path generalizing e e' with
  | nil =>
    cases hat
    exact ⟨e', rfl, h⟩
  | cons i path ih =>
    obtain ⟨p, hp, hbelow⟩ := at?_cons_eq_some hat
    rcases h with _ | _ | @⟨_, _, _, _, parts', hparts⟩
    · obtain ⟨hnil, -⟩ := at?_of_isLeaf rfl hat
      cases hnil
    · obtain ⟨hnil, -⟩ := at?_of_isLeaf rfl hat
      cases hnil
    · obtain ⟨hi, hpi⟩ := List.getElem?_eq_some_iff.1 hp
      have hi' : i < parts'.length := hparts.length_eq ▸ hi
      have hpart : p.Refilled parts'[i] := hpi ▸ hparts.get hi hi'
      obtain ⟨d', hd', hr⟩ := ih hpart hbelow
      exact ⟨d', at?_part (List.getElem?_eq_getElem hi') hd', hr⟩

end Refilled

/-! ### Meeting constants -/

section
variable {σ : Type} {f : Constant → TraversalM σ Expr} {s s' : TraversalState σ} {e : Expr} {es : List Expr}

/-- Taking the expressions in order from one state, the traversal that replaces constants by `f` comes to the
constant in the other state. -/
inductive Meets (f : Constant → TraversalM σ Expr) :
    List Expr → TraversalState σ → Constant → TraversalState σ → Prop
  | const {c : Constant} {es : List Expr} {s : TraversalState σ} : Meets f (const c :: es) s c s
  | inside {stamp : Stamp} {head : Head} {parts es : List Expr} {s s' : TraversalState σ} {c : Constant}
      (h : Meets f parts s c s') : Meets f (node stamp head parts :: es) s c s'
  | after {e e' : Expr} {es : List Expr} {s s₁ s' : TraversalState σ} {c : Constant}
      (hrun : (e.traverse { const := f }).run s = (.ok e', s₁)) (h : Meets f es s₁ c s') : Meets f (e :: es) s c s'

/-- Each constant that is met is replaced by an expression of its type. -/
def Refills (f : Constant → TraversalM σ Expr) (es : List Expr) (s : TraversalState σ) : Prop :=
  ∀ c s₁, Meets f es s c s₁ → ∃ d s₂, (f c).run s₁ = (.ok d, s₂) ∧ d.ty = c.ty

theorem Refills.first (h : Refills f (e :: es) s) : Refills f [e] s := by
  intro c s₁ hm
  refine h c s₁ ?_
  rcases hm with _ | hm | ⟨_, hm⟩
  · exact .const
  · exact .inside hm
  · cases hm

theorem Refills.rest {e' : Expr} (h : Refills f (e :: es) s)
    (hrun : (e.traverse { const := f }).run s = (.ok e', s')) : Refills f es s' :=
  fun c s₁ hm => h c s₁ (.after hrun hm)

/-- The traversal succeeds on the expression, from every state from which constants keep their types. -/
def Refillable (f : Constant → TraversalM σ Expr) (e : Expr) : Prop :=
  ∀ s, Refills f [e] s → ∃ e' s', (e.traverse { const := f }).run s = (.ok e', s') ∧ e.Refilled e'

theorem run_update_refilled {stamp : Stamp} {head : Head} {parts parts' : List Expr}
    (hw : WellMade (node stamp head parts)) (hparts : List.Forall₂ Refilled parts parts') (s : TraversalState σ) :
    ∃ e' s', (TraversalM.ofBuild ((node stamp head parts).update parts') : TraversalM σ Expr).run s = (.ok e', s') ∧
      (node stamp head parts).Refilled e' := by
  rw [update]
  split_ifs
  · exact ⟨_, _, run_ofBuild rfl, .refl _⟩
  · -- The checks of the node look at nothing that changes where a constant is replaced by one of its type.
    have hsuits : List.Forall₂ Suits parts parts' := hparts.imp fun _ _ h => h.suits
    have hmake := make_of_check (Head.check_of_suits hsuits hw.check) (Head.fits_of_suits hsuits hw.fits) s.stamp
    exact ⟨_, _, run_ofBuild hmake, .node hparts⟩

/-- A bound value is taken with other constants, or left if that is the same value. -/
theorem run_bound_refilled {param : Descriptor} {e' : Expr} (h : e.Refilled e')
    (ha : param.ty.accepts e.ty = true) (s : TraversalState σ) :
    ∃ e'', (rebind param e e' : TraversalM σ Expr).run s = (.ok e'', s) ∧ e.Refilled e'' := by
  refine ⟨_, run_rebind_of_ty h.ty_eq ha s, ?_⟩
  split_ifs
  · exact .refl e
  · exact h

theorem run_traverseParts_refilled {roles : List (Option Descriptor)} (ih : ∀ e ∈ es, Refillable f e)
    (hroles : RolesFit roles es) (hf : Refills f es s) :
    ∃ es' s', (traverseParts { const := f } roles es).run s = (.ok es', s') ∧ List.Forall₂ Refilled es es' := by
  induction es generalizing roles s with
  | nil => exact ⟨[], s, rfl, .nil⟩
  | cons e es ihs =>
    rw [List.forall_mem_cons] at ih
    obtain ⟨e', s₁, hrun, he'⟩ := ih.1 s hf.first
    obtain ⟨es', s₂, hruns, hes'⟩ := ihs ih.2 hroles.2 (hf.rest hrun)
    rw [traverseParts]
    split
    · refine ⟨e' :: es', s₂, ?_, .cons he' hes'⟩
      rw [run_bind_of_ok hrun, run_bind_of_ok hruns]
      rfl
    · rename_i param hparam
      obtain ⟨e'', hbound, he''⟩ := run_bound_refilled he' (hroles.1 param hparam) s₁
      refine ⟨e'' :: es', s₂, ?_, .cons he'' hes'⟩
      refine (run_bind_of_ok rfl).trans ?_
      rw [run_bind_of_ok hrun, run_bind_of_ok hbound, run_bind_of_ok hruns]
      rfl

theorem refillable (he : e.WellMade) : Refillable f e := by
  induction e using induction_parts with
  | const c =>
    intro s hf
    obtain ⟨d, s', hrun, hty⟩ := hf c s .const
    refine ⟨d, s', ?_, .const hty⟩
    rw [traverse]
    exact hrun
  | var v => exact fun s _ => ⟨var v, s, by rw [traverse]; rfl, .var v⟩
  | node stamp head parts ih =>
    intro s hf
    have hinside : Refills f parts s := fun c s₁ hm => hf c s₁ (.inside hm)
    obtain ⟨parts', s₁, hrun, hparts⟩ :=
      run_traverseParts_refilled (fun p hp => ih p hp (he.part p hp)) he.rolesFit hinside
    obtain ⟨e', s₂, hupdate, he'⟩ := run_update_refilled he hparts s₁
    refine ⟨e', s₂, ?_, he'⟩
    rw [traverse_node _ he.allows, Traversal.around]
    -- The traversal has nothing of its own to do at a node, before or after the parts.
    refine (run_bind_of_ok rfl).trans ?_
    rw [run_bind_of_ok hrun]
    exact hupdate

/-- Expressions of the types of the constants they replace never break a tree. The traversal succeeds, the result has
the type of the expression, and for every node there is, at its position, a node of its kind, of its type and with
as many parts, which is a location if the old node is one. -/
theorem traverse_retypes {sig : SigId → Signature} (he : e.Obtained)
    (hf : ∀ c s₁, Meets f [e] s c s₁ → c.ty.Named sig ∧
      ∃ d s₂, (f c).run s₁ = (.ok d, s₂) ∧ (d.ty == c.ty) = true ∧ d.ty.Named sig) :
    ∃ e' s', (e.traverse { const := f }).run s = (.ok e', s') ∧ e'.ty = e.ty ∧
      ∀ path d, e.at? path = some d → d.isLeaf = false →
        ∃ d', e'.at? path = some d' ∧ d'.kind = d.kind ∧ d'.ty = d.ty ∧ d'.isLocation = d.isLocation ∧
          d'.parts.length = d.parts.length := by
  have hrefills : Refills f [e] s := by
    intro c s₁ hm
    obtain ⟨hc, d, s₂, hrun, hbeq, hd⟩ := hf c s₁ hm
    exact ⟨d, s₂, hrun, hd.eq_of_beq hc hbeq⟩
  obtain ⟨e', s', hrun, hrefilled⟩ := refillable he.wellMade s hrefills
  refine ⟨e', s', hrun, hrefilled.ty_eq, ?_⟩
  intro path d hat hd
  obtain ⟨d', hd', hr⟩ := hrefilled.at_eq hat
  have hty := hr.ty_eq
  refine ⟨d', hd', ?_⟩
  rcases hr with _ | _ | hparts
  · cases hd
  · cases hd
  · exact ⟨rfl, hty, isLocation_node_eq, hparts.length_eq.symm⟩

end

namespace FilledCall

def signature : Signature := ⟨⟨"g"⟩, "g", [⟨"x", .int .i32, none⟩], .int .i32⟩

def zero : Constant := .lit (.int (.wrap .i32 0))

def param : Descriptor := .held signature ⟨0, by decide⟩

/-- `null(x := 0)`, where the null is one of a function type -/
def call : Expr := node 0 (.invoke [param]) [const (.null (.fn signature)), const zero]

/-- A null becomes a variable, and a literal becomes `xs[0]` and is counted. -/
def filler : Constant → TraversalM Nat Expr
  | .null t => pure (var ⟨⟨0⟩, "g", t⟩)
  | .lit _ => do
    TraversalM.note (· + 1)
    .ofBuild (mkIndex (var ⟨⟨1⟩, "xs", .array (.int .i32) 1⟩) [const zero])

theorem call_obtained : call.Obtained := by
  have hcall : make (.invoke [param]) [const (.null (.fn signature)), const zero] 0 = .ok (call, 1) := rfl
  exact .made (by simp [Obtained.const]) hcall

theorem filler_keeps {c : Constant} {s s₁ : TraversalState Nat} (h : Meets filler [call] s c s₁) :
    c.ty.Named (fun _ => signature) ∧ ∃ d s₂, (filler c).run s₁ = (.ok d, s₂) ∧ (d.ty == c.ty) = true ∧
      d.ty.Named fun _ => signature := by
  obtain _ | hinside | ⟨_, hnil⟩ := h
  · obtain _ | _ | ⟨-, hvalue⟩ := hinside
    · exact ⟨rfl, _, _, rfl, rfl, rfl⟩
    · obtain _ | _ | ⟨-, hnil⟩ := hvalue
      · exact ⟨trivial, _, _, rfl, rfl, trivial⟩
      · cases hnil
  · cases hnil

end FilledCall

open FilledCall in
/-- With a function for the null and an element of an array for the number, the call is a call of the same type. -/
theorem traverse_retypes_call : ∃ e' s', (call.traverse { const := filler }).run ⟨1, 0⟩ = (.ok e', s') ∧
    e'.ty = .int .i32 ∧ e'.kind = .invoke ∧ e'.parts.length = 2 := by
  obtain ⟨e', s', hrun, hty, hnodes⟩ := traverse_retypes call_obtained fun _ _ => filler_keeps (s := ⟨1, 0⟩)
  obtain ⟨d, hat, hkind, -, -, hlength⟩ := hnodes [] call rfl rfl
  cases hat
  exact ⟨e', s', hrun, hty, hkind, hlength⟩

end Expr

end ExprLowering
