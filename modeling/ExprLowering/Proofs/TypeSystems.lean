import Mathlib.Logic.Function.Basic
import ExprLowering.Proofs.Shape
import ExprLowering.Proofs.TempBlocks
import ExprLowering.Proofs.Typing

/-!
# Type systems for primitive trees

A `TypeSystem` is a way to give types to trees and locations that obeys the typing rules, one for each kind of tree.
In any of them a lowered expression has the type of the expression (`TypeSystem.lowers_rules`, by rule induction). What
it means for a tree to have a type is left open.
-/

namespace ExprLowering

/-! ### Contexts -/

namespace Ctx

/-- The context with these types of variables; of two for one variable the later counts. -/
def extend (Γ : Ctx) (bs : List (VarId × NominalTy)) : Ctx :=
  bs.foldl (fun Γ b => Function.update Γ b.1 b.2) Γ

variable {Γ : Ctx} {vs : List Var}

/-- The context in which the variables have their own types. -/
def bind (Γ : Ctx) (vs : List Var) : Ctx :=
  Γ.extend (vs.map fun v => (v.id, v.ty.nominal))

theorem bind_cons (v : Var) : Γ.bind (v :: vs) = bind (Function.update Γ v.id v.ty.nominal) vs := rfl

theorem bind_of_notMem {x : VarId} (h : x ∉ vs.map (·.id)) : Γ.bind vs x = Γ x := by
  induction vs generalizing Γ with
  | nil => rfl
  | cons v vs ih =>
    rw [List.map_cons, List.mem_cons, not_or] at h
    rw [bind_cons, ih h.2, Function.update_of_ne h.1]

theorem bind_of_mem {v : Var} (hn : (vs.map (·.id)).Nodup) (h : v ∈ vs) : Γ.bind vs v.id = v.ty.nominal := by
  induction vs generalizing Γ with
  | nil => cases h
  | cons w vs ih =>
    rw [List.map_cons, List.nodup_cons] at hn
    rw [bind_cons]
    rcases List.mem_cons.1 h with rfl | h
    · rw [bind_of_notMem hn.1, Function.update_self]
    · exact ih hn.2 h

theorem bind_eq_self (h : ∀ v ∈ vs, Γ v.id = v.ty.nominal) : Γ.bind vs = Γ := by
  induction vs with
  | nil => rfl
  | cons v vs ih =>
    rw [List.forall_mem_cons] at h
    rw [bind_cons, ← h.1, Function.update_eq_self, ih h.2]

end Ctx

/-! ### Type systems -/

/-- Types of trees and of locations, closed under the typing rules. -/
structure TypeSystem (V : Vocabulary) where
  /-- The tree has the type in the context. -/
  HasTy : Ctx → NominalTy → Prim → Prop
  /-- The location holds values of the type. -/
  Holds : Ctx → NominalTy → Place Prim → Prop
  var : ∀ {Γ t v}, Γ v.id = t → Holds Γ t (.var v)
  element : ∀ {Γ t array indices}, HasTy Γ (.array t indices.length) array →
    (∀ i ∈ indices, HasTy Γ (.int .i32) i) → Holds Γ t (.element array indices)
  of_accepts : ∀ {Γ target source p}, Ty.accepts target source = true → HasTy Γ source.nominal p →
    HasTy Γ target.nominal p
  const : ∀ {Γ} c, HasTy Γ (Constant.ty c).nominal (.const c)
  one : ∀ {Γ ty c}, Constant.one? ty = some c → HasTy Γ ty.nominal (.const c)
  default : ∀ {Γ s f c}, V.Known s → f ∈ s.params → f.default = some c → HasTy Γ f.ty.nominal (.const c)
  ofPlace : ∀ {Γ t place}, Holds Γ t place → HasTy Γ t place.read
  assign : ∀ {Γ t place p}, Holds Γ t place → HasTy Γ t p → HasTy Γ t (.assign place p)
  arith : ∀ {Γ ty left right} op checked, Ty.isArithmetic ty = true → HasTy Γ ty.nominal left →
    HasTy Γ ty.nominal right → HasTy Γ ty.nominal (.arith op checked left right)
  step : ∀ {Γ ty place} op, Ty.isArithmetic ty = true → Holds Γ ty.nominal place →
    HasTy Γ ty.nominal (.step op place)
  newArray : ∀ {Γ element bounds sizes n}, (element == Ty.void) = false → bounds.mapM indexConstant? = some sizes →
    Shape.size? bounds = some n → HasTy Γ (.array element.nominal bounds.length) (.newArray element sizes)
  constArray : ∀ {Γ element bounds values}, (element == Ty.void) = false →
    Shape.size? bounds = some values.length → (∀ c ∈ values, element.accepts c.ty = true) →
    HasTy Γ (.array element.nominal bounds.length) (.constArray element bounds values)
  call : ∀ {Γ s callee args}, V.Known s → HasTy Γ (.fn s.id) callee →
    List.Forall₂ (fun (f : Formal) p => HasTy Γ f.ty.nominal p) s.params args →
    HasTy Γ s.result.nominal (.call callee args)
  callMethod : ∀ {Γ method args}, V.Operator method → V.Known method.signature →
    List.Forall₂ (fun (f : Formal) p => HasTy Γ f.ty.nominal p) method.signature.params args →
    HasTy Γ method.signature.result.nominal (.callMethod method args)
  lambda : ∀ {Γ code}, Lambda.LoweredFrom V Γ code → HasTy Γ (.fn code.signature.id) (.lambda code)
  quote : ∀ {Γ} stamp code, HasTy Γ (.quoted (.fn (Lambda.signature code).id)) (.quote stamp code)
  /-- The locals have their own types in the statements; the block has the type of the last one. -/
  block : ∀ {Γ locals body ts}, List.Forall₂ (HasTy (Ctx.bind Γ locals)) ts body →
    HasTy Γ (ts.getLastD .void) (.block locals body)

/-! ### Types of parts -/

theorem Ty.eq_fn_of_signature? {ty : Ty} {s : Signature} (h : ty.signature? = some s) : ty = .fn s := by
  cases ty with
  | fn => cases h; rfl
  | _ => cases h

theorem Expr.nominal_lastTy (es : List Expr) : (lastTy es).nominal = (es.map (·.ty.nominal)).getLastD .void := by
  induction es with
  | nil => rfl
  | cons e es ih =>
    cases es with
    | nil => rfl
    | cons e' es =>
      rw [lastTy, ih]
      simp

theorem map_snd_elementLabels (array : Expr) (indices : List Expr) :
    (elementLabels array indices).map (·.2) = (array :: indices).map Expr.ty := by
  have hzip : indices.zipIdx.map (Expr.ty ∘ Prod.fst) = indices.map Expr.ty := by
    rw [← List.map_map, List.zipIdx_map_fst]
  simpa [elementLabels, Function.comp_def] using hzip

theorem map_snd_invokeLabels {params : List Descriptor} {ty : Ty} {tys : List Ty} (h : params.length = tys.length) :
    (invokeLabels params ty tys).map (·.2) = ty :: tys := by
  have hzip : (params.zip tys).map Prod.snd = tys := List.map_snd_zip h.ge
  simpa [invokeLabels, Function.comp_def] using hzip

/-! ### Coherent expressions and contexts -/

theorem Expr.binders_eq_locals (head : Head) : Expr.binders head = head.locals.map (·.id) := by
  cases head <;> rfl

theorem Expr.Below.mono {e : Expr} {m n : Nat} (h : e.Below n) (hle : n ≤ m) : e.Below m :=
  fun x hx => Nat.lt_of_lt_of_le (h x hx) hle

namespace Expr.Coherent
variable {V : Vocabulary} {Γ Γ' : Ctx} {n : Nat} {e : Expr}

theorem part (h : e.Coherent V Γ) : ∀ p ∈ e.parts, p.Coherent V Γ := by
  cases h with
  | const | var => intro p hp; cases hp
  | node _ _ _ coherent => exact coherent

/-- Only the types of the expression's own variables matter. -/
theorem congr (h : e.Coherent V Γ) (hb : e.Below n) (hΓ : ∀ x : VarId, x.val < n → Γ' x = Γ x) : e.Coherent V Γ' := by
  induction h with
  | const c => exact .const c
  | var h => exact .var ((hΓ _ (hb _ List.mem_cons_self)).trans h)
  | @node stamp head parts locals known operators _ ih =>
    refine .node (fun v hv => ?_) known operators fun p hp => ih p hp (hb.part p hp)
    refine (hΓ _ (hb.binders _ ?_)).trans (locals v hv)
    rw [binders_eq_locals]
    exact List.mem_map_of_mem hv

theorem bind {vs : List Var} (h : e.Coherent V Γ) (hb : e.Below n) (hv : ∀ x ∈ vs.map (·.id), n ≤ x.val) :
    e.Coherent V (Γ.bind vs) :=
  h.congr hb fun x hx => Ctx.bind_of_notMem fun hm => absurd hx (Nat.not_lt.2 (hv x hm))

theorem scope {temps : List Temp} {v v' : Supply} (h : e.Coherent V Γ) (hb : e.Below n) (hn : n ≤ v.var)
    (hids : Temp.ids temps = v.taken v') :
    ∃ Γ₁, Γ.bind (temps.map (·.var)) = Γ₁ ∧ e.Coherent V Γ₁ ∧ ∀ s ∈ temps, Γ₁ s.var.id = s.var.ty.nominal := by
  have hmap : (temps.map (·.var)).map (·.id) = v.taken v' := by rw [← hids, List.map_map]; rfl
  refine ⟨_, rfl, h.bind hb fun x hx => ?_, fun s hs => ?_⟩
  · exact Nat.le_trans hn (Supply.le_of_mem_taken (hmap ▸ hx))
  · exact Ctx.bind_of_mem (hmap ▸ Supply.nodup_taken) (List.mem_map_of_mem hs)

end Expr.Coherent

namespace Lambda.LoweredFrom
variable {V : Vocabulary} {Γ : Ctx} {code : Lambda Prim}

theorem known (h : code.LoweredFrom V Γ) : V.Known code.signature := by
  obtain ⟨stamp, body, o, u, u', -, hcoherent, -⟩ := h
  cases hcoherent with
  | node _ known _ _ => exact known _ (List.mem_singleton.2 rfl)

theorem params (h : code.LoweredFrom V Γ) :
    List.Forall₂ (fun (p : Formal) (x : Var) => p.ty == x.ty) code.signature.params code.params := by
  obtain ⟨stamp, body, o, u, u', hmade, -⟩ := h
  cases hmade.allows with
  | lambda hp _ => exact hp

end Lambda.LoweredFrom

namespace TypeSystem
variable {V : Vocabulary} {T : TypeSystem V} {Γ : Ctx} {n : Nat} {u u₁ u₂ : Supply}

/-! ### Temporaries -/

open Temp (Kept)

theorem read {v : Var} {t : NominalTy} (h : Γ v.id = t) : T.HasTy Γ t (.read v) :=
  T.ofPlace (T.var h)

theorem scope {temps : List Temp} {statements : List Prim} {ts : List NominalTy} {t : NominalTy} {result : Prim}
    {Γ₁ : Ctx} (hΓ : Γ.bind (temps.map (·.var)) = Γ₁) (hv : ∀ s ∈ temps, Γ₁ s.var.id = s.var.ty.nominal)
    (hi : ∀ s ∈ temps, T.HasTy Γ₁ s.var.ty.nominal s.init) (hs : List.Forall₂ (T.HasTy Γ₁) ts statements)
    (hr : T.HasTy Γ₁ t result) : T.HasTy Γ t (Temp.scope temps statements result) := by
  subst hΓ
  rw [Temp.scope]
  split
  · rename_i hempty
    rw [List.isEmpty_iff] at hempty
    subst hempty
    exact hr
  · have hstores : List.Forall₂ (T.HasTy (Γ.bind (temps.map (·.var)))) (temps.map (·.var.ty.nominal))
        (Temp.stores temps) := by
      rw [Temp.stores, List.forall₂_map_left_iff, List.forall₂_map_right_iff, List.forall₂_same]
      exact fun s hmem => T.assign (T.var (hv s hmem)) (hi s hmem)
    have hall := List.rel_append (List.rel_append hstores hs) (List.Forall₂.cons hr .nil)
    simpa [Temp.stores] using T.block hall

/-- Trees that have the types of expressions, one by one. -/
abbrev HaveTys (T : TypeSystem V) (Γ : Ctx) (tys : List Ty) (ps : List Prim) : Prop :=
  List.Forall₂ (fun (ty : Ty) p => T.HasTy Γ ty.nominal p) tys ps

theorem kept {labels : List (String × Ty)} {values ps : List Prim} {temps : List Temp}
    (h : Kept labels values ps temps u u₁) (ht : ∀ s ∈ temps, Γ s.var.id = s.var.ty.nominal)
    (hv : T.HaveTys Γ (labels.map (·.2)) values) :
    (∀ s ∈ temps, T.HasTy Γ s.var.ty.nominal s.init) ∧ T.HaveTys Γ (labels.map (·.2)) ps := by
  induction h with
  | nil => exact ⟨by simp, .nil⟩
  | const _ ih =>
    cases hv with
    | cons hc hv =>
      obtain ⟨hi, hps⟩ := ih ht hv
      exact ⟨hi, .cons hc hps⟩
  | held _ _ ih =>
    cases hv with
    | cons hc hv =>
      rw [List.forall_mem_cons] at ht
      obtain ⟨hi, hps⟩ := ih ht.2 hv
      exact ⟨List.forall_mem_cons.2 ⟨hc, hi⟩, .cons (read ht.1) hps⟩

/-! ### Lowered parts -/

/-- The tree has the type of the expression. -/
structure Lowers (T : TypeSystem V) (e : Expr) (p : Prim) (u u' : Supply) : Prop where
  le : u.var ≤ u'.var
  hasTy : ∀ {n : Nat} {Γ : Ctx}, e.Below n → n ≤ u.var → e.Coherent V Γ → T.HasTy Γ e.ty.nominal p

theorem threaded {es : List Expr} {ps : List Prim} (h : Threaded T.Lowers es ps u u₁) (hb : ∀ e ∈ es, e.Below n)
    (hn : n ≤ u.var) (hc : ∀ e ∈ es, e.Coherent V Γ) : T.HaveTys Γ (es.map Expr.ty) ps := by
  induction h with
  | nil => exact .nil
  | cons h _ ih =>
    rw [List.forall_mem_cons] at hb hc
    exact .cons (h.hasTy hb.1 hn hc.1) (ih hb.2 (Nat.le_trans hn h.le) hc.2)

theorem ofIndex {stamp : Stamp} {array : Expr} {indices : List Expr} {a : Prim} {is : List Prim}
    (he : Expr.WellMade (.node stamp .index (array :: indices)))
    (h : T.HaveTys Γ ((array :: indices).map Expr.ty) (a :: is)) :
    T.Holds Γ (Expr.node stamp .index (array :: indices)).ty.nominal (.element a is) := by
  cases he.allows with
  | @index _ _ element hbase hindices =>
    cases h with
    | cons ha hi =>
      have hlen : indices.length = is.length := by simpa using hi.length_eq
      have hty : array.ty = .array element is.length := by
        rw [hlen] at hbase
        cases h : array.ty with
        | array e r => rw [h] at hbase; cases hbase; rfl
        | _ => rw [h] at hbase; cases hbase
      have hresult : (Expr.node stamp .index (array :: indices)).ty = element := by
        rw [Expr.ty, Expr.elementTy, hty]
        rfl
      rw [hresult]
      rw [hty] at ha
      refine T.element ha (Expr.forall_mem_of_forall₂ hi fun ty hmem p hp => ?_)
      obtain ⟨i, hi, rfl⟩ := List.mem_map.1 hmem
      exact T.of_accepts (hindices i hi) hp

theorem ofTarget {target : Expr} {place : Place Prim} (h : PlaceRel T.Lowers target place u u₁) (he : target.WellMade)
    (hb : target.Below n) (hn : n ≤ u.var) (hc : target.Coherent V Γ) : T.Holds Γ target.ty.nominal place := by
  cases h with
  | var =>
    cases hc with
    | var hv => exact T.var hv
  | element ha hi => exact ofIndex he (threaded (.cons ha hi) hb.part hn hc.part)

/-! ### Steps -/

theorem settled {pinned : Bool} {operand : Expr} {place place' : Place Prim} {temps : List Temp}
    (h : place.Settled pinned operand place' temps u₁ u₂) (hp : PlaceRel T.Lowers operand place u u₁)
    (he : operand.WellMade) (hb : operand.Below n) (hn : n ≤ u.var) (hc : operand.Coherent V Γ)
    (hv : ∀ s ∈ temps, Γ s.var.id = s.var.ty.nominal) :
    (∀ s ∈ temps, T.HasTy Γ s.var.ty.nominal s.init) ∧ T.Holds Γ operand.ty.nominal place' := by
  cases h with
  | var => exact ⟨by simp, ofTarget hp he hb hn hc⟩
  | trivial => exact ⟨by simp, ofTarget hp he hb hn hc⟩
  | kept _ hk =>
    cases hp with
    | element ha hi =>
      have hparts := threaded (.cons ha hi) hb.part hn hc.part
      obtain ⟨hinit, hps⟩ := kept hk hv (map_snd_elementLabels .. ▸ hparts)
      exact ⟨hinit, ofIndex he (map_snd_elementLabels .. ▸ hps)⟩

theorem next {stamp : Stamp} {k : StepKind} {method : Option Method} {operand : Expr} {pinned : Bool}
    {next : Prim → Prim} {p : Prim} (h : StepNext k operand.ty method pinned next)
    (he : Expr.WellMade (.node stamp (.step k method) [operand]))
    (hc : Expr.Coherent V Γ (.node stamp (.step k method) [operand])) (hp : T.HasTy Γ operand.ty.nominal p) :
    T.HasTy Γ operand.ty.nominal (next p) := by
  cases h with
  | checked _ hone =>
    cases he.allows with
    | stepByOne _ ha => exact T.arith _ _ ha hp (T.one hone)
  | operator m =>
    cases he.allows with
    | stepByMethod _ hm hparam hresult =>
      cases hc with
      | node _ known operators _ =>
        refine T.of_accepts hresult (T.callMethod (operators m ?_) (known _ ?_) ?_)
        · exact List.mem_singleton.2 rfl
        · exact List.mem_singleton.2 rfl
        · rw [hm]
          exact .cons (T.of_accepts hparam hp) .nil

theorem ofStep {stamp : Stamp} {k : StepKind} {method : Option Method} {operand : Expr} {place : Place Prim} {p : Prim}
    (h : StepForm k method operand place p u₁ u₂) (hp : PlaceRel T.Lowers operand place u u₁)
    (he : Expr.WellMade (.node stamp (.step k method) [operand]))
    (hc : Expr.Coherent V Γ (.node stamp (.step k method) [operand]))
    (hb : Expr.Below n (.node stamp (.step k method) [operand])) (hn : n ≤ u.var) :
    T.HasTy Γ operand.ty.nominal p := by
  have he' := he.part operand (List.mem_singleton.2 rfl)
  have hb' := hb.part operand (List.mem_singleton.2 rfl)
  have hnu := Nat.le_trans hn (hp.le Lowers.le)
  cases h with
  | primitive hm hk hsettled =>
    subst hm
    obtain ⟨Γ₁, hΓ, hc', hv⟩ := hc.scope hb hnu hsettled.ids_eq
    obtain ⟨hinit, hplace⟩ := settled hsettled hp he' hb' hn (hc'.part _ (List.mem_singleton.2 rfl)) hv
    cases he.allows with
    | stepByOne _ ha => exact scope hΓ hv hinit .nil (T.step _ ha hplace)
  | @functional pinned next place' temps old new _ v₁ v₂ _ hnext hsettled ho hw =>
    have hids : Temp.ids (temps ++ [⟨old, place'.read⟩] ++ [⟨new, next (.read old)⟩]) = u₁.taken u₂ :=
      Temp.ids_append_old_new hsettled.ids_eq hsettled.le ho hw _ _
    obtain ⟨Γ₁, hΓ, hc', hv⟩ := hc.scope hb hnu hids
    obtain ⟨hinit, hplace⟩ := settled hsettled hp he' hb' hn (hc'.part _ (List.mem_singleton.2 rfl))
      fun s hs => hv s (by simp [hs])
    have htyOld : old.ty = operand.ty := by cases ho; rfl
    have htyNew : new.ty = operand.ty := by cases hw; rfl
    have hold : T.HasTy Γ₁ operand.ty.nominal (.read old) := read (htyOld ▸ hv ⟨old, place'.read⟩ (by simp))
    have hnew : T.HasTy Γ₁ operand.ty.nominal (.read new) := read (htyNew ▸ hv ⟨new, next (.read old)⟩ (by simp))
    refine scope hΓ hv (fun s hs => ?_) (.cons (T.assign hplace hnew) .nil) ?_
    · rcases List.mem_append.1 hs with hs | hs
      · rcases List.mem_append.1 hs with hs | hs
        · exact hinit s hs
        · rw [List.mem_singleton.1 hs, htyOld]
          exact T.ofPlace hplace
      · rw [List.mem_singleton.1 hs, htyNew]
        exact TypeSystem.next hnext he hc' hold
    · cases k.op.yieldsNew with
      | true => exact hnew
      | false => exact hold

/-! ### Arrays -/

theorem indexConstants {ns : List Nat} {is : List Prim} (h : ns.mapM indexConstant? = some is) :
    ∀ i ∈ is, T.HasTy Γ (.int .i32) i := by
  refine Expr.forall_mem_of_forall₂ (mapM_eq_some_iff.1 h) fun n _ i hi => ?_
  obtain ⟨w, rfl, hk, -⟩ := indexConstant?_eq_some hi
  have hty : (Constant.lit (.int w)).ty.nominal = .int .i32 := by rw [← hk]; rfl
  exact hty ▸ T.const (.lit (.int w))

theorem storeElements {array : Var} {t : NominalTy} {bounds : List Nat} {linear : Nat} {ps stores : List Prim}
    (h : storeElements? array bounds linear ps = some stores) (ha : Γ array.id = .array t bounds.length)
    (hp : ∀ p ∈ ps, T.HasTy Γ t p) : List.Forall₂ (T.HasTy Γ) (ps.map fun _ => t) stores := by
  induction ps generalizing linear stores with
  | nil => cases h; exact .nil
  | cons p ps ih =>
    obtain ⟨is, rest, hi, hrest, rfl⟩ := storeElements?_cons_eq_some.1 h
    rw [List.forall_mem_cons] at hp
    have hlen : is.length = bounds.length := by
      rw [← (mapM_eq_some_iff.1 hi).length_eq, Shape.length_unflatten]
    refine .cons (T.assign (T.element ?_ (indexConstants hi)) hp.1) (ih hrest hp.2)
    exact read (hlen ▸ ha)

theorem arrayBlock {array : Var} {element : Ty} {bounds : List Int32} {elements : List Expr} {ps : List Prim} {p : Prim}
    (hvoid : (element == .void) = false) (hcheck : checkBounds 0 1 bounds = .ok elements.length)
    (hu : u.fresh "__array" (.array element bounds.length) = (array, u₁))
    (hp : arrayBlock? array element (bounds.map (·.toInt.toNat)) ps = some p)
    (hps : ∀ q ∈ ps, T.HasTy (Γ.bind [array]) element.nominal q) :
    T.HasTy Γ (.array element.nominal bounds.length) p := by
  obtain ⟨sizes, stores, hsizes, hstores, rfl⟩ := arrayBlock?_eq_some hp
  obtain ⟨-, hsize, -⟩ := checkBounds_eq_ok hcheck
  have hlen : bounds.length = (bounds.map (·.toInt.toNat)).length := (List.length_map _).symm
  have harray : Γ.bind [array] array.id = .array element.nominal bounds.length := by
    cases hu
    exact Ctx.bind_of_mem (List.nodup_singleton _) (List.mem_singleton.2 rfl)
  have hty : array.ty.nominal = .array element.nominal bounds.length := by cases hu; rfl
  refine scope rfl ?_ ?_ (storeElements hstores (hlen ▸ harray) hps) (read harray)
  · exact List.forall_mem_singleton.2 (harray.trans hty.symm)
  · refine List.forall_mem_singleton.2 ?_
    rw [hty, hlen]
    exact T.newArray hvoid hsizes hsize

/-! ### Invocations -/

theorem arguments {s : Signature} {params : List Descriptor} {slots : List Slot} {values : List Prim} (hs : V.Known s)
    (hbound : s.Bound params) (hslots : s.slots? params = some slots)
    (hv : List.Forall₂ (fun (d : Descriptor) p => T.HasTy Γ d.ty.nominal p) params values) :
    List.Forall₂ (fun (f : Formal) p => T.HasTy Γ f.ty.nominal p) s.params (slots.map (Slot.pick .const values)) := by
  rw [Signature.slots?, Signature.parameters, mapM_eq_some_iff, List.forall₂_map_left_iff] at hslots
  rw [← List.map_get_finRange s.params, List.forall₂_map_left_iff, List.forall₂_map_right_iff]
  refine hslots.imp fun i slot hslot => ?_
  rw [Signature.slot?, Signature.param_position] at hslot
  cases hj : params.findIdx? (·.position == i.val) with
  | some j =>
    rw [hj] at hslot
    cases hslot
    obtain ⟨hlt, hpos, -⟩ := List.findIdx?_eq_some_iff_getElem.1 hj
    rw [beq_iff_eq] at hpos
    have hmem := List.getElem_mem hlt
    obtain ⟨f, hf, hty⟩ := Signature.ty_of_declared (hbound.declared _ hmem)
    have hlt' : j < values.length := hv.length_eq ▸ hlt
    have hformal : s.params.get i = f := by
      rw [hpos, List.getElem?_eq_getElem i.2] at hf
      exact Option.some.inj hf
    have hpick : Slot.pick Prim.const values (.bound j) = values[j] := by simp [Slot.pick, hlt']
    rw [hformal, hpick, ← hty]
    exact hv.get hlt hlt'
  | none =>
    rw [hj] at hslot
    obtain ⟨c, hc, rfl⟩ := Option.map_eq_some_iff.1 hslot
    exact T.default hs (List.get_mem _ i) hc

theorem haveTys_of_accepts {ι : Type} {ty : ι → Ty} {fs : List ι} {es : List Expr} {ps : List Prim}
    (ha : List.Forall₂ (fun f (e : Expr) => (ty f).accepts e.ty = true) fs es)
    (h : T.HaveTys Γ (es.map Expr.ty) ps) : List.Forall₂ (fun f p => T.HasTy Γ (ty f).nominal p) fs ps := by
  induction ha generalizing ps with
  | nil => cases h; exact .nil
  | cons ha _ ih =>
    cases h with
    | cons hp h => exact .cons (T.of_accepts ha hp) (ih h)

theorem invocation {stamp : Stamp} {params : List Descriptor} {callee : Expr} {values : List Expr} {s : Signature}
    {slots : List Slot} {c : Prim} {vs args : List Prim}
    (he : Expr.WellMade (.node stamp (.invoke params) (callee :: values)))
    (hco : Expr.Coherent V Γ (.node stamp (.invoke params) (callee :: values)))
    (hc : callee.ty.signature? = some s) (hs : s.slots? params = some slots)
    (ha : Slot.arrange slots (vs.map some) = some args) (h : T.HaveTys Γ ((callee :: values).map Expr.ty) (c :: vs)) :
    T.HasTy Γ (Expr.node stamp (.invoke params) (callee :: values)).ty.nominal (.call c args) := by
  cases he.allows with
  | invoke hc' hv hbound =>
    cases hc.symm.trans hc'
    cases hco with
    | node _ known _ _ =>
      have hty := Ty.eq_fn_of_signature? hc
      have hknown : V.Known s := known s (by simp [Head.signatures, hc])
      cases h with
      | cons hcallee hvalues =>
        have hvs := haveTys_of_accepts hv hvalues
        cases hbound.arrange hs hvs.length_eq.symm ▸ ha
        rw [hty] at hcallee
        have hcall := T.call hknown hcallee (arguments hknown hbound hs hvs)
        rw [Expr.ty, hty]
        exact hcall

theorem ofInvoke {stamp : Stamp} {params : List Descriptor} {callee : Expr} {values : List Expr} {c p : Prim}
    {vs : List Prim} (h : InvokeForm params callee.ty (values.map Expr.ty) c vs p u₁ u₂)
    (he : Expr.WellMade (.node stamp (.invoke params) (callee :: values)))
    (hall : Threaded T.Lowers (callee :: values) (c :: vs) u u₁)
    (hb : Expr.Below n (.node stamp (.invoke params) (callee :: values))) (hn : n ≤ u.var)
    (hco : Expr.Coherent V Γ (.node stamp (.invoke params) (callee :: values))) :
    T.HasTy Γ (Expr.node stamp (.invoke params) (callee :: values)).ty.nominal p := by
  cases h with
  | direct hc hs _ ha => exact invocation he hco hc hs ha (threaded hall hb.part hn hco.part)
  | spilled hc hs _ hk ha =>
    obtain ⟨Γ₁, hΓ, hco', hv⟩ := hco.scope hb (Nat.le_trans hn (hall.le Lowers.le)) hk.ids_eq
    have hlabels : (invokeLabels params callee.ty (values.map Expr.ty)).map (·.2) = (callee :: values).map Expr.ty :=
      map_snd_invokeLabels (he.invoke_length.trans (List.length_map _).symm)
    obtain ⟨hinit, hps⟩ := kept hk hv (hlabels ▸ threaded hall hb.part hn hco'.part)
    exact scope hΓ hv hinit .nil (invocation he hco' hc hs ha (hlabels ▸ hps))

/-! ### Every lowering has the type of its expression -/

theorem lowers_rules (T : TypeSystem V) (o : LowerOptions) : LowerRules o T.Lowers where
  const {c _} := ⟨Nat.le_refl _, fun _ _ _ => T.const c⟩
  var := by
    refine ⟨Nat.le_refl _, fun _ _ hc => ?_⟩
    cases hc with
    | var h => exact read h
  index he ha hi := by
    refine ⟨Nat.le_trans ha.le (hi.le Lowers.le), fun hb hn hc => ?_⟩
    exact T.ofPlace (ofTarget (.element ha hi) he hb hn hc)
  binary he hl hr := by
    refine ⟨Nat.le_trans hl.le hr.le, fun hb hn hc => ?_⟩
    cases threaded (.cons hl (.cons hr .nil)) hb.part hn hc.part with
    | cons hl hr =>
      cases hr with
      | cons hr _ =>
        cases he.allows with
        | binary ha heq => exact T.arith _ _ ha hl (Ty.beq_iff.1 heq ▸ hr)
  call he hf ha := by
    refine ⟨Nat.le_trans hf.le (ha.le Lowers.le), fun hb hn hc => ?_⟩
    cases he.allows with
    | @call callee args s hs haccepts =>
      have hknown : V.Known s := by
        cases hc with
        | node _ known _ _ => exact known s (by simp [Head.signatures, hs])
      have hty := Ty.eq_fn_of_signature? hs
      cases threaded (.cons hf ha) hb.part hn hc.part with
      | cons hcallee hargs =>
        rw [hty] at hcallee
        have hcall := T.call hknown hcallee (haveTys_of_accepts haccepts hargs)
        rw [Expr.ty, hty]
        exact hcall
  assign he ht hv := by
    refine ⟨Nat.le_trans (ht.le Lowers.le) hv.le, fun hb hn hc => ?_⟩
    cases he.allows with
    | assign _ ha =>
      have hplace := ofTarget ht (he.part _ (by simp [Expr.parts])) (hb.part _ (by simp [Expr.parts])) hn
        (hc.part _ (by simp [Expr.parts]))
      have hvalue := hv.hasTy (hb.part _ (by simp [Expr.parts])) (Nat.le_trans hn (ht.le Lowers.le))
        (hc.part _ (by simp [Expr.parts]))
      exact T.assign hplace (T.of_accepts ha hvalue)
  block {_ locals _ _ _ _} _ hbody := by
    refine ⟨hbody.le Lowers.le, fun {_ Γ} hb hn hc => ?_⟩
    have hlocals : Γ.bind locals = Γ := by
      cases hc with
      | node hl _ _ _ => exact Ctx.bind_eq_self hl
    have hstatements : T.HaveTys Γ _ _ := threaded hbody hb.part hn hc.part
    rw [HaveTys, List.forall₂_map_left_iff] at hstatements
    rw [Expr.ty, Expr.nominal_lastTy]
    refine T.block ?_
    rw [hlocals, List.forall₂_map_left_iff]
    exact hstatements
  lambda {_ signature params _ p _ _} he hlow hbody := by
    refine ⟨hbody.le, fun hb hn hc => ?_⟩
    have hbelow := (hb.part _ (List.mem_singleton.2 rfl)).mono hn
    have hcode : Lambda.LoweredFrom V _ ⟨signature, params, p⟩ := ⟨_, _, _, _, _, he, hc, hbelow, hlow⟩
    exact T.lambda hcode
  quote {_ _ signature params _ p _ _} _ _ hbody :=
    ⟨hbody.le, fun _ _ _ => T.quote _ ⟨signature, params, p⟩⟩
  step he hp hform := by
    refine ⟨Nat.le_trans (hp.le Lowers.le) hform.le, fun hb hn hc => ?_⟩
    rw [Expr.ty]
    exact ofStep hform hp he hc hb hn
  fold {_ element bounds values _} he _ := by
    refine ⟨Nat.le_refl _, fun _ _ _ => ?_⟩
    cases he.allows with
    | array hvoid _ hcheck =>
      obtain ⟨-, hsize, -⟩ := checkBounds_eq_ok hcheck
      rw [List.length_map] at hsize
      have hvalues : ∀ c ∈ values, element.accepts c.ty = true :=
        fun c hc => he.fits (.const c) (List.mem_map_of_mem hc)
      have hrank : (bounds.map (·.toInt.toNat)).length = bounds.length := List.length_map _
      rw [Expr.ty, Ty.nominal, ← hrank]
      exact T.constArray hvoid hsize hvalues
  array {_ _ _ _ array _ _ _ _ _} he hu hps hp := by
    refine ⟨Nat.le_trans (Supply.le_fresh hu) (hps.le Lowers.le), fun {n _} hb hn hc => ?_⟩
    have hfresh : ∀ x ∈ [array].map (·.id), n ≤ x.val := by
      cases hu
      exact List.forall_mem_singleton.2 hn
    have hparts := threaded hps hb.part (Nat.le_trans hn (Supply.le_fresh hu)) (hc.bind hb hfresh).part
    cases he.allows with
    | array hvoid _ hcheck =>
      refine arrayBlock hvoid hcheck hu hp (Expr.forall_mem_of_forall₂ hparts fun ty hmem q hq => ?_)
      obtain ⟨e, hmem', rfl⟩ := List.mem_map.1 hmem
      exact T.of_accepts (he.fits e hmem') hq
  invoke he hc hvs hform := by
    refine ⟨Nat.le_trans ((Threaded.cons hc hvs).le Lowers.le) hform.le, fun hb hn hco => ?_⟩
    exact ofInvoke hform he (.cons hc hvs) hb hn hco

end TypeSystem

end ExprLowering
