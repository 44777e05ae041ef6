import Mathlib.Data.Finset.Card
import Mathlib.Logic.Relation
import ExprLowering.Machine.Text
import ExprLowering.Proofs.ArrayTypes

/-!
# Cycles of arrays

The text of an array goes into its elements, and so into the arrays among them. A `Session` evaluates lowered
expressions one after the other, from no variables and no arrays at all, and may bind what it obtained to variables.
In all its states an array that reaches itself does so by way of an array of objects: along every other array the type
of the elements gets smaller. So the text of a value ends unless the value reaches an array of objects that reaches
itself (`Session.prints_iff`). The latter does happen (`Session.exists_cycle`): a place for objects takes any array,
also the one that it belongs to.
-/

namespace ExprLowering

open Relation

/-! ### Arrays in arrays -/

/-- Array `b` is among the elements of array `a`. -/
def Contains (grids : Array Grid) (a b : GridId) : Prop :=
  Value.array b ∈ (grids.getD a default).data

/-- The elements of the array are objects, which may be null. -/
def HoldsObjects (grids : Array Grid) (a : GridId) : Prop :=
  (grids.getD a default).element.nominal.core = .object

/-- Going from arrays into their elements, starting with the value, comes to an end. -/
def Value.Prints (grids : Array Grid) (v : Value) : Prop :=
  ∀ a, v = .array a → Acc (fun b c => Contains grids c b) a

/-- The array is the value or is found going into elements. -/
def Value.Reaches (grids : Array Grid) (v : Value) (b : GridId) : Prop :=
  ∃ a, v = .array a ∧ ReflTransGen (Contains grids) a b

section
variable {grids : Array Grid} {a b : GridId}

theorem lt_size_of_contains (h : Contains grids a b) : a < grids.size := by
  by_contra hlt
  rw [Contains, Array.getD_eq_getD_getElem?, Array.getElem?_eq_none (Nat.le_of_not_lt hlt)] at h
  exact absurd h (Array.not_mem_empty _)

open Classical in
/-- The number of arrays that can be reached from the elements of an array. -/
noncomputable def reach (grids : Array Grid) (a : GridId) : Nat :=
  ((Finset.range grids.size).filter (TransGen (Contains grids) a)).card

open Classical in
theorem reach_le_size (a : GridId) : reach grids a ≤ grids.size := by
  refine (Finset.card_filter_le _ _).trans ?_
  rw [Finset.card_range]

open Classical in
theorem reach_lt (hb : b < grids.size) (h : Contains grids a b) (hc : ¬ TransGen (Contains grids) b b) :
    reach grids b < reach grids a := by
  refine Finset.card_lt_card ⟨fun c hmem => ?_, fun hsub => ?_⟩
  · rw [Finset.mem_filter] at hmem ⊢
    exact ⟨hmem.1, .head h hmem.2⟩
  · have hmem := hsub (Finset.mem_filter.2 ⟨Finset.mem_range.2 hb, .single h⟩)
    exact hc (Finset.mem_filter.1 hmem).2

variable (hin : ∀ {a b}, Contains grids a b → b < grids.size)
include hin

theorem acc_of_acyclic (h : ∀ b, ReflTransGen (Contains grids) a b → ¬ TransGen (Contains grids) b b) :
    Acc (fun b c => Contains grids c b) a := by
  -- Each step into an element leaves fewer arrays to reach.
  induction hn : reach grids a using Nat.strong_induction_on generalizing a with
  | _ n ih =>
    subst hn
    refine ⟨_, fun b hb => ih _ (reach_lt (hin hb) hb (h b (.single hb))) (fun c hc => ?_) rfl⟩
    exact h c (.head hb hc)

theorem textWithin_eq {n k : Nat} (h : ∀ b, ReflTransGen (Contains grids) a b → ¬ TransGen (Contains grids) b b)
    (hn : reach grids a < n) (hk : reach grids a < k) :
    (Value.array a).textWithin grids n = (Value.array a).textWithin grids k := by
  induction n generalizing a k with
  | zero => exact absurd hn (Nat.not_lt_zero _)
  | succ n ih =>
    obtain ⟨k, rfl⟩ := Nat.exists_eq_succ_of_ne_zero (Nat.ne_of_gt (Nat.zero_lt_of_lt hk))
    have hdata : (grids.getD a default).data.toList.map (Value.textWithin grids n) =
        (grids.getD a default).data.toList.map (Value.textWithin grids k) := by
      refine List.map_congr_left fun v hv => ?_
      cases v with
      | array b =>
        have hb : Contains grids a b := Array.mem_toList_iff.1 hv
        have hlt := reach_lt (hin hb) hb (h b (.single hb))
        refine ih (fun c hc => h c (.head hb hc)) ?_ ?_
        · exact Nat.lt_of_lt_of_le hlt (Nat.le_of_lt_succ hn)
        · exact Nat.lt_of_lt_of_le hlt (Nat.le_of_lt_succ hk)
      | _ => simp only [Value.textWithin]
    simp only [Value.textWithin, hdata]

end

theorem acyclic_of_acc {grids : Array Grid} {a b : GridId} (h : Acc (fun b c => Contains grids c b) a)
    (hab : ReflTransGen (Contains grids) a b) : ¬ TransGen (Contains grids) b b := by
  induction h with
  | intro a _ ih =>
    rcases hab.cases_head with rfl | ⟨c, hac, hcb⟩
    · intro hcycle
      obtain ⟨c, hac, hca⟩ := TransGen.head'_iff.1 hcycle
      exact ih c hac hca hcycle
    · exact ih c hac hcb

/-! ### Types get smaller -/

/-- The number of arrays in the type, one inside the other. -/
def NominalTy.depth : NominalTy → Nat
  | array t _ => t.depth + 1
  | nullable t => t.depth
  | _ => 0

theorem NominalTy.depth_of_core {t u : NominalTy} {r : Nat} (h : t.core = .array u r) : u.depth < t.depth := by
  induction t with
  | nullable t ih => exact ih h
  | array t q => cases h; exact Nat.lt_succ_self _
  | _ => cases h

section
variable {σ : Type} {I : Interface σ} {W : StoreTy} {grids : Array Grid} {a b : GridId}

theorem exists_of_contains (hg : I.model.GridsTyped W grids) (h : Contains grids a b) :
    ∃ t r u q, W.grids[a]? = some (t, r) ∧ W.grids[b]? = some (u, q) ∧ t ≠ .void ∧ t.Takes (.array u q) := by
  have hlt : a < W.grids.length := hg.size ▸ lt_size_of_contains h
  obtain ⟨i, hi, hget⟩ := Array.mem_iff_getElem.1 h
  obtain ⟨⟨t, r⟩, ht⟩ : ∃ e, W.grids[a]? = some e := ⟨_, List.getElem?_eq_getElem hlt⟩
  have htyped := hg.grid a t r ht
  have hvalue : I.Suits W t (.array b) := by
    have hat := htyped.value i
    rwa [Grid.getAt, Array.getD_eq_getD_getElem?, Array.getElem?_eq_getElem hi, hget] at hat
  obtain ⟨u, q, hu, htakes⟩ := hvalue
  exact ⟨t, r, u, q, ht, hu, htyped.admitted, htakes⟩

theorem contained_lt_size (hg : I.model.GridsTyped W grids) (h : Contains grids a b) : b < grids.size := by
  obtain ⟨t, r, u, q, -, hb, -⟩ := exists_of_contains hg h
  rw [hg.size]
  exact (List.getElem?_eq_some_iff.1 hb).1

theorem depth_lt_of_contains (hg : I.model.GridsTyped W grids) (h : Contains grids a b) (ha : ¬ HoldsObjects grids a) :
    (grids.getD b default).element.nominal.depth < (grids.getD a default).element.nominal.depth := by
  obtain ⟨t, r, u, q, hat, hbu, hvoid, htakes⟩ := exists_of_contains hg h
  have heq := (hg.grid a t r hat).element
  rw [HoldsObjects, heq] at ha
  rw [heq, (hg.grid b u q hbu).element]
  rcases htakes with h | h | h
  · exact absurd h hvoid
  · exact absurd h ha
  · exact NominalTy.depth_of_core h

theorem exists_holdsObjects (hg : I.model.GridsTyped W grids) (h : TransGen (Contains grids) a a) :
    ∃ b, TransGen (Contains grids) a b ∧ TransGen (Contains grids) b a ∧ HoldsObjects grids b := by
  by_contra hnone
  have hno : ∀ b, TransGen (Contains grids) a b → TransGen (Contains grids) b a → ¬ HoldsObjects grids b :=
    fun b hab hba ho => hnone ⟨b, hab, hba, ho⟩
  -- With no array of objects on the cycle, the element types would get smaller all the way round.
  have hdown : ∀ c, TransGen (Contains grids) a c → TransGen (Contains grids) c a →
      (grids.getD c default).element.nominal.depth < (grids.getD a default).element.nominal.depth := by
    intro c hac
    induction hac with
    | single hstep => exact fun _ => depth_lt_of_contains hg hstep (hno a h h)
    | tail hab hstep ih =>
      intro hca
      have hba := TransGen.head hstep hca
      exact Nat.lt_trans (depth_lt_of_contains hg hstep (hno _ hab hba)) (ih hba)
  exact Nat.lt_irrefl _ (hdown a h h)

end

/-! ### Sessions -/

section
variable {σ : Type}

/-- The tree was lowered from an expression of this type. -/
def Interface.Lowers (I : Interface σ) (p : Prim) (ty : Ty) : Prop :=
  ∃ (e : Expr) (l l' : Lowerer) (supply supply' : Supply), e.Obtained ∧ e.Below supply.var ∧
    e.Coherent I.toVocabulary I.types ∧ l.lower e supply = (.ok p, l', supply') ∧ e.ty = ty

/-- The states of a machine that starts without variables and arrays, and the values obtained so far with their
types. -/
inductive Session (I : Interface σ) (host : Host σ) : Machine → Store σ → List (Ty × Value) → Prop
  | start {m : Machine} {a : σ} (hg : m.globals = []) (hm : m.methods = I.methods) (ha : I.Inv ⟨[], []⟩ a) :
      Session I host m { host := a } []
  | value {m : Machine} {s s' : Store σ} {obtained : List (Ty × Value)} {p : Prim} {ty : Ty} {v : Value}
      (h : Session I host m s obtained) (hp : I.Lowers p ty) (hr : (m.eval host p).run s = (.ok v, s')) :
      Session I host m s' ((ty, v) :: obtained)
  /-- A lowered expression fails; what it did before stays done. -/
  | fault {m : Machine} {s s' : Store σ} {obtained : List (Ty × Value)} {p : Prim} {ty : Ty} {f : Fault}
      (h : Session I host m s obtained) (hp : I.Lowers p ty) (hr : (m.eval host p).run s = (.error f, s')) :
      Session I host m s' obtained
  | native {m : Machine} {s : Store σ} {obtained : List (Ty × Value)} {f : NativeFn} {signature : Signature}
      (h : Session I host m s obtained) (hf : I.Used f signature.id) :
      Session I host m s ((.fn signature, .native f) :: obtained)
  | bind {m m' : Machine} {s s' : Store σ} {obtained : List (Ty × Value)} {x : Var} {ty : Ty} {v : Value}
      (h : Session I host m s obtained) (hv : (ty, v) ∈ obtained) (ha : x.ty.accepts ty = true)
      (hx : I.types x.id = x.ty.nominal) (hr : (m.bind x v).run s = (.ok m', s')) : Session I host m' s' obtained

variable {I : Interface σ} {host : Host σ} {m : Machine} {s : Store σ} {obtained : List (Ty × Value)} {W : StoreTy}

theorem Interface.Lowers.runs {p : Prim} {ty : Ty} (hp : I.Lowers p ty) (hh : I.model.Obeys host)
    (hm : m.methods = I.methods) (hg : I.Globals W m) :
    I.model.Runs W (m.eval host p) fun W v => I.Suits W ty.nominal v := by
  obtain ⟨e, l, l', supply, supply', he, hb, hc, hl, rfl⟩ := hp
  have hempty : I.Scoped W I.types [] := ⟨by simp, fun _ => rfl⟩
  exact TypeModel.runs_lower hm hh he hb hc hl ⟨hempty, hg⟩

/-- What holds in every state of a session. -/
structure Interface.Invariant (I : Interface σ) (W : StoreTy) (m : Machine) (s : Store σ)
    (obtained : List (Ty × Value)) : Prop where
  methods : m.methods = I.methods
  globals : I.Globals W m
  typed : I.model.Typed W s
  suits : ∀ e ∈ obtained, I.Suits W e.1.nominal e.2

theorem Interface.Invariant.bind {m' : Machine} {s' : Store σ} {x : Var} {v : Value} (h : I.Invariant W m s obtained)
    (hv : I.Suits W x.ty.nominal v) (hx : I.types x.id = x.ty.nominal) (hr : (m.bind x v).run s = (.ok m', s')) :
    ∃ W', I.Invariant W' m' s' obtained := by
  obtain ⟨c, s₁, hnew, hm'⟩ := run_bind_eq_ok.1 hr
  cases hm'
  obtain ⟨W', hle, htyped, hcell⟩ := TypeModel.Runs.newCell (M := I.model) hv W (le_refl _) s h.typed
  rw [hnew] at htyped hcell
  cases hcell with
  | ok hcell =>
    refine ⟨W', h.methods, fun y d hd => ?_, htyped, fun e he => (h.suits e he).mono hle⟩
    rw [List.lookup_cons] at hd
    split at hd
    · rename_i heq
      cases hd
      rw [beq_iff_eq.1 heq, hx]
      exact hcell
    · exact h.globals.mono hle y d hd

theorem Session.invariant (hh : I.model.Obeys host) (h : Session I host m s obtained) :
    ∃ W, I.Invariant W m s obtained := by
  induction h with
  | start hg hm ha =>
    refine ⟨⟨[], []⟩, hm, fun x c hc => ?_, ⟨rfl, fun c t h => ?_, ⟨rfl, fun a t r h => ?_⟩, ha⟩, by simp⟩
    · rw [hg] at hc
      cases hc
    · cases h
    · cases h
  | @value m s s' _ p ty v _ hp hr ih =>
    obtain ⟨W, hinv⟩ := ih
    obtain ⟨W', hle, htyped, hends⟩ := hp.runs hh hinv.methods hinv.globals W (le_refl _) s hinv.typed
    rw [hr] at htyped hends
    cases hends with
    | ok hv =>
      refine ⟨W', hinv.methods, hinv.globals.mono hle, htyped, List.forall_mem_cons.2 ⟨hv, fun e he => ?_⟩⟩
      exact (hinv.suits e he).mono hle
  | @fault m s s' _ p ty f _ hp hr ih =>
    obtain ⟨W, hinv⟩ := ih
    obtain ⟨W', hle, htyped, -⟩ := hp.runs hh hinv.methods hinv.globals W (le_refl _) s hinv.typed
    rw [hr] at htyped
    exact ⟨W', hinv.methods, hinv.globals.mono hle, htyped, fun e he => (hinv.suits e he).mono hle⟩
  | native _ hf ih =>
    obtain ⟨W, hinv⟩ := ih
    refine ⟨W, hinv.methods, hinv.globals, hinv.typed, List.forall_mem_cons.2 ⟨?_, hinv.suits⟩⟩
    exact ⟨_, hf, .self rfl⟩
  | bind _ hv ha hx hr ih =>
    obtain ⟨W, hinv⟩ := ih
    exact hinv.bind ((hinv.suits _ hv).imp fun _ => .of_accepts ha) hx hr

/-! ### The text of values -/

/-- In every state of a session an array reaches itself only by way of an array of objects. The text of a value ends
unless the value reaches an array of objects that reaches itself, and it is then the same for all depths. -/
theorem Session.prints_iff (hh : I.model.Obeys host) (h : Session I host m s obtained) :
    (∀ a, TransGen (Contains s.grids) a a →
      ∃ b, TransGen (Contains s.grids) a b ∧ TransGen (Contains s.grids) b a ∧ HoldsObjects s.grids b) ∧
    ∀ v : Value,
      (v.Prints s.grids ↔
        ∀ b, v.Reaches s.grids b → HoldsObjects s.grids b → ¬ TransGen (Contains s.grids) b b) ∧
      (v.Prints s.grids → ∀ n, s.grids.size < n → v.textWithin s.grids n = v.text s.grids) := by
  obtain ⟨W, hinv⟩ := h.invariant hh
  have hg := hinv.typed.grids
  refine ⟨fun a ha => exists_holdsObjects hg ha, fun v => ⟨⟨?_, ?_⟩, ?_⟩⟩
  · rintro hv b ⟨a, rfl, hab⟩ -
    exact acyclic_of_acc (hv a rfl) hab
  · rintro hv a rfl
    refine acc_of_acyclic (contained_lt_size hg) fun b hab hcycle => ?_
    obtain ⟨c, hbc, hcb, hc⟩ := exists_holdsObjects hg hcycle
    exact hv c ⟨a, rfl, hab.trans hbc.to_reflTransGen⟩ hc (hcb.trans hbc)
  · intro hv n hn
    cases v with
    | array a =>
      refine textWithin_eq (contained_lt_size hg) (fun b hab => acyclic_of_acc (hv a rfl) hab) ?_ ?_
      · exact Nat.lt_of_le_of_lt (reach_le_size a) hn
      · exact Nat.lt_succ_of_le (reach_le_size a)
    | _ => simp only [Value.text, Value.textWithin]

end

/-! ### An array of objects that holds itself -/

namespace Loop

def ob : Var := ⟨⟨0⟩, "ob", .array .object 1⟩

def fresh : Expr := .node 0 (.array .object [1]) [.const (.null .object)]
def fill : Expr := .node 1 .assign [.var ob, fresh]
def slot : Expr := .node 2 .index [.var ob, .const (.lit (.int (.zero .i32)))]
def close : Expr := .node 3 .assign [slot, .var ob]

/-- `{ob; ob = new object[1] {null}; ob[0] = ob; ob}` -/
def loop : Expr := .node 4 (.block [ob]) [fill, close, .var ob]

/-- `new i32[1] {1}` -/
def ones : Expr := .node 5 (.array (.int .i32) [1]) [.const (.lit (.int (.one .i32)))]

theorem loop_obtained : loop.Obtained := by
  have hfresh : Expr.mkArray .object [1] [.const (.null .object)] 0 = .ok (fresh, 1) := rfl
  have hfill : Expr.mkAssign (.var ob) fresh 1 = .ok (fill, 2) := rfl
  have hslot : Expr.mkIndex (.var ob) [.const (.lit (.int (.zero .i32)))] 2 = .ok (slot, 3) := rfl
  have hclose : Expr.mkAssign slot (.var ob) 3 = .ok (close, 4) := rfl
  have hloop : Expr.mkBlock [ob] [fill, close, .var ob] 4 = .ok (loop, 5) := rfl
  have h₁ : fresh.Obtained := .made (List.forall_mem_singleton.2 (.const _)) hfresh
  have h₂ : fill.Obtained := .made (by simp [Expr.Obtained.var, h₁]) hfill
  have h₃ : slot.Obtained := .made (by simp [Expr.Obtained.var, Expr.Obtained.const]) hslot
  have h₄ : close.Obtained := .made (by simp [Expr.Obtained.var, h₃]) hclose
  exact .made (by simp [Expr.Obtained.var, h₂, h₄]) hloop

theorem ones_obtained : ones.Obtained := by
  have h : Expr.mkArray (.int .i32) [1] [.const (.lit (.int (.one .i32)))] 5 = .ok (ones, 6) := rfl
  exact .made (List.forall_mem_singleton.2 (.const _)) h

def folding : Lowerer := { options := { foldConstantArrays := true } }
def silent : Host Unit := ⟨fun _ _ grids state => (.ok .null, grids, state)⟩

def interface : Interface Unit where
  Known _ := False
  unique h := h.elim
  Operator _ := False
  types _ := ob.ty.nominal
  methods := []
  Used _ _ := False
  registered h := h.elim
  Inv _ _ := True
  inv_mono _ h := h

theorem obeys : interface.model.Obeys silent :=
  fun h => h.elim

theorem node_coherent {stamp : Stamp} {head : Head} {parts : List Expr} (hl : ∀ v ∈ head.locals, v = ob)
    (hs : head.signatures parts = []) (hm : head.methods = [])
    (hp : ∀ p ∈ parts, p.Coherent interface.toVocabulary interface.types) :
    Expr.Coherent interface.toVocabulary interface.types (.node stamp head parts) :=
  .node (fun v hv => hl v hv ▸ rfl) (by simp [hs]) (by simp [hm]) hp

theorem loop_coherent : loop.Coherent interface.toVocabulary interface.types := by
  have hob : Expr.Coherent interface.toVocabulary interface.types (.var ob) := .var rfl
  have hfresh : fresh.Coherent interface.toVocabulary interface.types :=
    node_coherent (by simp [Head.locals]) rfl rfl (List.forall_mem_singleton.2 (.const _))
  have hfill : fill.Coherent interface.toVocabulary interface.types :=
    node_coherent (by simp [Head.locals]) rfl rfl (by simp [hob, hfresh])
  have hslot : slot.Coherent interface.toVocabulary interface.types :=
    node_coherent (by simp [Head.locals]) rfl rfl (by simp [hob, Expr.Coherent.const])
  have hclose : close.Coherent interface.toVocabulary interface.types :=
    node_coherent (by simp [Head.locals]) rfl rfl (by simp [hob, hslot])
  exact node_coherent (by simp [Head.locals]) rfl rfl (by simp [hob, hfill, hclose])

theorem ones_coherent : ones.Coherent interface.toVocabulary interface.types :=
  node_coherent (by simp [Head.locals]) rfl rfl (List.forall_mem_singleton.2 (.const _))

/-- The store after `loop`. -/
def looped : Store Unit where
  cells := #[.array 0]
  grids := #[⟨.object, [1], #[.array 0]⟩]
  host := ()

/-- The store after `loop` and `ones`. -/
def grown : Store Unit where
  cells := #[.array 0]
  grids := #[⟨.object, [1], #[.array 0]⟩, ⟨.int .i32, [1], #[.ofWord (.one .i32)]⟩]
  host := ()

theorem session_loop : Session interface silent {} looped [(.array .object 1, .array 0)] := by
  obtain ⟨p, hp, hr⟩ : ∃ p, folding.lower loop { var := 1 } = (.ok p, folding, { var := 1 }) ∧
      (Machine.eval silent {} p).run { host := () } = (.ok (.array 0), looped) := ⟨_, rfl, rfl⟩
  have hbelow : loop.Below 1 := by
    simp [Expr.Below, loop, fill, close, slot, fresh, Expr.vars, Expr.varsAll, Expr.binders, ob]
  exact .value (.start rfl rfl trivial) ⟨loop, _, _, _, _, loop_obtained, hbelow, loop_coherent, hp, rfl⟩ hr

theorem session_ones :
    Session interface silent {} grown [(.array (.int .i32) 1, .array 1), (.array .object 1, .array 0)] := by
  obtain ⟨p, hp, hr⟩ : ∃ p, folding.lower ones { var := 1 } = (.ok p, folding, { var := 1 }) ∧
      (Machine.eval silent {} p).run looped = (.ok (.array 1), grown) := ⟨_, rfl, rfl⟩
  have hbelow : ones.Below 1 := by
    simp [Expr.Below, ones, Expr.vars, Expr.varsAll, Expr.binders]
  exact .value session_loop ⟨ones, _, _, _, _, ones_obtained, hbelow, ones_coherent, hp, rfl⟩ hr

end Loop

open Loop in
/-- An array of objects that holds itself, and an array of numbers beside it. -/
theorem Session.prints_iff_grown :
    interface.model.Obeys silent ∧
      Session interface silent {} grown [(.array (.int .i32) 1, .array 1), (.array .object 1, .array 0)] ∧
      ¬ (Value.array 0).Prints grown.grids ∧ (Value.array 1).Prints grown.grids ∧
      ∀ n, 2 < n → (Value.array 1).textWithin grown.grids n = (Value.array 1).text grown.grids := by
  obtain ⟨-, hprints⟩ := prints_iff obeys session_ones
  have hself : Contains grown.grids 0 0 := by simp [Contains, grown]
  have hleaf : ∀ b, ¬ Contains grown.grids 1 b := by simp [Contains, grown, Value.ofWord]
  have hones : (Value.array 1).Prints grown.grids := by
    refine (hprints _).1.2 ?_
    rintro b ⟨a, ha, hb⟩ ho
    cases ha
    rcases hb.cases_head with rfl | ⟨c, hc, -⟩
    · cases ho
    · exact absurd hc (hleaf c)
  refine ⟨obeys, session_ones, fun h => ?_, hones, (hprints _).2 hones⟩
  exact (hprints _).1.1 h 0 ⟨0, rfl, .refl⟩ rfl (.single hself)

open Loop in
/-- An evaluation from nothing whose value is an array that holds itself. -/
theorem Session.exists_cycle :
    ∃ s, Session interface silent {} s [(.array .object 1, .array 0)] ∧ TransGen (Contains s.grids) 0 0 ∧
      ¬ (Value.array 0).Prints s.grids := by
  have hself : Contains looped.grids 0 0 := by simp [Contains, looped]
  refine ⟨looped, session_loop, .single hself, fun h => ?_⟩
  exact acyclic_of_acc (h 0 rfl) .refl (.single hself)

end ExprLowering
