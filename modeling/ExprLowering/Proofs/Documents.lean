import Mathlib.Tactic.Common
import ExprLowering.Doc.Prim

/-!
# Documents read back

A tree that is written as a document and read again is the same tree, but for the stamps of quotations, which
are not written (`Prim.unstamped`). The only thing that does not survive is a float that is no number: an
infinity or a NaN has no numeral, and is written as null. So reading succeeds exactly if all floats of the tree are
finite (`Prim.ofDocWith?_toDoc`), those in the defaults of the signatures that its types mention included
(`Prim.floats`).

How numerals are read as floats is left to the reader; it has to give back the floats of the tree in question
(`FloatReader.Exact`). `Recovers` says what reading a part makes of the floats in the part, and is put together
step by step, in the order in which the parts are read.
-/

namespace ExprLowering

/-! ### The floats in a tree -/

mutual

/-- The floats among the defaults of the signatures that a type mentions. -/
def Ty.floats : Ty → List FloatBits
  | .array e _ => e.floats
  | .fn s => s.floats
  | .quoted t => t.floats
  | .nullable t => t.floats
  | .void | .bool | .int _ | .float _ | .str | .object => []

def Constant.floats : Constant → List FloatBits
  | .null t => t.floats
  | .lit (.float x) => [x]
  | .lit (.bool _) | .lit (.int _) | .lit (.str _) => []

def Constant.defaultFloats : Option Constant → List FloatBits
  | none => []
  | some c => c.floats

def Signature.floats : Signature → List FloatBits
  | ⟨_, _, params, result⟩ => Formal.floatsAll params ++ result.floats

def Formal.floatsAll : List Formal → List FloatBits
  | [] => []
  | ⟨_, ty, c⟩ :: params => ty.floats ++ (Constant.defaultFloats c ++ Formal.floatsAll params)

end

def Var.floats (v : Var) : List FloatBits :=
  v.ty.floats

def Method.floats (m : Method) : List FloatBits :=
  m.signature.floats

namespace Prim

mutual

/-- All float constants, also those in the types of variables, arrays, methods and functions. -/
def floats : Prim → List FloatBits
  | const c => c.floats
  | read v => v.floats
  | assign target value => placeFloats target ++ floats value
  | block locals body => locals.flatMap Var.floats ++ floatsAll body
  | arith _ _ left right => floats left ++ floats right
  | step _ target => placeFloats target
  | newArray ty bounds => ty.floats ++ floatsAll bounds
  | constArray ty _ values => ty.floats ++ values.flatMap Constant.floats
  | element array indices => floats array ++ floatsAll indices
  | call callee args => floats callee ++ floatsAll args
  | callMethod method args => method.floats ++ floatsAll args
  | lambda code => codeFloats code
  | quote _ code => codeFloats code

def placeFloats : Place Prim → List FloatBits
  | .var v => v.floats
  | .element array indices => floats array ++ floatsAll indices

def codeFloats : Lambda Prim → List FloatBits
  | ⟨signature, params, body⟩ => signature.floats ++ (params.flatMap Var.floats ++ floats body)

def floatsAll : List Prim → List FloatBits
  | [] => []
  | p :: ps => floats p ++ floatsAll ps

end

mutual

/-- The tree with the stamps of quotations left out. -/
def unstamped : Prim → Prim
  | const c => const c
  | read v => read v
  | assign target value => assign (placeUnstamped target) (unstamped value)
  | block locals body => block locals (unstampedAll body)
  | arith op checked left right => arith op checked (unstamped left) (unstamped right)
  | step op target => step op (placeUnstamped target)
  | newArray ty bounds => newArray ty (unstampedAll bounds)
  | constArray ty bounds values => constArray ty bounds values
  | element array indices => element (unstamped array) (unstampedAll indices)
  | call callee args => call (unstamped callee) (unstampedAll args)
  | callMethod method args => callMethod method (unstampedAll args)
  | lambda code => lambda (codeUnstamped code)
  | quote _ code => quote 0 (codeUnstamped code)

def placeUnstamped : Place Prim → Place Prim
  | .var v => .var v
  | .element array indices => .element (unstamped array) (unstampedAll indices)

def codeUnstamped : Lambda Prim → Lambda Prim
  | ⟨signature, params, body⟩ => ⟨signature, params, unstamped body⟩

def unstampedAll : List Prim → List Prim
  | [] => []
  | p :: ps => unstamped p :: unstampedAll ps

end

end Prim

/-! ### Reading step by step -/

/-- The reader gives the float back from its numeral, if it has one. -/
def FloatReader.Exact (read : FloatReader) (x : FloatBits) : Prop :=
  x.isFinite = true → x.numeral?.bind (read x.kind) = some x

/-- Where the reader is exact on the floats, reading succeeds if they are finite, with a result in `Q`, and
fails if one of them is not. -/
def Recovers {α : Type} (read : FloatReader) (xs : List FloatBits) (Q : α → Prop) (o : Option α) : Prop :=
  (∀ x ∈ xs, read.Exact x) →
    (∀ x ∈ xs, x.isFinite = true) ∧ (∃ a, o = some a ∧ Q a) ∨ ¬ (∀ x ∈ xs, x.isFinite = true) ∧ o = none

namespace Recovers
variable {α β : Type} {read : FloatReader} {xs ys : List FloatBits} {Q : α → Prop} {Q' : β → Prop} {o : Option α}

theorem some {a : α} (h : Q a) : Recovers read [] Q (some a) :=
  fun _ => .inl ⟨by simp, a, rfl, h⟩

theorem bind {f : α → Option β} (ho : Recovers read xs Q o) (hf : ∀ a, Q a → Recovers read ys Q' (f a)) :
    Recovers read (xs ++ ys) Q' (o.bind f) := by
  intro hread
  rw [List.forall_mem_append] at hread
  rw [List.forall_mem_append]
  rcases ho hread.1 with ⟨hxs, a, rfl, ha⟩ | ⟨hxs, rfl⟩
  · rw [Option.bind_some]
    rcases hf a ha hread.2 with ⟨hys, hb⟩ | ⟨hys, hb⟩
    · exact .inl ⟨⟨hxs, hys⟩, hb⟩
    · exact .inr ⟨fun h => hys h.2, hb⟩
  · exact .inr ⟨fun h => hxs h.1, rfl⟩

theorem last {f : α → β} (ho : Recovers read xs Q o) (hf : ∀ a, Q a → Q' (f a)) :
    Recovers read xs Q' (o.bind fun a => Option.some (f a)) := by
  have h := ho.bind fun a ha => some (hf a ha)
  rwa [List.append_nil] at h

theorem mapM {ι : Type} {g : α → ι} {floats : α → List FloatBits} {r : ι → Option α}
    (h : ∀ a, Recovers read (floats a) (· = a) (r (g a))) (as : List α) :
    Recovers read (as.flatMap floats) (· = as) ((as.map g).mapM r) := by
  induction as with
  | nil => exact some rfl
  | cons a as ih =>
    rw [List.flatMap_cons, List.map_cons, List.mapM_cons]
    refine (h a).bind fun b hb => ih.last fun bs hbs => ?_
    rw [hb, hbs]

end Recovers

/-- `Recovers` for a reading that hands out stamps, from whichever stamp on. -/
def Reader.Recovers {α : Type} (read : FloatReader) (xs : List FloatBits) (Q : α → Prop) (x : Reader α) : Prop :=
  ∀ n : Stamp, ExprLowering.Recovers read xs (fun r => Q r.1) (x.run n)

namespace Reader.Recovers
variable {α β : Type} {read : FloatReader} {xs ys : List FloatBits} {Q : α → Prop} {Q' : β → Prop} {x : Reader α}

theorem pure {a : α} (h : Q a) : Reader.Recovers read [] Q (pure a) :=
  fun _ => .some h

theorem bind {f : α → Reader β} (hx : Reader.Recovers read xs Q x) (hf : ∀ a, Q a → Reader.Recovers read ys Q' (f a)) :
    Reader.Recovers read (xs ++ ys) Q' (x >>= f) :=
  fun n => (hx n).bind fun r hr => hf r.1 hr r.2

theorem last {f : α → β} (hx : Reader.Recovers read xs Q x) (hf : ∀ a, Q a → Q' (f a)) :
    Reader.Recovers read xs Q' (x >>= fun a => Pure.pure (f a)) := by
  have h := hx.bind fun a ha => pure (hf a ha)
  rwa [List.append_nil] at h

theorem lift {o : Option α} (h : ExprLowering.Recovers read xs Q o) : Reader.Recovers read xs Q (liftM o) :=
  fun _ => h.last fun _ ha => ha

end Reader.Recovers

/-! ### Names and numbers -/

section
variable (read : FloatReader)

theorem IntKind.ofTag?_tag (k : IntKind) : ofTag? k.tag = some k := by
  cases k <;> decide

theorem ArithOp.ofTag?_tag (op : ArithOp) : ofTag? op.tag = some op := by
  cases op <;> decide

theorem IncDec.ofTitle?_title (op : IncDec) : ofTitle? op.title = some op := by
  cases op <;> decide

theorem Ty.ofName?_tag (k : IntKind) : Ty.ofName? k.tag = some (.int k) := by
  cases k <;> rfl

theorem Word.ofInt?_val (w : Word) : ofInt? w.kind w.val = some w :=
  dif_pos ⟨w.low_le, w.le_high⟩

theorem FloatBits.numeral?_eq_none {x : FloatBits} : x.numeral? = none ↔ x.isFinite = false := by
  unfold numeral?
  cases x.isFinite with
  | false => simp
  | true =>
    simp only [Bool.not_true, Bool.false_eq_true, if_false, reduceCtorEq, iff_false]
    split_ifs <;> simp

/-- A float is written as its numeral, or as null. -/
theorem FloatBits.recovers (x : FloatBits) {r : Doc → Option Literal} (hnull : r .null = none)
    (hreal : ∀ n, r (.real n) = (read x.kind n).map .float) :
    Recovers read [x] (· = .float x) (r (.ofBits x)) := by
  intro hread
  rw [List.forall_mem_singleton] at hread
  rw [List.forall_mem_singleton, Doc.ofBits]
  cases hx : x.isFinite with
  | false =>
    rw [numeral?_eq_none.2 hx]
    exact .inr ⟨Bool.false_ne_true, hnull⟩
  | true =>
    have hback := hread hx
    cases hn : x.numeral? with
    | none => exact absurd (hx.symm.trans (numeral?_eq_none.1 hn)) (by decide)
    | some n =>
      rw [hn, Option.bind_some] at hback
      exact .inl ⟨rfl, _, by rw [hreal, hback, Option.map_some], rfl⟩

theorem Literal.recovers (l : Literal) : ∃ tag d, l.toDoc = .tagged tag d ∧ tag ≠ "Null" ∧
    Recovers read (Constant.lit l).floats (· = l) (ofTagged? read tag d) := by
  cases l with
  | bool b => exact ⟨"Bool", .bool b, rfl, by decide, .some rfl⟩
  | int w =>
    refine ⟨w.kind.tag, .int w.val, rfl, by cases w.kind <;> decide, ?_⟩
    rw [ofTagged?, IntKind.ofTag?_tag, Option.bind_some, Word.ofInt?_val]
    exact .some rfl
  | float x =>
    cases x with
    | single b => exact ⟨"F32", .ofBits (.single b), rfl, by decide, FloatBits.recovers read _ rfl fun _ => rfl⟩
    | double b => exact ⟨"F64", .ofBits (.double b), rfl, by decide, FloatBits.recovers read _ rfl fun _ => rfl⟩
  | str s => exact ⟨"Str", .str s, rfl, by decide, .some rfl⟩

/-! ### Types, constants and signatures -/

mutual

theorem Ty.recovers : ∀ t : Ty, Recovers read t.floats (· = t) (Ty.ofDocWith? read t.toDoc)
  | .void | .bool | .str | .object => .some rfl
  | .float .f32 | .float .f64 => .some rfl
  | .int k => by
    rw [Ty.toDoc, Ty.ofDocWith?, Ty.ofName?_tag]
    exact .some rfl
  | .array e r => by
    rw [Ty.toDoc, Doc.tagged]
    exact (Ty.recovers e).last fun _ h => by rw [h]
  | .fn s => by
    rw [Ty.toDoc, Doc.tagged, Ty.ofDocWith?]
    exact (Signature.recovers s).last fun _ h => by rw [h]
  | .quoted t => by
    rw [Ty.toDoc, Doc.tagged, Ty.ofDocWith?]
    exact (Ty.recovers t).last fun _ h => by rw [h]
  | .nullable t => by
    rw [Ty.toDoc, Doc.tagged, Ty.ofDocWith?]
    exact (Ty.recovers t).last fun _ h => by rw [h]

theorem Constant.recovers : ∀ c : Constant, Recovers read c.floats (· = c) (Constant.ofDocWith? read c.toDoc)
  | .null t => by
    rw [Constant.toDoc, Doc.tagged, Constant.ofDocWith?]
    exact (Ty.recovers t).last fun _ h => by rw [h]
  | .lit l => by
    obtain ⟨tag, d, hdoc, hne, h⟩ := Literal.recovers read l
    rw [Constant.toDoc, hdoc, Doc.tagged, Constant.ofDocWith?, Option.map_eq_bind]
    · exact h.last fun _ h => by rw [h]
    · exact fun heq => absurd heq hne

/-- No default is written as null, and no constant is. -/
theorem Constant.recovers_default : ∀ c : Option Constant, Recovers read (Constant.defaultFloats c) (· = c)
    (if (Constant.defaultDoc c).isNull then some none
      else (Constant.ofDocWith? read (Constant.defaultDoc c)).map some)
  | none => .some rfl
  | some c => by
    have hdoc : c.toDoc.isNull = false := by
      cases c with
      | null t => rfl
      | lit l =>
        obtain ⟨tag, d, hdoc, -⟩ := Literal.recovers read l
        rw [Constant.toDoc, hdoc]
        rfl
    rw [Constant.defaultDoc, hdoc, if_neg Bool.false_ne_true, Option.map_eq_bind]
    exact (Constant.recovers c).last fun _ h => by rw [h]

theorem Signature.recovers : ∀ s : Signature, Recovers read s.floats (· = s) (Signature.ofDocWith? read s.toDoc)
  | ⟨id, name, params, result⟩ => by
    rw [Signature.toDoc, Signature.ofDocWith?]
    exact (Formal.recovers id 0 params).bind fun _ hps => (Ty.recovers result).last fun _ ht => by rw [hps, ht]

/-- Parameters are written with the signature that they belong to and their positions. -/
theorem Formal.recovers (id : SigId) : ∀ (i : Nat) (fs : List Formal),
    Recovers read (Formal.floatsAll fs) (· = fs) (Formal.ofDocsWith? read id.text i (Formal.toDocs id i fs))
  | _, [] => .some rfl
  | i, ⟨name, ty, c⟩ :: fs => by
    rw [Formal.toDocs, Formal.ofDocsWith?, if_pos ⟨rfl, rfl⟩]
    refine (Ty.recovers ty).bind fun _ ht => (Constant.recovers_default c).bind fun _ hc => ?_
    exact (Formal.recovers id (i + 1) fs).last fun _ hfs => by rw [ht, hc, hfs]

end

theorem Var.recovers (v : Var) : Recovers read v.floats (· = v) (Var.ofDocWith? read v.toDoc) :=
  (Ty.recovers read v.ty).last fun _ h => by rw [h]

theorem Method.recovers (m : Method) : Recovers read m.floats (· = m) (Method.ofDocWith? read m.toDoc) :=
  (Signature.recovers read m.signature).last fun _ h => by rw [h]

/-! ### Trees -/

namespace Prim

theorem recovers_vars (vs : List Var) : Reader.Recovers read (vs.flatMap Var.floats) (· = vs)
    (Reader.all (Var.ofDocWith? read) (vs.map Var.toDoc)) :=
  .lift (.mapM (Var.recovers read) vs)

theorem recovers_bounds (bounds : List Nat) :
    Reader.Recovers read [] (· = bounds) (Reader.all Doc.nat? (bounds.map fun (n : Nat) => .int n)) := by
  have hbound (n : Nat) : Recovers read [] (· = n) (Doc.nat? (.int n)) := .some rfl
  have hbounds := Recovers.mapM hbound bounds
  rw [List.flatMap_eq_nil_iff.2 fun _ _ => rfl] at hbounds
  exact .lift hbounds

mutual

theorem recovers : ∀ p : Prim,
    Reader.Recovers read p.floats (·.unstamped = p.unstamped) (ofDocWith? read p.toDoc)
  | const c => by
    rw [toDoc]
    exact (Reader.Recovers.lift (Constant.recovers read c)).last fun _ h => by rw [h]
  | Prim.read v => by
    rw [toDoc]
    exact (Reader.Recovers.lift (Var.recovers read v)).last fun _ h => by rw [h]
  | assign target value => by
    rw [toDoc]
    exact (recovers_place target).bind fun _ ht => (recovers value).last fun _ hv => by
      rw [unstamped, unstamped, ht, hv]
  | block locals body => by
    rw [toDoc]
    exact (recovers_vars read locals).bind fun _ hl => (recovers_all body).last fun _ hb => by
      rw [unstamped, unstamped, hl, hb]
  | arith op checked left right => by
    have hop : Recovers read [] (· = op) (ArithOp.ofTag? op.tag) := by
      rw [ArithOp.ofTag?_tag]
      exact .some rfl
    rw [toDoc]
    exact (Reader.Recovers.lift hop).bind fun _ ho => (recovers left).bind fun _ hl =>
      (recovers right).last fun _ hr => by rw [unstamped, unstamped, ho, hl, hr]
  | step op target => by
    have hop : Recovers read [] (· = op) (IncDec.ofTitle? op.title) := by
      rw [IncDec.ofTitle?_title]
      exact .some rfl
    rw [toDoc]
    exact (Reader.Recovers.lift hop).bind fun _ ho => (recovers_place target).last fun _ ht => by
      rw [unstamped, unstamped, ho, ht]
  | newArray ty bounds => by
    rw [toDoc]
    exact (Reader.Recovers.lift (Ty.recovers read ty)).bind fun _ ht => (recovers_all bounds).last fun _ hb => by
      rw [unstamped, unstamped, ht, hb]
  | constArray ty bounds values => by
    have hvalues : Reader.Recovers read (values.flatMap Constant.floats) (· = values)
        (Reader.all (Constant.ofDocWith? read) (values.map Constant.toDoc)) :=
      .lift (.mapM (Constant.recovers read) values)
    rw [toDoc]
    exact (Reader.Recovers.lift (Ty.recovers read ty)).bind fun _ ht =>
      (recovers_bounds read bounds).bind fun _ hb => hvalues.last fun _ hv => by rw [ht, hb, hv]
  | element array indices => by
    rw [toDoc]
    exact (recovers array).bind fun _ ha => (recovers_all indices).last fun _ hi => by
      rw [unstamped, unstamped, ha, hi]
  | call callee args => by
    rw [toDoc]
    exact (recovers callee).bind fun _ hc => (recovers_all args).last fun _ ha => by
      rw [unstamped, unstamped, hc, ha]
  | callMethod method args => by
    rw [toDoc]
    exact (Reader.Recovers.lift (Method.recovers read method)).bind fun _ hm =>
      (recovers_all args).last fun _ ha => by rw [unstamped, unstamped, hm, ha]
  | lambda code => by
    rw [toDoc]
    exact (recovers_code code).last fun _ h => by rw [unstamped, unstamped, h]
  | quote stamp code => by
    have hstamp : Reader.Recovers read [] (fun _ => True) Reader.freshStamp := fun _ => .some trivial
    rw [toDoc, floats, ← List.append_nil (codeFloats code)]
    exact (recovers_code code).bind fun _ h => hstamp.last fun _ _ => by rw [unstamped, unstamped, h]

theorem recovers_place : ∀ place : Place Prim,
    Reader.Recovers read (placeFloats place) (placeUnstamped · = placeUnstamped place)
      (placeOfDocWith? read (placeDoc place))
  | .var v => by
    rw [placeDoc]
    exact (Reader.Recovers.lift (Var.recovers read v)).last fun _ h => by rw [h]
  | .element array indices => by
    rw [placeDoc]
    exact (recovers array).bind fun _ ha => (recovers_all indices).last fun _ hi => by
      rw [placeUnstamped, placeUnstamped, ha, hi]

theorem recovers_code : ∀ code : Lambda Prim,
    Reader.Recovers read (codeFloats code) (codeUnstamped · = codeUnstamped code)
      (codeOfDocWith? read (codeDoc code))
  | ⟨signature, params, body⟩ => by
    rw [codeDoc]
    exact (Reader.Recovers.lift (Signature.recovers read signature)).bind fun _ hs =>
      (recovers_vars read params).bind fun _ hp => (recovers body).last fun _ hb => by
        rw [codeUnstamped, codeUnstamped, hs, hp, hb]

theorem recovers_all : ∀ ps : List Prim,
    Reader.Recovers read (floatsAll ps) (unstampedAll · = unstampedAll ps) (ofDocsWith? read (toDocs ps))
  | [] => .pure rfl
  | p :: ps => by
    rw [toDocs]
    exact (recovers p).bind fun _ hp => (recovers_all ps).last fun _ hps => by
      rw [unstampedAll, unstampedAll, hp, hps]

end

end Prim

end

/-- Reading a written tree succeeds exactly if none of its floats is a NaN or an infinity, and gives the tree. -/
theorem Prim.ofDocWith?_toDoc {read : FloatReader} {p : Prim} (hread : ∀ x ∈ p.floats, read.Exact x) (n : Stamp) :
    ((∃ q n', (ofDocWith? read p.toDoc).run n = some (q, n')) ↔ ∀ x ∈ p.floats, x.isFinite = true) ∧
      ∀ q n', (ofDocWith? read p.toDoc).run n = some (q, n') → q.unstamped = p.unstamped := by
  rcases recovers read p n hread with ⟨hfinite, ⟨q, n'⟩, hrun, hq⟩ | ⟨hfinite, hrun⟩
  · refine ⟨iff_of_true ⟨q, n', hrun⟩ hfinite, fun q' m h => ?_⟩
    cases hrun.symm.trans h
    exact hq
  · refine ⟨iff_of_false ?_ hfinite, fun q' m h => ?_⟩
    · rintro ⟨q, n', h⟩
      cases hrun.symm.trans h
    · cases hrun.symm.trans h

/-- A quoted function that multiplies its parameter by the float, which is also the parameter's default. -/
def Prim.scaling (x : FloatBits) : Prim :=
  let signature : Signature := ⟨⟨"scale"⟩, "scale", [⟨"v", .float x.kind, some (.lit (.float x))⟩], .float x.kind⟩
  let v : Var := ⟨⟨1⟩, "v", .float x.kind⟩
  .quote 7 ⟨signature, [v], .arith .mul false (.read v) (.const (.lit (.float x)))⟩

/-- With the factor 1.5 the function is read back, with the factor NaN it is not. -/
theorem Prim.ofDoc?_scaling :
    (∃ q n', (ofDoc? (scaling (.double 0x3ff8000000000000)).toDoc).run 0 = some (q, n') ∧
        q.unstamped = (scaling (.double 0x3ff8000000000000)).unstamped) ∧
      ¬ ∃ q n', (ofDoc? (scaling (.double 0x7ff8000000000000)).toDoc).run 0 = some (q, n') := by
  have hread (x : FloatBits) (h : FloatReader.Exact (fun k n => n.toFloat? k) x) :
      ∀ y ∈ (scaling x).floats, FloatReader.Exact (fun k n => n.toFloat? k) y := by
    simp [scaling, floats, codeFloats, Signature.floats, Formal.floatsAll, Constant.defaultFloats, Constant.floats,
      Ty.floats, Var.floats, h]
  have hnumber : FloatReader.Exact (fun k n => n.toFloat? k) (.double 0x3ff8000000000000) := by
    unfold FloatReader.Exact
    decide +kernel
  have hnan : FloatReader.Exact (fun k n => n.toFloat? k) (.double 0x7ff8000000000000) := by
    unfold FloatReader.Exact
    decide +kernel
  obtain ⟨hiff, hback⟩ := ofDocWith?_toDoc (hread _ hnumber) 0
  obtain ⟨hiff', -⟩ := ofDocWith?_toDoc (hread _ hnan) 0
  refine ⟨?_, fun h => ?_⟩
  · obtain ⟨q, n', hrun⟩ := hiff.2 (by decide +kernel)
    exact ⟨q, n', hrun, hback q n' hrun⟩
  · exact absurd (hiff'.1 h) (by decide +kernel)

end ExprLowering
