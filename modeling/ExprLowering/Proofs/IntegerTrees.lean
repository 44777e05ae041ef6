import Mathlib.Data.Int.ModEq
import ExprLowering.Proofs.Arithmetic
import ExprLowering.Proofs.PlainTrees
import ExprLowering.Proofs.Sharing

/-!
# Integer arithmetic

An expression of sums, differences and products over integers of one kind has an exact value. Evaluation gives that
value reduced into the range of the kind, or fails because a checked operation overflowed; which of the two follows
from the exact values of the subexpressions if all operations are checked or none is
(`Lowerer.eval_lower_integerTree`). With a null among the constants there is no exact value, and no other result than
null (`Lowerer.eval_lower_nullTree`).
-/

namespace ExprLowering

/-! ### Reduction into the range of a kind -/

namespace IntKind
variable {k : IntKind}

theorem size_eq_two_pow (k : IntKind) : (k.size : Int) = 2 ^ k.width := by
  rw [size, Nat.one_shiftLeft, Nat.cast_pow, Nat.cast_ofNat]

theorem wrap_modEq (k : IntKind) (n : Int) : k.wrap n ≡ n [ZMOD 2 ^ k.width] := by
  have h := (Int.mod_modEq (n - k.low) k.size).add_left k.low
  rw [← size_eq_two_pow]
  rwa [add_sub_cancel] at h

theorem wrap_congr {a b : Int} (h : a ≡ b [ZMOD 2 ^ k.width]) : k.wrap a = k.wrap b := by
  rw [← size_eq_two_pow] at h
  have hsub : (a - k.low) % k.size = (b - k.low) % k.size := h.sub_right k.low
  rw [wrap, wrap, hsub]

end IntKind

theorem ArithOp.onInt_modEq (op : ArithOp) {m a a' b b' : Int} (ha : a ≡ a' [ZMOD m]) (hb : b ≡ b' [ZMOD m]) :
    op.onInt a b ≡ op.onInt a' b' [ZMOD m] := by
  cases op with
  | add => exact ha.add hb
  | sub => exact ha.sub hb
  | mul => exact ha.mul hb

theorem IntKind.wrap_onInt_wrap (k : IntKind) (op : ArithOp) (a b : Int) :
    k.wrap (op.onInt (k.wrap a) (k.wrap b)) = k.wrap (op.onInt a b) :=
  wrap_congr (op.onInt_modEq (k.wrap_modEq a) (k.wrap_modEq b))

/-- The number is in the range of the kind, if there is one. -/
def IntKind.Fits (k : IntKind) (x : Option Int) : Prop :=
  ∀ n, x = some n → k.low ≤ n ∧ n ≤ k.high

theorem IntKind.fits_some {k : IntKind} {n : Int} : k.Fits (some n) ↔ k.low ≤ n ∧ n ≤ k.high := by
  simp [Fits]

/-- The exact result of an operation, which needs both operands. -/
def ArithOp.onExact (op : ArithOp) (x y : Option Int) : Option Int := do
  return op.onInt (← x) (← y)

namespace Value
variable {k : IntKind} {op : ArithOp} {checked : Bool} {x y : Option Int}

/-- The value of kind `k` that stands for an exact result; null where there is none. -/
def reduced (k : IntKind) : Option Int → Value
  | some n => ofWord (.wrap k n)
  | none => null

theorem reduced_of_fits {n : Int} (h : k.low ≤ n ∧ n ≤ k.high) : reduced k (some n) = ofWord ⟨k, n, h.1, h.2⟩ := by
  simp only [reduced, Word.wrap, IntKind.wrap_eq_self h.1 h.2]

theorem ofExact_checked (k : IntKind) (n : Int) [Decidable (k.Fits (some n))] :
    ofExact true k n = if k.Fits (some n) then .ok (reduced k (some n)) else .error .overflow := by
  rw [ofExact, if_pos rfl, Word.ofInt?]
  by_cases h : k.low ≤ n ∧ n ≤ k.high
  · rw [dif_pos h, if_pos (IntKind.fits_some.2 h), reduced_of_fits h]
  · rw [dif_neg h, if_neg (mt IntKind.fits_some.1 h)]

theorem arith_reduced (op : ArithOp) (checked : Bool) (k : IntKind) (x y : Option Int) :
    (op.onExact x y = none ∧ arith op checked (reduced k x) (reduced k y) = .ok null) ∨
      ∃ a b, x = some a ∧ y = some b ∧
        arith op checked (reduced k x) (reduced k y) = ofExact checked k (op.onInt (k.wrap a) (k.wrap b)) := by
  rcases x with _ | a
  · exact .inl ⟨rfl, rfl⟩
  · rcases y with _ | b
    · exact .inl ⟨rfl, rfl⟩
    · exact .inr ⟨a, b, rfl, rfl, if_pos rfl⟩

theorem arith_reduced_or (op : ArithOp) (checked : Bool) (k : IntKind) (x y : Option Int) :
    arith op checked (reduced k x) (reduced k y) = .ok (reduced k (op.onExact x y)) ∨
      checked = true ∧ arith op checked (reduced k x) (reduced k y) = .error .overflow := by
  rcases arith_reduced op checked k x y with ⟨hn, hr⟩ | ⟨a, b, rfl, rfl, hr⟩
  · rw [hn]
    exact .inl hr
  · have hwrap : reduced k (some (op.onInt (k.wrap a) (k.wrap b))) = reduced k (op.onExact (some a) (some b)) := by
      show ofWord (.wrap k _) = ofWord (.wrap k _)
      simp only [Word.wrap, k.wrap_onInt_wrap]
    rw [hr, ← hwrap]
    cases checked with
    | false => exact .inl rfl
    | true =>
      classical
      rw [ofExact_checked]
      split
      · exact .inl rfl
      · exact .inr ⟨rfl, rfl⟩

/-- A checked operation on operands in range overflows exactly if the exact result is out of range. -/
theorem arith_checked_eq_overflow (hx : k.Fits x) (hy : k.Fits y) :
    arith op true (reduced k x) (reduced k y) = .error .overflow ↔ ¬ k.Fits (op.onExact x y) := by
  rcases arith_reduced op true k x y with ⟨hn, hr⟩ | ⟨a, b, rfl, rfl, hr⟩
  · simp [hn, hr, IntKind.Fits]
  · classical
    have ha := IntKind.fits_some.1 hx
    have hb := IntKind.fits_some.1 hy
    have hexact : op.onExact (some a) (some b) = some (op.onInt a b) := rfl
    rw [hr, hexact, IntKind.wrap_eq_self ha.1 ha.2, IntKind.wrap_eq_self hb.1 hb.2, ofExact_checked]
    split <;> simp [*]

end Value

/-! ### Integer trees -/

namespace Expr

/-- Sums, differences and products over constants and variables of one integer type. -/
inductive ArithmeticTree (k : IntKind) : Expr → Prop
  | const {c : Constant} (hc : c.ty = .int k) : ArithmeticTree k (.const c)
  | var {v : Var} (hv : v.ty = .int k) : ArithmeticTree k (.var v)
  | binary {stamp : Stamp} {op : ArithOp} {checked : Bool} {left right : Expr} (hl : ArithmeticTree k left)
      (hr : ArithmeticTree k right) : ArithmeticTree k (.node stamp (.binary op checked) [left, right])

/-- The exact value of an arithmetic tree, given those of the variables. There is none if a constant is null. -/
def exact (env : VarId → Int) : Expr → Option Int
  | .const (.lit (.int w)) => some w.val
  | .var v => some (env v.id)
  | .node _ (.binary op _) [left, right] => op.onExact (left.exact env) (right.exact env)
  | _ => none

/-- The property holds of every subexpression. -/
def Everywhere (P : Expr → Prop) (e : Expr) : Prop :=
  ∀ path d, e.at? path = some d → P d

/-- All operations are checked, or none is. -/
def Uniform (checked : Bool) (e : Expr) : Prop :=
  e.Everywhere fun d => ∀ stamp op c parts, d = .node stamp (.binary op c) parts → c = checked

/-- The exact value of every subexpression is in the range of the kind. -/
def FitsThroughout (k : IntKind) (env : VarId → Int) (e : Expr) : Prop :=
  e.Everywhere fun d => k.Fits (d.exact env)

/-- No constant is null. -/
def NoNull (e : Expr) : Prop :=
  e.Everywhere fun d => ∀ ty, d ≠ .const (.null ty)

/-- An arithmetic tree whose constants are integers. -/
structure IntegerTree (k : IntKind) (e : Expr) : Prop where
  arithmetic : e.ArithmeticTree k
  noNull : e.NoNull

theorem everywhere_leaf {P : Expr → Prop} {e : Expr} (hl : e.isLeaf = true) : e.Everywhere P ↔ P e := by
  constructor
  · intro h
    exact h [] e rfl
  · intro h path d hat
    obtain ⟨-, rfl⟩ := at?_of_isLeaf hl hat
    exact h

theorem everywhere_binary {P : Expr → Prop} {stamp : Stamp} {head : Head} {left right : Expr} :
    (node stamp head [left, right]).Everywhere P ↔
      P (node stamp head [left, right]) ∧ left.Everywhere P ∧ right.Everywhere P := by
  constructor
  · intro h
    exact ⟨h [] _ rfl, fun path d hat => h (0 :: path) d (at?_part rfl hat),
      fun path d hat => h (1 :: path) d (at?_part rfl hat)⟩
  · rintro ⟨hroot, hl, hr⟩ path d hat
    rcases path with _ | ⟨i, path⟩
    · cases hat
      exact hroot
    · obtain ⟨p, hp, hat⟩ := at?_cons_eq_some hat
      rcases i with _ | _ | i
      · cases hp
        exact hl path d hat
      · cases hp
        exact hr path d hat
      · cases hp

namespace ArithmeticTree
variable {k : IntKind} {e : Expr} {env : VarId → Int}

theorem plain (h : e.ArithmeticTree k) : e.Plain := by
  induction h with
  | const => exact .const _
  | var => exact .var _
  | binary _ _ ihl ihr => exact .binary ihl ihr

theorem exists_exact (h : e.ArithmeticTree k) (hn : e.NoNull) : ∃ n, e.exact env = some n := by
  induction h with
  | @const c hc =>
    rw [NoNull, everywhere_leaf rfl] at hn
    rcases c with ty | (_ | w | _ | _)
    · exact absurd rfl (hn ty)
    · cases hc
    · exact ⟨w.val, rfl⟩
    · cases hc
    · cases hc
  | @var v _ => exact ⟨env v.id, rfl⟩
  | @binary _ op _ left right _ _ ihl ihr =>
    rw [NoNull, everywhere_binary] at hn
    obtain ⟨a, ha⟩ := ihl hn.2.1
    obtain ⟨b, hb⟩ := ihr hn.2.2
    exact ⟨op.onInt a b, by rw [exact, ha, hb]; rfl⟩

theorem exact_eq_none (h : e.ArithmeticTree k) (hn : ¬ e.NoNull) : e.exact env = none := by
  induction h with
  | @const c hc =>
    rcases c with ty | l
    · rfl
    · exact absurd ((everywhere_leaf rfl).2 fun ty => by simp) hn
  | var => exact absurd ((everywhere_leaf rfl).2 fun ty => by simp) hn
  | @binary _ op _ left right _ _ ihl ihr =>
    by_cases hl : left.NoNull
    · have hr : ¬ right.NoNull := fun hr => hn (everywhere_binary.2 ⟨fun ty => by simp, hl, hr⟩)
      rw [exact, ihr hr]
      cases left.exact env <;> rfl
    · rw [exact, ihl hl]
      rfl

end ArithmeticTree

end Expr

/-! ### Evaluation -/

/-- How the evaluation of an arithmetic tree can end. -/
structure Expr.Computes (k : IntKind) (env : VarId → Int) (e : Expr) (r : Except Fault Value) : Prop where
  result : r = .ok (.reduced k (e.exact env)) ∨ r = .error .overflow
  unchecked : e.Uniform false → r ≠ .error .overflow
  checked : e.Uniform true → (r = .error .overflow ↔ ¬ e.FitsThroughout k env)

namespace Expr

theorem uniform_binary {c checked : Bool} {stamp : Stamp} {op : ArithOp} {left right : Expr} :
    (node stamp (.binary op c) [left, right]).Uniform checked ↔
      c = checked ∧ left.Uniform checked ∧ right.Uniform checked := by
  rw [Uniform, everywhere_binary]
  refine and_congr_left' ⟨fun h => h stamp op c _ rfl, ?_⟩
  rintro rfl stamp' op' c' parts h
  cases h
  rfl

theorem fitsThroughout_binary {k : IntKind} {env : VarId → Int} {stamp : Stamp} {op : ArithOp} {c : Bool}
    {left right : Expr} :
    (node stamp (.binary op c) [left, right]).FitsThroughout k env ↔
      k.Fits (op.onExact (left.exact env) (right.exact env)) ∧
        left.FitsThroughout k env ∧ right.FitsThroughout k env := by
  rw [FitsThroughout, everywhere_binary, exact]
  rfl

end Expr

namespace Expr.Computes
variable {k : IntKind} {env : VarId → Int} {stamp : Stamp} {op : ArithOp} {c : Bool} {left right : Expr}
  {r r' : Except Fault Value}

theorem leaf {e : Expr} (hl : e.isLeaf = true) (hf : k.Fits (e.exact env)) :
    e.Computes k env (.ok (.reduced k (e.exact env))) where
  result := .inl rfl
  unchecked _ h := by cases h
  checked _ := by
    have hfits : e.FitsThroughout k env := (everywhere_leaf hl).2 hf
    simp [hfits]

theorem word {e : Expr} {w : Word} (hl : e.isLeaf = true) (hx : e.exact env = some w.val) :
    e.Computes w.kind env (.ok (.ofWord w)) := by
  have hw : w.kind.low ≤ w.val ∧ w.val ≤ w.kind.high := ⟨w.low_le, w.le_high⟩
  have h := leaf hl (hx ▸ IntKind.fits_some.2 hw)
  rwa [hx, Value.reduced_of_fits hw] at h

theorem fits {v : Value} (h : left.Computes k env (.ok v)) (hu : left.Uniform true) : left.FitsThroughout k env := by
  by_contra hn
  cases (h.checked hu).2 hn

theorem overflow (h : left.Computes k env (.error .overflow) ∨ right.Computes k env (.error .overflow)) :
    (node stamp (.binary op c) [left, right]).Computes k env (.error .overflow) where
  result := .inr rfl
  unchecked hu := by
    obtain ⟨-, hl, hr⟩ := uniform_binary.1 hu
    rcases h with h | h
    · exact absurd rfl (h.unchecked hl)
    · exact absurd rfl (h.unchecked hr)
  checked hu := by
    obtain ⟨-, hl, hr⟩ := uniform_binary.1 hu
    refine ⟨fun _ hfits => ?_, fun _ => rfl⟩
    obtain ⟨-, hfl, hfr⟩ := fitsThroughout_binary.1 hfits
    rcases h with h | h
    · exact (h.checked hl).1 rfl hfl
    · exact (h.checked hr).1 rfl hfr

theorem operation (hl : left.Computes k env (.ok (.reduced k (left.exact env))))
    (hr : right.Computes k env (.ok (.reduced k (right.exact env)))) :
    (node stamp (.binary op c) [left, right]).Computes k env
      (Value.arith op c (.reduced k (left.exact env)) (.reduced k (right.exact env))) where
  result := by
    rw [exact]
    exact (Value.arith_reduced_or ..).imp_right And.right
  unchecked hu hr := by
    obtain ⟨rfl, -⟩ := uniform_binary.1 hu
    rcases Value.arith_reduced_or op false k (left.exact env) (right.exact env) with h | ⟨h, -⟩
    · rw [h] at hr
      cases hr
    · cases h
  checked hu := by
    obtain ⟨rfl, hul, hur⟩ := uniform_binary.1 hu
    have hfl := hl.fits hul
    have hfr := hr.fits hur
    rw [Value.arith_checked_eq_overflow (hfl [] _ rfl) (hfr [] _ rfl)]
    simp [fitsThroughout_binary, hfl, hfr]

theorem binary (hl : left.Computes k env r) (hr : right.Computes k env r') :
    (node stamp (.binary op c) [left, right]).Computes k env (do Value.arith op c (← r) (← r')) := by
  rcases hl.result with rfl | rfl
  · rcases hr.result with rfl | rfl
    · exact operation hl hr
    · exact overflow (.inr hr)
  · exact overflow (.inl hl)

end Expr.Computes

section
variable {σ : Type} {host : Host σ} {m : Machine} {enter : Enter σ} {scopes : List Scope} {s : Store σ}

/-- The variable holds the integer `n` of kind `k`. -/
def Machine.HoldsInt (m : Machine) (scopes : List Scope) (s : Store σ) (k : IntKind) (v : Var) (n : Int) : Prop :=
  ∃ c w, m.lookup scopes v = some c ∧ s.cells.getD c .null = .ofWord w ∧ w.kind = k ∧ w.val = n

theorem Expr.ArithmeticTree.yields {k : IntKind} {e : Expr} {env : VarId → Int} (h : e.ArithmeticTree k)
    (hvars : e.Everywhere fun d => ∀ v, d = .var v → m.HoldsInt scopes s k v (env v.id)) :
    ∃ r, m.Yields host enter scopes s e.plainTree r ∧ e.Computes k env r := by
  induction h with
  | @const c hc =>
    rcases c with ty | (_ | w | _ | _)
    · exact ⟨_, .const _, .leaf rfl fun n hn => by cases hn⟩
    · cases hc
    · cases hc
      exact ⟨_, .const _, .word rfl rfl⟩
    · cases hc
    · cases hc
  | @var v hv =>
    obtain ⟨c, w, hc, hw, rfl, hn⟩ := (everywhere_leaf rfl).1 hvars v rfl
    refine ⟨_, .read hc, ?_⟩
    rw [hw]
    exact .word rfl (congrArg some hn.symm)
  | binary _ _ ihl ihr =>
    obtain ⟨-, hl, hr⟩ := everywhere_binary.1 hvars
    obtain ⟨r, hyl, hcl⟩ := ihl hl
    obtain ⟨r', hyr, hcr⟩ := ihr hr
    exact ⟨_, hyl.arith hyr, hcl.binary hcr⟩

namespace Lowerer
variable {l : Lowerer} {e : Expr} {p : Prim} {supply : Supply} {k : IntKind} {env : VarId → Int}

theorem eval_lower_arithmeticTree (he : e.Obtained) (ht : e.ArithmeticTree k) (hp : (l.lower e supply).1 = .ok p)
    (hvars : e.Everywhere fun d => ∀ v, d = .var v → m.HoldsInt scopes s k v (env v.id)) :
    ∃ r, (m.evalWith host id enter scopes p).run s = (r, s) ∧ e.Computes k env r := by
  obtain ⟨supply', hlower⟩ := exists_loweredTo hp
  obtain ⟨rfl, -⟩ := ht.plain.lowered he.wellMade hlower
  exact ht.yields hvars

/-- An arithmetic tree with a null constant gives null, if nothing overflows. -/
theorem eval_lower_nullTree (he : e.Obtained) (ht : e.ArithmeticTree k) (hnull : ¬ e.NoNull)
    (hp : (l.lower e supply).1 = .ok p)
    (hvars : e.Everywhere fun d => ∀ v, d = .var v → m.HoldsInt scopes s k v (env v.id)) :
    (m.evalWith host id enter scopes p).run s = (.ok .null, s) ∨
      (m.evalWith host id enter scopes p).run s = (.error .overflow, s) := by
  obtain ⟨r, hrun, hc⟩ := eval_lower_arithmeticTree he ht hp hvars
  have hresult := hc.result
  rw [ht.exact_eq_none hnull] at hresult
  rw [hrun]
  rcases hresult with rfl | rfl
  · exact .inl rfl
  · exact .inr rfl

/-- An integer tree computes its exact value or says that it did not. Without checks the value is reduced into the
range of the kind; where all operations are checked, evaluation succeeds exactly if every subexpression is in range,
and gives the exact value; where some are, what it gives is congruent to the exact value. -/
theorem eval_lower_integerTree (he : e.Obtained) (ht : e.IntegerTree k) (hp : (l.lower e supply).1 = .ok p)
    (hvars : e.Everywhere fun d => ∀ v, d = .var v → m.HoldsInt scopes s k v (env v.id)) :
    ∃ r n, (m.evalWith host id enter scopes p).run s = (r, s) ∧ e.exact env = some n ∧
      (e.Uniform false → ∃ w : Word, r = .ok (.ofWord w) ∧ w.kind = k ∧ w.val ≡ n [ZMOD 2 ^ k.width]) ∧
      (e.Uniform true → e.FitsThroughout k env → ∃ w : Word, r = .ok (.ofWord w) ∧ w.kind = k ∧ w.val = n) ∧
      (e.Uniform true → ¬ e.FitsThroughout k env → r = .error .overflow) ∧
      (∀ v, r = .ok v → ∃ w : Word, v = .ofWord w ∧ w.kind = k ∧ w.val ≡ n [ZMOD 2 ^ k.width]) ∧
      ∀ f, r = .error f → f = .overflow := by
  obtain ⟨r, hrun, hc⟩ := eval_lower_arithmeticTree he ht.arithmetic hp hvars
  obtain ⟨n, hn⟩ := ht.arithmetic.exists_exact ht.noNull
  have hresult := hc.result
  rw [hn] at hresult
  have hsucceeds (h : r ≠ .error .overflow) :
      ∃ w : Word, r = .ok (.ofWord w) ∧ w.kind = k ∧ w.val ≡ n [ZMOD 2 ^ k.width] :=
    ⟨.wrap k n, hresult.resolve_right h, rfl, k.wrap_modEq n⟩
  refine ⟨r, n, hrun, hn, fun hu => hsucceeds (hc.unchecked hu), fun hu hfits => ?_, fun hu => (hc.checked hu).2,
    ?_, ?_⟩
  · have hrange : k.low ≤ n ∧ n ≤ k.high := hfits [] e rfl n hn
    have hok := hresult.resolve_right fun hf => (hc.checked hu).1 hf hfits
    exact ⟨_, hok.trans (by rw [Value.reduced_of_fits hrange]), rfl, rfl⟩
  · rintro v rfl
    obtain ⟨w, hw, hw'⟩ := hsucceeds (by simp)
    exact ⟨w, Except.ok.inj hw, hw'⟩
  · rintro f rfl
    rcases hresult with h | h
    · cases h
    · exact Except.error.inj h

end Lowerer

end

namespace ByteTree

def x : Var := ⟨⟨0⟩, "x", .int .u8⟩

def byte (n : Int) (h : 0 ≤ n ∧ n ≤ 255) : Word := ⟨.u8, n, h.1, h.2⟩

def double : Expr := .node 0 (.binary .mul false) [.var x, .const (.lit (.int (byte 2 (by decide))))]

/-- `x * 2 - 144`, where the difference is checked and the product is not -/
def expr : Expr := .node 1 (.binary .sub true) [double, .const (.lit (.int (byte 144 (by decide))))]

theorem expr_obtained : expr.Obtained := by
  have hmul : Expr.mkBinary .mul false (.var x) (.const (.lit (.int (byte 2 (by decide))))) 0 = .ok (double, 1) := rfl
  have hsub : Expr.mkBinary .sub true double (.const (.lit (.int (byte 144 (by decide))))) 1 = .ok (expr, 2) := rfl
  have hdouble : double.Obtained := .made (by simp [Expr.Obtained.var, Expr.Obtained.const]) hmul
  exact .made (by simp [hdouble, Expr.Obtained.const]) hsub

theorem expr_integerTree : expr.IntegerTree .u8 where
  arithmetic := .binary (.binary (.var rfl) (.const rfl)) (.const rfl)
  noNull := by
    rw [expr, Expr.NoNull, Expr.everywhere_binary, double, Expr.everywhere_binary, Expr.everywhere_leaf rfl,
      Expr.everywhere_leaf rfl, Expr.everywhere_leaf rfl]
    simp

def silent : Host Unit := ⟨fun _ _ grids state => (.ok .null, grids, state)⟩
def machine : Machine := { globals := [(x.id, 0)] }
def store : Store Unit := { cells := #[.ofWord (byte 200 (by decide))], host := () }

def env : VarId → Int := fun _ => 200

theorem holds_x : expr.Everywhere fun d => ∀ v, d = .var v → machine.HoldsInt [] store .u8 v (env v.id) := by
  have hx : machine.HoldsInt [] store .u8 x (env x.id) := ⟨0, byte 200 (by decide), rfl, rfl, rfl, rfl⟩
  rw [expr, Expr.everywhere_binary, double, Expr.everywhere_binary, Expr.everywhere_leaf rfl,
    Expr.everywhere_leaf rfl, Expr.everywhere_leaf rfl]
  simp [hx]

end ByteTree

open ByteTree in
/-- For `x = 200` the product wraps to 144 and the difference is zero, while its exact value is 256. -/
theorem Lowerer.eval_lower_integerTree_byte :
    ∃ p w, expr.IntegerTree .u8 ∧ (lower {} expr { var := 1 }).1 = .ok p ∧
      (machine.eval silent p).run store = (.ok (.ofWord w), store) ∧ w.val = 0 ∧
      expr.exact env = some 256 ∧ w.val ≡ 256 [ZMOD 2 ^ 8] := by
  obtain ⟨p, hp, hrun⟩ : ∃ p, (lower {} expr { var := 1 }).1 = .ok p ∧
      (machine.eval silent p).run store = (.ok (.ofWord (.zero .u8)), store) := ⟨_, rfl, rfl⟩
  obtain ⟨r, n, hr, hn, -, -, -, hcongr, -⟩ := eval_lower_integerTree expr_obtained expr_integerTree hp holds_x
  cases hrun.symm.trans hr
  cases hn
  obtain ⟨w, hw, -, hmod⟩ := hcongr _ rfl
  cases hw
  exact ⟨p, _, expr_integerTree, hp, hrun, rfl, rfl, hmod⟩

end ExprLowering
