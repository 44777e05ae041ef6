import Mathlib.Tactic.SplitIfs
import ExprLowering.Machine.Arith

/-!
# Checked and wrapping arithmetic

Where checked arithmetic succeeds, wrapping arithmetic gives the same result. An increment adds the one of the
operand's type if it is checked and the one of the value found if it is not; they are the same wherever the
checked addition succeeds. Whatever it is done to, arithmetic gives scalars.
-/

namespace ExprLowering

theorem IntKind.wrap_eq_self {k : IntKind} {n : Int} (hl : k.low ≤ n) (hh : n ≤ k.high) : k.wrap n = n := by
  unfold high at hh
  have hn : (n - k.low) % k.size = n - k.low := Int.emod_eq_of_lt (by omega) (by omega)
  unfold wrap
  omega

theorem FloatBits.kind_one (k : FloatKind) : (FloatBits.one k).kind = k := by
  cases k <;> rfl

/-- Only floats of one width are combined. -/
theorem ArithOp.kind_eq_of_onFloat {op : ArithOp} {x y z : FloatBits} (h : op.onFloat x y = some z) :
    x.kind = y.kind := by
  cases op <;> cases x <;> cases y <;> simp_all [onFloat, FloatBits.map₂?, FloatBits.kind]

namespace Value
variable {α : Type} {op : ArithOp} {a b v : Value α}

theorem ofExact_of_checked {k : IntKind} {n : Int} (h : ofExact true k n = .ok v) : ofExact false k n = .ok v := by
  rw [ofExact, if_pos rfl, Word.ofInt?] at h
  rw [ofExact, if_neg Bool.false_ne_true, Word.wrap]
  by_cases hn : k.low ≤ n ∧ n ≤ k.high
  · simp only [dif_pos hn] at h
    simp only [IntKind.wrap_eq_self hn.1 hn.2]
    exact h
  · simp only [dif_neg hn] at h
    cases h

/-- The check turns some results into failures and changes no other. -/
theorem arith_of_checked (h : arith op true a b = .ok v) : arith op false a b = .ok v := by
  unfold arith at h ⊢
  split at h
  · exact h
  · exact h
  · split_ifs at h with hk
    rw [if_pos hk]
    exact ofExact_of_checked h
  · exact h
  · cases h

/-- Where the one of a type can be added to a value, with the check, it is the one of the value, or null is
added to null. -/
theorem arith_oneLike {ty : Ty} {one : Constant} (hone : Constant.one? ty = some one)
    (h : arith op true a (.ofConstant one) = .ok v) :
    ∃ one', a.oneLike = .ok one' ∧ arith op false a one' = .ok v := by
  replace h := arith_of_checked h
  rw [Constant.one?] at hone
  split at hone
  · rename_i k _
    obtain rfl := Option.some.inj hone
    rcases a with _ | (_ | w | _ | _) | _ | _ | _ | _
    case null => exact ⟨_, rfl, h⟩
    case lit.int =>
      by_cases hk : w.kind = k
      · subst hk
        exact ⟨_, rfl, h⟩
      · simp only [ofConstant, arith, if_neg (show ¬ w.kind = (Word.one k).kind from hk)] at h
        cases h
    all_goals cases h
  · rename_i k _
    obtain rfl := Option.some.inj hone
    rcases a with _ | (_ | _ | x | _) | _ | _ | _ | _
    case null => exact ⟨_, rfl, h⟩
    case lit.float =>
      simp only [ofConstant, arith] at h
      split at h
      · rename_i z hz
        obtain rfl : x.kind = k := (ArithOp.kind_eq_of_onFloat hz).trans (FloatBits.kind_one k)
        refine ⟨_, rfl, ?_⟩
        simp only [arith, hz]
        exact h
      · cases h
    all_goals cases h
  · cases hone

end Value

/-! ### Results are scalars -/

/-- The value is a literal or null. -/
def Value.IsScalar (v : Value) : Prop :=
  v = .null ∨ ∃ l, v = .lit l

theorem Value.isScalar_of_arith {op : ArithOp} {checked : Bool} {a b v : Value}
    (h : Value.arith op checked a b = .ok v) : v.IsScalar := by
  unfold Value.arith at h
  split at h
  · exact .inl (Except.ok.inj h).symm
  · exact .inl (Except.ok.inj h).symm
  · split_ifs at h
    unfold Value.ofExact at h
    split_ifs at h
    · split at h
      · exact .inr ⟨_, (Except.ok.inj h).symm⟩
      · cases h
    · exact .inr ⟨_, (Except.ok.inj h).symm⟩
  · split at h
    · exact .inr ⟨_, (Except.ok.inj h).symm⟩
    · cases h
  · cases h

theorem Value.isScalar_of_oneLike {a v : Value} (h : a.oneLike = .ok v) : v.IsScalar := by
  unfold Value.oneLike at h
  split at h
  · exact .inl (Except.ok.inj h).symm
  · exact .inr ⟨_, (Except.ok.inj h).symm⟩
  · exact .inr ⟨_, (Except.ok.inj h).symm⟩
  · cases h

end ExprLowering
