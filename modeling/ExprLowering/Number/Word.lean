/-!
# Fixed-width integers

A `Word` is an integer together with its kind, one of the eight signed and unsigned widths from 8
to 64 bits, and a proof that it lies in the kind's range. Arithmetic is done on `Int`; a result is
then either reduced into the range (`Word.wrap`) or refused (`Word.ofInt?`).
-/

namespace ExprLowering

/-- The integer kinds: unsigned and signed, 8 to 64 bits wide. -/
inductive IntKind where
  | u8 | i8 | u16 | i16 | u32 | i32 | u64 | i64
deriving DecidableEq, Repr

namespace IntKind

def width : IntKind → Nat
  | u8 | i8 => 8
  | u16 | i16 => 16
  | u32 | i32 => 32
  | u64 | i64 => 64

/-- The least value of the kind. -/
def low : IntKind → Int
  | u8 | u16 | u32 | u64 => 0
  | i8 => -0x80
  | i16 => -0x8000
  | i32 => -0x80000000
  | i64 => -0x8000000000000000

/-- The number of values of the kind. -/
def size (k : IntKind) : Nat :=
  1 <<< k.width

/-- The greatest value of the kind. -/
def high (k : IntKind) : Int :=
  k.low + k.size - 1

def name : IntKind → String
  | u8 => "u8"
  | i8 => "i8"
  | u16 => "u16"
  | i16 => "i16"
  | u32 => "u32"
  | i32 => "i32"
  | u64 => "u64"
  | i64 => "i64"

/-- The member of the kind's range that is congruent to `n` modulo the number of its values. -/
def wrap (k : IntKind) (n : Int) : Int :=
  k.low + (n - k.low) % k.size

theorem low_le_wrap (k : IntKind) (n : Int) : k.low ≤ k.wrap n := by
  have : (0 : Int) ≤ (n - k.low) % k.size :=
    Int.emod_nonneg _ (by cases k <;> decide)
  unfold wrap
  omega

theorem wrap_le_high (k : IntKind) (n : Int) : k.wrap n ≤ k.high := by
  have : (n - k.low) % k.size < k.size :=
    Int.emod_lt_of_pos _ (by cases k <;> decide)
  unfold wrap high
  omega

end IntKind

/-- An integer of a fixed-width kind. -/
structure Word where
  kind : IntKind
  val : Int
  low_le : kind.low ≤ val
  le_high : val ≤ kind.high
deriving DecidableEq

namespace Word

/-- `n` reduced into the range of `k`. -/
def wrap (k : IntKind) (n : Int) : Word :=
  ⟨k, k.wrap n, k.low_le_wrap n, k.wrap_le_high n⟩

/-- `n` as a word of kind `k`, if it is in range. -/
def ofInt? (k : IntKind) (n : Int) : Option Word :=
  if h : k.low ≤ n ∧ n ≤ k.high then some ⟨k, n, h.1, h.2⟩ else none

def zero (k : IntKind) : Word :=
  ⟨k, 0, by cases k <;> decide, by cases k <;> decide⟩

def one (k : IntKind) : Word :=
  ⟨k, 1, by cases k <;> decide, by cases k <;> decide⟩

def text (w : Word) : String :=
  toString w.val

end Word

end ExprLowering
