/-!
# Binary floating-point numbers

A float is kept as its 32 or 64 bits, so that two floats can be told apart exactly (`=`) and also
compared as numbers (`FloatBits.numEq`: a NaN differs from everything and both zeros are equal).
Fields are read off the bits in `Nat`; only arithmetic goes through the machine's floats.
-/

namespace ExprLowering

inductive FloatKind where
  | f32 | f64
deriving DecidableEq, Repr

namespace FloatKind

def name : FloatKind → String
  | f32 => "f32"
  | f64 => "f64"

/-- Width of the exponent field. -/
def exponentBits : FloatKind → Nat
  | f32 => 8
  | f64 => 11

/-- Width of the fraction field. -/
def fractionBits : FloatKind → Nat
  | f32 => 23
  | f64 => 52

/-- The exponent field of infinities and NaNs. -/
def topExponent (k : FloatKind) : Nat :=
  1 <<< k.exponentBits - 1

end FloatKind

/-- A binary floating-point number, as its bits. -/
inductive FloatBits where
  | single (bits : UInt32)
  | double (bits : UInt64)
deriving DecidableEq

namespace FloatBits

def kind : FloatBits → FloatKind
  | single _ => .f32
  | double _ => .f64

/-- The bits as a natural number. -/
def code : FloatBits → Nat
  | single b => b.toNat
  | double b => b.toNat

def negative (x : FloatBits) : Bool :=
  x.code.testBit (x.kind.exponentBits + x.kind.fractionBits)

def exponentField (x : FloatBits) : Nat :=
  (x.code >>> x.kind.fractionBits) % (1 <<< x.kind.exponentBits)

def fractionField (x : FloatBits) : Nat :=
  x.code % (1 <<< x.kind.fractionBits)

def isNaN (x : FloatBits) : Bool :=
  x.exponentField == x.kind.topExponent && x.fractionField != 0

/-- Neither a NaN nor an infinity. -/
def isFinite (x : FloatBits) : Bool :=
  x.exponentField != x.kind.topExponent

def isZero (x : FloatBits) : Bool :=
  x.exponentField == 0 && x.fractionField == 0

/-- The whole number `m` such that a finite `x` is `± m * 2 ^ x.scale`. -/
def significand (x : FloatBits) : Nat :=
  if x.exponentField == 0 then x.fractionField else 1 <<< x.kind.fractionBits + x.fractionField

/-- The exponent `q` such that a finite `x` is `± x.significand * 2 ^ q`. -/
def scale (x : FloatBits) : Int :=
  let bias : Nat := 1 <<< (x.kind.exponentBits - 1) - 1
  (max x.exponentField 1 : Nat) - bias - x.kind.fractionBits

/-- Equality of numbers: a NaN equals nothing, and both zeros are equal. -/
def numEq (x y : FloatBits) : Bool :=
  x.kind == y.kind && !x.isNaN && !y.isNaN && (x == y || x.isZero && y.isZero)

def zero : FloatKind → FloatBits
  | .f32 => single 0
  | .f64 => double 0

def one : FloatKind → FloatBits
  | .f32 => single 0x3f800000
  | .f64 => double 0x3ff0000000000000

/-- Applies an operation on floats of the width that both operands have. -/
def map₂? (onSingle : Float32 → Float32 → Float32) (onDouble : Float → Float → Float) :
    FloatBits → FloatBits → Option FloatBits
  | single a, single b => some (single (onSingle (.ofBits a) (.ofBits b)).toBits)
  | double a, double b => some (double (onDouble (.ofBits a) (.ofBits b)).toBits)
  | _, _ => none

/-- The nearest number of 32 bits. -/
def narrow (bits : UInt64) : UInt32 :=
  (Float.ofBits bits).toFloat32.toBits

end FloatBits

end ExprLowering
