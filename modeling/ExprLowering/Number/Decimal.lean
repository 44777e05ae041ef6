import ExprLowering.Number.FloatBits

/-!
# Decimal text of floats

A positive float stands for every real number that rounds to it. `FloatBits.shortest` finds, among
the decimals in that interval, one with the fewest digits, and of those the one nearest to the
float; a `Tie` says which of two equally near ones it is. `FloatBits.text` writes the decimal without
an exponent.
-/

namespace ExprLowering

/-- The number `digits * 10 ^ exponent`. -/
structure Decimal where
  digits : Nat
  exponent : Int
deriving DecidableEq, Repr

namespace Decimal

/-- Moves trailing zeros of the digits into the exponent. The fuel bounds their number. -/
def trim : Nat → Decimal → Decimal
  | 0, d => d
  | fuel + 1, d =>
    if d.digits != 0 && d.digits % 10 == 0 then trim fuel ⟨d.digits / 10, d.exponent + 1⟩ else d

/-- The number of decimal digits. -/
def length (d : Decimal) : Nat :=
  (Nat.toDigits 10 d.digits).length

/-- Positional notation: no exponent, and a point only where digits follow it. -/
def positional (d : Decimal) : String :=
  let digits := Nat.toDigits 10 d.digits
  match d.exponent with
  | .ofNat n => String.ofList (digits ++ List.replicate n '0')
  | .negSucc n =>
    let places := n + 1
    let padded := List.replicate (places + 1 - digits.length) '0' ++ digits
    let whole := padded.length - places
    String.ofList (padded.take whole ++ '.' :: padded.drop whole)

end Decimal

/-- Which of two neighbouring decimals is taken when both are equally near. -/
inductive Tie where
  /-- The greater one. -/
  | up
  /-- The one with an even last digit. -/
  | even
deriving DecidableEq, Repr

/-- Whether the lesser decimal, with digits `c`, is taken. -/
def Tie.takesLesser (tie : Tie) (c : Nat) : Bool :=
  match tie with
  | up => false
  | even => c % 2 == 0

namespace FloatBits

/-- The fraction `num / den`, over which grids of decimals are laid. -/
structure Ratio where
  num : Nat
  den : Nat

/-- `n * 2 ^ q` as a fraction. -/
def Ratio.ofDyadic (n : Nat) (q : Int) : Ratio :=
  match q with
  | .ofNat k => ⟨n <<< k, 1⟩
  | .negSucc k => ⟨n, 1 <<< (k + 1)⟩

/-- The fraction divided by `10 ^ e`. -/
def Ratio.perPowerOfTen (r : Ratio) (e : Int) : Ratio :=
  match e with
  | .ofNat k => ⟨r.num, r.den * Nat.pow 10 k⟩
  | .negSucc k => ⟨r.num * Nat.pow 10 (k + 1), r.den⟩

/-- The exponent of the leading decimal digit of a positive fraction above `10 ^ -400`. -/
def Ratio.leading (r : Ratio) : Int :=
  (Nat.toDigits 10 (r.num * Nat.pow 10 400 / r.den)).length - 401

/-- Whether the whole number `c` lies in the interval of `x`, on the grid of multiples of `10 ^ e`.
The interval reaches half way to the neighbours of `x`; below a power of two the neighbour is nearer
by half. Its ends belong to it when the significand is even. -/
def roundsTo (x : FloatBits) (e : Int) (c : Nat) : Bool :=
  let m := x.significand
  let below := if m == 1 <<< x.kind.fractionBits && x.exponentField > 1 then 1 else 2
  let lo := (Ratio.ofDyadic (4 * m - below) (x.scale - 2)).perPowerOfTen e
  let hi := (Ratio.ofDyadic (4 * m + 2) (x.scale - 2)).perPowerOfTen e
  if m % 2 == 0 then lo.num ≤ c * lo.den && c * hi.den ≤ hi.num
  else lo.num < c * lo.den && c * hi.den < hi.num

/-- The decimal on the grid of multiples of `10 ^ e` that rounds to `x` and is nearest to it. -/
def onGrid? (tie : Tie) (x : FloatBits) (e : Int) : Option Decimal :=
  let v := (Ratio.ofDyadic x.significand x.scale).perPowerOfTen e
  let c := v.num / v.den
  match x.roundsTo e c, x.roundsTo e (c + 1) with
  | true, true =>
    let twice := 2 * (v.num % v.den)
    if twice < v.den || twice == v.den && tie.takesLesser c then some ⟨c, e⟩
    else some ⟨c + 1, e⟩
  | true, false => some ⟨c, e⟩
  | false, true => some ⟨c + 1, e⟩
  | false, false => none

/-- The first decimal found on the grids of 1, 2, … digits; 17 digits always suffice. -/
def shortest (tie : Tie) (x : FloatBits) : Decimal :=
  let top := (Ratio.ofDyadic x.significand x.scale).leading
  match (List.range 17).findSome? fun (n : Nat) => x.onGrid? tie (top - n) with
  | some d => d.trim 20
  | none => ⟨0, 0⟩

/-- The text of a float: the shortest digits that read back, in positional notation. A tie goes
up. -/
def text (x : FloatBits) : String :=
  if x.isNaN then "NaN"
  else
    let sign := if x.negative then "-" else ""
    if !x.isFinite then sign ++ "inf"
    else if x.isZero then sign ++ "0"
    else sign ++ (x.shortest .up).positional

end FloatBits

end ExprLowering
