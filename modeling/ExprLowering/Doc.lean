import ExprLowering.Number.Decimal

/-!
# Documents

Serialized trees are documents: null, truth values, numbers, text, lists and records with named
fields. A number with a point is kept as it is written, digits and exponent.

`Numeral.toFloat?` reads such a number as is common for documents: all digits that are written make
up one whole number, which is rounded to a double and then scaled once by a power of ten.
-/

namespace ExprLowering

/-- The written number `± digits * 10 ^ exponent`. -/
structure Numeral where
  negative : Bool
  digits : Nat
  exponent : Int
deriving DecidableEq, Repr

namespace Numeral

/-- The greatest power of ten by which a double is scaled in one step. -/
def maxPower : Nat :=
  308

/-- `x` divided by `10 ^ n`. -/
def scaleDown (x : Float) (n : Nat) : Float :=
  if n ≤ maxPower then x / Float.ofScientific 1 false n
  else scaleDown (x / Float.ofScientific 1 false maxPower) (n - maxPower)
termination_by n
decreasing_by simp only [maxPower] at *; omega

/-- The number as a double, unless it is too great. -/
def toDouble? (n : Numeral) : Option Float :=
  let x := n.digits.toUInt64.toFloat
  let scaled? : Option Float :=
    match n.exponent with
    | .ofNat k =>
      if k ≤ maxPower then
        let y := x * Float.ofScientific 1 false k
        if y.isInf then none else some y
      else if n.digits = 0 then some x else none
    | .negSucc k => some (scaleDown x (k + 1))
  scaled?.map fun y => if n.negative then -y else y

/-- The number as a float of the given kind. -/
def toFloat? (k : FloatKind) (n : Numeral) : Option FloatBits :=
  n.toDouble?.map fun x =>
    match k with
    | .f64 => .double x.toBits
    | .f32 => .single x.toFloat32.toBits

end Numeral

/-- How a written number is read as a float of a kind. -/
abbrev FloatReader := FloatKind → Numeral → Option FloatBits

namespace FloatBits

/-- The number of digits up to which whole numbers are written out, with a zero behind the point. -/
def wholeDigits : FloatKind → Nat
  | .f32 => 13
  | .f64 => 16

/-- The shortest decimal that reads back, as it is written in documents, where a tie goes to the even
digit; none for infinities and NaNs. -/
def numeral? (x : FloatBits) : Option Numeral :=
  if !x.isFinite then none
  else if x.isZero then some ⟨x.negative, 0, -1⟩
  else
    let d := x.shortest .even
    if 0 ≤ d.exponent && d.length + d.exponent ≤ wholeDigits x.kind then
      some ⟨x.negative, d.digits * Nat.pow 10 (d.exponent.toNat + 1), -1⟩
    else some ⟨x.negative, d.digits, d.exponent⟩

end FloatBits

inductive Doc where
  | null
  | bool (b : Bool)
  | int (n : Int)
  | real (n : Numeral)
  | str (s : String)
  | list (items : List Doc)
  | record (fields : List (String × Doc))

namespace Doc

def isNull : Doc → Bool
  | null => true
  | _ => false

/-- A record with one field, which tells the form of what it holds. -/
def tagged (tag : String) (d : Doc) : Doc :=
  record [(tag, d)]

def ofBits (x : FloatBits) : Doc :=
  match x.numeral? with
  | some n => real n
  | none => null

end Doc

end ExprLowering
