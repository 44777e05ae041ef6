import ExprLowering.Number.Word
import ExprLowering.Number.Decimal

/-!
# Literals

The scalar data that constants and values share: truth values, integers, floats and text. Equality
`=` tells floats apart by their bits; `Literal.numEq` compares them as numbers.
-/

namespace ExprLowering

inductive Literal where
  | bool (b : Bool)
  | int (w : Word)
  | float (x : FloatBits)
  | str (s : String)
deriving DecidableEq

namespace Literal

/-- Equality with floats compared as numbers. -/
def numEq : Literal → Literal → Bool
  | float x, float y => x.numEq y
  | a, b => a == b

/-- The bare text of a literal. -/
def text : Literal → String
  | bool true => "true"
  | bool false => "false"
  | int w => w.text
  | float x => x.text
  | str s => s

end Literal

end ExprLowering
