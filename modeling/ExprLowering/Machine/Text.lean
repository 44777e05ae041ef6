import ExprLowering.Machine.Grid

/-!
# The text of values
-/

namespace ExprLowering

def boundsText (bounds : List Nat) : String :=
  "[" ++ ", ".intercalate (bounds.map toString) ++ "]"

namespace Value
variable {α : Type}

/-- The text of a value, going at most `depth` arrays deep. -/
def textWithin (grids : Array (Grid α)) : Nat → Value α → String
  | _, null => "null"
  | _, lit l => l.text
  | 0, array _ => "[...]"
  | depth + 1, array a =>
    let g := grids.getD a default
    g.element.text ++ boundsText g.bounds ++ " [" ++
      ", ".intercalate (g.data.toList.map (textWithin grids depth)) ++ "]"
  | _, native f => "<fn " ++ f.name ++ ">"
  | _, closure _ code _ => "<fn " ++ code.signature.name ++ ">"
  | _, quoted _ code => "<quote " ++ code.signature.name ++ ">"

/-- The text of a value. An array that does not reach itself reaches no more arrays than there are. -/
def text (grids : Array (Grid α)) (v : Value α) : String :=
  v.textWithin grids (grids.size + 1)

end Value

end ExprLowering
