import ExprLowering.Toml.Reader

/-!
# Lowering options

The options and how they are read from a TOML document.
-/

namespace ExprLowering

structure LowerOptions where
  /-- The deepest nesting of expressions that is lowered. -/
  maxDepth : Nat := 512
  /-- Whether an array of constants becomes one constant array rather than a block of stores. -/
  foldConstantArrays : Bool := false
deriving DecidableEq, Repr

namespace LowerOptions

/-- The options of a table. A missing key keeps the default, one of the wrong type is an error, and
other keys do not matter. -/
def ofTable? (t : Toml.Table) : Option LowerOptions := do
  let default : LowerOptions := {}
  let maxDepth ← match t.get? "max_depth" with
    | none => some default.maxDepth
    | some (.value (.int (.ofNat n))) => some n
    | some _ => none
  let foldConstantArrays ← match t.get? "fold_constant_arrays" with
    | none => some default.foldConstantArrays
    | some (.value (.bool b)) => some b
    | some _ => none
  return { maxDepth, foldConstantArrays }

def ofToml? (text : String) : Option LowerOptions :=
  (Toml.read? text).bind ofTable?

end LowerOptions

end ExprLowering
