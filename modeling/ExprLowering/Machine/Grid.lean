import ExprLowering.Machine.Value
import ExprLowering.Shape

/-!
# Arrays

An array has an element type, bounds, and one value for each multi-index in row-major order.
-/

namespace ExprLowering

structure Grid (α : Type := Prim) where
  element : Ty
  bounds : List Nat
  data : Array (Value α)

namespace Grid
variable {α : Type}

instance : Inhabited (Grid α) := ⟨⟨.void, [], #[]⟩⟩

def size (bounds : List Nat) : Except Fault Nat :=
  match Shape.size? bounds with
  | some n => .ok n
  | none => .error .sizeOverflow

/-- An array filled with the default of its element type. -/
def new (element : Ty) (bounds : List Nat) : Except Fault (Grid α) := do
  let n ← size bounds
  return ⟨element, bounds, Array.replicate n (.defaultOf element)⟩

/-- An array of the given values. -/
def ofRowMajor (element : Ty) (bounds : List Nat) (values : List (Value α)) :
    Except Fault (Grid α) := do
  let n ← size bounds
  if values.length = n then return ⟨element, bounds, values.toArray⟩
  else throw (.elementCount n values.length)

def rank (g : Grid α) : Nat :=
  g.bounds.length

/-- The number of the element at a multi-index. -/
def offset (g : Grid α) (indices : List Int) : Except Fault Nat :=
  match Shape.offset g.bounds indices with
  | .ok i => .ok i
  | .error (.rank expected found) => .error (.type (.rank expected found))
  | .error (.range dimension index bound) => .error (.indexOutOfRange dimension index bound)

def getAt (g : Grid α) (i : Nat) : Value α :=
  g.data.getD i .null

def setAt (g : Grid α) (i : Nat) (v : Value α) : Grid α :=
  { g with data := g.data.setIfInBounds i v }

def get (g : Grid α) (indices : List Int) : Except Fault (Value α) := do
  let i ← g.offset indices
  return g.getAt i

def set (g : Grid α) (indices : List Int) (v : Value α) : Except Fault (Grid α) := do
  let i ← g.offset indices
  return g.setAt i v

end Grid

end ExprLowering
