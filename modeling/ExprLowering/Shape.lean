/-!
# Row-major shapes

The bounds of an array, outermost dimension first, place the element at a multi-index in a flat
list: `offset` numbers the multi-indices in lexicographic order and `unflatten` goes back.
-/

namespace ExprLowering

/-- Why a multi-index designates no element. -/
inductive IndexError where
  | rank (expected found : Nat)
  | range (dimension : Nat) (index : Int) (bound : Nat)
deriving DecidableEq, Repr

namespace Shape

/-- The greatest number of elements that an array can have. -/
def maxSize : Nat :=
  0xffffffffffffffff

/-- The number of elements, unless the product of the first few bounds is already too great. -/
def size? (bounds : List Nat) : Option Nat :=
  bounds.foldlM (fun n b => if n * b ≤ maxSize then some (n * b) else none) 1

/-- The offset of `indices` in `bounds`, counted on from `acc` in dimension `dimension`. -/
def offsetFrom (dimension acc : Nat) : List Nat → List Int → Except IndexError Nat
  | b :: bounds, i :: indices =>
    if 0 ≤ i ∧ i < b then offsetFrom (dimension + 1) (acc * b + i.toNat) bounds indices
    else .error (.range dimension i b)
  | _, _ => .ok acc

/-- The row-major offset of a multi-index. -/
def offset (bounds : List Nat) (indices : List Int) : Except IndexError Nat :=
  if indices.length = bounds.length then offsetFrom 0 0 bounds indices
  else .error (.rank bounds.length indices.length)

/-- The multi-index of the element at a row-major offset. -/
def unflatten (bounds : List Nat) (linear : Nat) : List Nat :=
  (bounds.foldr (fun b (p : List Nat × Nat) => (p.2 % b :: p.1, p.2 / b)) ([], linear)).1

end Shape

end ExprLowering
