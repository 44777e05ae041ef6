import ExprLowering.Machine.Grid

/-!
# The store

What evaluation changes: the cells of variables, the arrays, the number of closures made so far, and
the state of the host. Cells and arrays are never freed, so their numbers stay valid.
-/

namespace ExprLowering

structure Store (σ : Type) (α : Type := Prim) where
  cells : Array (Value α) := #[]
  grids : Array (Grid α) := #[]
  closures : Nat := 0
  host : σ

/-- A computation on the store that may fail; what it did before a failure stays done. -/
abbrev Run (σ α : Type) := ExceptT Fault (StateM (Store σ α))

/-- A computation on the store of the machine. -/
abbrev Eval (σ : Type) := Run σ Prim

/-- A location that has been found. -/
inductive Location where
  | cell (c : CellId)
  | element (a : GridId) (i : Nat)

namespace Eval
variable {σ α : Type}

def newCell (v : Value α) : Run σ α CellId :=
  ExceptT.mk fun s => (.ok s.cells.size, { s with cells := s.cells.push v })

def newGrid (g : Grid α) : Run σ α (Value α) :=
  ExceptT.mk fun s => (.ok (.array s.grids.size), { s with grids := s.grids.push g })

def newClosure (code : Lambda α) (captured : Scope) : Run σ α (Value α) :=
  ExceptT.mk fun s => (.ok (.closure s.closures code captured), { s with closures := s.closures + 1 })

def grid (a : GridId) : Run σ α (Grid α) :=
  ExceptT.mk fun s => (.ok (s.grids.getD a default), s)

def load : Location → Run σ α (Value α)
  | .cell c => ExceptT.mk fun s => (.ok (s.cells.getD c .null), s)
  | .element a i => ExceptT.mk fun s => (.ok ((s.grids.getD a default).getAt i), s)

def store (v : Value α) : Location → Run σ α Unit
  | .cell c => ExceptT.mk fun s => (.ok (), { s with cells := s.cells.setIfInBounds c v })
  | .element a i => ExceptT.mk fun s => (.ok (), { s with grids := s.grids.modify a (·.setAt i v) })

/-- Adds a cell for each variable to the scope; of two for one variable the later counts. -/
def extend (scope : Scope) : List (VarId × Value α) → Run σ α Scope
  | [] => pure scope
  | (id, v) :: rest => do
    let c ← newCell v
    extend ((id, c) :: scope) rest

end Eval

end ExprLowering
