/-!
# Operators

Arithmetic operators, the four forms of increment and decrement, and the eight kinds of increment
and decrement assignment, which add the choice between wrapping and checked arithmetic.
-/

namespace ExprLowering

inductive ArithOp where
  | add | sub | mul
deriving DecidableEq, Repr

namespace ArithOp

def all : List ArithOp :=
  [add, sub, mul]

def name : ArithOp → String
  | add => "add"
  | sub => "sub"
  | mul => "mul"

/-- The exact result. -/
def onInt : ArithOp → Int → Int → Int
  | add => (· + ·)
  | sub => (· - ·)
  | mul => (· * ·)

end ArithOp

/-- Increment or decrement, yielding the new value (`pre`) or the old one (`post`). -/
inductive IncDec where
  | preIncrement | preDecrement | postIncrement | postDecrement
deriving DecidableEq, Repr

namespace IncDec

def all : List IncDec :=
  [preIncrement, preDecrement, postIncrement, postDecrement]

def name : IncDec → String
  | preIncrement => "pre_increment"
  | preDecrement => "pre_decrement"
  | postIncrement => "post_increment"
  | postDecrement => "post_decrement"

/-- The name written as one word with capitals. -/
def title : IncDec → String
  | preIncrement => "PreIncrement"
  | preDecrement => "PreDecrement"
  | postIncrement => "PostIncrement"
  | postDecrement => "PostDecrement"

def yieldsNew : IncDec → Bool
  | preIncrement | preDecrement => true
  | postIncrement | postDecrement => false

def increments : IncDec → Bool
  | preIncrement | postIncrement => true
  | preDecrement | postDecrement => false

/-- The operator that takes the old value and one to the new value. -/
def arith : IncDec → ArithOp
  | preIncrement | postIncrement => .add
  | preDecrement | postDecrement => .sub

end IncDec

/-- The kind of an increment or decrement assignment. -/
structure StepKind where
  op : IncDec
  checked : Bool
deriving DecidableEq, Repr

namespace StepKind

def all : List StepKind :=
  IncDec.all.flatMap fun op => [⟨op, false⟩, ⟨op, true⟩]

def title (k : StepKind) : String :=
  k.op.title ++ if k.checked then "Checked" else ""

/-- The same form without the overflow check. -/
def unchecked (k : StepKind) : StepKind :=
  ⟨k.op, false⟩

end StepKind

end ExprLowering
