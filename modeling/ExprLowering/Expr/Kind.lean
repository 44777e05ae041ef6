import ExprLowering.Operator

/-!
# Node kinds

Every expression has a kind. The extended kinds are those that have no primitive counterpart and
disappear when an expression is lowered.
-/

namespace ExprLowering

inductive NodeKind where
  | const | var | index | binary | call | assign | block | lambda | quote
  | step (kind : StepKind)
  | arrayInit
  | invoke
deriving DecidableEq, Repr

namespace NodeKind

def all : List NodeKind :=
  [const, var, index, binary, call, assign, block, lambda, quote] ++
    StepKind.all.map step ++ [arrayInit, invoke]

def title : NodeKind → String
  | const => "Constant"
  | var => "Variable"
  | index => "Index"
  | binary => "Binary"
  | call => "Call"
  | assign => "Assign"
  | block => "Block"
  | lambda => "Lambda"
  | quote => "Quote"
  | step k => k.title ++ "Assign"
  | arrayInit => "NewMultidimensionalArrayInit"
  | invoke => "Invoke"

def isExtended : NodeKind → Bool
  | step _ | arrayInit | invoke => true
  | _ => false

/-- The kind with the given title. -/
def ofTitle? (s : String) : Option NodeKind :=
  all.find? (·.title == s)

def step? : NodeKind → Option StepKind
  | step k => some k
  | _ => none

end NodeKind

end ExprLowering
