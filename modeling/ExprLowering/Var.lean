import ExprLowering.Ty

/-!
# Variables and identities

A variable is known by its id. Fresh ids are drawn from a `Supply`, which also hands out stamps, the
identities of the objects that are compared by identity rather than by content.
-/

namespace ExprLowering

structure VarId where
  val : Nat
deriving DecidableEq, Repr

structure Var where
  id : VarId
  name : String
  ty : Ty

namespace Var

/-- Variables are equal when their ids are. -/
instance : BEq Var := ⟨fun v w => v.id == w.id⟩

def text (v : Var) : String :=
  v.name ++ "#" ++ toString v.id.val

end Var

/-- The identity of an object. -/
abbrev Stamp := Nat

/-- What has not been handed out yet: every id and stamp from these numbers on. -/
structure Supply where
  var : Nat := 1
  stamp : Stamp := 0

namespace Supply

/-- A new variable. -/
def fresh (name : String) (ty : Ty) (s : Supply) : Var × Supply :=
  (⟨⟨s.var⟩, name, ty⟩, { s with var := s.var + 1 })

/-- A new stamp. -/
def freshStamp (s : Supply) : Stamp × Supply :=
  (s.stamp, { s with stamp := s.stamp + 1 })

end Supply

end ExprLowering
