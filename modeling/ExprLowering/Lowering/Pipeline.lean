import ExprLowering.Lowering
import ExprLowering.Traversal

/-!
# Changing or configuring, then lowering
-/

namespace ExprLowering

/-- What can go wrong before and while lowering. -/
inductive PipelineError where
  | build (e : BuildError)
  | lower (e : LowerError)
  | config

def PipelineError.message : PipelineError → String
  | build e => s!"invalid node: {e.message}"
  | lower e => s!"lowering failed: {e.message}"
  | config => "invalid options"

/-- Lowers what a traversal makes of an expression. -/
def lowerTraversed {σ : Type} (t : Traversal σ) (notes : σ) (o : LowerOptions) (e : Expr)
    (supply : Supply) : Except PipelineError Prim × Supply :=
  match t.run notes e supply.stamp with
  | (.error err, s) => (.error (.build err), { supply with stamp := s.stamp })
  | (.ok new, s) =>
    match (new.lower o).run { supply with stamp := s.stamp } with
    | (.ok p, supply) => (.ok p, supply)
    | (.error err, supply) => (.error (.lower err), supply)

/-- Lowers an expression with options from a TOML document. -/
def lowerConfigured (toml : String) (e : Expr) (supply : Supply) :
    Except PipelineError Prim × Supply :=
  match LowerOptions.ofToml? toml with
  | none => (.error .config, supply)
  | some o =>
    match (e.lower o).run supply with
    | (.ok p, supply) => (.ok p, supply)
    | (.error err, supply) => (.error (.lower err), supply)

end ExprLowering
