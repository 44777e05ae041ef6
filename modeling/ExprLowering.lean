import ExprLowering.Doc.Prim
import ExprLowering.Lowering.Pipeline
import ExprLowering.Machine.Script
import ExprLowering.Traversal.Stock
import ExprLowering.Proofs.DepthLimit
import ExprLowering.Proofs.Effects
import ExprLowering.Proofs.Preservation
import ExprLowering.Proofs.Restoration
import ExprLowering.Proofs.Retyping
import ExprLowering.Proofs.Sharing
import ExprLowering.Proofs.TypeSoundness
import ExprLowering.Proofs.UncheckedRuns
import ExprLowering.Proofs.Documents
import ExprLowering.Proofs.Bindings
import ExprLowering.Proofs.BindingOrder
import ExprLowering.Proofs.Descriptors
import ExprLowering.Proofs.ArrayNodes
import ExprLowering.Proofs.ConstantArrays
import ExprLowering.Proofs.Increments
import ExprLowering.Proofs.History
import ExprLowering.Proofs.Updates
import ExprLowering.Proofs.Termination
import ExprLowering.Proofs.IntegerTrees
import ExprLowering.Proofs.TreeHeight
import ExprLowering.Proofs.TraversalOrder
import ExprLowering.Proofs.ArrayCycles
import ExprLowering.Proofs.LexicalScopes
import ExprLowering.Proofs.ArrayContents
