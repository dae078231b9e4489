import StreamExpr.Compiler
import StreamExpr.Pass.Catalog
import StreamExpr.Proofs.CodeGeneration
import StreamExpr.Proofs.Folding
import StreamExpr.Proofs.Lowering
import StreamExpr.Proofs.Validation
import StreamExpr.Proofs.TypedGraph
import StreamExpr.Proofs.VectorMeaning
import StreamExpr.Proofs.InputSplitting
import StreamExpr.Proofs.OutputSplitting
import StreamExpr.Proofs.VectorElimination
import StreamExpr.Proofs.Decoding
import StreamExpr.Proofs.ClosedProgram
import StreamExpr.Proofs.Memoization
import StreamExpr.Proofs.Acyclicity
import StreamExpr.Proofs.Completion
import StreamExpr.Proofs.Recompilation
import StreamExpr.Proofs.TableEntries
import StreamExpr.Proofs.Reuse
import StreamExpr.Proofs.PeakLiveness
import StreamExpr.Proofs.TypeDeduction
import StreamExpr.Proofs.SharedTrees
import StreamExpr.Proofs.RepeatedDeduction
import StreamExpr.Proofs.ExactLiveness
import StreamExpr.Proofs.StagedGraph
import StreamExpr.Proofs.FoldedForm
import StreamExpr.Proofs.IntegerPower
import StreamExpr.Proofs.DivisionByZero
