import LiveCompiler.Expr.Listing
import LiveCompiler.Main
import LiveCompiler.Proofs.Graph.Path
import LiveCompiler.Proofs.Graph.Search
import LiveCompiler.Proofs.Graph.Ascent
import LiveCompiler.Proofs.Repeats
import LiveCompiler.Proofs.Graph.Iteration
import LiveCompiler.Proofs.Graph.Dominance
import LiveCompiler.Proofs.Ir.Run
import LiveCompiler.Proofs.Ir.Ssa
import LiveCompiler.Proofs.Ir.Rewriting
import LiveCompiler.Proofs.Ir.Blocks
import LiveCompiler.Proofs.Ir.Retarget
import LiveCompiler.Proofs.Pass.Substitution
import LiveCompiler.Proofs.Binary64.Identities
import LiveCompiler.Proofs.Pass.ValueNumbering
import LiveCompiler.Proofs.Pass.Folding
import LiveCompiler.Proofs.Pass.FlowCleanup.Branches
import LiveCompiler.Proofs.Pass.Forwarding
import LiveCompiler.Proofs.Pass.OperandOrder
import LiveCompiler.Proofs.Pass.FlowCleanup.Joining
import LiveCompiler.Proofs.Pass.FlowCleanup
import LiveCompiler.Proofs.Pass.FlowCleanup.Termination
import LiveCompiler.Proofs.Pass.Promotion.Placement
import LiveCompiler.Proofs.Pass.Promotion.Feeding
import LiveCompiler.Proofs.Pass.Promotion.Holding
import LiveCompiler.Proofs.Pass.Promotion.Tracking
import LiveCompiler.Proofs.Pass.Promotion
import LiveCompiler.Proofs.Pass.Ownership
import LiveCompiler.Proofs.Pass.Pipeline
import LiveCompiler.Proofs.Ir.Certified
import LiveCompiler.Proofs.Lowering.Stage
import LiveCompiler.Proofs.Lowering.Inversion
import LiveCompiler.Proofs.Lowering.Progress
import LiveCompiler.Proofs.Lowering.Shape
import LiveCompiler.Proofs.Lowering.Optimized
import LiveCompiler.Proofs.Lowering.Intact
import LiveCompiler.Proofs.Lowering.Meaning
import LiveCompiler.Proofs.Lowering.Running
import LiveCompiler.Proofs.Lowering.Simulation
import LiveCompiler.Proofs.Lowering.Correctness
import LiveCompiler.Proofs.Lowering.Substituted
import LiveCompiler.Proofs.Grammar.Height
import LiveCompiler.Proofs.Grammar.Tower
import LiveCompiler.Proofs.Grammar.Sight
import LiveCompiler.Proofs.Program.Image
import LiveCompiler.Proofs.Program.Coherent
import LiveCompiler.Proofs.Program.Search
import LiveCompiler.Proofs.Program.Generation
import LiveCompiler.Proofs.Program.Compile
import LiveCompiler.Proofs.Program.Ready
import LiveCompiler.Proofs.Program.Mirror
import LiveCompiler.Proofs.Program.Lasting
import LiveCompiler.Proofs.Session.Lasting
import LiveCompiler.Proofs.Program.Safety
import LiveCompiler.Proofs.Session.Bodies
import LiveCompiler.Proofs.Session.SymbolNames
import LiveCompiler.Proofs.Session.Units
import LiveCompiler.Proofs.Session.Sound
import LiveCompiler.Proofs.Lowering.Retarget
import LiveCompiler.Proofs.Pass.Retarget
import LiveCompiler.Proofs.Program.Embedding
import LiveCompiler.Proofs.Program.EmbeddedRuns
import LiveCompiler.Proofs.Program.EmbeddedGrowth
import LiveCompiler.Proofs.Session.Embedding
import LiveCompiler.Proofs.Session.Deletion
import LiveCompiler.Proofs.Ir.Log
import LiveCompiler.Proofs.Program.Evaluation
import LiveCompiler.Proofs.Program.Improvement
import LiveCompiler.Proofs.Program.Enclosed
import LiveCompiler.Proofs.Session.Improvement
import LiveCompiler.Proofs.Session.Readings
import LiveCompiler.Proofs.Session.OptimizedRuns
import LiveCompiler.Proofs.Session.Inlining
import LiveCompiler.Proofs.Session.Bindings
import LiveCompiler.Proofs.Session.Separators
import LiveCompiler.Proofs.Session.Accounting
import LiveCompiler.Proofs.Token.Reads
import LiveCompiler.Proofs.Session.Promptness
import LiveCompiler.Proofs.Token.Spelling
import LiveCompiler.Proofs.Binary64.Literals
import LiveCompiler.Proofs.Grammar.Printing
import LiveCompiler.Proofs.Grammar.Grouping
import LiveCompiler.Proofs.Grammar.Reading
import LiveCompiler.Proofs.Ir.Checking
import LiveCompiler.Proofs.Pass.Promotion.Renumbering
import LiveCompiler.Proofs.Pass.Returning
import LiveCompiler.Proofs.Ir.Dominators
import LiveCompiler.Proofs.Pass.Promotion.Frontiers
import LiveCompiler.Proofs.Pass.FlowCleanup.Still
import LiveCompiler.Proofs.Pass.FlowCleanup.Tidy
import LiveCompiler.Proofs.Grammar.SyntaxTree
import LiveCompiler.Proofs.Grammar.Levels
import LiveCompiler.Proofs.Pass.Folding.Sweep
import LiveCompiler.Proofs.Pass.ValueNumbering.Distinct
import LiveCompiler.Proofs.Lowering.Acceptance
import LiveCompiler.Proofs.Lowering.Parameters
import LiveCompiler.Proofs.Token.Tokenization
import LiveCompiler.Proofs.Binary64.Rounding
import LiveCompiler.Proofs.Binary64.ConstantText
import LiveCompiler.Proofs.Ir.Listing
import LiveCompiler.Proofs.Pass.Reports
import LiveCompiler.Proofs.Pass.Size
import LiveCompiler.Proofs.Pass.Repeated
import LiveCompiler.Proofs.Lowering.Repeated
import LiveCompiler.Proofs.Pass.Substitution.Classes
import LiveCompiler.Proofs.Graph.Finishing
import LiveCompiler.Proofs.Ir.Order
import LiveCompiler.Proofs.Pass.Forwarding.Settled
