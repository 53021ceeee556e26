import LiveCompiler.Pass.FlowCleanup
import LiveCompiler.Pass.Folding
import LiveCompiler.Pass.OperandOrder
import LiveCompiler.Pass.Promotion
import LiveCompiler.Pass.Ownership
import LiveCompiler.Pass.ValueNumbering

/-!
# The standard pipeline

The passes in the order in which every session runs them.  Each prepares the next:
classified slots are promoted, promoted values are folded, folded operations are put in
order, ordered operations are merged, and the control flow is cleaned up last.
-/

namespace LiveCompiler

open Ir

/-- The passes of the standard pipeline, in order. -/
def standardPasses : List Pass :=
  [slotOwnership, promotion, folding, operandOrder, valueNumbering, flowCleanup]

/-- Run the standard pipeline. -/
def optimize (body : Body) : Body × Bool :=
  runPasses standardPasses body

/-- The pass with a given name. -/
def Pass.named? (name : String) : Option Pass :=
  standardPasses.find? fun pass => pass.name == name

end LiveCompiler
