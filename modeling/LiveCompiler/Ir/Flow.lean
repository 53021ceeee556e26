import LiveCompiler.Graph.Dominance
import LiveCompiler.Ir.Basic

/-!
# The control flow of a body

The blocks of a body are the nodes of a graph, its edges run to the successors of each
block, and the entry is its root.
-/

namespace LiveCompiler

namespace Ir

/-- The control-flow graph of a body. -/
def Body.graph (body : Body) : Digraph where
  succs := (body.blocks.map fun b => b.terminator.successors).toArray

/-- The blocks that the entry leads to, in reverse postorder. -/
def Body.order (body : Body) : List Label :=
  body.graph.order body.entry

/-- The dominance relation of the blocks. -/
def Body.dominance (body : Body) : Dominance :=
  Dominance.ofGraph body.graph body.entry

end Ir

end LiveCompiler
