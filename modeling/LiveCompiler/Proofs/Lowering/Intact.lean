import LiveCompiler.Proofs.Lowering.Shape
import LiveCompiler.Proofs.Pass.Pipeline

/-!
# Lowered bodies stay intact under every pass

Well-formedness asks nothing of a block that the entry does not lead to.  An intact body has no
faults there either.  Lowering opens no block without an edge to it, and the passes before the
last one take out no edges, so up to there all blocks are led to; the last one drops those that
are not.  So the body is intact before the first pass and after each one.
-/

namespace LiveCompiler

open Ir

namespace Ir

/-- What code generation relies on.  The label of a block is its position, and what is asked of
blocks is asked of all of them. -/
structure Body.Intact (callable : FuncId → Nat → Prop) (body : Body) : Prop where
  entry_lt : body.entry < body.blocks.length
  entry_params : (body.block body.entry).params = []
  entry_first : ∀ label, label < body.blocks.length →
    body.entry ∉ (body.block label).terminator.successors
  ends : ∀ label, label < body.blocks.length → (body.block label).terminator ≠ .unreachable
  edge_fits : ∀ label, label < body.blocks.length → ∀ e ∈ (body.block label).terminator.edges,
    e.target < body.blocks.length ∧ e.args.length = (body.block e.target).params.length
  defs_nodup : ∀ label, (body.block label).defs.Nodup
  defs_unique : ∀ label other r, r ∈ (body.block label).defs → r ∈ (body.block other).defs →
    label = other
  defs_lt : ∀ label, ∀ r ∈ (body.block label).defs, r < body.regCount
  uses_lt : ∀ label, label < body.blocks.length → ∀ r ∈ (body.block label).uses, r < body.regCount
  uses_known : ∀ label, label < body.blocks.length → ∀ done i rest,
    (body.block label).instrs = done ++ i :: rest → ∀ r ∈ i.uses, body.Known label done r
  exit_known : ∀ label, label < body.blocks.length → ∀ r ∈ (body.block label).terminator.uses,
    body.Known label (body.block label).instrs r
  legal : ∀ label, label < body.blocks.length → ∀ i ∈ (body.block label).instrs,
    i.Legal callable body.arity body.slots.length

theorem Body.WellFormed.intact {callable : FuncId → Nat → Prop} {body : Body}
    (hWf : body.WellFormed callable) (hConnected : body.Connected) : body.Intact callable where
  entry_lt := hWf.entry_lt
  entry_params := hWf.entry_params
  entry_first label hLt := hWf.entry_first label (hConnected label hLt)
  ends label hLt := hWf.ends label (hConnected label hLt)
  edge_fits label hLt := hWf.edge_fits label (hConnected label hLt)
  defs_nodup := hWf.defs_nodup
  defs_unique := hWf.defs_unique
  defs_lt := hWf.defs_lt
  uses_lt label hLt := hWf.regsBounded.uses label (hConnected label hLt)
  uses_known label hLt := hWf.uses_known label (hConnected label hLt)
  exit_known label hLt := hWf.exit_known label (hConnected label hLt)
  legal label hLt := hWf.legal label (hConnected label hLt)

end Ir

namespace Lowering

/-- A lowered body is intact, and so is what any number of passes of the standard pipeline make of
it.  Its calls pass as many values as the names of the procedure ask for, and its arity stays that
of the procedure. -/
theorem intact_runPasses {procedure : Procedure} {name : String} {this : FuncId}
    {kind : FunctionKind} {symbols : Symbols} {body : Body}
    (h : lowerProcedure procedure name this kind symbols = .ok body) (count : Nat) :
    (runPasses (standardPasses.take count) body).1.Intact
        (namesFor procedure this kind symbols).Callable ∧
      (runPasses (standardPasses.take count) body).1.arity = procedure.signature.arity := by
  obtain ⟨-, hArity, -⟩ := lowerProcedure_certified h
  obtain ⟨hImproves, hConnected⟩ := take_improves (lowerProcedure_wellFormed h)
    (lowerProcedure_inTable h) (lowerProcedure_connected h) count
  exact ⟨hImproves.wellFormed.intact hConnected, hImproves.arity.trans hArity⟩

theorem intact_nestedLoops : ∃ body,
    lowerProcedure nestedLoops "f" 0 .definition Symbols.empty = .ok body ∧
      ∀ count,
        (runPasses (standardPasses.take count) body).1.Intact
            (namesFor nestedLoops 0 .definition Symbols.empty).Callable ∧
          (runPasses (standardPasses.take count) body).1.arity = nestedLoops.signature.arity := by
  obtain ⟨body, hBody⟩ := exists_lowered_nestedLoops
  exact ⟨body, hBody, fun count => intact_runPasses hBody count⟩

end Lowering

end LiveCompiler
