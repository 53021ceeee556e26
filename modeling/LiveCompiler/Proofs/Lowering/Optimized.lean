import LiveCompiler.Proofs.Lowering.Shape
import LiveCompiler.Proofs.Pass.Pipeline

/-!
# The standard pipeline on lowered bodies

Lowering gives well-formed bodies whose instructions touch slots of the table only.  This is all
that the standard pipeline asks for.
-/

namespace LiveCompiler

open Ir

namespace Lowering

/-- The optimized body of a lowered procedure has no slots, neither loads nor stores, and returns
the same value after the same calls, whatever the calls give. -/
theorem optimize_lowered {procedure : Procedure} {name : String} {this : FuncId}
    {kind : FunctionKind} {symbols : Symbols} {body : Body}
    (h : lowerProcedure procedure name this kind symbols = .ok body) :
    (optimize body).1.slots = [] ∧
      (∀ i ∈ (optimize body).1.instrs,
        (∀ dst slot, i ≠ .load dst slot) ∧ ∀ slot src, i ≠ .store slot src) ∧
      ∀ (answers : Answers) (args : List Float) (x : Float) (calls : List Call),
        (optimize body).1.Returns answers args x calls ↔ body.Returns answers args x calls := by
  have hWf := lowerProcedure_wellFormed h
  have hTable := lowerProcedure_inTable h
  obtain ⟨-, hNone, -⟩ := optimize_improves hWf hTable
  refine ⟨hNone, fun i hi => ?_, optimize_returns_iff hWf hTable⟩
  have hUntouched := optimize_slotless hWf hTable i hi
  constructor
  · rintro dst slot rfl
    cases hUntouched
  · rintro slot src rfl
    cases hUntouched

theorem optimize_nestedLoops : ∃ body,
    lowerProcedure nestedLoops "f" 0 .definition Symbols.empty = .ok body ∧
      (optimize body).1.slots = [] ∧
      (∀ i ∈ (optimize body).1.instrs,
        (∀ dst slot, i ≠ .load dst slot) ∧ ∀ slot src, i ≠ .store slot src) ∧
      ∀ (answers : Answers) (args : List Float) (x : Float) (calls : List Call),
        (optimize body).1.Returns answers args x calls ↔ body.Returns answers args x calls := by
  obtain ⟨body, hBody⟩ := exists_lowered_nestedLoops
  exact ⟨body, hBody, optimize_lowered hBody⟩

end Lowering

end LiveCompiler
