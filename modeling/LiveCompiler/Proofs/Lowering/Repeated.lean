import LiveCompiler.Proofs.Lowering.Shape
import LiveCompiler.Proofs.Pass.Repeated

/-!
# A second run of the pipeline on lowered bodies

On the optimized body of a procedure a second run may find something that the first one has brought
about.  It does so only where the first run has merged values or cleaned up the control flow, and
neither of the two alone would keep the body as it is (`exists_changed_again`).
-/

namespace LiveCompiler

open Ir

namespace Lowering

variable {procedure : Procedure} {name : String} {this : FuncId} {kind : FunctionKind}
  {symbols : Symbols} {body : Body}

/-- A second run has nothing to classify and nothing to promote, and its report tells whether the
listing changes.  It changes nothing if the last two passes have changed nothing in the first run.
In any case the body comes to rest when the pipeline is run again and again. -/
theorem optimize_again (h : lowerProcedure procedure name this kind symbols = .ok body) :
    let once := (optimize body).1
    runPasses (standardPasses.take 2) once = (once, false) ∧
      ((optimize once).1.listing = once.listing ↔ (optimize once).2 = false) ∧
      ((runPasses (standardPasses.drop 4) (ordered body)).2 = false →
        optimize once = (once, false)) ∧
      ∀ count, once.size < count →
        optimize (optimizeTimes count once) = (optimizeTimes count once, false) := by
  intro once
  have hWf := lowerProcedure_wellFormed h
  have hTable := lowerProcedure_inTable h
  have hOnce := finished_optimize hWf hTable
  obtain ⟨hOwners, hPromotion⟩ := hOnce.silent_first
  refine ⟨?_, hOnce.listing_eq_iff_silent, ?_, fun count => hOnce.comes_to_rest count⟩
  · apply runPasses_eq
    simp only [standardPasses, List.take_succ_cons, List.take_zero, List.forall_mem_cons]
    exact ⟨hOwners, hPromotion, fun _ hMem => absurd hMem List.not_mem_nil⟩
  · intro hQuiet
    obtain ⟨hSame, hAgain⟩ := silent_after_quiet hWf hTable (lowerProcedure_connected h) hQuiet
    rw [← hSame] at hAgain
    exact hAgain

/-- A branch with operations on constants in one arm. -/
def smallerFirst : Procedure where
  signature := { name := "f", params := ["a", "b"] }
  body := .ifThenElse (.binary '<' (.variable "a") (.variable "b"))
    (.binary '-' (.binary '*' (.variable "a") (.number 1.0)) (.number 0.0))
    (.binary '+' (.variable "b") (.variable "a"))

/-- Lowering succeeds with a body that passes a check. -/
theorem exists_lowered (procedure : Procedure) (check : Body → Bool)
    (h : (lowerProcedure procedure "f" 0 .definition Symbols.empty).toOption.any check = true) :
    ∃ body, lowerProcedure procedure "f" 0 .definition Symbols.empty = .ok body ∧
      check body = true := by
  cases hBody : lowerProcedure procedure "f" 0 .definition Symbols.empty with
  | error e =>
    rw [hBody] at h
    cases h
  | ok body =>
    rw [hBody] at h
    exact ⟨body, rfl, h⟩

theorem optimize_again_smallerFirst : ∃ body,
    lowerProcedure smallerFirst "f" 0 .definition Symbols.empty = .ok body ∧
      (runPasses (standardPasses.drop 4) (ordered body)).2 = false ∧
      optimize (optimize body).1 = ((optimize body).1, false) := by
  obtain ⟨body, hBody, hCheck⟩ := exists_lowered smallerFirst
    (fun body => !(runPasses (standardPasses.drop 4) (ordered body)).2) (by decide +kernel)
  have hQuiet : (runPasses (standardPasses.drop 4) (ordered body)).2 = false := by
    simpa using hCheck
  obtain ⟨-, -, hAgain, -⟩ := optimize_again hBody
  exact ⟨body, hBody, hQuiet, hAgain hQuiet⟩

/-- A branch on a constant, and a sum behind it.  Joining its blocks brings two constants
together. -/
def constantBranch : Procedure where
  signature := { name := "f", params := [] }
  body := .binary '+' (.ifThenElse (.number 1.0) (.number 2.0) (.number 3.0)) (.number 4.0)

/-- A product on both sides of a branch.  The value that stands for both has the rank of the first
one. -/
def repeatedProduct : Procedure where
  signature := { name := "f", params := ["x", "y"] }
  body := .binary '+' (.binary '*' (.variable "x") (.variable "y"))
    (.binary '+' (.ifThenElse (.variable "x") (.variable "y") (.number 1.0))
      (.binary '*' (.variable "x") (.variable "y")))

/-- If other registers are read, the listing is another one. -/
theorem listing_ne_of_uses {once : Body} (h : (optimize once).1.uses ≠ once.uses) :
    (optimize once).1.listing ≠ once.listing := by
  intro hListing
  obtain ⟨-, -, hBlocks⟩ := (listing_eq_iff_of_name (name_optimize once)).mp hListing
  apply h
  unfold Body.uses
  rw [hBlocks]

/-- A second run may change the listing, even if value numbering has changed nothing in the first
run, and even if the cleanup of the control flow has changed nothing. -/
theorem exists_changed_again :
    (∃ body, lowerProcedure constantBranch "f" 0 .definition Symbols.empty = .ok body ∧
      (ValueNumbering.run (ordered body)).2 = false ∧
      (optimize (optimize body).1).1.listing ≠ (optimize body).1.listing) ∧
    ∃ body, lowerProcedure repeatedProduct "f" 0 .definition Symbols.empty = .ok body ∧
      (FlowCleanup.run (ValueNumbering.run (ordered body)).1).2 = false ∧
      (optimize (optimize body).1).1.listing ≠ (optimize body).1.listing := by
  constructor
  · obtain ⟨body, hBody, hCheck⟩ := exists_lowered constantBranch
      (fun body => !(ValueNumbering.run (ordered body)).2 &&
        (optimize (optimize body).1).1.uses != (optimize body).1.uses) (by decide +kernel)
    obtain ⟨hSilent, hUses⟩ := Bool.and_eq_true_iff.mp hCheck
    exact ⟨body, hBody, by simpa using hSilent, listing_ne_of_uses (bne_iff_ne.mp hUses)⟩
  · obtain ⟨body, hBody, hCheck⟩ := exists_lowered repeatedProduct
      (fun body => !(FlowCleanup.run (ValueNumbering.run (ordered body)).1).2 &&
        (optimize (optimize body).1).1.uses != (optimize body).1.uses) (by decide +kernel)
    obtain ⟨hSilent, hUses⟩ := Bool.and_eq_true_iff.mp hCheck
    exact ⟨body, hBody, by simpa using hSilent, listing_ne_of_uses (bne_iff_ne.mp hUses)⟩

end Lowering

end LiveCompiler
