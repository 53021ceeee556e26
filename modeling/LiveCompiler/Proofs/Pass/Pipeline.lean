import LiveCompiler.Pass.Pipeline
import LiveCompiler.Proofs.Pass.FlowCleanup
import LiveCompiler.Proofs.Pass.Folding
import LiveCompiler.Proofs.Pass.OperandOrder
import LiveCompiler.Proofs.Pass.Ownership
import LiveCompiler.Proofs.Pass.Promotion
import LiveCompiler.Proofs.Pass.ValueNumbering

/-!
# The standard pipeline keeps what a body yields

Every pass keeps what a body yields.  Slots are classified as exclusive, so promotion leaves none.
-/

namespace LiveCompiler

open Ir

theorem runPasses_cons (pass : Pass) (passes : List Pass) (body : Body) :
    runPasses (pass :: passes) body = ((runPasses passes (pass.run body).1).1,
      (pass.run body).2 || (runPasses passes (pass.run body).1).2) := by
  -- The fold hands the flag on, so the induction needs it for any flag.
  have hFlag : ∀ (passes : List Pass) (body : Body) (flag : Bool),
      passes.foldl (fun state pass => ((pass.run state.1).1, state.2 || (pass.run state.1).2))
        (body, flag) = ((runPasses passes body).1, flag || (runPasses passes body).2) := by
    intro passes
    induction passes with
    | nil => exact fun body flag => congrArg (body, ·) (Bool.or_false flag).symm
    | cons pass passes ih =>
      intro body flag
      have hRun : runPasses (pass :: passes) body = passes.foldl
          (fun state pass => ((pass.run state.1).1, state.2 || (pass.run state.1).2))
          ((pass.run body).1, false || (pass.run body).2) := rfl
      rw [List.foldl_cons, ih, hRun, ih, Bool.false_or, Bool.or_assoc]
  exact hFlag passes (pass.run body).1 (pass.run body).2

theorem fst_runPasses_cons (pass : Pass) (passes : List Pass) (body : Body) :
    (runPasses (pass :: passes) body).1 = (runPasses passes (pass.run body).1).1 := by
  rw [runPasses_cons]

theorem runPasses_nil (body : Body) : runPasses [] body = (body, false) := rfl

theorem fst_runPasses_nil (body : Body) : (runPasses [] body).1 = body := rfl

/-- The passes one after another. -/
theorem fst_optimize (body : Body) :
    (optimize body).1 = (FlowCleanup.run (ValueNumbering.run (OperandOrder.run
      (Folding.run (Promotion.run (SlotOwnership.run body).1).1).1).1).1).1 := by
  unfold optimize standardPasses slotOwnership promotion folding operandOrder valueNumbering
    flowCleanup
  simp only [fst_runPasses_cons, fst_runPasses_nil]

variable {callable : FuncId → Nat → Prop} {body : Body}

/-- All slots are classified as exclusive, and so all are promoted. -/
theorem promoted_keeps (hWf : body.WellFormed callable) (hTable : SlotOwnership.InTable body) :
    body.Keeps .blank (Promotion.run (SlotOwnership.run body).1).1 ∧
      (Promotion.run (SlotOwnership.run body).1).1.slots = [] := by
  obtain ⟨hOwned, hOwn⟩ : body.Keeps .blank (SlotOwnership.run body).1 ∧ _ :=
    SlotOwnership.keeps hWf.toShaped hTable
  have hRooted := hOwned.rooted hWf.toRooted
  exact ⟨hOwned.trans (Promotion.keeps hRooted), Promotion.slots_run hRooted hOwn⟩

/-- The standard pipeline gives a well-formed body that yields the same, has no slots and reaches
all its blocks. -/
theorem optimize_improves (hWf : body.WellFormed callable) (hTable : SlotOwnership.InTable body) :
    body.Improves callable (optimize body).1 ∧ (optimize body).1.slots = [] ∧
      ∀ label, label < (optimize body).1.blocks.length → (optimize body).1.Reached label := by
  obtain ⟨hPromoted, hNone⟩ := promoted_keeps hWf hTable
  obtain ⟨hFolded, hFoldedSlots⟩ := Folding.keeps hPromoted.shaped
  obtain ⟨hOrdered, hOrderedSlots⟩ := OperandOrder.keeps hFolded.shaped
  obtain ⟨hNumbered, hNumberedSlots⟩ := ValueNumbering.keeps hOrdered.shaped
  obtain ⟨hCleaned, hCleanedSlots, hAll⟩ := FlowCleanup.keeps hNumbered.shaped
  rw [fst_optimize]
  refine ⟨?_, ?_, hAll⟩
  · exact ((((hPromoted.trans hFolded).trans hOrdered).trans hNumbered).trans
      hCleaned).improves hWf
  · exact (hCleanedSlots.trans hNumberedSlots).trans (hOrderedSlots.trans (hFoldedSlots.trans hNone))

/-- After every pass of the standard pipeline the body is well-formed and yields the same, and the
entry leads to all its blocks if it did so before. -/
theorem take_improves (hWf : body.WellFormed callable) (hTable : SlotOwnership.InTable body)
    (hConnected : body.Connected) (count : Nat) :
    body.Improves callable (runPasses (standardPasses.take count) body).1 ∧
      (runPasses (standardPasses.take count) body).1.Connected := by
  obtain ⟨hOwned, -⟩ : body.Keeps .blank (SlotOwnership.run body).1 ∧ _ :=
    SlotOwnership.keeps hWf.toShaped hTable
  have hOwnedAll := SlotOwnership.connected hConnected
  have hRooted := hOwned.rooted hWf.toRooted
  have hPromoted := hOwned.trans (Promotion.keeps hRooted)
  have hPromotedAll := Promotion.connected hRooted hOwnedAll
  have hFolded := hPromoted.trans (Folding.keeps hPromoted.shaped).1
  have hFoldedAll := Folding.connected hPromoted.shaped hPromotedAll
  have hOrdered := hFolded.trans (OperandOrder.keeps hFolded.shaped).1
  have hOrderedAll := OperandOrder.connected hFolded.shaped hFoldedAll
  have hNumbered := hOrdered.trans (ValueNumbering.keeps hOrdered.shaped).1
  have hNumberedAll := ValueNumbering.connected hOrdered.shaped hOrderedAll
  obtain ⟨hCleaned, -, hCleanedAll⟩ := FlowCleanup.keeps hNumbered.shaped
  unfold standardPasses slotOwnership promotion folding operandOrder valueNumbering flowCleanup
  rcases count with _ | _ | _ | _ | _ | _ | count <;>
    simp only [List.take_zero, List.take_succ_cons, List.take_nil, fst_runPasses_cons,
      fst_runPasses_nil]
  · exact ⟨.refl hWf, hConnected⟩
  · exact ⟨hOwned.improves hWf, hOwnedAll⟩
  · exact ⟨hPromoted.improves hWf, hPromotedAll⟩
  · exact ⟨hFolded.improves hWf, hFoldedAll⟩
  · exact ⟨hOrdered.improves hWf, hOrderedAll⟩
  · exact ⟨hNumbered.improves hWf, hNumberedAll⟩
  · exact ⟨(hNumbered.trans hCleaned).improves hWf, hCleanedAll⟩

/-- A well-formed body without slots neither loads nor stores, if the entry leads to all its
blocks. -/
theorem Ir.Body.WellFormed.untouched (hWf : body.WellFormed callable) (hNone : body.slots = [])
    (hConnected : body.Connected) : ∀ i ∈ body.instrs, SlotOwnership.touched i = none := by
  intro i hi
  obtain ⟨b, hb, hIn⟩ := List.mem_flatMap.mp hi
  obtain ⟨label, hLt, rfl⟩ := List.mem_iff_getElem.mp hb
  rw [← Body.block_of_lt hLt] at hIn
  obtain ⟨hLoad, hStore⟩ := hWf.slotless hNone (hConnected label hLt) hIn
  cases i with
  | load dst slot => exact absurd rfl (hLoad dst slot)
  | store slot src => exact absurd rfl (hStore slot src)
  | _ => rfl

/-- The optimized body neither loads nor stores. -/
theorem optimize_slotless (hWf : body.WellFormed callable) (hTable : SlotOwnership.InTable body) :
    ∀ i ∈ (optimize body).1.instrs, SlotOwnership.touched i = none := by
  obtain ⟨hImproves, hNone, hAll⟩ := optimize_improves hWf hTable
  exact hImproves.wellFormed.untouched hNone hAll

/-- The optimized body returns the same after the same calls. -/
theorem optimize_returns_iff (hWf : body.WellFormed callable) (hTable : SlotOwnership.InTable body)
    (answers : Answers) (args : List Float) (x : Float) (calls : List Call) :
    (optimize body).1.Returns answers args x calls ↔ body.Returns answers args x calls := by
  obtain ⟨hImproves, -, -⟩ := optimize_improves hWf hTable
  rw [Body.returns_iff_yields hImproves.wellFormed.regsBounded,
    Body.returns_iff_yields hWf.regsBounded]
  exact (hImproves.yields _ x calls).symm

end LiveCompiler
