import LiveCompiler.Proofs.Ir.Listing
import LiveCompiler.Proofs.Pass.Pipeline
import LiveCompiler.Proofs.Pass.Retarget
import LiveCompiler.Proofs.Pass.Size

/-!
# Running the pipeline again

The pipeline runs each pass once, so a pass may open work for an earlier one.  Of the last two
passes both do: value numbering may change the ranks of operands, and joined blocks may bring two
constants together.  No other pass does, so if these two change nothing, the next run changes nothing
at all (`silent_after_quiet`).  And as they cannot make a body smaller for ever, a body comes to rest
when the pipeline is run again and again (`Finished.comes_to_rest`).

A run that leaves the listing as it was has changed nothing (`Finished.listing_eq_iff_silent`).
This is more than that its passes report truly: one of them could have undone what another one did.
-/

namespace LiveCompiler

open Ir

/-! ## Passes one after another -/

section Silent

theorem runPasses_append (first last : List Pass) : ∀ body : Body,
    runPasses (first ++ last) body = ((runPasses last (runPasses first body).1).1,
      (runPasses first body).2 || (runPasses last (runPasses first body).1).2) := by
  induction first with
  | nil => exact fun body => rfl
  | cons pass first ih =>
    intro body
    rw [List.cons_append, runPasses_cons, runPasses_cons, ih, Bool.or_assoc]

/-- A pass of the standard pipeline that reports nothing gives back its body. -/
theorem Pass.run_eq_of_silent {pass : Pass} (hPass : pass ∈ standardPasses) {body : Body}
    (hSilent : (pass.run body).2 = false) : pass.run body = (body, false) := by
  apply Prod.ext _ hSilent
  simp only [standardPasses, List.mem_cons, List.not_mem_nil, or_false] at hPass
  rcases hPass with rfl | rfl | rfl | rfl | rfl | rfl
  · exact (SlotOwnership.reports body).silent hSilent
  · exact (Promotion.reports body).silent hSilent
  · exact Folding.run_silent hSilent
  · exact (OperandOrder.reports body).silent hSilent
  · exact (ValueNumbering.reports body).silent hSilent
  · exact (FlowCleanup.reports body).silent hSilent

variable {passes : List Pass} {body : Body}

/-- Passes report nothing if and only if none of them changes the body. -/
theorem runPasses_silent_iff (hPasses : ∀ pass ∈ passes, pass ∈ standardPasses) :
    (runPasses passes body).2 = false ↔ ∀ pass ∈ passes, pass.run body = (body, false) := by
  induction passes with
  | nil => exact ⟨fun _ pass hMem => absurd hMem List.not_mem_nil, fun _ => rfl⟩
  | cons pass passes ih =>
    have hHere := hPasses pass List.mem_cons_self
    have hRest := ih fun other hOther => hPasses other (List.mem_cons_of_mem pass hOther)
    rw [runPasses_cons, Bool.or_eq_false_iff, List.forall_mem_cons]
    constructor
    · rintro ⟨hSilent, hLater⟩
      have hSame := Pass.run_eq_of_silent hHere hSilent
      rw [hSame] at hLater
      exact ⟨hSame, hRest.mp hLater⟩
    · rintro ⟨hSame, hLater⟩
      rw [hSame]
      exact ⟨rfl, hRest.mpr hLater⟩

theorem runPasses_eq (h : ∀ pass ∈ passes, pass.run body = (body, false)) :
    runPasses passes body = (body, false) := by
  induction passes with
  | nil => rfl
  | cons pass passes ih =>
    rw [runPasses_cons, h pass List.mem_cons_self,
      ih fun other hOther => h other (List.mem_cons_of_mem pass hOther)]
    rfl

end Silent

/-! ## What the pipeline leaves behind -/

/-- A body that has been through the pipeline: well-formed, without slots, and the entry leads to
all its blocks. -/
structure Finished (callable : FuncId → Nat → Prop) (body : Body) : Prop
    extends body.WellFormed callable where
  slots : body.slots = []
  connected : body.Connected

variable {callable : FuncId → Nat → Prop} {body : Body}

theorem Finished.inTable (h : Finished callable body) : SlotOwnership.InTable body := by
  intro b hb i hi slot hTouched
  have hNone := h.untouched h.slots h.connected i (List.mem_flatMap.mpr ⟨b, hb, hi⟩)
  rw [hNone] at hTouched
  cases hTouched

/-- Without slots there is nothing to classify and nothing to promote. -/
theorem Finished.silent_first (h : Finished callable body) :
    slotOwnership.run body = (body, false) ∧ promotion.run body = (body, false) := by
  constructor
  · apply Pass.run_eq_of_silent (by simp [standardPasses])
    show (SlotOwnership.owners body != body.slots) = false
    rw [SlotOwnership.owners_eq h.inTable, h.slots]
    rfl
  · show Promotion.run body = _
    unfold Promotion.run Promotion.promotable
    rw [h.slots]
    rfl

/-- The body between the passes that work on instructions one by one and the last two. -/
def ordered (body : Body) : Body :=
  (runPasses (standardPasses.take 4) body).1

theorem ordered_eq (body : Body) : ordered body = (OperandOrder.run (Folding.run
    (Promotion.run (SlotOwnership.run body).1).1).1).1 := by
  unfold ordered standardPasses slotOwnership promotion folding operandOrder
  simp only [List.take_succ_cons, List.take_zero, fst_runPasses_cons, fst_runPasses_nil]

theorem optimize_eq (body : Body) :
    optimize body = ((runPasses (standardPasses.drop 4) (ordered body)).1,
      (runPasses (standardPasses.take 4) body).2 ||
        (runPasses (standardPasses.drop 4) (ordered body)).2) :=
  runPasses_append (standardPasses.take 4) (standardPasses.drop 4) body

theorem runPasses_last (body : Body) : runPasses (standardPasses.drop 4) body =
    ((FlowCleanup.run (ValueNumbering.run body).1).1,
      (ValueNumbering.run body).2 || (FlowCleanup.run (ValueNumbering.run body).1).2) := by
  unfold standardPasses valueNumbering flowCleanup
  simp only [List.drop_succ_cons, List.drop_zero, runPasses_cons, runPasses_nil, Bool.or_false]

/-- Behind the first four passes none of them finds anything more. -/
theorem finished_ordered (hWf : body.WellFormed callable) (hTable : SlotOwnership.InTable body)
    (hConnected : body.Connected) :
    Finished callable (ordered body) ∧
      ∀ pass ∈ standardPasses.take 4, pass.run (ordered body) = (ordered body, false) := by
  obtain ⟨hImproves, hReached⟩ := take_improves hWf hTable hConnected 4
  obtain ⟨hPromoted, hNone⟩ := promoted_keeps hWf hTable
  obtain ⟨hFolded, hFoldedSlots⟩ := @Folding.keeps .blank _ hPromoted.shaped
  obtain ⟨-, hOrderedSlots⟩ := @OperandOrder.keeps .blank _ hFolded.shaped
  have hSlots : (ordered body).slots = [] := by
    rw [ordered_eq]
    exact hOrderedSlots.trans (hFoldedSlots.trans hNone)
  have hFinished : Finished callable (ordered body) := ⟨hImproves.wellFormed, hSlots, hReached⟩
  obtain ⟨hOwners, hPromotion⟩ := hFinished.silent_first
  refine ⟨hFinished, ?_⟩
  simp only [standardPasses, List.take_succ_cons, List.take_zero, List.forall_mem_cons]
  refine ⟨hOwners, hPromotion, ?_, ?_, fun _ hMem => absurd hMem List.not_mem_nil⟩
  · rw [ordered_eq]
    exact (Folding.reduced_and_ordered hPromoted.shaped.singleAssignment).2.run_eq
  · apply Pass.run_eq_of_silent (by simp [standardPasses])
    rw [ordered_eq]
    exact OperandOrder.snd_run_run _

/-- The output of the pipeline is finished. -/
theorem finished_optimize (hWf : body.WellFormed callable)
    (hTable : SlotOwnership.InTable body) : Finished callable (optimize body).1 := by
  obtain ⟨hImproves, hNone, hAll⟩ := optimize_improves hWf hTable
  exact ⟨hImproves.wellFormed, hNone, hAll⟩

/-- If the last two passes change nothing, a second run changes nothing. -/
theorem silent_after_quiet (hWf : body.WellFormed callable)
    (hTable : SlotOwnership.InTable body) (hConnected : body.Connected)
    (hQuiet : (runPasses (standardPasses.drop 4) (ordered body)).2 = false) :
    (optimize body).1 = ordered body ∧ optimize (ordered body) = (ordered body, false) := by
  obtain ⟨-, hFirst⟩ := finished_ordered hWf hTable hConnected
  have hLast := (runPasses_silent_iff fun _ => List.mem_of_mem_drop).mp hQuiet
  constructor
  · rw [optimize_eq, runPasses_eq hLast]
  · apply runPasses_eq
    intro pass hPass
    rw [← List.take_append_drop 4 standardPasses, List.mem_append] at hPass
    exact hPass.elim (hFirst pass) (hLast pass)

/-! ## Coming to rest -/

/-- A body after so many runs of the pipeline. -/
def optimizeTimes (count : Nat) (body : Body) : Body :=
  (fun b => (optimize b).1)^[count] body

theorem optimizeTimes_succ (count : Nat) (body : Body) :
    optimizeTimes (count + 1) body = optimizeTimes count (optimize body).1 :=
  Function.iterate_succ_apply _ count body

theorem optimizeTimes_fixed (h : (optimize body).1 = body) (count : Nat) :
    optimizeTimes count body = body :=
  @Function.iterate_fixed Body (fun b => (optimize b).1) body h count

namespace Finished

theorem ordered_eq (h : Finished callable body) :
    ordered body = (OperandOrder.run (Folding.run body).1).1 := by
  obtain ⟨hOwners, hPromotion⟩ := h.silent_first
  have hOwners' : SlotOwnership.run body = (body, false) := hOwners
  have hPromotion' : Promotion.run body = (body, false) := hPromotion
  rw [LiveCompiler.ordered_eq, hOwners', hPromotion']

/-- A run makes a body smaller if one of the last two passes changes it. -/
theorem size_optimize (h : Finished callable body) : (optimize body).1.size +
    (runPasses (standardPasses.drop 4) (ordered body)).2.toNat ≤ body.size := by
  obtain ⟨hImproves, hConnected⟩ := take_improves h.toWellFormed h.inTable h.connected 5
  have hMiddle : (runPasses (standardPasses.take 5) body).1 =
      (ValueNumbering.run (ordered body)).1 := by
    rw [LiveCompiler.ordered_eq]
    unfold standardPasses slotOwnership promotion folding operandOrder valueNumbering
    simp only [List.take_succ_cons, List.take_zero, fst_runPasses_cons, fst_runPasses_nil]
  rw [hMiddle] at hImproves hConnected
  have hCleaned := FlowCleanup.size_run hImproves.wellFormed.toShaped hConnected
  have hNumbered := ValueNumbering.size_run (ordered body)
  have hOrdered : (ordered body).size ≤ body.size := by
    rw [h.ordered_eq, OperandOrder.size_run]
    exact Folding.size_run body
  rw [optimize_eq, runPasses_last]
  dsimp only
  generalize ValueNumbering.run (ordered body) = numbered at hCleaned hNumbered ⊢
  have hFlags := toNat_or_le numbered.2 (FlowCleanup.run numbered.1).2
  omega

/-- A run that leaves the blocks as they were has changed nothing. -/
theorem silent_of_blocks (h : Finished callable body)
    (hBlocks : (optimize body).1.blocks = body.blocks) : optimize body = (body, false) := by
  have hSize : (optimize body).1.size = body.size := by
    unfold Body.size Body.instrCount Body.instrs FlowCleanup.weight Body.edges Body.params
    rw [hBlocks]
  have hSmaller := h.size_optimize
  have hQuiet : (runPasses (standardPasses.drop 4) (ordered body)).2 = false := by
    rw [Bool.eq_false_iff]
    intro hLoud
    rw [hLoud, Bool.toNat_true] at hSmaller
    omega
  obtain ⟨hSame, hAgain⟩ := silent_after_quiet h.toWellFormed h.inTable h.connected hQuiet
  suffices hBody : ordered body = body by rwa [hBody] at hAgain
  rw [hSame] at hBlocks
  -- What folding and the order give has the same blocks, so the body itself is reduced.
  have hSingle := h.toShaped.singleAssignment
  have hReduced : Folding.Reduced body := by
    apply (Folding.reduced_and_ordered hSingle).2.congr
    · rw [← hBlocks, h.ordered_eq]
    · exact (Folding.entry_run hSingle).symm
  have hFolded := hReduced.run_eq
  have hOrdered := h.ordered_eq
  rw [hFolded] at hOrdered
  rw [hOrdered] at hBlocks ⊢
  apply (OperandOrder.reports body).silent
  rw [Bool.eq_false_iff]
  intro hLoud
  exact (OperandOrder.reports body).loud hLoud ⟨rfl, rfl, hBlocks, rfl, rfl⟩

/-- A run reports a change if and only if the listing shows one. -/
theorem listing_eq_iff_silent (h : Finished callable body) :
    (optimize body).1.listing = body.listing ↔ (optimize body).2 = false := by
  constructor
  · intro hListing
    obtain ⟨-, -, hBlocks⟩ := (listing_eq_iff_of_name (name_optimize body)).mp hListing
    rw [h.silent_of_blocks hBlocks]
  · intro hSilent
    have hAll := (runPasses_silent_iff fun _ hPass => hPass).mp hSilent
    rw [show optimize body = (body, false) from runPasses_eq hAll]

/-- Running the pipeline again and again comes to rest, after no more runs than the body has
instructions, edges and parameters. -/
theorem comes_to_rest (count : Nat) : ∀ {body : Body}, Finished callable body →
    body.size < count →
      optimize (optimizeTimes count body) = (optimizeTimes count body, false) := by
  induction count with
  | zero => exact fun _ hSize => absurd hSize (Nat.not_lt_zero _)
  | succ count ih =>
    intro body h hSize
    have hSmaller := h.size_optimize
    have hNext := finished_optimize h.toWellFormed h.inTable
    rw [optimizeTimes_succ]
    cases hFlag : (runPasses (standardPasses.drop 4) (ordered body)).2 with
    | true =>
      rw [hFlag, Bool.toNat_true] at hSmaller
      exact ih hNext (Nat.lt_of_lt_of_le hSmaller (Nat.le_of_lt_succ hSize))
    | false =>
      obtain ⟨hSame, hAgain⟩ := silent_after_quiet h.toWellFormed h.inTable h.connected hFlag
      rw [← hSame] at hAgain
      have hFixed : (optimize (optimize body).1).1 = (optimize body).1 := by rw [hAgain]
      rw [optimizeTimes_fixed hFixed]
      exact hAgain

end Finished

end LiveCompiler
