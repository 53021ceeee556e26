import LiveCompiler.Proofs.Ir.SingleAssignment
import LiveCompiler.Proofs.Pass.Folding

/-!
# Taking out dead instructions to the end

A round takes out what nothing reads, and may leave new instructions that nothing reads.  As each
round but the last takes out one instruction at least, there are rounds enough
(`dropRounds_spec`).  A register that is read in the end has kept its definition
(`Sifted.mem_defs`).
-/

namespace LiveCompiler

open Ir

namespace Folding

variable {body middle after : Body} {label : Label} {i : Instr} {r : Reg}

theorem instrs_dropOnce (body : Body) :
    (dropOnce body).instrs = body.instrs.filter fun i => !isDead body.uses i := by
  unfold dropOnce Body.instrs Body.mapBlocks
  rw [List.filter_flatMap, List.flatMap_map]

/-- If as many instructions are left as there were, none is dead. -/
theorem not_isDead_of_instrCount (h : (dropOnce body).instrCount = body.instrCount) :
    ∀ i ∈ body.instrs, isDead body.uses i = false := by
  intro i hi
  rw [Body.instrCount, Body.instrCount, instrs_dropOnce, List.length_filter_eq_length_iff] at h
  simpa using h i hi

theorem instrCount_dropOnce (h : ∀ i ∈ body.instrs, isDead body.uses i = false) :
    (dropOnce body).instrCount = body.instrCount := by
  rw [Body.instrCount, Body.instrCount, instrs_dropOnce, List.length_filter_eq_length_iff]
  intro i hi
  rw [h i hi]
  rfl

/-- Taking out instructions adds nothing to what is read. -/
theorem mem_uses_of_sublist
    (hInstrs : ∀ label, (after.block label).instrs.Sublist (body.block label).instrs)
    (hEnd : ∀ label, (after.block label).terminator = (body.block label).terminator)
    (hr : r ∈ after.uses) : r ∈ body.uses := by
  obtain ⟨label, hr⟩ := Body.mem_uses_iff.mp hr
  apply Body.mem_uses_iff.mpr ⟨label, _⟩
  rcases List.mem_append.mp hr with hInstr | hTerminator
  · obtain ⟨i, hi, hr⟩ := List.mem_flatMap.mp hInstr
    exact List.mem_append_left _ (List.mem_flatMap.mpr ⟨i, (hInstrs label).subset hi, hr⟩)
  · rw [hEnd] at hTerminator
    exact List.mem_append_right _ hTerminator

/-- Some instructions have been taken out, each with a register that is not read. -/
structure Sifted (body after : Body) : Prop where
  entry : after.entry = body.entry
  length : after.blocks.length = body.blocks.length
  params : ∀ label, (after.block label).params = (body.block label).params
  terminator : ∀ label, (after.block label).terminator = (body.block label).terminator
  instrs : ∀ label, (after.block label).instrs.Sublist (body.block label).instrs
  gone : ∀ label, ∀ i ∈ (body.block label).instrs, i ∉ (after.block label).instrs →
    ∃ r, i.dst = some r ∧ r ∉ after.uses

namespace Sifted

theorem refl (body : Body) : Sifted body body where
  entry := rfl
  length := rfl
  params _ := rfl
  terminator _ := rfl
  instrs _ := List.Sublist.refl _
  gone _ _ hi hNot := absurd hi hNot

theorem mem_uses (h : Sifted body after) (hr : r ∈ after.uses) : r ∈ body.uses :=
  mem_uses_of_sublist h.instrs h.terminator hr

theorem trans (h : Sifted body middle) (h' : Sifted middle after) : Sifted body after where
  entry := h'.entry.trans h.entry
  length := h'.length.trans h.length
  params label := (h'.params label).trans (h.params label)
  terminator label := (h'.terminator label).trans (h.terminator label)
  instrs label := (h'.instrs label).trans (h.instrs label)
  gone label i hi hNot := by
    by_cases hMiddle : i ∈ (middle.block label).instrs
    · exact h'.gone label i hMiddle hNot
    · obtain ⟨r, hDst, hUnread⟩ := h.gone label i hi hMiddle
      exact ⟨r, hDst, fun hUse => hUnread (h'.mem_uses hUse)⟩

theorem graph (h : Sifted body after) : after.graph = body.graph :=
  Body.graph_congr h.length fun label => by rw [h.terminator]

theorem defs_sublist (h : Sifted body after) (label : Label) :
    (after.block label).defs.Sublist (body.block label).defs := by
  unfold Block.defs
  rw [h.params]
  exact ((h.instrs label).filterMap Instr.dst).append_left _

/-- A register that is read has not been taken out. -/
theorem mem_defs (h : Sifted body after) (hUse : r ∈ after.uses)
    (hDef : r ∈ (body.block label).defs) : r ∈ (after.block label).defs := by
  rcases Body.mem_defs.mp hDef with hParam | hInstr
  · rw [← h.params] at hParam
    exact Body.mem_defs.mpr (.inl hParam)
  · obtain ⟨i, hi, hDst⟩ := List.mem_filterMap.mp hInstr
    have hStays : i ∈ (after.block label).instrs := by
      by_contra hNot
      obtain ⟨q, hDst', hUnread⟩ := h.gone label i hi hNot
      obtain rfl := Option.some.inj (hDst.symm.trans hDst')
      exact hUnread hUse
    exact Body.mem_defs.mpr (.inr (List.mem_filterMap.mpr ⟨i, hStays, hDst⟩))

end Sifted

theorem sifted_dropOnce (body : Body) : Sifted body (dropOnce body) := by
  have hSublist : ∀ label,
      ((dropOnce body).block label).instrs.Sublist (body.block label).instrs := by
    intro label
    rw [block_dropOnce]
    exact List.filter_sublist
  have hEnd : ∀ label,
      ((dropOnce body).block label).terminator = (body.block label).terminator :=
    fun label => by rw [block_dropOnce]
  constructor
  case entry => rfl
  case length => exact Body.length_mapBlocks _
  case params => exact fun label => by rw [block_dropOnce]
  case terminator => exact hEnd
  case instrs => exact hSublist
  case gone =>
    intro label i hi hNot
    rw [block_dropOnce] at hNot
    have hDead : isDead body.uses i = true := by
      by_contra hAlive
      exact hNot (List.mem_filter.mpr ⟨hi, by simpa using hAlive⟩)
    obtain ⟨-, r, hDst, hUnread⟩ := isDead_iff.mp hDead
    exact ⟨r, hDst, fun hUse => hUnread (mem_uses_of_sublist hSublist hEnd hUse)⟩

/-- Rounds that are as many as there are instructions leave none that is dead. -/
theorem dropRounds_spec (count : Nat) : ∀ body : Body, body.instrCount ≤ count →
    Sifted body (dropRounds count body).1 ∧
      ∀ i ∈ (dropRounds count body).1.instrs, isDead (dropRounds count body).1.uses i = false := by
  induction count with
  | zero =>
    intro body hCount
    have hNil : body.instrs = [] := List.eq_nil_of_length_eq_zero (Nat.le_zero.mp hCount)
    refine ⟨.refl body, fun i hi => ?_⟩
    rw [dropRounds, hNil] at hi
    cases hi
  | succ count ih =>
    intro body hCount
    rw [dropRounds]
    split
    · rename_i hSame
      exact ⟨.refl body, not_isDead_of_instrCount hSame⟩
    · -- As the round has taken something out, one round less is enough for the rest.
      rename_i hLess
      have hDown : (dropOnce body).instrCount ≤ body.instrCount := by
        rw [Body.instrCount, Body.instrCount, instrs_dropOnce]
        exact List.length_filter_le _ _
      obtain ⟨hSifted, hAlive⟩ := ih (dropOnce body) (by omega)
      exact ⟨(sifted_dropOnce body).trans hSifted, hAlive⟩

end Folding

end LiveCompiler
