import LiveCompiler.Proofs.Pass.Folding.Dead
import LiveCompiler.Proofs.Pass.OperandOrder.Ranks

/-!
# Bodies in which nothing is left to fold

In a reduced body no operation that the entry leads to could be folded (`Instr.Reduced`), and every
pure result is read.  Folding leaves such a body as it is (`Reduced.run_eq`).

Putting operands in order keeps a body reduced (`Reduced.ordered`).  The two passes might undo each
other's exchanges, as both look at constants: folding moves a constant to the right, and the order
goes by ranks.  They do not, as a constant has a lower rank than any other register that is read.
-/

namespace LiveCompiler

namespace Ir

/-- The constant that changes nothing on the right of an operation. -/
def ArithOp.neutral : ArithOp → Float
  | add => -0.0
  | sub => 0.0
  | mul => 1.0

/-- An operation that cannot be folded, given which registers hold which constants: not both
operands are constant, the left one is not if they may change places, and the right one is not
neutral. -/
def Instr.Reduced (const : Reg → Float → Prop) : Instr → Prop
  | arith op _ left right =>
    ¬ ((∃ x, const left x) ∧ ∃ y, const right y) ∧
      (op.isCommutative = true → ∀ x, ¬ const left x) ∧ ¬ const right op.neutral
  | less _ left right => ¬ ((∃ x, const left x) ∧ ∃ y, const right y)
  | _ => True

/-- Fewer constants leave less to fold. -/
theorem Instr.Reduced.anti {const fewer : Reg → Float → Prop} {i : Instr} (h : i.Reduced const)
    (hFewer : ∀ a ∈ i.uses, ∀ x, fewer a x → const a x) : i.Reduced fewer := by
  cases i with
  | arith op dst left right =>
    obtain ⟨hBoth, hLeft, hNeutral⟩ := h
    have hl := hFewer left (by simp [uses])
    have hr := hFewer right (by simp [uses])
    refine ⟨?_, fun hComm x hx => hLeft hComm x (hl x hx), fun hx => hNeutral (hr _ hx)⟩
    rintro ⟨⟨x, hx⟩, y, hy⟩
    exact hBoth ⟨⟨x, hl x hx⟩, y, hr y hy⟩
  | less dst left right =>
    rintro ⟨⟨x, hx⟩, y, hy⟩
    exact h ⟨⟨x, hFewer left (by simp [uses]) x hx⟩, y, hFewer right (by simp [uses]) y hy⟩
  | _ => trivial

end Ir

open Ir

namespace Folding

/-- Nothing is left to fold: no operation that the entry leads to can be folded, and the result of
every pure instruction is read. -/
structure Reduced (body : Body) : Prop where
  operations : ∀ label, body.Reached label → ∀ i ∈ (body.block label).instrs,
    i.Reduced body.HoldsConst
  results : ∀ label, ∀ i ∈ (body.block label).instrs, i.isPure = true →
    ∀ r, i.dst = some r → r ∈ body.uses

/-- Whether a body is reduced depends on its blocks and its entry alone. -/
theorem Reduced.congr {body after : Body} (h : Reduced body) (hBlocks : after.blocks = body.blocks)
    (hEntry : after.entry = body.entry) : Reduced after := by
  cases after
  cases body
  subst hBlocks hEntry
  exact ⟨h.operations, h.results⟩

theorem isNeutralOnRight_iff {op : ArithOp} {c : Float} :
    isNeutralOnRight op c = true ↔ c = op.neutral := by
  cases op with
  | add => exact beq_iff_eq.trans ⟨Binary64.toBits_inj, congrArg Float.toBits⟩
  | sub => exact beq_iff_eq.trans ⟨Binary64.toBits_inj, congrArg Float.toBits⟩
  | mul =>
    refine ⟨Binary64.eq_one_of_beq, ?_⟩
    rintro rfl
    decide +kernel

/-! ## Folding what is reduced -/

section Fold

variable {body : Body} {const : Reg → Float → Prop} {s : Sweep}

/-- A sweep that has found nothing to do, and knows some of the constants. -/
structure Sweep.Idle (const : Reg → Float → Prop) (s : Sweep) : Prop where
  replaced : s.replaced = Substitution.empty
  changed : s.changed = false
  known : ∀ r x, s.constant? r = some x → const r x

theorem Sweep.constant?_note (s : Sweep) (q : Reg) (y : Float) (r : Reg) :
    (s.note q y).constant? r = if r = q then some y else s.constant? r := by
  unfold constant? note
  rw [List.lookup_cons]
  split
  · rename_i hEq
    rw [if_pos (beq_iff_eq.mp hEq)]
  · rename_i hEq
    rw [if_neg (by simpa using hEq)]

/-- A reduced instruction is left as it is. -/
theorem Sweep.Idle.fold (h : s.Idle const) {i : Instr} (hReduced : i.Reduced const)
    (hConst : ∀ r x, i = .const r x → const r x) :
    (s.fold i).1 = i ∧ (s.fold i).2.Idle const := by
  cases i with
  | const dst value =>
    refine ⟨rfl, h.replaced, h.changed, fun r x hx => ?_⟩
    rw [show (s.fold (.const dst value)).2 = s.note dst value from rfl,
      constant?_note] at hx
    split at hx
    · rename_i hEq
      rw [hEq, ← Option.some.inj hx]
      exact hConst dst value rfl
    · exact h.known r x hx
  | arith op dst left right =>
    obtain ⟨hBoth, hLeft, hNeutral⟩ := hReduced
    have hSimplify : s.fold (.arith op dst left right) = s.simplify op dst left right := by
      unfold Sweep.fold
      dsimp only
      split
      · rename_i x y hx hy
        exact absurd ⟨⟨x, h.known left x hx⟩, y, h.known right y hy⟩ hBoth
      · rfl
    have hStay : (op.isCommutative && (s.constant? left).isSome) = false := by
      rw [Bool.and_eq_false_iff]
      by_cases hComm : op.isCommutative = true
      · right
        cases hx : s.constant? left with
        | none => rfl
        | some x => exact absurd (h.known left x hx) (hLeft hComm x)
      · exact .inl (by simpa using hComm)
    have hDrop : s.dropIdentity op dst left right = s := by
      unfold Sweep.dropIdentity
      split
      · rename_i c hc
        rw [if_neg]
        intro hSame
        apply hNeutral
        rw [← isNeutralOnRight_iff.mp hSame]
        exact h.known right c hc
      · rfl
    rw [hSimplify, Sweep.simplify, hStay, if_neg Bool.false_ne_true, hDrop]
    exact ⟨rfl, h⟩
  | less dst left right =>
    have hSame : s.fold (.less dst left right) = (.less dst left right, s) := by
      unfold Sweep.fold
      dsimp only
      split
      · rename_i x y hx hy
        exact absurd ⟨⟨x, h.known left x hx⟩, y, h.known right y hy⟩ hReduced
      · rfl
    rw [hSame]
    exact ⟨rfl, h⟩
  | _ => exact ⟨rfl, h⟩

theorem representative_empty : Substitution.empty.representative = id := rfl

theorem Sweep.Idle.foldInstrs {instrs : List Instr} :
    ∀ {s : Sweep}, s.Idle const → (∀ i ∈ instrs, i.Reduced const) →
      (∀ r x, .const r x ∈ instrs → const r x) →
      (foldInstrs s instrs).1 = instrs ∧ (foldInstrs s instrs).2.Idle const := by
  induction instrs with
  | nil => exact fun h _ _ => ⟨rfl, h⟩
  | cons i rest ih =>
    intro s h hReduced hConst
    have hRenamed : i.renameUses s.replaced.representative = i := by
      rw [h.replaced, representative_empty, Instr.renameUses_id]
    obtain ⟨hHead, hNext⟩ := h.fold (hReduced i List.mem_cons_self)
      fun r x hi => hConst r x (hi ▸ List.mem_cons_self)
    obtain ⟨hTail, hEnd⟩ := ih hNext (fun j hj => hReduced j (List.mem_cons_of_mem i hj))
      fun r x hj => hConst r x (List.mem_cons_of_mem i hj)
    rw [Folding.foldInstrs, hRenamed]
    dsimp only
    exact ⟨by rw [hHead, hTail], hEnd⟩

theorem modifyBlock_instrs_self (label : Label) :
    (body.modifyBlock label fun b => { b with instrs := (body.block label).instrs }) = body := by
  apply Body.ext_block
  case hBlock =>
    intro other
    rw [Body.block_modifyBlock]
    split
    · rename_i hSame
      rw [hSame.1]
    · rfl
  case hLength => exact Body.length_modifyBlock _
  all_goals rfl

/-- The sweep over a reduced body changes nothing. -/
theorem Reduced.fold_eq (h : Reduced body) : fold body = (body, false) := by
  have hSweep : ∀ (todo : List Label) (s : Sweep), (∀ label ∈ todo, body.Reached label) →
      s.Idle body.HoldsConst →
      ∃ s', todo.foldl foldBlock (body, s) = (body, s') ∧ s'.Idle body.HoldsConst := by
    intro todo
    induction todo with
    | nil => exact fun s _ hs => ⟨s, rfl, hs⟩
    | cons label todo ih =>
      intro s hTodo hs
      obtain ⟨hInstrs, hNext⟩ := hs.foldInstrs
        (h.operations label (hTodo label List.mem_cons_self)) fun r x hMem => ⟨label, hMem⟩
      have hBlock : foldBlock (body, s) label =
          (body, (Folding.foldInstrs s (body.block label).instrs).2) := by
        unfold foldBlock
        dsimp only
        rw [hInstrs, modifyBlock_instrs_self]
      rw [List.foldl_cons, hBlock]
      exact ih _ (fun other hOther => hTodo other (List.mem_cons_of_mem label hOther)) hNext
  obtain ⟨s, hEnd, hIdle⟩ := hSweep body.order Sweep.start
    (fun label hMem => Body.reached_of_mem_order hMem)
    ⟨rfl, rfl, fun r x hx => by simp [Sweep.constant?, Sweep.start] at hx⟩
  unfold fold
  rw [hEnd]
  dsimp only
  rw [hIdle.replaced, hIdle.changed]
  rfl

end Fold

/-! ## Taking out what is dead -/

section Dead

variable {body : Body}

/-- No instruction of a reduced body is dead. -/
theorem Reduced.dropDead_eq (h : Reduced body) : dropDead body = (body, false) := by
  have hAlive : ∀ i ∈ body.instrs, isDead body.uses i = false := by
    intro i hi
    rw [Bool.eq_false_iff, Ne, isDead_iff]
    rintro ⟨hPure, r, hDst, hNot⟩
    obtain ⟨label, hMem⟩ := Body.mem_instrs_iff.mp hi
    exact hNot (h.results label i hMem hPure r hDst)
  unfold dropDead
  cases body.instrCount with
  | zero => rfl
  | succ count =>
    rw [dropRounds]
    exact if_pos (instrCount_dropOnce hAlive)

/-- Folding leaves a reduced body as it is. -/
theorem Reduced.run_eq (h : Reduced body) : run body = (body, false) := by
  unfold run
  rw [h.fold_eq]
  dsimp only
  rw [h.dropDead_eq]
  rfl

end Dead

/-! ## Putting operands in order -/

section Order

open OperandOrder

variable {body : Body}

/-- Operands that change places are not constant, so putting operands in order brings nothing back
that could be folded. -/
theorem Reduced.ordered (h : Reduced body) (hOnce : body.DefinesOnce)
    (hWritten : ∀ label, body.Reached label → ∀ i ∈ (body.block label).instrs, ∀ a ∈ i.uses,
      ∃ home ∈ body.order, a ∈ (body.block home).defs) :
    Reduced (OperandOrder.run body).1 where
  operations := by
    intro label hReached j hj
    rw [Body.Reached, graph_run] at hReached
    rw [block_run] at hj
    obtain ⟨i, hi, rfl⟩ := List.mem_map.mp hj
    have hReduced := h.operations label hReached i hi
    suffices hSame : (reorder (ranks body) i).Reduced body.HoldsConst by
      exact hSame.anti fun a _ x => holdsConst_run.mp
    unfold reorder
    split
    · rename_i hMisordered
      cases i with
      | arith op dst left right =>
        obtain ⟨hComm, hBelow⟩ := Bool.and_eq_true_iff.mp hMisordered
        have hLeft := hReduced.2.1 hComm
        obtain ⟨home, hHome, hDef⟩ :=
          hWritten label hReached _ hi left (by simp [Instr.uses])
        have hPos := rank_pos hHome hDef hLeft
        have hRight : ∀ x, ¬ body.HoldsConst right x := by
          intro x hx
          rw [not_isBelow (rank_eq_zero hOnce hx) hPos] at hBelow
          cases hBelow
        exact ⟨fun hBoth => hBoth.2.elim hLeft, fun _ => hRight, hLeft _⟩
      | _ => exact hReduced
    · exact hReduced
  results := by
    intro label j hj hPure r hDst
    rw [block_run] at hj
    obtain ⟨i, hi, rfl⟩ := List.mem_map.mp hj
    rw [isPure_reorder] at hPure
    rw [dst_reorder] at hDst
    exact mem_uses_run.mpr (h.results label i hi hPure r hDst)

end Order

end Folding

end LiveCompiler
