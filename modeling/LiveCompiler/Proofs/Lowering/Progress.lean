import LiveCompiler.Proofs.Lowering.Inversion
import LiveCompiler.Proofs.Lowering.Stage

/-!
# Computing an expression from a sound stage

`compute_leads` is what lowering keeps: from a sound stage, computing an expression leads to a
sound stage that knows the result, has forgotten nothing and lets the same blocks wait.  The
steps around the parts of an expression (`fork`, `turn`, `enter`, `close`) are treated first,
each on its own.
-/

namespace LiveCompiler

open Ir

namespace Stage

/-- An expression was computed: nothing is forgotten, the same blocks wait, and the entry leads to
all others if it did so before. -/
structure Leads (callable : FuncId → Nat → Prop) (s s' : Stage) : Prop
    extends Extends callable s s' where
  waiting_eq : s'.waiting = s.waiting
  knows : ∀ r, s.Knows r → s'.Knows r
  joined : s.Joined → s'.Joined

variable {callable : FuncId → Nat → Prop} {s s' s'' : Stage}

theorem Leads.refl (h : s.Sound callable) : Leads callable s s :=
  ⟨⟨h, Body.Grows.refl _, fun _ _ => rfl⟩, rfl, fun _ hr => hr, fun hJoined => hJoined⟩

theorem Leads.trans (h : Leads callable s s') (h' : Leads callable s' s'') :
    Leads callable s s'' :=
  ⟨h.toExtends.trans h'.toExtends, h'.waiting_eq.trans h.waiting_eq,
    fun r hr => h'.knows r (h.knows r hr), fun hJoined => h'.joined (h.joined hJoined)⟩

/-! ## Straight-line steps -/

/-- Append an instruction that writes the next register. -/
def write (s : Stage) (i : Instr) : Stage :=
  s.freshReg.append i

theorem Sound.freshSlot_leads (h : s.Sound callable) : Leads callable s s.freshSlot :=
  ⟨h.freshSlot, rfl, fun _ hr => hr, fun hJoined => hJoined.grows h.freshSlot.grows rfl rfl⟩

theorem Sound.fresh (h : s.Sound callable) (label : Label) :
    s.body.regCount ∉ (s.body.block label).defs :=
  fun hr => Nat.lt_irrefl _ (h.certified.defs_lt label _ hr)

theorem Sound.write (h : s.Sound callable) {i : Instr} (hDst : i.dst = some s.body.regCount)
    (hUses : ∀ r ∈ i.uses, s.Knows r)
    (hLegal : i.Legal callable s.body.arity s.body.slots.length) :
    Leads callable s (s.write i) ∧ (s.write i).Knows s.body.regCount := by
  have hReg := h.freshReg
  have hAppend : Extends callable s.freshReg (s.write i) := by
    refine hReg.sound.append hUses ?_ hLegal
    intro r hr
    obtain rfl := Option.some.inj (hDst.symm.trans hr)
    exact ⟨Nat.lt_succ_self _, h.fresh⟩
  have hKnows : ∀ r, (s.write i).Knows r ↔ s.Knows r ∨ i.dst = some r :=
    fun r => knows_append hReg.sound
  have hAll := hReg.trans hAppend
  exact ⟨⟨hAll, rfl, fun r hr => (hKnows r).mpr (.inl hr),
      fun hJoined => hJoined.grows hAll.grows (length_append _ i) rfl⟩,
    (hKnows _).mpr (.inr hDst)⟩

theorem Sound.store (h : s.Sound callable) {slot : Slot} {src : Reg} (hSrc : s.Knows src)
    (hSlot : slot < s.body.slots.length) : Leads callable s (s.append (.store slot src)) := by
  have hAppend : Extends callable s (s.append (.store slot src)) := by
    refine h.append ?_ ?_ hSlot
    · intro r hr
      rw [List.mem_singleton.mp hr]
      exact hSrc
    · intro r hr
      cases hr
  exact ⟨hAppend, rfl, fun r hr => (knows_append h).mpr (.inl hr),
    fun hJoined => hJoined.grows hAppend.grows (s.length_append _) rfl⟩

/-- Open a block that takes no values. -/
theorem Sound.push_nil (h : s.Sound callable) : Extends callable s (s.push []) :=
  h.push List.nodup_nil (fun _ hr => absurd hr List.not_mem_nil)
    fun _ hr => absurd hr List.not_mem_nil

/-! ## Conditionals -/

/-- Open the blocks of a conditional: its arms and the block where they meet. -/
def opened (s : Stage) : Stage :=
  ((s.push []).push []).freshReg.push [s.body.regCount]

/-- Open the blocks of a conditional and go on in the first arm. -/
def fork (s : Stage) (condition : Reg) : Stage :=
  s.opened.leave (.branch condition { target := s.body.blocks.length, args := [] }
    { target := s.body.blocks.length + 1, args := [] }) s.body.blocks.length

theorem length_opened (s : Stage) : s.opened.body.blocks.length = s.body.blocks.length + 3 := by
  have hLength : s.opened.body.blocks.length =
      ((s.push []).push []).freshReg.body.blocks.length + 1 := length_push _
  rw [hLength]
  show ((s.push []).push []).body.blocks.length + 1 = _
  rw [length_push, length_push]

theorem length_before_meet (s : Stage) :
    ((s.push []).push []).freshReg.body.blocks.length = s.body.blocks.length + 2 := by
  show ((s.push []).push []).body.blocks.length = _
  rw [length_push, length_push]

theorem block_opened_meet (s : Stage) : s.opened.body.block (s.body.blocks.length + 2) =
    { Block.empty with params := [s.body.regCount] } := by
  rw [← s.length_before_meet]
  exact block_push_length _

theorem block_opened_of_lt (s : Stage) {label : Label} (h : label < s.body.blocks.length + 2) :
    s.opened.body.block label = ((s.push []).push []).body.block label :=
  block_push_of_lt (s.length_before_meet ▸ h)

/-- The arms are empty and take no values. -/
theorem block_opened_arm (s : Stage) {n : Nat} (h : n < 2) :
    s.opened.body.block (s.body.blocks.length + n) = Block.empty := by
  rw [block_opened_of_lt s (Nat.add_lt_add_left h _)]
  rcases show n = 0 ∨ n = 1 by omega with rfl | rfl
  · exact (block_push_of_lt (by rw [length_push]; exact Nat.lt_succ_self _)).trans
      (block_push_length [])
  · rw [← length_push (s := s) []]
    exact block_push_length []

theorem waiting_opened (s : Stage) : s.opened.waiting =
    (s.body.blocks.length + 2) :: (s.body.blocks.length + 1) :: s.body.blocks.length ::
      s.waiting := by
  have hElse : (s.push []).body.blocks.length = s.body.blocks.length + 1 := length_push _
  show ((s.push []).push []).freshReg.body.blocks.length ::
    ((s.push []).body.blocks.length :: (s.body.blocks.length :: s.waiting)) = _
  rw [length_before_meet, hElse]

theorem Sound.opened (h : s.Sound callable) :
    Extends callable s s.opened ∧ s.opened.Knows = s.Knows ∧
      ∀ n : Nat, n < 3 → s.opened.before (s.body.blocks.length + n) = s.Knows := by
  have hFirst := h.push_nil
  have hSecond := hFirst.sound.push_nil
  have hReg := hSecond.sound.freshReg
  have hThird : Extends callable ((s.push []).push []).freshReg s.opened := by
    refine hReg.sound.push (List.nodup_singleton _) ?_ ?_
    · intro r hr
      rw [List.mem_singleton.mp hr]
      exact Nat.lt_succ_self _
    · intro r hr label
      rw [List.mem_singleton.mp hr]
      exact hSecond.sound.fresh label
  have hKnows : ((s.push []).push []).freshReg.Knows = s.Knows :=
    (hFirst.sound.knows_push []).trans (h.knows_push [])
  have hElse : (s.push []).body.blocks.length = s.body.blocks.length + 1 := length_push _
  have hMeet := s.length_before_meet
  refine ⟨((hFirst.trans hSecond).trans hReg).trans hThird,
    (hReg.sound.knows_push _).trans hKnows, ?_⟩
  intro n hn
  -- The record of a block is what was known when the block was opened.
  rcases show n = 0 ∨ n = 1 ∨ n = 2 by omega with rfl | rfl | rfl
  · rw [hThird.before_eq _ (by rw [hMeet]; exact Nat.lt_succ_of_lt (Nat.lt_succ_self _))]
    show ((s.push []).push []).before _ = _
    rw [hSecond.before_eq _ (by rw [hElse]; exact Nat.lt_succ_self _)]
    exact before_push_length []
  · rw [hThird.before_eq _ (by rw [hMeet]; exact Nat.lt_succ_self _), ← hElse]
    exact (before_push_length []).trans (h.knows_push [])
  · rw [← hMeet]
    exact (before_push_length _).trans hKnows

theorem Sound.fork (h : s.Sound callable) {condition : Reg} (hCondition : s.Knows condition) :
    Extends callable s (s.fork condition) := by
  obtain ⟨hOpened, hKnows, hBefore⟩ := h.opened
  have hLt := h.certified.entry_lt
  refine hOpened.trans (hOpened.sound.leave (fun hEq => by cases hEq) ?_ ?_ ?_)
  · rw [waiting_opened]
    simp
  · intro r hr
    rw [hKnows, List.mem_singleton.mp hr]
    exact hCondition
  · intro e he
    obtain ⟨n, hn, rfl⟩ : ∃ n, n < 2 ∧ e = { target := s.body.blocks.length + n, args := [] } := by
      rcases List.mem_cons.mp he with rfl | he
      · exact ⟨0, Nat.zero_lt_two, rfl⟩
      · rw [List.mem_singleton.mp he]
        exact ⟨1, Nat.one_lt_two, rfl⟩
    refine ⟨Nat.ne_of_gt (Nat.lt_add_right n hLt), ?_, ?_, ?_⟩
    · rw [length_opened]
      exact Nat.add_lt_add_left (Nat.lt_succ_of_lt hn) _
    · rw [block_opened_arm s hn]
      rfl
    · rw [hBefore n (Nat.lt_succ_of_lt hn), hKnows]
      exact fun r hr => hr

theorem waiting_fork (s : Stage) (condition : Reg) : (s.fork condition).waiting =
    (s.body.blocks.length + 2) :: (s.body.blocks.length + 1) :: s.waiting := by
  show s.opened.waiting.erase s.body.blocks.length = _
  rw [waiting_opened, List.erase_cons_tail, List.erase_cons_tail, List.erase_cons_head] <;> simp

theorem Sound.before_fork (h : s.Sound callable) (condition : Reg) {n : Nat} (hn : n < 3) :
    (s.fork condition).before (s.body.blocks.length + n) = s.Knows :=
  h.opened.2.2 n hn

theorem Sound.then_waits (s : Stage) : s.body.blocks.length ∈ s.opened.waiting := by
  rw [waiting_opened]
  simp

theorem Sound.knows_fork (h : s.Sound callable) (condition : Reg) {r : Reg} (hr : s.Knows r) :
    (s.fork condition).Knows r := by
  have hBefore := h.opened.2.2 0 (by decide)
  refine (knows_leave h.opened.1.sound _ (Sound.then_waits s)).mpr (.inl ?_)
  rw [Nat.add_zero] at hBefore
  rw [hBefore]
  exact hr

theorem Sound.here_fork (h : s.Sound callable) (condition : Reg) :
    (s.fork condition).here = Block.empty :=
  (here_leave h.opened.1.sound _ (Sound.then_waits s)).trans
    (block_opened_arm s (show 0 < 2 by decide))

theorem Sound.block_fork_meet (h : s.Sound callable) (condition : Reg) :
    (s.fork condition).body.block (s.body.blocks.length + 2) =
      { Block.empty with params := [s.body.regCount] } := by
  have hNe : s.body.blocks.length + 2 ≠ s.opened.current :=
    Nat.ne_of_gt (Nat.lt_add_right 2 h.current_lt)
  rw [Stage.fork, block_leave h.opened.1.sound, if_neg hNe, block_opened_meet]

theorem Sound.block_fork_arm (h : s.Sound callable) (condition : Reg) {n : Nat} (hn : n < 2) :
    (s.fork condition).body.block (s.body.blocks.length + n) = Block.empty := by
  have hNe : s.body.blocks.length + n ≠ s.opened.current :=
    Nat.ne_of_gt (Nat.lt_add_right n h.current_lt)
  rw [Stage.fork, block_leave h.opened.1.sound, if_neg hNe, block_opened_arm s hn]

theorem length_fork (s : Stage) (condition : Reg) :
    (s.fork condition).body.blocks.length = s.body.blocks.length + 3 :=
  (length_leave _ _).trans s.length_opened

theorem Sound.here_opened (h : s.Sound callable) : s.opened.here = s.here := by
  have hLt : s.current < (s.push []).body.blocks.length := by
    rw [length_push]
    exact Nat.lt_succ_of_lt h.current_lt
  exact (block_opened_of_lt s (Nat.lt_add_right 2 h.current_lt)).trans
    ((block_push_of_lt hLt).trans (block_push_of_lt h.current_lt))

/-- End an arm, with its value, and go on in another block. -/
def turn (s : Stage) (meet : Label) (value : Reg) (next : Label) : Stage :=
  s.leave (.jump { target := meet, args := [value] }) next

theorem Sound.turn (h : s.Sound callable) {meet next : Label} {value : Reg}
    (hValue : s.Knows value) (hMeet : s.Admits { target := meet, args := [value] })
    (hNext : next ∈ s.waiting) : Extends callable s (s.turn meet value next) := by
  refine h.leave (fun hEq => by cases hEq) hNext ?_ ?_
  · intro r hr
    rw [List.mem_singleton.mp hr]
    exact hValue
  · intro e he
    rw [List.mem_singleton.mp he]
    exact hMeet

/-- What an edge may do it may do later on. -/
theorem Admits.of_extends {e : Edge} (hAdmits : s.Admits e) (h : Extends callable s s')
    (hKnows : ∀ r, s.Knows r → s'.Knows r) : s'.Admits e := by
  obtain ⟨hEntry, hLt, hFits, hBefore⟩ := hAdmits
  refine ⟨h.grows.entry_eq ▸ hEntry, Nat.lt_of_lt_of_le hLt h.grows.length_le, ?_, ?_⟩
  · rw [h.grows.params _ hLt]
    exact hFits
  · rw [h.before_eq _ hLt]
    exact fun r hr => hKnows r (hBefore r hr)

/-- After the fork a jump to the block where the arms meet is admitted, with one value, as long as
nothing is forgotten that was known before the fork. -/
theorem Sound.admits_meet (h : s.Sound callable) {condition : Reg}
    (hFork : Extends callable (s.fork condition) s') (hKnows : ∀ r, s.Knows r → s'.Knows r)
    (x : Reg) : s'.Admits { target := s.body.blocks.length + 2, args := [x] } := by
  have hLength := s.length_fork condition
  have hLt : s.body.blocks.length + 2 < (s.fork condition).body.blocks.length := by
    rw [hLength]
    exact Nat.lt_succ_self _
  refine ⟨?_, Nat.lt_of_lt_of_le hLt hFork.grows.length_le, ?_, ?_⟩
  · rw [hFork.grows.entry_eq]
    exact Nat.ne_of_gt (Nat.lt_add_right 2 h.certified.entry_lt)
  · rw [hFork.grows.params _ hLt, h.block_fork_meet]
    rfl
  · rw [hFork.before_eq _ hLt, h.before_fork condition (show 2 < 3 by decide)]
    exact hKnows

section Arms

variable {condition x y : Reg} {s₂ s₃ : Stage}

/-- From the end of the first arm to the start of the second. -/
theorem Sound.arms (h : s.Sound callable) (hTrue : Leads callable (s.fork condition) s₂)
    (hx : s₂.Knows x) :
    Extends callable s₂ (s₂.turn (s.body.blocks.length + 2) x (s.body.blocks.length + 1)) ∧
      (s₂.turn (s.body.blocks.length + 2) x (s.body.blocks.length + 1)).waiting =
        (s.body.blocks.length + 2) :: s.waiting ∧
      ∀ r, s.Knows r →
        (s₂.turn (s.body.blocks.length + 2) x (s.body.blocks.length + 1)).Knows r := by
  have hWaiting := hTrue.waiting_eq.trans (waiting_fork s condition)
  have hNext : s.body.blocks.length + 1 ∈ s₂.waiting := by simp [hWaiting]
  have hLength := s.length_fork condition
  refine ⟨hTrue.sound.turn hx ?_ hNext, ?_, ?_⟩
  · exact h.admits_meet hTrue.toExtends (fun r hr => hTrue.knows r (h.knows_fork _ hr)) x
  · show s₂.waiting.erase (s.body.blocks.length + 1) = _
    rw [hWaiting, List.erase_cons_tail (by simp), List.erase_cons_head]
  · intro r hr
    refine (knows_leave hTrue.sound _ hNext).mpr (.inl ?_)
    rw [hTrue.before_eq _ (by rw [hLength]; exact Nat.add_lt_add_left (show 1 < 3 by decide) _),
      h.before_fork condition (show 1 < 3 by decide)]
    exact hr

/-- From the end of the second arm to the block where the arms meet. -/
theorem Sound.meets (h : s.Sound callable) (hTrue : Leads callable (s.fork condition) s₂)
    (hx : s₂.Knows x)
    (hFalse : Leads callable
      (s₂.turn (s.body.blocks.length + 2) x (s.body.blocks.length + 1)) s₃) (hy : s₃.Knows y) :
    Extends callable s₃ (s₃.turn (s.body.blocks.length + 2) y (s.body.blocks.length + 2)) ∧
      (s₃.turn (s.body.blocks.length + 2) y (s.body.blocks.length + 2)).waiting = s.waiting ∧
      (∀ r, s.Knows r →
        (s₃.turn (s.body.blocks.length + 2) y (s.body.blocks.length + 2)).Knows r) ∧
      (s₃.turn (s.body.blocks.length + 2) y (s.body.blocks.length + 2)).Knows
        s.body.regCount := by
  obtain ⟨hArms, hWaiting, hKnows⟩ := h.arms hTrue hx
  have hAll := (hTrue.toExtends.trans hArms).trans hFalse.toExtends
  have hWaiting := hFalse.waiting_eq.trans hWaiting
  have hNext : s.body.blocks.length + 2 ∈ s₃.waiting := by simp [hWaiting]
  have hLength := s.length_fork condition
  have hLt : s.body.blocks.length + 2 < (s.fork condition).body.blocks.length := by
    rw [hLength]
    exact Nat.lt_succ_self _
  refine ⟨hFalse.sound.turn hy ?_ hNext, ?_, ?_, ?_⟩
  · exact h.admits_meet hAll (fun r hr => hFalse.knows r (hKnows r hr)) y
  · show s₃.waiting.erase (s.body.blocks.length + 2) = _
    rw [hWaiting, List.erase_cons_head]
  · intro r hr
    refine (knows_leave hFalse.sound _ hNext).mpr (.inl ?_)
    rw [hAll.before_eq _ hLt, h.before_fork condition (show 2 < 3 by decide)]
    exact hr
  · refine (knows_leave hFalse.sound _ hNext).mpr (.inr ?_)
    rw [hAll.grows.params _ hLt, h.block_fork_meet]
    exact List.mem_singleton.mpr rfl

/-- The entry leads to both arms of a conditional. -/
theorem Sound.joined_fork (h : s.Sound callable) (hJoined : s.Joined) (condition : Reg) :
    (s.fork condition).Joined ∧ (s.fork condition).body.Reached (s.body.blocks.length + 1) := by
  have hOpened : s.opened.Joined := by
    intro label hLt hBusy
    rw [length_opened] at hLt
    rw [waiting_opened] at hBusy
    simp only [List.mem_cons, not_or] at hBusy
    exact h.opened.1.grows.reached (hJoined label (by omega) hBusy.2.2.2)
  have hSound := h.opened.1.sound
  refine ⟨hSound.joined_leave hOpened (.inr List.mem_cons_self), ?_⟩
  exact hSound.reached_leave hOpened _ (List.mem_cons_of_mem _ List.mem_cons_self)

/-- The entry leads to the block where the arms meet. -/
theorem Sound.joined_meets (h : s.Sound callable) (hTrue : Leads callable (s.fork condition) s₂)
    (hFalse : Leads callable
      (s₂.turn (s.body.blocks.length + 2) x (s.body.blocks.length + 1)) s₃) (hJoined : s.Joined) :
    (s₃.turn (s.body.blocks.length + 2) y (s.body.blocks.length + 2)).Joined := by
  obtain ⟨hFork, hSecond⟩ := h.joined_fork hJoined condition
  have hArms : (s₂.turn (s.body.blocks.length + 2) x (s.body.blocks.length + 1)).Joined :=
    hTrue.sound.joined_leave (hTrue.joined hFork) (.inl (hTrue.grows.reached hSecond))
  exact hFalse.sound.joined_leave (hFalse.joined hArms) (.inr List.mem_cons_self)

end Arms

/-! ## Loops -/

/-- End the current block and go on in a new one. -/
def advance (s : Stage) (t : Terminator) : Stage :=
  (s.push []).leave t s.body.blocks.length

theorem Sound.advance (h : s.Sound callable) {t : Terminator} (hClosed : t ≠ .unreachable)
    (hUses : ∀ r ∈ t.uses, s.Knows r)
    (hEdges : ∀ e ∈ t.edges, s.Admits e ∨ e = { target := s.body.blocks.length, args := [] })
    (hThere : s.body.blocks.length ∈ t.successors) : Leads callable s (s.advance t) := by
  have hPush := h.push_nil
  have hKnows := h.knows_push []
  have hNext : s.body.blocks.length ∈ (s.push []).waiting := List.mem_cons_self
  have hLeave : Extends callable (s.push []) (s.advance t) := by
    refine hPush.sound.leave hClosed hNext ?_ ?_
    · rw [hKnows]
      exact hUses
    · intro e he
      rcases hEdges e he with hAdmits | rfl
      · exact hAdmits.of_extends hPush fun r hr => hKnows ▸ hr
      · refine ⟨Nat.ne_of_gt h.certified.entry_lt, ?_, ?_, ?_⟩
        · rw [length_push]
          exact Nat.lt_succ_self _
        · rw [block_push_length]
        · rw [before_push_length, hKnows]
          exact fun r hr => hr
  refine ⟨hPush.trans hLeave, List.erase_cons_head _ _, fun r hr => ?_, fun hJoined => ?_⟩
  · refine (knows_leave hPush.sound t hNext).mpr (.inl ?_)
    rw [before_push_length]
    exact hr
  · exact hPush.sound.joined_leave (hJoined.push hPush.grows) (.inr hThere)

theorem length_advance (s : Stage) (t : Terminator) :
    (s.advance t).body.blocks.length = s.body.blocks.length + 1 :=
  (length_leave _ _).trans (length_push _)

theorem Sound.here_push (h : s.Sound callable) : (s.push []).here = s.here :=
  block_push_of_lt h.current_lt

theorem Sound.here_advance (h : s.Sound callable) (t : Terminator) :
    (s.advance t).here = Block.empty := by
  have hPush := h.push_nil
  exact (here_leave hPush.sound t List.mem_cons_self).trans (block_push_length [])

/-- What the record promises at the new block is known when it starts. -/
theorem Sound.before_advance (h : s.Sound callable) (t : Terminator) {r : Reg}
    (hr : (s.advance t).before s.body.blocks.length r) : (s.advance t).Knows r := by
  have hPush := h.push_nil
  exact (knows_leave hPush.sound t List.mem_cons_self).mpr (.inl hr)

/-- The new block can be entered again, as long as nothing is forgotten. -/
theorem Sound.admits_advance (h : s.Sound callable) {t : Terminator}
    (hTurn : Leads callable (s.advance t) s') :
    s'.Admits { target := s.body.blocks.length, args := [] } := by
  have hLt : s.body.blocks.length < (s.advance t).body.blocks.length := by
    rw [length_advance]
    exact Nat.lt_succ_self _
  have hParams : ((s.advance t).body.block s.body.blocks.length).params = [] :=
    congrArg Block.params (h.here_advance t)
  refine ⟨?_, Nat.lt_of_lt_of_le hLt hTurn.grows.length_le, ?_, ?_⟩
  · rw [hTurn.grows.entry_eq]
    exact Nat.ne_of_gt h.certified.entry_lt
  · rw [hTurn.grows.params _ hLt, hParams]
  · rw [hTurn.before_eq _ hLt]
    exact fun r hr => hTurn.knows r (h.before_advance t hr)

/-- Put the start value of a loop into a new slot. -/
def place (s : Stage) (start : Reg) : Stage :=
  s.freshSlot.append (.store s.body.slots.length start)

/-- Put the start value of a loop into a new slot and go on in a new block. -/
def enter (s : Stage) (start : Reg) : Stage :=
  (s.place start).advance (.jump { target := s.body.blocks.length, args := [] })

theorem length_place (s : Stage) (start : Reg) :
    (s.place start).body.blocks.length = s.body.blocks.length :=
  length_append _ _

theorem builder_enter (s : Stage) (start : Reg) :
    (s.enter start).builder = s.builder.enter start := by
  show (((s.place start).push []).leave _ (s.place start).body.blocks.length).builder = _
  rw [length_place]
  rfl

theorem slot_lt_place (s : Stage) (start : Reg) :
    s.body.slots.length < (s.place start).body.slots.length := by
  rw [place, body_append, body_freshSlot]
  show s.body.slots.length < (s.body.slots ++ [Ownership.unknown]).length
  rw [List.length_append]
  exact Nat.lt_succ_self _

theorem Sound.place (h : s.Sound callable) {start : Reg} (hStart : s.Knows start) :
    Leads callable s (s.place start) := by
  have hSlot := h.freshSlot_leads
  exact hSlot.trans (hSlot.sound.store hStart (s.slot_lt_place start))

theorem Sound.place_enter (h : s.Sound callable) {start : Reg} (hStart : s.Knows start) :
    Leads callable (s.place start) (s.enter start) := by
  refine (h.place hStart).sound.advance (fun hEq => by cases hEq) ?_ ?_ ?_
  · exact fun r hr => absurd hr List.not_mem_nil
  · intro e he
    rw [length_place]
    exact .inr (List.mem_singleton.mp he)
  · rw [length_place]
    exact List.mem_cons_self

theorem Sound.enter (h : s.Sound callable) {start : Reg} (hStart : s.Knows start) :
    Leads callable s (s.enter start) :=
  (h.place hStart).trans (h.place_enter hStart)

theorem slot_lt_enter (s : Stage) (start : Reg) :
    s.body.slots.length < (s.enter start).body.slots.length :=
  s.slot_lt_place start

/-- At the end of its body a loop may go back to its start. -/
theorem Sound.admits_loop (h : s.Sound callable) {start : Reg} (hStart : s.Knows start)
    (hTurn : Leads callable (s.enter start) s') :
    s'.Admits { target := s.body.blocks.length, args := [] } := by
  rw [← length_place s start]
  exact (h.place hStart).sound.admits_advance hTurn

/-- Add the step to the variable of a loop. -/
def raise (s : Stage) (slot : Slot) (step : Reg) : Stage :=
  ((s.write (.load s.body.regCount slot)).write
    (.arith .add (s.body.regCount + 1) s.body.regCount step)).append
      (.store slot (s.body.regCount + 1))

theorem Sound.raise (h : s.Sound callable) {slot : Slot} {step : Reg}
    (hSlot : slot < s.body.slots.length) (hStep : s.Knows step) :
    Leads callable s (s.raise slot step) := by
  obtain ⟨hLoad, hOld⟩ := h.write (i := .load s.body.regCount slot) rfl
    (fun r hr => absurd hr List.not_mem_nil) hSlot
  obtain ⟨hAdd, hNew⟩ := hLoad.sound.write
    (i := .arith .add (s.body.regCount + 1) s.body.regCount step) rfl
    (by
      intro r hr
      rcases List.mem_cons.mp hr with rfl | hr
      · exact hOld
      · rw [List.mem_singleton.mp hr]
        exact hLoad.knows step hStep)
    trivial
  exact (hLoad.trans hAdd).trans (hAdd.sound.store hNew hSlot)

/-- Raise the variable of a loop, branch to the start of the loop or to a new block, and go on
there. -/
def close (s : Stage) (loop : Label) (slot : Slot) (step goOn : Reg) : Stage :=
  (s.raise slot step).advance (.branch goOn { target := loop, args := [] }
    { target := (s.raise slot step).body.blocks.length, args := [] })

theorem Sound.raise_close (h : s.Sound callable) {loop : Label} {slot : Slot} {step goOn : Reg}
    (hSlot : slot < s.body.slots.length) (hStep : s.Knows step) (hGoOn : s.Knows goOn)
    (hLoop : s.Admits { target := loop, args := [] }) :
    Leads callable (s.raise slot step) (s.close loop slot step goOn) := by
  have hRaise := h.raise hSlot hStep
  refine hRaise.sound.advance (fun hEq => by cases hEq) ?_ ?_ ?_
  · intro r hr
    rw [List.mem_singleton.mp hr]
    exact hRaise.knows goOn hGoOn
  · intro e he
    rcases List.mem_cons.mp he with rfl | he
    · exact .inl (hLoop.of_extends hRaise.toExtends hRaise.knows)
    · exact .inr (List.mem_singleton.mp he)
  · exact List.mem_cons_of_mem _ List.mem_cons_self

theorem Sound.close (h : s.Sound callable) {loop : Label} {slot : Slot} {step goOn : Reg}
    (hSlot : slot < s.body.slots.length) (hStep : s.Knows step) (hGoOn : s.Knows goOn)
    (hLoop : s.Admits { target := loop, args := [] }) :
    Leads callable s (s.close loop slot step goOn) :=
  (h.raise hSlot hStep).trans (h.raise_close hSlot hStep hGoOn hLoop)

end Stage

namespace Lowering

open Stage

/-- What a name stands for can be called with so many values. -/
def Names.Callable (names : Names) (f : FuncId) (count : Nat) : Prop :=
  ∃ name binding, names.callee name = some binding ∧ binding.func = f ∧ binding.arity = count

/-- The variables in scope are in slots of a body. -/
def Scope.InBody (scope : Scope) (body : Body) : Prop :=
  ∀ entry ∈ scope, entry.2 < body.slots.length

theorem Scope.InBody.grows {scope : Scope} {body after : Body} (h : scope.InBody body)
    (hGrows : body.Grows after) : scope.InBody after :=
  fun entry hEntry => Nat.lt_of_lt_of_le (h entry hEntry) hGrows.slots_le

/-- The variable of a loop joins the scope. -/
theorem Scope.InBody.inner_enter {scope : Scope} {s : Stage} (h : scope.InBody s.body)
    (loopVar : String) (start : Reg) (hGrows : s.body.Grows (s.enter start).body) :
    Scope.InBody ((loopVar, s.body.slots.length) :: scope) (s.enter start).body := by
  intro entry hEntry
  rcases List.mem_cons.mp hEntry with rfl | hEntry
  · exact s.slot_lt_enter start
  · exact h.grows hGrows entry hEntry

theorem Scope.InBody.lookup {scope : Scope} {body : Body} {name : String} {slot : Slot}
    (h : scope.InBody body) (hSlot : scope.lookup name = some slot) :
    slot < body.slots.length := by
  induction scope with
  | nil => cases hSlot
  | cons entry rest ih =>
    obtain ⟨key, value⟩ := entry
    rw [List.lookup_cons] at hSlot
    split at hSlot
    · obtain rfl := Option.some.inj hSlot
      exact h _ List.mem_cons_self
    · exact ih (fun other hOther => h other (List.mem_cons_of_mem _ hOther)) hSlot

theorem operatorInstr_spec {op : Char} {left right : Reg} {i : Reg → Instr}
    (h : operatorInstr? op left right = some i) (dst : Reg) :
    (i dst).dst = some dst ∧ (i dst).uses = [left, right] ∧
      ∀ callable arity slotCount, (i dst).Legal callable arity slotCount := by
  unfold operatorInstr? at h
  split at h
  all_goals first
    | (obtain rfl := Option.some.inj h; exact ⟨rfl, rfl, fun _ _ _ => trivial⟩)
    | cases h

/-- A computation leads from a stage to one that knows the result. -/
def Computes (callable : FuncId → Nat → Prop) (s : Stage) (r : Reg) (b' : Builder) : Prop :=
  ∃ s', s'.builder = b' ∧ Leads callable s s' ∧ s'.Knows r ∧ r < s'.body.regCount

theorem computes_write {callable : FuncId → Nat → Prop} {s : Stage} (h : s.Sound callable)
    {i : Instr} (hDst : i.dst = some s.body.regCount) (hUses : ∀ r ∈ i.uses, s.Knows r)
    (hLegal : i.Legal callable s.body.arity s.body.slots.length) :
    Computes callable s s.body.regCount (s.builder.write i) := by
  obtain ⟨hLeads, hKnows⟩ := h.write hDst hUses hLegal
  exact ⟨s.write i, rfl, hLeads, hKnows, Nat.lt_succ_self _⟩

/-- From every sound stage, computing an expression leads to one that knows the result. -/
def Progresses (names : Names) (e : Expr) : Prop :=
  ∀ {scope : Scope} {s : Stage} {r : Reg} {b' : Builder}, s.Sound names.Callable →
    scope.InBody s.body → (compute names scope e).run s.builder = .ok (r, b') →
    Computes names.Callable s r b'

/-- Computing arguments one after another. -/
theorem computeAll_leads {names : Names} {args : List Expr}
    (hEach : ∀ arg ∈ args, Progresses names arg) : ∀ {scope : Scope} {s : Stage}
    {values : List Reg} {b' : Builder}, s.Sound names.Callable → scope.InBody s.body →
    (computeAll names scope args).run s.builder = .ok (values, b') →
    ∃ s', s'.builder = b' ∧ Leads names.Callable s s' ∧ (∀ r ∈ values, s'.Knows r) ∧
      values.length = args.length := by
  induction args with
  | nil =>
    intro scope s values b' hSound _ hRun
    obtain ⟨rfl, rfl⟩ := computeAll_nil_ok hRun
    exact ⟨s, rfl, Leads.refl hSound, fun r hr => absurd hr List.not_mem_nil, rfl⟩
  | cons arg rest ih =>
    intro scope s values b' hSound hScope hRun
    obtain ⟨x, b₁, xs, hArg, hRest, rfl⟩ := computeAll_cons_ok hRun
    obtain ⟨s₁, rfl, hLeads₁, hx, -⟩ := hEach arg List.mem_cons_self hSound hScope hArg
    obtain ⟨s₂, hBuilder, hLeads₂, hxs, hLength⟩ :=
      ih (fun other hOther => hEach other (List.mem_cons_of_mem _ hOther)) hLeads₁.sound
        (hScope.grows hLeads₁.grows) hRest
    refine ⟨s₂, hBuilder, hLeads₁.trans hLeads₂, ?_, congrArg (· + 1) hLength⟩
    intro r hr
    rcases List.mem_cons.mp hr with rfl | hr
    · exact hLeads₂.knows _ hx
    · exact hxs r hr

/-- Computing the step of a loop. -/
theorem computeStep_leads {names : Names} {step : Option Expr}
    (hStep : ∀ e, step = some e → Progresses names e) {scope : Scope} {s : Stage} {r : Reg}
    {b' : Builder} (hSound : s.Sound names.Callable) (hScope : scope.InBody s.body)
    (hRun : (computeStep names scope step).run s.builder = .ok (r, b')) :
    Computes names.Callable s r b' := by
  cases step with
  | none =>
    obtain ⟨rfl, rfl⟩ := computeStep_none_ok hRun
    exact computes_write hSound rfl (fun r hr => absurd hr List.not_mem_nil) trivial
  | some e => exact hStep e rfl hSound hScope (computeStep_some_ok hRun)

/-- Computing what a loop does in one turn: its body, its step and its end condition. -/
theorem turn_leads {names : Names} {turnBody finish : Expr} {step : Option Expr}
    (ihBody : Progresses names turnBody) (ihStep : ∀ e, step = some e → Progresses names e)
    (ihFinish : Progresses names finish) {inner : Scope} {s : Stage} {unused increment goOn : Reg}
    {b₂ b₃ b₄ : Builder} (hSound : s.Sound names.Callable) (hInner : inner.InBody s.body)
    (hBody : (compute names inner turnBody).run s.builder = .ok (unused, b₂))
    (hStep : (computeStep names inner step).run b₂ = .ok (increment, b₃))
    (hFinish : (compute names inner finish).run b₃ = .ok (goOn, b₄)) :
    ∃ s', s'.builder = b₄ ∧ Leads names.Callable s s' ∧
      (s'.Knows increment ∧ increment < s'.body.regCount) ∧
      s'.Knows goOn ∧ goOn < s'.body.regCount := by
  obtain ⟨s₂, rfl, hLeads₂, -, -⟩ := ihBody hSound hInner hBody
  have hInner₂ := hInner.grows hLeads₂.grows
  obtain ⟨s₃, rfl, hLeads₃, hIncrement, hLt⟩ :=
    computeStep_leads ihStep hLeads₂.sound hInner₂ hStep
  obtain ⟨s₄, rfl, hLeads₄, hGoOn, hGoOnLt⟩ :=
    ihFinish hLeads₃.sound (hInner₂.grows hLeads₃.grows) hFinish
  exact ⟨s₄, rfl, (hLeads₂.trans hLeads₃).trans hLeads₄,
    ⟨hLeads₄.knows _ hIncrement, Nat.lt_of_lt_of_le hLt hLeads₄.grows.regCount_le⟩, hGoOn,
    hGoOnLt⟩

/-- Computing a conditional: both arms lead to the block where they meet. -/
theorem progresses_ifThenElse {names : Names} {condition onTrue onFalse : Expr}
    (ihCondition : Progresses names condition) (ihTrue : Progresses names onTrue)
    (ihFalse : Progresses names onFalse) :
    Progresses names (.ifThenElse condition onTrue onFalse) := by
  intro scope s r b' hSound hScope hRun
  obtain ⟨c, b₁, x, b₂, y, b₃, hCondition, hTrue, hFalse, rfl, rfl⟩ := compute_ifThenElse_ok hRun
  obtain ⟨s₁, rfl, hLeads₁, hc, -⟩ := ihCondition hSound hScope hCondition
  have hFork := hLeads₁.sound.fork hc
  have hScope₁ := hScope.grows hLeads₁.grows
  obtain ⟨s₂, rfl, hLeads₂, hx, -⟩ := ihTrue hFork.sound (hScope₁.grows hFork.grows) hTrue
  obtain ⟨hArms, -, -⟩ := hLeads₁.sound.arms hLeads₂ hx
  have hFirst := (hFork.trans hLeads₂.toExtends).trans hArms
  obtain ⟨s₃, rfl, hLeads₃, hy, -⟩ := ihFalse hArms.sound (hScope₁.grows hFirst.grows) hFalse
  obtain ⟨hMeets, hWaiting, hKnows, hResult⟩ := hLeads₁.sound.meets hLeads₂ hx hLeads₃ hy
  have hAll := (hFirst.trans hLeads₃.toExtends).trans hMeets
  have hIf := hLeads₁.trans
    ⟨hAll, hWaiting, hKnows, hLeads₁.sound.joined_meets hLeads₂ hLeads₃⟩
  refine ⟨_, rfl, hIf, hResult, ?_⟩
  -- The result of both arms was handed out at the fork.
  have hFresh : s₁.body.regCount < (s₁.fork c).body.regCount := Nat.lt_succ_self _
  have hLater := (hLeads₂.toExtends.trans hArms).trans (hLeads₃.toExtends.trans hMeets)
  exact Nat.lt_of_lt_of_le hFresh hLater.grows.regCount_le

/-- Computing a loop: its turn leads back to the block that it starts with. -/
theorem progresses_forLoop {names : Names} {loopVar : String} {start finish turnBody : Expr}
    {step : Option Expr} (ihStart : Progresses names start) (ihFinish : Progresses names finish)
    (ihStep : ∀ e, step = some e → Progresses names e) (ihBody : Progresses names turnBody) :
    Progresses names (.forLoop loopVar start finish step turnBody) := by
  intro scope s r b' hSound hScope hRun
  obtain ⟨first, b₁, unused, b₂, increment, b₃, goOn, b₄, hStart, hBody, hStep, hFinish, rfl,
    rfl⟩ := compute_forLoop_ok hRun
  obtain ⟨s₁, rfl, hLeads₁, hFirst, -⟩ := ihStart hSound hScope hStart
  have hEnter := hLeads₁.sound.enter hFirst
  have hInner := (hScope.grows hLeads₁.grows).inner_enter loopVar first hEnter.grows
  rw [← builder_enter] at hBody
  obtain ⟨s₄, rfl, hTurn, ⟨hIncrement, -⟩, hGoOn, -⟩ :=
    turn_leads ihBody ihStep ihFinish hEnter.sound hInner hBody hStep hFinish
  have hClose := hTurn.sound.close
    (Nat.lt_of_lt_of_le (s₁.slot_lt_enter first) hTurn.grows.slots_le) hIncrement hGoOn
    (hLeads₁.sound.admits_loop hFirst hTurn)
  obtain ⟨s₅, hBuilder, hLeads₅, hKnows, hLt⟩ := computes_write hClose.sound
    (i := .const (s₄.body.regCount + 2) 0.0) rfl (fun r hr => absurd hr List.not_mem_nil) trivial
  exact ⟨s₅, hBuilder, (((hLeads₁.trans hEnter).trans hTurn).trans hClose).trans hLeads₅, hKnows,
    hLt⟩

/-- Computing an expression from a sound stage leads to a sound stage that knows the result. -/
theorem compute_leads (names : Names) (e : Expr) : Progresses names e := by
  induction e using Expr.induction with
  | number value =>
    intro scope s r b' hSound _ hRun
    obtain ⟨rfl, rfl⟩ := compute_number_ok hRun
    exact computes_write hSound rfl (fun r hr => absurd hr List.not_mem_nil) trivial
  | var name =>
    intro scope s r b' hSound hScope hRun
    obtain ⟨slot, hSlot, rfl, rfl⟩ := compute_variable_ok hRun
    exact computes_write hSound rfl (fun r hr => absurd hr List.not_mem_nil) (hScope.lookup hSlot)
  | binary op left right ihLeft ihRight =>
    intro scope s r b' hSound hScope hRun
    obtain ⟨l, b₁, k, b₂, i, hLeft, hRight, hOp, rfl, rfl⟩ := compute_binary_ok hRun
    obtain ⟨s₁, rfl, hLeads₁, hl, -⟩ := ihLeft hSound hScope hLeft
    obtain ⟨s₂, rfl, hLeads₂, hk, -⟩ := ihRight hLeads₁.sound (hScope.grows hLeads₁.grows) hRight
    obtain ⟨hDst, hUses, hLegal⟩ := operatorInstr_spec hOp s₂.body.regCount
    obtain ⟨s₃, hBuilder, hLeads₃, hKnows, hLt⟩ := computes_write hLeads₂.sound hDst
      (by
        intro r hr
        rw [hUses] at hr
        rcases List.mem_cons.mp hr with rfl | hr
        · exact hLeads₂.knows _ hl
        · rw [List.mem_singleton.mp hr]
          exact hk)
      (hLegal _ _ _)
    exact ⟨s₃, hBuilder, (hLeads₁.trans hLeads₂).trans hLeads₃, hKnows, hLt⟩
  | call name args ih =>
    intro scope s r b' hSound hScope hRun
    obtain ⟨binding, values, b₁, hCallee, hArity, hArgs, rfl, rfl⟩ := compute_call_ok hRun
    obtain ⟨s₁, rfl, hLeads₁, hValues, hLength⟩ := computeAll_leads ih hSound hScope hArgs
    obtain ⟨s₂, hBuilder, hLeads₂, hKnows, hLt⟩ := computes_write hLeads₁.sound
      (i := .call s₁.body.regCount binding.func values) rfl hValues
      ⟨name, binding, hCallee, rfl, hArity.trans hLength.symm⟩
    exact ⟨s₂, hBuilder, hLeads₁.trans hLeads₂, hKnows, hLt⟩
  | ifThenElse condition onTrue onFalse ihCondition ihTrue ihFalse =>
    exact progresses_ifThenElse ihCondition ihTrue ihFalse
  | forLoop loopVar start finish step body ihStart ihFinish ihStep ihBody =>
    exact progresses_forLoop ihStart ihFinish ihStep ihBody

end Lowering

end LiveCompiler
