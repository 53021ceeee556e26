import LiveCompiler.Proofs.Ir.Run
import LiveCompiler.Proofs.Lowering.Progress

/-!
# Running the code that a builder has made so far

A builder stands for a place in the final body: the end of what its current block holds.
`Arrives` says that running from one place with one store comes to another place with another
store.

`Simulates` relates the code between two builders to an evaluation.  What evaluates is
simulated by the code; and if a run through the code ever halts, then the evaluation ends.  The
second half speaks of no store, as the first half gives it.  Simulations compose
(`Simulates.bind`), so an expression is treated part by part.
-/

namespace LiveCompiler

open Ir

/-- Run a body from the place that a builder stands for. -/
def Builder.execIn (c : Setting) (body : Body) (count : Nat) (b : Builder) (s : Store) :
    Option (Float × List Call) :=
  body.exec c count ((body.block b.current).instrs.drop (b.body.block b.current).instrs.length)
    (body.block b.current).terminator s

/-- Running from a place with a store comes, after so many blocks, to another place and store. -/
def ArrivesIn (c : Setting) (body : Body) (n : Nat) (b : Builder) (s : Store) (b' : Builder)
    (s' : Store) : Prop :=
  ∀ count, b.execIn c body (count + n) s = b'.execIn c body count s'

/-- Running from a place with a store comes to another place and store. -/
def Arrives (c : Setting) (body : Body) (b : Builder) (s : Store) (b' : Builder) (s' : Store) :
    Prop :=
  ∃ n, ArrivesIn c body n b s b' s'

/-- A run from a place halts within so many blocks. -/
def Halts (c : Setting) (body : Body) (count : Nat) (b : Builder) (s : Store) : Prop :=
  (b.execIn c body count s).isSome = true

section Places

variable {c : Setting} {body : Body} {b b' b'' : Builder} {s s' s'' : Store} {n m count : Nat}

theorem ArrivesIn.trans (h : ArrivesIn c body n b s b' s') (h' : ArrivesIn c body m b' s' b'' s'') :
    ArrivesIn c body (m + n) b s b'' s'' := by
  intro count
  rw [← Nat.add_assoc, h, h']

theorem Arrives.trans (h : Arrives c body b s b' s') (h' : Arrives c body b' s' b'' s'') :
    Arrives c body b s b'' s'' := by
  obtain ⟨n, hn⟩ := h
  obtain ⟨m, hm⟩ := h'
  exact ⟨m + n, hn.trans hm⟩

theorem Arrives.refl (c : Setting) (body : Body) (b : Builder) (s : Store) :
    Arrives c body b s b s :=
  ⟨0, fun _ => rfl⟩

theorem Halts.mono (h : Halts c body n b s) (hLe : n ≤ m) : Halts c body m b s := by
  obtain ⟨result, hResult⟩ := Option.isSome_iff_exists.mp h
  exact Option.isSome_iff_exists.mpr ⟨result, Body.exec_mono hResult hLe⟩

/-- A run that halts still halts from a place that it comes to. -/
theorem Arrives.halts (h : Arrives c body b s b' s') (hHalts : Halts c body count b s) :
    Halts c body count b' s' := by
  obtain ⟨n, hn⟩ := h
  have hMore := hHalts.mono (Nat.le_add_right count n)
  unfold Halts at hMore
  rwa [hn] at hMore

/-- A run that halts needs fewer blocks from a place that it comes to. -/
theorem ArrivesIn.halts_lt (h : ArrivesIn c body n b s b' s') (hPos : 0 < n)
    (hHalts : Halts c body count b s) : ∃ fewer, fewer < count ∧ Halts c body fewer b' s' := by
  by_cases hLe : n ≤ count
  · refine ⟨count - n, ?_, ?_⟩
    · omega
    · have hSplit := h (count - n)
      rw [Nat.sub_add_cancel hLe] at hSplit
      unfold Halts at hHalts ⊢
      rwa [← hSplit]
  · have hMore := hHalts.mono (Nat.le_of_lt (Nat.lt_of_not_le hLe))
    have hNone := h 0
    rw [Nat.zero_add] at hNone
    unfold Halts at hMore
    rw [hNone] at hMore
    cases hMore

/-- A place at the start of a block. -/
theorem execIn_start {label : Label} (hCurrent : b.current = label)
    (hEmpty : (b.body.block label).instrs = []) :
    b.execIn c body count s = body.execFrom c count label s := by
  unfold Builder.execIn Body.execFrom
  rw [hCurrent, hEmpty]
  rfl

end Places

/-! ## Steps of a builder -/

namespace Stage

variable {callable : FuncId → Nat → Prop} {c : Setting} {body : Body} {st : Stage} {s : Store}

/-- Running an instruction that was appended. -/
theorem arrives_append (h : st.Sound callable) {i : Instr}
    (hGrows : (st.append i).body.Grows body) :
    Arrives c body st.builder s (st.append i).builder (i.effect c s) := by
  refine ⟨0, fun count => ?_⟩
  have hLt : st.current < (st.append i).body.blocks.length := by
    rw [length_append]
    exact h.current_lt
  have hHere : ((st.append i).body.block st.current).instrs = st.here.instrs ++ [i] :=
    congrArg Block.instrs (here_append h i)
  obtain ⟨rest, hRest⟩ := hGrows.instrs st.current hLt
  rw [hHere] at hRest
  show body.exec c count ((body.block st.current).instrs.drop st.here.instrs.length) _ s =
    body.exec c count ((body.block st.current).instrs.drop
      ((st.append i).body.block st.current).instrs.length) _ _
  rw [hHere, ← hRest, List.drop_left, List.append_assoc, List.drop_left]
  exact body.exec_append c count [i] rest _ s

/-- Running an instruction that writes the next register. -/
theorem arrives_write (h : st.Sound callable) {i : Instr}
    (hGrows : (st.write i).body.Grows body) :
    Arrives c body st.builder s (st.write i).builder (i.effect c s) :=
  arrives_append h.freshReg.sound hGrows

/-- Leaving a block for the start of another one. -/
theorem arrives_leave (h : st.Sound callable) {t : Terminator} {next target : Label}
    (hClosed : t ≠ .unreachable) (hGrows : (st.leave t next).body.Grows body)
    {values : List Float} (hExit : t.exit s.regs = .goto target values) {b' : Builder}
    (hCurrent : b'.current = target) (hEmpty : (b'.body.block target).instrs = []) :
    ArrivesIn c body 1 st.builder s b' (s.bind (body.block target).params values) := by
  intro count
  have hLt : st.current < (st.leave t next).body.blocks.length := by
    rw [length_leave]
    exact h.current_lt
  have hBlock := block_leave_current h t next
  have hHere : body.block st.current = { st.here with terminator := t } := by
    rw [hGrows.closed st.current hLt (by rw [hBlock]; exact hClosed), hBlock]
  have hDrop : (body.block st.current).instrs.drop st.here.instrs.length = [] := by
    rw [hHere]
    exact List.drop_length
  rw [execIn_start hCurrent hEmpty]
  show body.exec c (count + 1) ((body.block st.current).instrs.drop st.here.instrs.length) _ s = _
  rw [hDrop, Body.exec_succ, Store.run_nil, hHere, hExit]

/-- Opening blocks does not move the place. -/
theorem arrives_same (st st' : Stage) (hCurrent : st'.current = st.current)
    (hHere : st'.here = st.here) (s : Store) : ArrivesIn c body 0 st.builder s st'.builder s := by
  intro count
  show body.exec c count ((body.block st.current).instrs.drop st.here.instrs.length)
      (body.block st.current).terminator s =
    body.exec c count ((body.block st'.current).instrs.drop st'.here.instrs.length)
      (body.block st'.current).terminator s
  rw [hHere, hCurrent]

end Stage

/-! ## Stores -/

/-- The registers and slots that a builder has handed out are kept. -/
structure Keeps (b : Builder) (s s' : Store) : Prop where
  regs : ∀ r, r < b.body.regCount → s'.regs r = s.regs r
  slots : ∀ slot, slot < b.body.slots.length → s'.slots slot = s.slots slot

theorem Keeps.refl (b : Builder) (s : Store) : Keeps b s s :=
  ⟨fun _ _ => rfl, fun _ _ => rfl⟩

theorem Keeps.of_grows {b b' : Builder} {s s' : Store} (h : Keeps b' s s')
    (hGrows : b.body.Grows b'.body) : Keeps b s s' :=
  ⟨fun r hr => h.regs r (Nat.lt_of_lt_of_le hr hGrows.regCount_le),
    fun slot hSlot => h.slots slot (Nat.lt_of_lt_of_le hSlot hGrows.slots_le)⟩

theorem Keeps.trans {b : Builder} {s s' s'' : Store} (h : Keeps b s s') (h' : Keeps b s' s'') :
    Keeps b s s'' :=
  ⟨fun r hr => (h'.regs r hr).trans (h.regs r hr),
    fun slot hSlot => (h'.slots slot hSlot).trans (h.slots slot hSlot)⟩

/-- Writing a register that was not handed out before. -/
theorem keeps_effect {b : Builder} {c : Setting} {s : Store} {i : Instr} {dst : Reg}
    (hDst : i.dst = some dst) (hLe : b.body.regCount ≤ dst) (hStored : i.stored = none) :
    Keeps b s (i.effect c s) := by
  constructor
  · intro r hr
    refine Instr.regs_effect_of_ne ?_
    rw [hDst]
    exact fun hEq => absurd (Option.some.inj hEq) (Nat.ne_of_gt (Nat.lt_of_lt_of_le hr hLe))
  · intro slot _
    simp [Instr.effect, hStored]

/-- Handing the value of an arm to the block where the arms meet. -/
theorem Stage.arrives_turn {callable : FuncId → Nat → Prop} {c : Setting} {body : Body} {st : Stage}
    (h : st.Sound callable) {meet next : Label} {value result : Reg}
    (hGrows : (st.turn meet value next).body.Grows body)
    (hParams : (body.block meet).params = [result]) {b b' : Builder} (hCurrent : b'.current = meet)
    (hEmpty : (b'.body.block meet).instrs = []) (hFresh : b.body.regCount ≤ result) (s : Store) :
    ∃ s', Arrives c body st.builder s b' s' ∧ Keeps b s s' ∧ s'.regs result = s.regs value ∧
      s'.calls = s.calls := by
  have hArrives := arrives_leave (c := c) (s := s) h (fun hEq => by cases hEq) hGrows
    (show _ = Exit.goto meet [s.regs value] from rfl) hCurrent hEmpty
  rw [hParams] at hArrives
  refine ⟨_, ⟨1, hArrives⟩, ⟨fun r hr => ?_, fun _ _ => rfl⟩, if_pos rfl, rfl⟩
  exact if_neg (Nat.ne_of_lt (Nat.lt_of_lt_of_le hr hFresh))

/-- Going from a conditional to the arm that is taken: the first if the condition holds, else the
second. -/
theorem Stage.arrives_fork {callable : FuncId → Nat → Prop} {c : Setting} {body : Body} {st : Stage}
    (h : st.Sound callable) {k : Reg} (hGrows : (st.fork k).body.Grows body) {s : Store} {n : Nat}
    (hTaken : n = if countsAsTrue (s.regs k) then 0 else 1) {b' : Builder}
    (hCurrent : b'.current = st.body.blocks.length + n)
    (hEmpty : (b'.body.block (st.body.blocks.length + n)).instrs = []) :
    Arrives c body st.builder s b' s := by
  have hn : n < 2 := by
    rw [hTaken]
    split <;> decide
  have hLt : st.body.blocks.length + n < (st.fork k).body.blocks.length := by
    rw [length_fork]
    exact Nat.add_lt_add_left (Nat.lt_succ_of_lt hn) _
  have hParams : (body.block (st.body.blocks.length + n)).params = [] := by
    rw [hGrows.params _ hLt, h.block_fork_arm k hn]
    rfl
  have hExit : (Terminator.branch k { target := st.body.blocks.length, args := [] }
      { target := st.body.blocks.length + 1, args := [] }).exit s.regs =
        .goto (st.body.blocks.length + n) [] := by
    rw [hTaken, Terminator.exit]
    split <;> rfl
  have hSame : ArrivesIn c body 0 st.builder s st.opened.builder s :=
    arrives_same st st.opened rfl h.here_opened s
  have hJump := arrives_leave (c := c) h.opened.1.sound (fun hEq => by cases hEq) hGrows hExit
    hCurrent hEmpty
  rw [hParams] at hJump
  exact ⟨1, hSame.trans hJump⟩

section Loops

variable {callable : FuncId → Nat → Prop} {c : Setting} {body : Body} {st : Stage} {s : Store}

/-- Leaving a block for the start of another one that takes no values. -/
theorem Stage.arrives_advance (h : st.Sound callable) {t : Terminator} {target : Label}
    (hClosed : t ≠ .unreachable) (hGrows : (st.advance t).body.Grows body)
    (hExit : t.exit s.regs = .goto target []) (hParams : (body.block target).params = [])
    {b' : Builder} (hCurrent : b'.current = target)
    (hEmpty : (b'.body.block target).instrs = []) : ArrivesIn c body 1 st.builder s b' s := by
  have hSame : ArrivesIn c body 0 st.builder s (st.push []).builder s :=
    arrives_same st (st.push []) rfl h.here_push s
  have hJump := arrives_leave (c := c) h.push_nil.sound hClosed hGrows hExit hCurrent hEmpty
  rw [hParams] at hJump
  exact hSame.trans hJump

/-- The block that a stage went on to takes no values. -/
theorem Stage.params_advance (h : st.Sound callable) {t : Terminator}
    (hGrows : (st.advance t).body.Grows body) :
    (body.block st.body.blocks.length).params = [] := by
  have hLt : st.body.blocks.length < (st.advance t).body.blocks.length := by
    rw [length_advance]
    exact Nat.lt_succ_self _
  rw [hGrows.params _ hLt]
  exact congrArg Block.params (h.here_advance t)

/-- The block that a loop starts with takes no values. -/
theorem Stage.Sound.params_enter (h : st.Sound callable) {start : Reg} (hStart : st.Knows start)
    (hGrows : (st.enter start).body.Grows body) : (body.block st.body.blocks.length).params = [] := by
  rw [← length_place st start]
  exact params_advance (h.place hStart).sound hGrows

/-- The block that a loop starts with is empty at first. -/
theorem Stage.Sound.instrs_enter (h : st.Sound callable) {start : Reg} (hStart : st.Knows start) :
    ((st.enter start).body.block st.body.blocks.length).instrs = [] := by
  rw [← length_place st start]
  exact congrArg Block.instrs ((h.place hStart).sound.here_advance _)

/-- Putting a value into a new slot. -/
theorem Stage.arrives_place (h : st.Sound callable) {start : Reg}
    (hGrows : (st.place start).body.Grows body) (s : Store) :
    ∃ s', Arrives c body st.builder s (st.place start).builder s' ∧ Keeps st.builder s s' ∧
      s'.slots st.body.slots.length = s.regs start ∧ s'.calls = s.calls := by
  have hSlot : ArrivesIn c body 0 st.builder s st.freshSlot.builder s :=
    arrives_same st st.freshSlot rfl rfl s
  have hStore : Arrives c body st.freshSlot.builder s (st.place start).builder
      ((Instr.store st.body.slots.length start).effect c s) :=
    arrives_append h.freshSlot.sound hGrows
  refine ⟨_, Arrives.trans ⟨0, hSlot⟩ hStore, ⟨fun r hr => ?_, ?_⟩, if_pos rfl, List.append_nil _⟩
  · exact Instr.regs_effect_of_ne (fun hEq => by cases hEq)
  · intro slot hLt
    exact if_neg fun hEq => Nat.ne_of_gt hLt (Option.some.inj hEq)

/-- Putting the start value of a loop into its slot and going to its first block. -/
theorem Stage.arrives_enter (h : st.Sound callable) {start : Reg} (hStart : st.Knows start)
    (hGrows : (st.enter start).body.Grows body) (s : Store) :
    ∃ s', Arrives c body st.builder s (st.enter start).builder s' ∧ Keeps st.builder s s' ∧
      s'.slots st.body.slots.length = s.regs start ∧ s'.calls = s.calls := by
  have hPlace := h.place hStart
  have hJump := h.place_enter hStart
  obtain ⟨s', hArrives, hKeeps, hValue, hCalls⟩ :=
    arrives_place (c := c) h (hJump.grows.trans hGrows) s
  have hEnter : ArrivesIn c body 1 (st.place start).builder s' (st.enter start).builder s' :=
    arrives_advance hPlace.sound (fun hEq => by cases hEq) hGrows rfl (h.params_enter hStart hGrows)
      (length_place st start) (h.instrs_enter hStart)
  exact ⟨s', hArrives.trans ⟨1, hEnter⟩, hKeeps, hValue, hCalls⟩

/-- Adding the step to the variable of a loop. -/
theorem Stage.arrives_raise (h : st.Sound callable) {slot : Slot} {step : Reg}
    (hSlot : slot < st.body.slots.length) (hStep : st.Knows step) (hLt : step < st.body.regCount)
    (hGrows : (st.raise slot step).body.Grows body) (s : Store) :
    ∃ s', Arrives c body st.builder s (st.raise slot step).builder s' ∧
      (∀ r, r < st.body.regCount → s'.regs r = s.regs r) ∧
      (∀ other, s'.slots other = if other = slot then s.slots slot + s.regs step
        else s.slots other) ∧ s'.calls = s.calls := by
  -- A load, an addition and a store; the first two write new registers.
  obtain ⟨hLoad, hOld⟩ := h.write (i := .load st.body.regCount slot) rfl
    (fun r hr => absurd hr List.not_mem_nil) hSlot
  obtain ⟨hAdd, hNew⟩ := hLoad.sound.write
    (i := .arith .add (st.body.regCount + 1) st.body.regCount step) rfl
    (by
      intro r hr
      rcases List.mem_cons.mp hr with rfl | hr
      · exact hOld
      · rw [List.mem_singleton.mp hr]
        exact hLoad.knows step hStep)
    trivial
  have hGrowsAdd := (hAdd.sound.store hNew hSlot).grows.trans hGrows
  have hFirst := arrives_write (c := c) (s := s) h (hAdd.grows.trans hGrowsAdd)
  generalize hs₁ : (Instr.load st.body.regCount slot).effect c s = s₁ at hFirst
  have hSecond := arrives_write (c := c) (s := s₁) hLoad.sound hGrowsAdd
  generalize hs₂ : (Instr.arith .add (st.body.regCount + 1) st.body.regCount step).effect c s₁ = s₂
    at hSecond
  have hThird := arrives_append (c := c) (s := s₂) hAdd.sound hGrows
  have hRegs₁ : ∀ r, s₁.regs r = if r = st.body.regCount then s.slots slot else s.regs r := by
    intro r
    rw [← hs₁]
    simp only [Instr.effect, Instr.dst, Instr.value, Option.some.injEq, eq_comm]
  have hRegs₂ : ∀ r, s₂.regs r = if r = st.body.regCount + 1 then
      s₁.regs st.body.regCount + s₁.regs step else s₁.regs r := by
    intro r
    rw [← hs₂]
    simp only [Instr.effect, Instr.dst, Instr.value, Option.some.injEq, eq_comm, ArithOp.apply]
  have hSlots : s₂.slots = s.slots := by
    rw [← hs₂, ← hs₁]
    rfl
  have hCalls : s₂.calls = s.calls := by
    rw [← hs₂, ← hs₁]
    simp [Instr.effect, Instr.made]
  have hSum : s₂.regs (st.body.regCount + 1) = s.slots slot + s.regs step := by
    rw [hRegs₂, if_pos rfl, hRegs₁, if_pos rfl, hRegs₁, if_neg (Nat.ne_of_lt hLt)]
  refine ⟨_, (hFirst.trans hSecond).trans hThird, ?_, ?_, ?_⟩
  · intro r hr
    show s₂.regs r = _
    rw [hRegs₂, if_neg (Nat.ne_of_lt (Nat.lt_succ_of_lt hr)), hRegs₁, if_neg (Nat.ne_of_lt hr)]
  · intro other
    simp only [Instr.effect, Instr.stored, Instr.value, Option.some.injEq, eq_comm, hSum, hSlots]
  · exact (List.append_nil _).trans hCalls

/-- Ending a turn of a loop: the variable is raised, and the run goes back to the start of the loop
or on behind it. -/
theorem Stage.arrives_close (h : st.Sound callable) {loop : Label} {slot : Slot} {step goOn : Reg}
    (hSlot : slot < st.body.slots.length) (hStep : st.Knows step) (hLt : step < st.body.regCount)
    (hGoOn : st.Knows goOn) (hGoOnLt : goOn < st.body.regCount)
    (hLoop : st.Admits { target := loop, args := [] })
    (hGrows : (st.close loop slot step goOn).body.Grows body)
    (hParams : (body.block loop).params = []) {head : Builder} (hCurrent : head.current = loop)
    (hEmpty : (head.body.block loop).instrs = []) (s : Store) :
    ∃ s', (∀ r, r < st.body.regCount → s'.regs r = s.regs r) ∧
      (∀ other, s'.slots other = if other = slot then s.slots slot + s.regs step
        else s.slots other) ∧ s'.calls = s.calls ∧
      if countsAsTrue (s.regs goOn) then ∃ n, 0 < n ∧ ArrivesIn c body n st.builder s head s'
      else Arrives c body st.builder s (st.close loop slot step goOn).builder s' := by
  have hRaise := h.raise hSlot hStep
  have hLeave := h.raise_close hSlot hStep hGoOn hLoop
  obtain ⟨s', ⟨n, hArrives⟩, hRegs, hSlots, hCalls⟩ :=
    arrives_raise (c := c) h hSlot hStep hLt (hLeave.grows.trans hGrows) s
  refine ⟨s', hRegs, hSlots, hCalls, ?_⟩
  rw [← hRegs goOn hGoOnLt]
  cases hTaken : countsAsTrue (s'.regs goOn) with
  | true =>
    have hBack : ArrivesIn c body 1 (st.raise slot step).builder s' head s' :=
      arrives_advance hRaise.sound (fun hEq => by cases hEq) hGrows (if_pos hTaken) hParams hCurrent
        hEmpty
    exact ⟨1 + n, by omega, hArrives.trans hBack⟩
  | false =>
    have hOn : ArrivesIn c body 1 (st.raise slot step).builder s'
        (st.close loop slot step goOn).builder s' :=
      arrives_advance hRaise.sound (fun hEq => by cases hEq) hGrows
        (if_neg (by rw [hTaken]; decide)) (params_advance hRaise.sound hGrows) rfl
        (congrArg Block.instrs (hRaise.sound.here_advance _))
    exact ⟨1 + n, hArrives.trans hOn⟩

end Loops

/-! ## Simulations -/

/-- The code between two builders simulates an evaluation: what evaluates is observed in the
store, and the evaluation ends if a run through the code halts. -/
structure Simulates {α : Type} (c : Setting) (body : Body) (b b' : Builder) (s : Store)
    (observe : Store → α → Prop) (evaluates : α → List Call → Prop) : Prop where
  forward : ∀ y after, evaluates y after →
    ∃ s', Keeps b s s' ∧ observe s' y ∧ s'.calls = after ∧ Arrives c body b s b' s'
  backward : ∀ count, Halts c body count b s → ∃ y after, evaluates y after

namespace Simulates

variable {α β : Type} {c : Setting} {body : Body} {b b₁ b' : Builder} {s s₁ : Store}
  {observe observe₂ : Store → α → Prop} {observe' : Store → β → Prop}
  {evaluates : α → List Call → Prop}

/-- Straight-line code with one outcome. -/
theorem of_arrives {y : α} (h : Arrives c body b s b' s₁) (hKeeps : Keeps b s s₁)
    (hObserve : observe s₁ y) :
    Simulates c body b b' s observe fun x after => x = y ∧ after = s₁.calls where
  forward := by
    rintro _ _ ⟨rfl, rfl⟩
    exact ⟨s₁, hKeeps, hObserve, rfl, h⟩
  backward _ _ := ⟨y, s₁.calls, rfl, rfl⟩

/-- Code in front. -/
theorem after (hFirst : Arrives c body b s b₁ s₁) (hKeeps : Keeps b s s₁)
    (hGrows : b.body.Grows b₁.body) (h : Simulates c body b₁ b' s₁ observe evaluates) :
    Simulates c body b b' s observe evaluates where
  forward y after hEval := by
    obtain ⟨s', hKeeps', hObserve, hCalls, hArrives⟩ := h.forward y after hEval
    exact ⟨s', hKeeps.trans (hKeeps'.of_grows hGrows), hObserve, hCalls, hFirst.trans hArrives⟩
  backward count hHalts := h.backward count (hFirst.halts hHalts)

/-- One simulation behind another. -/
theorem bind {next : α → List Call → β → List Call → Prop}
    (h : Simulates c body b b₁ s observe evaluates) (hGrows : b.body.Grows b₁.body)
    (hNext : ∀ y middle s₁, evaluates y middle → Keeps b s s₁ → observe s₁ y →
      s₁.calls = middle → Simulates c body b₁ b' s₁ observe' (next y middle)) :
    Simulates c body b b' s observe' fun z after =>
      ∃ y middle, evaluates y middle ∧ next y middle z after where
  forward := by
    rintro z after ⟨y, middle, hEval, hEval'⟩
    obtain ⟨s₁, hKeeps, hObserve, hCalls, hArrives⟩ := h.forward y middle hEval
    obtain ⟨s₂, hKeeps', hObserve', hCalls', hArrives'⟩ :=
      (hNext y middle s₁ hEval hKeeps hObserve hCalls).forward z after hEval'
    exact ⟨s₂, hKeeps.trans (hKeeps'.of_grows hGrows), hObserve', hCalls',
      hArrives.trans hArrives'⟩
  backward count hHalts := by
    obtain ⟨y, middle, hEval⟩ := h.backward count hHalts
    obtain ⟨s₁, hKeeps, hObserve, hCalls, hArrives⟩ := h.forward y middle hEval
    obtain ⟨z, after, hEval'⟩ :=
      (hNext y middle s₁ hEval hKeeps hObserve hCalls).backward count (hArrives.halts hHalts)
    exact ⟨z, after, y, middle, hEval, hEval'⟩

/-- What was observed, seen in another way. -/
theorem map {f : α → β} (h : Simulates c body b b' s observe evaluates)
    (hObserve : ∀ s' y, Keeps b s s' → observe s' y → observe' s' (f y)) :
    Simulates c body b b' s observe' fun z after => ∃ y, evaluates y after ∧ z = f y where
  forward := by
    rintro _ after ⟨y, hEval, rfl⟩
    obtain ⟨s', hKeeps, hy, hCalls, hArrives⟩ := h.forward y after hEval
    exact ⟨s', hKeeps, hObserve s' y hKeeps hy, hCalls, hArrives⟩
  backward count hHalts := by
    obtain ⟨y, after, hEval⟩ := h.backward count hHalts
    exact ⟨f y, after, y, hEval, rfl⟩

/-- Observing nothing. -/
theorem weaken (h : Simulates c body b b' s observe evaluates) :
    Simulates c body b b' s (fun _ _ => True) evaluates where
  forward y after hEval := by
    obtain ⟨s', hKeeps, -, hCalls, hArrives⟩ := h.forward y after hEval
    exact ⟨s', hKeeps, trivial, hCalls, hArrives⟩
  backward := h.backward

/-- Code behind that ends at once. -/
theorem before (h : Simulates c body b b₁ s observe evaluates)
    (hLast : ∀ s₁ y, observe s₁ y → ∃ s₂, Arrives c body b₁ s₁ b' s₂ ∧ Keeps b s₁ s₂ ∧
      observe₂ s₂ y ∧ s₂.calls = s₁.calls) :
    Simulates c body b b' s observe₂ evaluates where
  forward y after hEval := by
    obtain ⟨s₁, hKeeps, hy, hCalls, hArrives⟩ := h.forward y after hEval
    obtain ⟨s₂, hArrives', hKeeps', hy', hCalls'⟩ := hLast s₁ y hy
    exact ⟨s₂, hKeeps.trans hKeeps', hy', hCalls'.trans hCalls, hArrives.trans hArrives'⟩
  backward := h.backward

theorem congr {evaluates' : α → List Call → Prop}
    (h : Simulates c body b b' s observe evaluates)
    (hIff : ∀ y after, evaluates' y after ↔ evaluates y after) :
    Simulates c body b b' s observe evaluates' where
  forward y after hEval := h.forward y after ((hIff y after).mp hEval)
  backward count hHalts := by
    obtain ⟨y, after, hEval⟩ := h.backward count hHalts
    exact ⟨y, after, (hIff y after).mpr hEval⟩

end Simulates

end LiveCompiler
