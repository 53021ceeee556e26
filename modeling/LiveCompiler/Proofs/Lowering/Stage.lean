import LiveCompiler.Lowering.Builder
import LiveCompiler.Proofs.Ir.Certified

/-!
# Stages of a construction

A stage is a builder with what the builder does not say: which blocks have been opened and wait
to be filled, and a record of what is written before each block.  Every step of a builder lifts
to stages.

`Stage.Sound` is the invariant: the body keeps to the record, the current block is open, the
waiting blocks are empty, and all others have their ends.  `Stage.Extends` says that the
invariant holds again after some steps, and that nothing was taken back.
-/

namespace LiveCompiler

open Ir

namespace Ir

/-- A body to which things were added: blocks with an end are as they were. -/
structure Body.Grows (body after : Body) : Prop where
  arity_eq : after.arity = body.arity
  entry_eq : after.entry = body.entry
  length_le : body.blocks.length ≤ after.blocks.length
  regCount_le : body.regCount ≤ after.regCount
  slots_le : body.slots.length ≤ after.slots.length
  params : ∀ label, label < body.blocks.length →
    (after.block label).params = (body.block label).params
  instrs : ∀ label, label < body.blocks.length →
    (body.block label).instrs <+: (after.block label).instrs
  closed : ∀ label, label < body.blocks.length → (body.block label).terminator ≠ .unreachable →
    after.block label = body.block label

theorem Body.Grows.refl (body : Body) : body.Grows body :=
  ⟨rfl, rfl, Nat.le_refl _, Nat.le_refl _, Nat.le_refl _, fun _ _ => rfl,
    fun _ _ => List.prefix_refl _, fun _ _ _ => rfl⟩

theorem Body.Grows.trans {body middle after : Body} (h : body.Grows middle)
    (h' : middle.Grows after) : body.Grows after where
  arity_eq := h'.arity_eq.trans h.arity_eq
  entry_eq := h'.entry_eq.trans h.entry_eq
  length_le := Nat.le_trans h.length_le h'.length_le
  regCount_le := Nat.le_trans h.regCount_le h'.regCount_le
  slots_le := Nat.le_trans h.slots_le h'.slots_le
  params label hLt :=
    (h'.params label (Nat.lt_of_lt_of_le hLt h.length_le)).trans (h.params label hLt)
  instrs label hLt :=
    (h.instrs label hLt).trans (h'.instrs label (Nat.lt_of_lt_of_le hLt h.length_le))
  closed label hLt hClosed := by
    have hFirst := h.closed label hLt hClosed
    rw [h'.closed label (Nat.lt_of_lt_of_le hLt h.length_le) (hFirst ▸ hClosed), hFirst]

/-- The entry still leads to the blocks that it led to. -/
theorem Body.Grows.reached {body after : Body} (h : body.Grows after) {label : Label}
    (hReached : body.Reached label) : after.Reached label := by
  unfold Body.Reached Digraph.Reaches at hReached ⊢
  rw [h.entry_eq]
  refine hReached.mono (fun _ ok => ok) fun p q _ hEdge => ?_
  rw [Body.succ_graph] at hEdge ⊢
  -- A block with a successor has its end, so it has not changed.
  have hClosed : (body.block p).terminator ≠ .unreachable := by
    intro hOpen
    rw [hOpen] at hEdge
    exact List.not_mem_nil hEdge
  rw [h.closed p (Body.lt_of_terminator_ne hClosed) hClosed]
  exact hEdge

end Ir

/-- A builder, the blocks that wait to be filled, and what is written before each block. -/
structure Stage where
  builder : Builder
  waiting : List Label
  before : Body.Record

namespace Stage

/-- The body made so far. -/
abbrev body (s : Stage) : Body :=
  s.builder.body

/-- The block that takes new instructions. -/
abbrev current (s : Stage) : Label :=
  s.builder.current

/-- The content of the current block. -/
def here (s : Stage) : Block :=
  s.body.block s.current

/-- A register has been written when the current block has got so far. -/
def Knows (s : Stage) (r : Reg) : Prop :=
  s.body.Written s.before s.current s.here.instrs r

/-- The body keeps to the record, and all blocks but the current one and those that wait have
their ends. -/
structure Sound (callable : FuncId → Nat → Prop) (s : Stage) : Prop where
  certified : s.body.Certified callable s.before
  current_lt : s.current < s.body.blocks.length
  current_open : s.here.terminator = .unreachable
  current_busy : s.current ∉ s.waiting
  waiting_nodup : s.waiting.Nodup
  idle : ∀ label ∈ s.waiting, label < s.body.blocks.length ∧ (s.body.block label).instrs = [] ∧
    (s.body.block label).terminator = .unreachable
  closed : ∀ label, label < s.body.blocks.length →
    (s.body.block label).terminator = .unreachable → label = s.current ∨ label ∈ s.waiting

/-- The invariant holds again, and nothing was taken back. -/
structure Extends (callable : FuncId → Nat → Prop) (s s' : Stage) : Prop where
  sound : s'.Sound callable
  grows : s.body.Grows s'.body
  before_eq : ∀ label, label < s.body.blocks.length → s'.before label = s.before label

variable {callable : FuncId → Nat → Prop} {s s' s'' : Stage}

theorem Extends.trans (h : Extends callable s s') (h' : Extends callable s' s'') :
    Extends callable s s'' :=
  ⟨h'.sound, h.grows.trans h'.grows, fun label hLt =>
    (h'.before_eq label (Nat.lt_of_lt_of_le hLt h.grows.length_le)).trans (h.before_eq label hLt)⟩

/-- The entry leads to all blocks but those that wait. -/
def Joined (s : Stage) : Prop :=
  ∀ label, label < s.body.blocks.length → label ∉ s.waiting → s.body.Reached label

theorem Sound.reached_current (h : s.Sound callable) (hJoined : s.Joined) :
    s.body.Reached s.current :=
  hJoined s.current h.current_lt h.current_busy

/-- Steps that open no block and let the same blocks wait. -/
theorem Joined.grows (h : s.Joined) (hGrows : s.body.Grows s'.body)
    (hLength : s'.body.blocks.length = s.body.blocks.length) (hWaiting : s'.waiting = s.waiting) :
    s'.Joined := by
  intro label hLt hBusy
  rw [hLength] at hLt
  rw [hWaiting] at hBusy
  exact hGrows.reached (h label hLt hBusy)

/-! ## Registers and slots -/

/-- Hand out a register. -/
def freshReg (s : Stage) : Stage :=
  { s with builder := s.builder.freshReg.2 }

/-- Hand out a slot. -/
def freshSlot (s : Stage) : Stage :=
  { s with builder := s.builder.freshSlot.2 }

theorem Sound.freshReg (h : s.Sound callable) : Extends callable s s.freshReg where
  sound := { h with certified := h.certified.freshReg }
  grows := { Body.Grows.refl s.body with regCount_le := Nat.le_succ _ }
  before_eq _ _ := rfl

theorem body_freshSlot (s : Stage) :
    s.freshSlot.body = { s.body with slots := s.body.slots ++ [.unknown] } :=
  s.builder.body_freshSlot

theorem Sound.freshSlot (h : s.Sound callable) : Extends callable s s.freshSlot where
  sound :=
    { h with
      certified := by
        rw [body_freshSlot]
        exact h.certified.freshSlot .unknown }
  grows :=
    { Body.Grows.refl s.body with
      slots_le := by
        rw [body_freshSlot]
        simp }
  before_eq _ _ := rfl

/-! ## Instructions -/

/-- Append an instruction to the current block. -/
def append (s : Stage) (i : Instr) : Stage :=
  { s with builder := s.builder.append i }

theorem body_append (s : Stage) (i : Instr) :
    (s.append i).body = s.body.modifyBlock s.current fun block =>
      { block with instrs := block.instrs ++ [i] } :=
  s.builder.body_append i

theorem length_append (s : Stage) (i : Instr) :
    (s.append i).body.blocks.length = s.body.blocks.length :=
  s.builder.length_append i

theorem block_append (h : s.Sound callable) (i : Instr) (label : Label) :
    (s.append i).body.block label =
      if label = s.current then { s.here with instrs := s.here.instrs ++ [i] }
      else s.body.block label := by
  rw [body_append, Body.block_modifyBlock]
  by_cases hEq : label = s.current
  · rw [if_pos ⟨hEq, h.current_lt⟩, if_pos hEq, hEq]
    rfl
  · rw [if_neg fun hBoth => hEq hBoth.1, if_neg hEq]

theorem here_append (h : s.Sound callable) (i : Instr) :
    (s.append i).here = { s.here with instrs := s.here.instrs ++ [i] } :=
  (block_append h i _).trans (if_pos rfl)

theorem knows_append (h : s.Sound callable) {i : Instr} {r : Reg} :
    (s.append i).Knows r ↔ s.Knows r ∨ i.dst = some r := by
  unfold Knows Body.Written
  have hHere := here_append h i
  rw [hHere, show (s.append i).body.block (s.append i).current = _ from hHere,
    List.filterMap_append, List.mem_append, or_assoc, or_assoc]
  simp only [List.mem_filterMap, List.mem_singleton, exists_eq_left]
  rfl

theorem Sound.append (h : s.Sound callable) {i : Instr} (hUses : ∀ r ∈ i.uses, s.Knows r)
    (hDst : ∀ r, i.dst = some r → r < s.body.regCount ∧ ∀ label, r ∉ (s.body.block label).defs)
    (hLegal : i.Legal callable s.body.arity s.body.slots.length) :
    Extends callable s (s.append i) := by
  -- Only the block that is being written changes, and it only grows at its end.
  have hBlock := block_append h i
  have hTerminator : ∀ label, ((s.append i).body.block label).terminator =
      (s.body.block label).terminator := by
    intro label
    rw [hBlock]
    by_cases hEq : label = s.current
    · rw [if_pos hEq, hEq]
      rfl
    · rw [if_neg hEq]
  have hLength : (s.append i).body.blocks.length = s.body.blocks.length :=
    s.length_append i
  have hMem : ∀ r, r ∈ [i].filterMap Instr.dst ↔ i.dst = some r := by simp
  have hMore : s.here.instrs <+: s.here.instrs ++ [i] := List.prefix_append _ _
  refine ⟨⟨?_, ?_, ?_, h.current_busy, h.waiting_nodup, ?_, ?_⟩, ?_, fun _ _ => rfl⟩
  · rw [body_append]
    refine h.certified.extend h.current_lt rfl rfl ?_ ?_ ?_ ?_ ?_ ?_ ?_
    · cases hd : i.dst <;> simp [hd]
    · exact fun r hr => hDst r ((hMem r).mp hr)
    · intro done j rest hSplit r hr
      obtain ⟨rfl, hj, -⟩ : done = [] ∧ i = j ∧ rest = [] := by
        cases done with
        | nil => simpa using hSplit
        | cons k done => simp at hSplit
      rw [List.append_nil]
      exact hUses r (hj ▸ hr)
    · exact fun r hr => (h.certified.exit_written _ r hr).mono hMore
    · exact h.certified.edge_fits _
    · exact fun e he r hr => (h.certified.edge_before _ e he r hr).mono hMore
    · intro j hj
      rw [List.mem_singleton.mp hj]
      exact hLegal
  · rw [hLength]
    exact h.current_lt
  · exact (hTerminator _).trans h.current_open
  · intro label hWaiting
    have hNe : label ≠ s.current := fun hEq => h.current_busy (hEq ▸ hWaiting)
    rw [hLength, hBlock, if_neg hNe]
    exact h.idle label hWaiting
  · intro label hLt hOpen
    rw [hLength] at hLt
    rw [hTerminator] at hOpen
    exact h.closed label hLt hOpen
  · refine ⟨rfl, rfl, Nat.le_of_eq hLength.symm, Nat.le_refl _, Nat.le_refl _, ?_, ?_, ?_⟩
    · intro label _
      rw [hBlock]
      by_cases hEq : label = s.current
      · rw [if_pos hEq, hEq]
        rfl
      · rw [if_neg hEq]
    · intro label _
      rw [hBlock]
      by_cases hEq : label = s.current
      · rw [if_pos hEq, hEq]
        exact hMore
      · rw [if_neg hEq]
    · intro label _ hClosed
      -- The block that is being written is open, so it is none of the closed ones.
      have hNe : label ≠ s.current := fun hEq => hClosed (hEq ▸ h.current_open)
      rw [hBlock, if_neg hNe]

/-! ## Blocks -/

/-- Open a block, which waits to be filled. -/
def push (s : Stage) (params : List Reg) : Stage where
  builder := (s.builder.freshBlock params).2
  waiting := s.body.blocks.length :: s.waiting
  before := s.before.push s.body.blocks.length s.Knows

theorem body_push (s : Stage) (params : List Reg) :
    (s.push params).body =
      { s.body with blocks := s.body.blocks ++ [{ Block.empty with params := params }] } :=
  s.builder.body_freshBlock params

theorem block_push (s : Stage) (params : List Reg) (label : Label) :
    (s.push params).body.block label =
      if label = s.body.blocks.length then { Block.empty with params := params }
      else s.body.block label := by
  rw [body_push]
  exact Body.block_push _

theorem block_push_of_lt {params : List Reg} {label : Label} (h : label < s.body.blocks.length) :
    (s.push params).body.block label = s.body.block label :=
  (s.block_push params label).trans (if_neg (Nat.ne_of_lt h))

theorem block_push_length (params : List Reg) :
    (s.push params).body.block s.body.blocks.length = { Block.empty with params := params } :=
  (s.block_push params _).trans (if_pos rfl)

@[simp] theorem length_push (params : List Reg) :
    (s.push params).body.blocks.length = s.body.blocks.length + 1 := by
  simp [body_push]

theorem before_push_length (params : List Reg) :
    (s.push params).before s.body.blocks.length = s.Knows :=
  if_pos rfl

theorem Sound.knows_push (h : s.Sound callable) (params : List Reg) :
    (s.push params).Knows = s.Knows := by
  funext r
  unfold Knows Body.Written here
  rw [show (s.push params).current = s.current from rfl, block_push_of_lt h.current_lt,
    show (s.push params).before s.current = s.before s.current from
      if_neg (Nat.ne_of_lt h.current_lt)]

theorem Sound.push (h : s.Sound callable) {params : List Reg} (hNodup : params.Nodup)
    (hLt : ∀ r ∈ params, r < s.body.regCount)
    (hNew : ∀ r ∈ params, ∀ label, r ∉ (s.body.block label).defs) :
    Extends callable s (s.push params) := by
  have hFresh : ∀ label ∈ s.waiting, label ≠ s.body.blocks.length := fun label hWaiting =>
    Nat.ne_of_lt (h.idle label hWaiting).1
  refine ⟨⟨?_, ?_, ?_, ?_, ?_, ?_, ?_⟩, ?_, ?_⟩
  · rw [body_push]
    exact h.certified.push hNodup hLt hNew s.Knows
  · rw [length_push]
    exact Nat.lt_succ_of_lt h.current_lt
  · exact (congrArg Block.terminator (block_push_of_lt h.current_lt)).trans h.current_open
  · intro hWaiting
    rcases List.mem_cons.mp hWaiting with hEq | hWaiting
    · exact absurd hEq (Nat.ne_of_lt h.current_lt)
    · exact h.current_busy hWaiting
  · exact List.nodup_cons.mpr ⟨fun hWaiting => hFresh _ hWaiting rfl, h.waiting_nodup⟩
  · intro label hWaiting
    rw [length_push]
    rcases List.mem_cons.mp hWaiting with rfl | hWaiting
    · rw [block_push_length]
      exact ⟨Nat.lt_succ_self _, rfl, rfl⟩
    · obtain ⟨hLt, hIdle⟩ := h.idle label hWaiting
      rw [block_push_of_lt hLt]
      exact ⟨Nat.lt_succ_of_lt hLt, hIdle⟩
  · intro label hLt hOpen
    by_cases hEq : label = s.body.blocks.length
    · exact .inr (hEq ▸ List.mem_cons_self)
    · rw [length_push] at hLt
      have hLt : label < s.body.blocks.length := by omega
      rw [block_push_of_lt hLt] at hOpen
      exact (h.closed label hLt hOpen).imp_right (List.mem_cons_of_mem _)
  · refine ⟨rfl, rfl, by simp, Nat.le_refl _, Nat.le_refl _, ?_, ?_, ?_⟩
    · exact fun label hLt => congrArg Block.params (block_push_of_lt hLt)
    · intro label hLt
      rw [block_push_of_lt hLt]
    · exact fun label hLt _ => block_push_of_lt hLt
  · exact fun label hLt => if_neg (Nat.ne_of_lt hLt)

theorem Joined.push (h : s.Joined) {params : List Reg}
    (hGrows : s.body.Grows (s.push params).body) : (s.push params).Joined := by
  intro label hLt hBusy
  have hOld : label ≠ s.body.blocks.length ∧ label ∉ s.waiting := not_or.mp fun hWaiting =>
    hBusy (List.mem_cons.mpr hWaiting)
  rw [length_push] at hLt
  exact hGrows.reached (h label (by omega) hOld.2)

/-- End the current block and go on in one that waits. -/
def leave (s : Stage) (t : Terminator) (next : Label) : Stage where
  builder := (s.builder.endBlock t).continueIn next
  waiting := s.waiting.erase next
  before := s.before

theorem body_leave (s : Stage) (t : Terminator) (next : Label) :
    (s.leave t next).body = s.body.modifyBlock s.current fun block =>
      { block with terminator := t } :=
  s.builder.body_endBlock t

theorem block_leave (h : s.Sound callable) (t : Terminator) (next label : Label) :
    (s.leave t next).body.block label =
      if label = s.current then { s.here with terminator := t } else s.body.block label := by
  rw [body_leave, Body.block_modifyBlock]
  by_cases hEq : label = s.current
  · rw [if_pos ⟨hEq, h.current_lt⟩, if_pos hEq, hEq]
    rfl
  · rw [if_neg fun hBoth => hEq hBoth.1, if_neg hEq]

theorem block_leave_current (h : s.Sound callable) (t : Terminator) (next : Label) :
    (s.leave t next).body.block s.current = { s.here with terminator := t } :=
  (block_leave h t next _).trans (if_pos rfl)

@[simp] theorem length_leave (t : Terminator) (next : Label) :
    (s.leave t next).body.blocks.length = s.body.blocks.length :=
  Builder.length_endBlock _ _

theorem here_leave (h : s.Sound callable) (t : Terminator) {next : Label}
    (hNext : next ∈ s.waiting) : (s.leave t next).here = s.body.block next :=
  (block_leave h t next next).trans
    (if_neg fun hEq : next = s.current => h.current_busy (hEq ▸ hNext))

theorem knows_leave (h : s.Sound callable) (t : Terminator) {next : Label}
    (hNext : next ∈ s.waiting) {r : Reg} :
    (s.leave t next).Knows r ↔ s.before next r ∨ r ∈ (s.body.block next).params := by
  have hHere := here_leave h t hNext
  unfold Knows Body.Written
  rw [hHere, show (s.leave t next).body.block (s.leave t next).current = _ from hHere,
    (h.idle next hNext).2.1]
  simp only [List.filterMap_nil, List.not_mem_nil, or_false]
  rfl

/-- The edges of a terminator lead to other blocks than the entry, pass what their targets take,
and keep what the record promises there. -/
def Admits (s : Stage) (e : Edge) : Prop :=
  e.target ≠ s.body.entry ∧ e.target < s.body.blocks.length ∧
    e.args.length = (s.body.block e.target).params.length ∧ ∀ r, s.before e.target r → s.Knows r

/-- The current block gets its end. -/
theorem Sound.certified_endBlock (h : s.Sound callable) {t : Terminator}
    (hUses : ∀ r ∈ t.uses, s.Knows r) (hEdges : ∀ e ∈ t.edges, s.Admits e) :
    (s.builder.endBlock t).body.Certified callable s.before := by
  rw [Builder.body_endBlock]
  refine h.certified.extend h.current_lt rfl (List.append_nil _).symm List.nodup_nil ?_ ?_ hUses
    ?_ ?_ ?_
  · exact fun r hr => absurd hr List.not_mem_nil
  · exact fun done i rest hSplit => absurd hSplit (by simp)
  · exact fun e he => ⟨(hEdges e he).1, (hEdges e he).2.1, (hEdges e he).2.2.1⟩
  · exact fun e he => (hEdges e he).2.2.2
  · exact fun i hi => absurd hi List.not_mem_nil

theorem Sound.grows_leave (h : s.Sound callable) (t : Terminator) (next : Label) :
    s.body.Grows (s.leave t next).body := by
  have hBlock := block_leave h t next
  refine ⟨rfl, rfl, Nat.le_of_eq (length_leave t next).symm, Nat.le_refl _, Nat.le_refl _, ?_, ?_,
    ?_⟩
  · intro label _
    rw [hBlock]
    by_cases hEq : label = s.current
    · rw [if_pos hEq, hEq]
      rfl
    · rw [if_neg hEq]
  · intro label _
    rw [hBlock]
    by_cases hEq : label = s.current
    · rw [if_pos hEq, hEq]
      exact List.prefix_refl _
    · rw [if_neg hEq]
  · intro label _ hOld
    have hNe : label ≠ s.current := fun hEq => hOld (hEq ▸ h.current_open)
    rw [hBlock, if_neg hNe]

theorem Sound.leave (h : s.Sound callable) {t : Terminator} {next : Label}
    (hClosed : t ≠ .unreachable) (hNext : next ∈ s.waiting) (hUses : ∀ r ∈ t.uses, s.Knows r)
    (hEdges : ∀ e ∈ t.edges, s.Admits e) : Extends callable s (s.leave t next) := by
  have hBlock := block_leave h t next
  refine ⟨⟨h.certified_endBlock hUses hEdges, ?_, ?_, ?_, h.waiting_nodup.erase next, ?_, ?_⟩,
    h.grows_leave t next, fun _ _ => rfl⟩
  · rw [length_leave]
    exact (h.idle next hNext).1
  · rw [here_leave h t hNext]
    exact (h.idle next hNext).2.2
  · exact h.waiting_nodup.not_mem_erase
  · intro label hWaiting
    have hWaiting := List.mem_of_mem_erase hWaiting
    have hNe : label ≠ s.current := fun hEq => h.current_busy (hEq ▸ hWaiting)
    rw [length_leave, hBlock, if_neg hNe]
    exact h.idle label hWaiting
  · intro label hLt hOpen
    rw [length_leave] at hLt
    by_cases hEq : label = s.current
    · rw [hEq, block_leave_current h] at hOpen
      exact absurd hOpen hClosed
    · rw [hBlock, if_neg hEq] at hOpen
      rcases h.closed label hLt hOpen with hHere | hWaiting
      · exact absurd hHere hEq
      · by_cases hTaken : label = next
        · exact .inl hTaken
        · exact .inr ((List.mem_erase_of_ne hTaken).mpr hWaiting)

/-- The end of the current block leads to its successors. -/
theorem Sound.reached_leave (h : s.Sound callable) (hJoined : s.Joined) {t : Terminator}
    (next : Label) {target : Label} (hTarget : target ∈ t.successors) :
    (s.leave t next).body.Reached target := by
  have hCurrent := (h.grows_leave t next).reached (h.reached_current hJoined)
  refine hCurrent.successor ?_
  rw [block_leave_current h]
  exact hTarget

/-- Going on in a block that the entry leads to. -/
theorem Sound.joined_leave (h : s.Sound callable) (hJoined : s.Joined) {t : Terminator}
    {next : Label} (hNext : s.body.Reached next ∨ next ∈ t.successors) :
    (s.leave t next).Joined := by
  have hGrows := h.grows_leave t next
  intro label hLt hBusy
  rw [length_leave] at hLt
  by_cases hTaken : label = next
  · rw [hTaken]
    exact hNext.elim hGrows.reached (h.reached_leave hJoined next)
  · have hOld : label ∉ s.waiting := fun hWaiting =>
      hBusy ((List.mem_erase_of_ne hTaken).mpr hWaiting)
    exact hGrows.reached (hJoined label hLt hOld)

end Stage

end LiveCompiler
