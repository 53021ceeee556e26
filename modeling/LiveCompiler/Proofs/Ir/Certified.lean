import LiveCompiler.Proofs.Ir.Blocks
import LiveCompiler.Proofs.Ir.Ssa

/-!
# Bodies with a record of what is written before each block

A record says which registers have been written whenever a block starts.  `Body.Certified`
checks a record block by block and edge by edge, so it can be kept while a body is being made.
It speaks of all blocks, whether the entry leads to them or not.

Once every block has its end, a certified body is well-formed (`Certified.wellFormed`): what the
record promises at a block is written on every path to it.
-/

namespace LiveCompiler

namespace Ir

namespace Body

/-- A record of what has been written when a block starts, its parameters left out. -/
abbrev Record := Label → Reg → Prop

/-- According to a record a register has been written when the given instructions of a block
are done. -/
def Written (body : Body) (before : Record) (label : Label) (done : List Instr) (r : Reg) : Prop :=
  before label r ∨ r ∈ (body.block label).params ∨ r ∈ done.filterMap Instr.dst

/-- Every block keeps to a record, and every register is written in one place. -/
structure Certified (callable : FuncId → Nat → Prop) (before : Record) (body : Body) : Prop where
  entry_lt : body.entry < body.blocks.length
  entry_params : (body.block body.entry).params = []
  entry_before : ∀ r, ¬ before body.entry r
  defs_nodup : ∀ label, (body.block label).defs.Nodup
  defs_unique : ∀ label other r, r ∈ (body.block label).defs → r ∈ (body.block other).defs →
    label = other
  defs_lt : ∀ label, ∀ r ∈ (body.block label).defs, r < body.regCount
  uses_written : ∀ label done i rest, (body.block label).instrs = done ++ i :: rest →
    ∀ r ∈ i.uses, body.Written before label done r
  exit_written : ∀ label, ∀ r ∈ (body.block label).terminator.uses,
    body.Written before label (body.block label).instrs r
  edge_fits : ∀ label, ∀ e ∈ (body.block label).terminator.edges, e.target ≠ body.entry ∧
    e.target < body.blocks.length ∧ e.args.length = (body.block e.target).params.length
  edge_before : ∀ label, ∀ e ∈ (body.block label).terminator.edges, ∀ r, before e.target r →
    body.Written before label (body.block label).instrs r
  legal : ∀ label, ∀ i ∈ (body.block label).instrs,
    i.Legal callable body.arity body.slots.length

variable {callable : FuncId → Nat → Prop} {before : Record} {body : Body} {label : Label}
  {done : List Instr} {r : Reg}

theorem Written.mono {more : List Instr} (h : body.Written before label done r)
    (hMore : done <+: more) : body.Written before label more r :=
  h.imp_right fun h => h.imp_right fun h => (hMore.filterMap Instr.dst).subset h

theorem written_all : body.Written before label (body.block label).instrs r ↔
    before label r ∨ r ∈ (body.block label).defs := by
  rw [mem_defs, Written]

/-! ## What a record asks of one block -/

/-- What a record asks of one block, if the given registers have been written when it starts.
The rest of the body matters for the shape of the blocks that its edges lead to. -/
structure Heeds (callable : FuncId → Nat → Prop) (before : Record) (body : Body)
    (known : Reg → Prop) (b : Block) : Prop where
  defs_nodup : b.defs.Nodup
  defs_lt : ∀ r ∈ b.defs, r < body.regCount
  uses_written : ∀ done i rest, b.instrs = done ++ i :: rest →
    ∀ r ∈ i.uses, known r ∨ r ∈ b.params ∨ r ∈ done.filterMap Instr.dst
  exit_written : ∀ r ∈ b.terminator.uses, known r ∨ r ∈ b.params ∨ r ∈ b.instrs.filterMap Instr.dst
  edge_fits : ∀ e ∈ b.terminator.edges, e.target ≠ body.entry ∧
    e.target < body.blocks.length ∧ e.args.length = (body.block e.target).params.length
  edge_before : ∀ e ∈ b.terminator.edges, ∀ r, before e.target r →
    known r ∨ r ∈ b.params ∨ r ∈ b.instrs.filterMap Instr.dst
  legal : ∀ i ∈ b.instrs, i.Legal callable body.arity body.slots.length

theorem Certified.heeds (h : body.Certified callable before) (label : Label) :
    body.Heeds callable before (before label) (body.block label) where
  defs_nodup := h.defs_nodup label
  defs_lt := h.defs_lt label
  uses_written := h.uses_written label
  exit_written := h.exit_written label
  edge_fits := h.edge_fits label
  edge_before := h.edge_before label
  legal := h.legal label

/-- A body is certified if its entry starts with nothing, no register is written in two blocks,
and each block does what the record asks. -/
theorem Certified.of_heeds (hEntry : body.entry < body.blocks.length)
    (hParams : (body.block body.entry).params = []) (hBefore : ∀ r, ¬ before body.entry r)
    (hUnique : ∀ label other r, r ∈ (body.block label).defs → r ∈ (body.block other).defs →
      label = other)
    (hHeeds : ∀ label, body.Heeds callable before (before label) (body.block label)) :
    body.Certified callable before where
  entry_lt := hEntry
  entry_params := hParams
  entry_before := hBefore
  defs_nodup label := (hHeeds label).defs_nodup
  defs_unique := hUnique
  defs_lt label := (hHeeds label).defs_lt
  uses_written label := (hHeeds label).uses_written
  exit_written label := (hHeeds label).exit_written
  edge_fits label := (hHeeds label).edge_fits
  edge_before label := (hHeeds label).edge_before
  legal label := (hHeeds label).legal

/-- What is asked of a block stays the same when the blocks its edges lead to keep their
parameters and what is promised at them. -/
theorem Heeds.transfer {after : Body} {before' : Record} {known : Reg → Prop} {b : Block}
    (h : body.Heeds callable before known b) (hEntry : after.entry = body.entry)
    (hArity : after.arity = body.arity) (hCount : after.regCount = body.regCount)
    (hSlots : after.slots = body.slots) (hLength : body.blocks.length ≤ after.blocks.length)
    (hSame : ∀ label < body.blocks.length, before' label = before label ∧
      (after.block label).params = (body.block label).params) :
    after.Heeds callable before' known b where
  defs_nodup := h.defs_nodup
  defs_lt := hCount ▸ h.defs_lt
  uses_written := h.uses_written
  exit_written := h.exit_written
  edge_fits e he := by
    obtain ⟨hNe, hLt, hArgs⟩ := h.edge_fits e he
    exact ⟨hEntry ▸ hNe, Nat.lt_of_lt_of_le hLt hLength, (hSame e.target hLt).2 ▸ hArgs⟩
  edge_before e he r hr :=
    h.edge_before e he r ((hSame e.target (h.edge_fits e he).2.1).1 ▸ hr)
  legal i hi := by
    rw [hArity, hSlots]
    exact h.legal i hi

/-! ## What a record promises is available -/

/-- Every block keeps what the record promises at its successors. -/
structure Recorded (before : Record) (body : Body) : Prop where
  entry_before : ∀ r, ¬ before body.entry r
  defs_unique : ∀ label other r, r ∈ (body.block label).defs → r ∈ (body.block other).defs →
    label = other
  edge_before : ∀ label, ∀ e ∈ (body.block label).terminator.edges, ∀ r, before e.target r →
    body.Written before label (body.block label).instrs r

theorem Certified.recorded (h : body.Certified callable before) : body.Recorded before :=
  ⟨h.entry_before, h.defs_unique, h.edge_before⟩

/-- What the record promises at a block is written somewhere. -/
theorem Recorded.exists_def (h : body.Recorded before) (hReached : body.Reached label)
    (hBefore : before label r) : ∃ d, r ∈ (body.block d).defs := by
  unfold Body.Reached Digraph.Reaches at hReached
  induction hReached with
  | root => exact absurd hBefore (h.entry_before r)
  | @step p q _ _ edge ih =>
    rw [succ_graph] at edge
    obtain ⟨e, he, rfl⟩ := List.mem_map.mp edge
    rcases written_all.mp (h.edge_before p e he r hBefore) with hEarlier | hHere
    · exact ih hEarlier
    · exact ⟨p, hHere⟩

/-- What the record promises at a block is written on every path to it. -/
theorem Recorded.available (h : body.Recorded before) (hReached : body.Reached label)
    (hBefore : before label r) : body.Available label r := by
  obtain ⟨d, hd⟩ := h.exists_def hReached hBefore
  refine ⟨d, hd, fun hPath => ?_⟩
  -- Along a path that avoids `d` the record never promises what `d` writes.
  have hNever : ∀ {q}, body.graph.LeadsTo body.entry (· ≠ d) q → ¬ before q r := by
    intro q hq
    induction hq with
    | root => exact h.entry_before r
    | @step p q _ ok edge ih =>
      rw [succ_graph] at edge
      obtain ⟨e, he, rfl⟩ := List.mem_map.mp edge
      intro hPromised
      rcases written_all.mp (h.edge_before p e he r hPromised) with hEarlier | hHere
      · exact ih hEarlier
      · exact ok (h.defs_unique p d r hHere hd)
  exact hNever hPath hBefore

theorem Written.known (hWritten : body.Written before label done r) (h : body.Recorded before)
    (hReached : body.Reached label) : body.Known label done r :=
  hWritten.imp_left (h.available hReached)

/-! ## Certified bodies are well-formed -/

theorem Certified.lt_of_reached (h : body.Certified callable before)
    (hReached : body.Reached label) : label < body.blocks.length := by
  unfold Body.Reached Digraph.Reaches at hReached
  cases hReached with
  | root => exact h.entry_lt
  | @step p q _ _ edge =>
    rw [succ_graph] at edge
    obtain ⟨e, he, rfl⟩ := List.mem_map.mp edge
    exact (h.edge_fits p e he).2.1

/-- A certified body in which every block has its end is well-formed. -/
theorem Certified.wellFormed (h : body.Certified callable before)
    (hEnds : ∀ label, label < body.blocks.length →
      (body.block label).terminator ≠ .unreachable) : body.WellFormed callable where
  entry_lt := h.entry_lt
  entry_params := h.entry_params
  entry_first label _ hEntry := by
    obtain ⟨e, he, hTarget⟩ := List.mem_map.mp hEntry
    exact (h.edge_fits label e he).1 hTarget
  defs_nodup := h.defs_nodup
  defs_unique := h.defs_unique
  defs_lt := h.defs_lt
  uses_known label hReached done i rest hInstrs r hr :=
    (h.uses_written label done i rest hInstrs r hr).known h.recorded hReached
  exit_known label hReached r hr := (h.exit_written label r hr).known h.recorded hReached
  edge_fits label _ e he := (h.edge_fits label e he).2
  ends label hReached := hEnds label (h.lt_of_reached hReached)
  legal label _ := h.legal label

/-! ## Steps of a construction -/

/-- A register more. -/
theorem Certified.freshReg (h : body.Certified callable before) :
    Certified callable before { body with regCount := body.regCount + 1 } :=
  { h with defs_lt := fun label r hr => Nat.lt_succ_of_lt (h.defs_lt label r hr) }

/-- A slot more. -/
theorem Certified.freshSlot (h : body.Certified callable before) (owner : Ownership) :
    Certified callable before { body with slots := body.slots ++ [owner] } :=
  { h with
    legal := fun label i hi => (h.legal label i hi).mono (by simp) }

theorem block_push (b : Block) :
    block { body with blocks := body.blocks ++ [b] } label =
      if label = body.blocks.length then b else body.block label := by
  simp only [block, List.getD_eq_getElem?_getD]
  rcases Nat.lt_trichotomy label body.blocks.length with hLt | hEq | hGt
  · rw [List.getElem?_append_left hLt, if_neg (Nat.ne_of_lt hLt)]
  · rw [if_pos hEq, hEq, List.getElem?_concat_length]
    rfl
  · rw [if_neg (Nat.ne_of_gt hGt), List.getElem?_eq_none (Nat.le_of_lt hGt),
      List.getElem?_eq_none (by simp; omega)]

/-- A record that also speaks of a new block. -/
def Record.push (before : Record) (label : Label) (known : Reg → Prop) : Record :=
  fun other => if other = label then known else before other

/-- A block more, with parameters that nothing else writes. -/
theorem Certified.push (h : body.Certified callable before) {params : List Reg}
    (hNodup : params.Nodup) (hLt : ∀ r ∈ params, r < body.regCount)
    (hNew : ∀ r ∈ params, ∀ label, r ∉ (body.block label).defs) (known : Reg → Prop) :
    Certified callable (before.push body.blocks.length known)
      { body with blocks := body.blocks ++ [{ Block.empty with params := params }] } := by
  have hOld : ∀ label, label ≠ body.blocks.length →
      block { body with blocks := body.blocks ++ [{ Block.empty with params := params }] } label =
        body.block label ∧ before.push body.blocks.length known label = before label :=
    fun label hNe => ⟨(block_push _).trans (if_neg hNe), if_neg hNe⟩
  have hHere : block { body with blocks := body.blocks ++ [{ Block.empty with params := params }] }
      body.blocks.length = { Block.empty with params := params } :=
    (block_push _).trans (if_pos rfl)
  have hDefs : ({ Block.empty with params := params } : Block).defs = params := List.append_nil _
  have hEntry := hOld _ (Nat.ne_of_lt h.entry_lt)
  refine .of_heeds ?_ ?_ ?_ (fun label other r hr hr' => ?_) fun label => ?_
  · rw [List.length_append]
    exact Nat.lt_add_right _ h.entry_lt
  · rw [hEntry.1]
    exact h.entry_params
  · rw [show before.push body.blocks.length known body.entry = _ from hEntry.2]
    exact h.entry_before
  · by_cases hEq : label = body.blocks.length <;> by_cases hEq' : other = body.blocks.length
    · rw [hEq, hEq']
    · rw [hEq, hHere, hDefs] at hr
      rw [(hOld other hEq').1] at hr'
      exact absurd hr' (hNew r hr other)
    · rw [hEq', hHere, hDefs] at hr'
      rw [(hOld label hEq).1] at hr
      exact absurd hr (hNew r hr' label)
    · rw [(hOld label hEq).1] at hr
      rw [(hOld other hEq').1] at hr'
      exact h.defs_unique label other r hr hr'
  · by_cases hEq : label = body.blocks.length
    · -- The new block has parameters only: it reads nothing and leads nowhere.
      rw [hEq, hHere]
      exact {
        defs_nodup := hNodup.append List.nodup_nil (List.disjoint_nil_right _)
        defs_lt := fun r hr => hLt r (hDefs ▸ hr)
        uses_written := by simp [Block.empty]
        exit_written := fun r hr => absurd hr List.not_mem_nil
        edge_fits := fun e he => absurd he List.not_mem_nil
        edge_before := fun e he => absurd he List.not_mem_nil
        legal := fun i hi => absurd hi List.not_mem_nil }
    · rw [(hOld label hEq).1, (hOld label hEq).2]
      refine (h.heeds label).transfer rfl rfl rfl rfl (by simp) fun target hTarget => ?_
      have hTarget := hOld target (Nat.ne_of_lt hTarget)
      exact ⟨hTarget.2, congrArg Block.params hTarget.1⟩

/-- What a block that got more instructions writes. -/
theorem defs_extend {b b' : Block} {more : List Instr} (hParams : b'.params = b.params)
    (hInstrs : b'.instrs = b.instrs ++ more) : b'.defs = b.defs ++ more.filterMap Instr.dst := by
  rw [Block.defs, hParams, hInstrs, List.filterMap_append, ← List.append_assoc, Block.defs]

/-- A block with more instructions still heeds the record, if the new ones write new registers and read
what has been written before them. -/
theorem Heeds.extend {known : Reg → Prop} {b b' : Block} {more : List Instr}
    (h : body.Heeds callable before known b) (hParams : b'.params = b.params)
    (hInstrs : b'.instrs = b.instrs ++ more) (hNodup : (more.filterMap Instr.dst).Nodup)
    (hNew : ∀ r ∈ more.filterMap Instr.dst, r < body.regCount ∧ r ∉ b.defs)
    (hUses : ∀ done i rest, more = done ++ i :: rest → ∀ r ∈ i.uses,
      known r ∨ r ∈ b.params ∨ r ∈ (b.instrs ++ done).filterMap Instr.dst)
    (hExit : ∀ r ∈ b'.terminator.uses,
      known r ∨ r ∈ b.params ∨ r ∈ b'.instrs.filterMap Instr.dst)
    (hEdges : ∀ e ∈ b'.terminator.edges, e.target ≠ body.entry ∧
      e.target < body.blocks.length ∧ e.args.length = (body.block e.target).params.length)
    (hBefore : ∀ e ∈ b'.terminator.edges, ∀ r, before e.target r →
      known r ∨ r ∈ b.params ∨ r ∈ b'.instrs.filterMap Instr.dst)
    (hLegal : ∀ i ∈ more, i.Legal callable body.arity body.slots.length) :
    body.Heeds callable before known b' where
  defs_nodup := by
    rw [defs_extend hParams hInstrs]
    exact List.nodup_append.mpr ⟨h.defs_nodup, hNodup, fun r hr q hq hEq => (hNew q hq).2 (hEq ▸ hr)⟩
  defs_lt r hr := by
    rw [defs_extend hParams hInstrs] at hr
    exact (List.mem_append.mp hr).elim (h.defs_lt r) fun hr => (hNew r hr).1
  uses_written done i rest hSplit r hr := by
    rw [hInstrs] at hSplit
    rw [hParams]
    rcases append_eq_append_cons_cases hSplit with ⟨front, rfl, hMore⟩ | ⟨back, hOld⟩
    · exact hUses front i rest hMore r hr
    · exact h.uses_written done i back hOld r hr
  exit_written := hParams ▸ hExit
  edge_fits := hEdges
  edge_before := hParams ▸ hBefore
  legal i hi := by
    rw [hInstrs] at hi
    exact (List.mem_append.mp hi).elim (h.legal i) (hLegal i)

/-- A block gets more instructions, or another end. -/
theorem Certified.extend (h : body.Certified callable before) (hLabel : label < body.blocks.length)
    {f : Block → Block} {more : List Instr}
    (hParams : (f (body.block label)).params = (body.block label).params)
    (hInstrs : (f (body.block label)).instrs = (body.block label).instrs ++ more)
    (hNodup : (more.filterMap Instr.dst).Nodup)
    (hNew : ∀ r ∈ more.filterMap Instr.dst, r < body.regCount ∧ ∀ other, r ∉ (body.block other).defs)
    (hUses : ∀ done i rest, more = done ++ i :: rest → ∀ r ∈ i.uses,
      body.Written before label ((body.block label).instrs ++ done) r)
    (hExit : ∀ r ∈ (f (body.block label)).terminator.uses,
      body.Written before label (f (body.block label)).instrs r)
    (hEdges : ∀ e ∈ (f (body.block label)).terminator.edges, e.target ≠ body.entry ∧
      e.target < body.blocks.length ∧ e.args.length = (body.block e.target).params.length)
    (hBefore : ∀ e ∈ (f (body.block label)).terminator.edges, ∀ r, before e.target r →
      body.Written before label (f (body.block label)).instrs r)
    (hLegal : ∀ i ∈ more, i.Legal callable body.arity body.slots.length) :
    (body.modifyBlock label f).Certified callable before := by
  have hHere : (body.modifyBlock label f).block label = f (body.block label) :=
    block_modifyBlock_self f hLabel
  have hOther : ∀ other, other ≠ label → (body.modifyBlock label f).block other = body.block other :=
    fun other hNe => block_modifyBlock_of_ne f hNe
  have hSame : ∀ other, ((body.modifyBlock label f).block other).params =
      (body.block other).params := by
    intro other
    by_cases hEq : other = label
    · rw [hEq, hHere, hParams]
    · rw [hOther other hEq]
  -- What is written where: as before, and what the new instructions write at the block.
  have hDefs : ∀ other r, r ∈ ((body.modifyBlock label f).block other).defs →
      r ∈ (body.block other).defs ∨ other = label ∧ r ∈ more.filterMap Instr.dst := by
    intro other r hr
    by_cases hEq : other = label
    · rw [hEq, hHere, defs_extend hParams hInstrs] at hr
      exact (List.mem_append.mp hr).imp (hEq ▸ ·) fun hr => ⟨hEq, hr⟩
    · exact .inl (hOther other hEq ▸ hr)
  refine .of_heeds ?_ ((hSame _).trans h.entry_params) h.entry_before ?_ fun other => ?_
  · rw [length_modifyBlock]
    exact h.entry_lt
  · intro one two r hr hr'
    rcases hDefs one r hr with hOne | ⟨hOne, hMore⟩ <;>
      rcases hDefs two r hr' with hTwo | ⟨hTwo, hMore'⟩
    · exact h.defs_unique one two r hOne hTwo
    · exact absurd hOne ((hNew r hMore').2 one)
    · exact absurd hTwo ((hNew r hMore).2 two)
    · exact hOne.trans hTwo.symm
  · have hHeeds : body.Heeds callable before (before other) ((body.modifyBlock label f).block other) := by
      by_cases hEq : other = label
      · rw [hEq, hHere]
        exact (h.heeds label).extend hParams hInstrs hNodup
          (fun r hr => ⟨(hNew r hr).1, (hNew r hr).2 label⟩) hUses hExit hEdges hBefore hLegal
      · rw [hOther other hEq]
        exact h.heeds other
    refine hHeeds.transfer rfl rfl rfl rfl ?_ fun target _ => ⟨rfl, hSame target⟩
    exact Nat.le_of_eq (length_modifyBlock f).symm

end Body

end Ir

end LiveCompiler
