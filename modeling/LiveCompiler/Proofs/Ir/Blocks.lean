import LiveCompiler.Ir.Basic

/-!
# Blocks of a changed body

A label beyond the list of blocks names the empty block.  So a change of every block that
leaves the empty block as it is can be read off label by label.
-/

namespace LiveCompiler

namespace Ir

@[simp] theorem Instr.renameUses_id (i : Instr) : i.renameUses id = i := by
  cases i <;> simp [renameUses]

@[simp] theorem Edge.renameUses_id (e : Edge) : e.renameUses id = e := by
  simp [renameUses]

@[simp] theorem Terminator.renameUses_id (t : Terminator) : t.renameUses id = t := by
  cases t <;> simp [renameUses]

theorem Instr.renameUses_congr {f g : Reg → Reg} {i : Instr} (h : ∀ a ∈ i.uses, f a = g a) :
    i.renameUses f = i.renameUses g := by
  cases i with
  | store slot src => rw [renameUses, renameUses, h src (by simp [uses])]
  | arith op dst left right =>
    rw [renameUses, renameUses, h left (by simp [uses]), h right (by simp [uses])]
  | less dst left right =>
    rw [renameUses, renameUses, h left (by simp [uses]), h right (by simp [uses])]
  | call dst callee args =>
    have hArgs : args.map f = args.map g := List.map_congr_left h
    rw [renameUses, renameUses, hArgs]
  | _ => rfl

/-- What some instructions write, the first of them writes or the others do. -/
theorem mem_dsts_cons {i : Instr} {rest : List Instr} {r : Reg} :
    r ∈ (i :: rest).filterMap Instr.dst ↔ i.dst = some r ∨ r ∈ rest.filterMap Instr.dst := by
  simp [List.mem_filterMap]

/-- An instruction of one run of instructions followed by another is in the second or in the
first. -/
theorem append_eq_append_cons_cases {front back done rest : List Instr} {i : Instr}
    (h : front ++ back = done ++ i :: rest) :
    (∃ mid, done = front ++ mid ∧ back = mid ++ i :: rest) ∨ ∃ mid, front = done ++ i :: mid := by
  rcases List.append_eq_append_iff.mp h with hBack | ⟨mid, hFront, hRest⟩
  · exact .inl hBack
  · cases mid with
    | nil => exact .inl ⟨[], by rw [hFront, List.append_nil, List.append_nil], hRest.symm⟩
    | cons j mid =>
      obtain ⟨rfl, -⟩ := List.cons.inj hRest
      exact .inr ⟨mid, hFront⟩

theorem Terminator.edges_mapEdges (f : Edge → Edge) (t : Terminator) :
    (t.mapEdges f).edges = t.edges.map f := by
  cases t <;> rfl

theorem Terminator.edges_renameUses (f : Reg → Reg) (t : Terminator) :
    (t.renameUses f).edges = t.edges.map (Edge.renameUses f) := by
  cases t <;> rfl

theorem Terminator.mapEdges_congr {f g : Edge → Edge} {t : Terminator}
    (h : ∀ e ∈ t.edges, f e = g e) : t.mapEdges f = t.mapEdges g := by
  cases t with
  | jump e => rw [mapEdges, mapEdges, h e (by simp [edges])]
  | branch condition onTrue onFalse =>
    rw [mapEdges, mapEdges, h onTrue (by simp [edges]), h onFalse (by simp [edges])]
  | _ => rfl

namespace Block

@[simp] theorem renameUses_id (b : Block) : b.renameUses id = b := by
  have hInstrs : b.instrs.map (Instr.renameUses id) = b.instrs :=
    (List.map_congr_left fun i _ => Instr.renameUses_id i).trans (List.map_id _)
  simp [renameUses, hInstrs]

@[simp] theorem defs_empty : empty.defs = [] := rfl

@[simp] theorem params_renameUses (f : Reg → Reg) (b : Block) :
    (b.renameUses f).params = b.params := rfl

@[simp] theorem instrs_renameUses (f : Reg → Reg) (b : Block) :
    (b.renameUses f).instrs = b.instrs.map (Instr.renameUses f) := rfl

@[simp] theorem terminator_renameUses (f : Reg → Reg) (b : Block) :
    (b.renameUses f).terminator = b.terminator.renameUses f := rfl

@[simp] theorem defs_renameUses (f : Reg → Reg) (b : Block) :
    (b.renameUses f).defs = b.defs := by
  have hDst : (fun i => Instr.dst (i.renameUses f)) = Instr.dst :=
    funext fun i => i.dst_renameUses f
  rw [defs, defs, instrs_renameUses, List.filterMap_map]
  exact congrArg (fun g => b.params ++ b.instrs.filterMap g) hDst

end Block

namespace Body

variable {body : Body} {label other : Label}

theorem block_of_lt (h : label < body.blocks.length) :
    body.block label = body.blocks[label] := by
  simp [block, h]

theorem block_of_le (h : body.blocks.length ≤ label) : body.block label = Block.empty := by
  simp [block, h]

theorem block_mem (h : label < body.blocks.length) : body.block label ∈ body.blocks := by
  rw [block_of_lt h]
  exact List.getElem_mem h

/-- A block with something in it is in the list. -/
theorem lt_of_block_ne (h : body.block label ≠ Block.empty) : label < body.blocks.length :=
  Nat.lt_of_not_le fun hLe => h (block_of_le hLe)

theorem lt_of_mem_instrs {i : Instr} (hi : i ∈ (body.block label).instrs) :
    label < body.blocks.length := by
  apply lt_of_block_ne
  intro hEmpty
  rw [hEmpty] at hi
  cases hi

theorem block_mem_of_instr {i : Instr} (hi : i ∈ (body.block label).instrs) :
    body.block label ∈ body.blocks :=
  block_mem (lt_of_mem_instrs hi)

theorem lt_of_mem_defs {r : Reg} (hr : r ∈ (body.block label).defs) :
    label < body.blocks.length := by
  apply lt_of_block_ne
  intro hEmpty
  rw [hEmpty] at hr
  cases hr

theorem lt_of_mem_uses {r : Reg} (hr : r ∈ (body.block label).uses) :
    label < body.blocks.length := by
  apply lt_of_block_ne
  intro hEmpty
  rw [hEmpty] at hr
  cases hr

theorem lt_of_terminator_ne (h : (body.block label).terminator ≠ .unreachable) :
    label < body.blocks.length :=
  lt_of_block_ne fun hEmpty => h (congrArg Block.terminator hEmpty)

theorem lt_of_mem_edges {e : Edge} (he : e ∈ (body.block label).terminator.edges) :
    label < body.blocks.length := by
  apply lt_of_terminator_ne
  intro hOpen
  rw [hOpen] at he
  cases he

/-- A body is given by its blocks label by label. -/
theorem ext_block {after : Body} (hName : after.name = body.name) (hArity : after.arity = body.arity)
    (hEntry : after.entry = body.entry) (hCount : after.regCount = body.regCount)
    (hSlots : after.slots = body.slots) (hLength : after.blocks.length = body.blocks.length)
    (hBlock : ∀ label, after.block label = body.block label) : after = body := by
  have hBlocks : after.blocks = body.blocks := by
    refine List.ext_getElem hLength fun label hLt hLt' => ?_
    rw [← block_of_lt hLt, ← block_of_lt hLt']
    exact hBlock label
  cases body
  cases after
  simp_all

theorem mem_uses (h : label < body.blocks.length) {r : Reg} (hr : r ∈ (body.block label).uses) :
    r ∈ body.uses :=
  List.mem_flatMap.mpr ⟨_, block_mem h, hr⟩

theorem mem_params (h : label < body.blocks.length) {r : Reg}
    (hr : r ∈ (body.block label).params) : r ∈ body.params :=
  List.mem_flatMap.mpr ⟨_, block_mem h, hr⟩

/-- All instructions of a body are those of its blocks. -/
theorem mem_instrs_iff {i : Instr} :
    i ∈ body.instrs ↔ ∃ label, i ∈ (body.block label).instrs := by
  constructor
  · intro h
    obtain ⟨b, hb, hi⟩ := List.mem_flatMap.mp h
    obtain ⟨label, hLt, rfl⟩ := List.mem_iff_getElem.mp hb
    exact ⟨label, by rwa [block_of_lt hLt]⟩
  · rintro ⟨label, hi⟩
    exact List.mem_flatMap.mpr ⟨_, block_mem_of_instr hi, hi⟩

/-- All edges of a body are those of its blocks. -/
theorem mem_edges_iff {e : Edge} :
    e ∈ body.edges ↔ ∃ label, e ∈ (body.block label).terminator.edges := by
  unfold edges
  rw [List.mem_flatMap]
  constructor
  · rintro ⟨b, hb, he⟩
    obtain ⟨label, hLt, rfl⟩ := List.mem_iff_getElem.mp hb
    exact ⟨label, by rwa [block_of_lt hLt]⟩
  · rintro ⟨label, he⟩
    exact ⟨_, block_mem (lt_of_mem_edges he), he⟩

/-- A body reads what its blocks read. -/
theorem mem_uses_iff {r : Reg} :
    r ∈ body.uses ↔ ∃ label, r ∈ (body.block label).uses := by
  constructor
  · intro h
    obtain ⟨b, hb, hr⟩ := List.mem_flatMap.mp h
    obtain ⟨label, hLt, rfl⟩ := List.mem_iff_getElem.mp hb
    exact ⟨label, by rwa [block_of_lt hLt]⟩
  · rintro ⟨label, hr⟩
    exact mem_uses (lt_of_mem_uses hr) hr

/-- A parameter of a body is a parameter of some block. -/
theorem exists_block_of_mem_params {r : Reg} (h : r ∈ body.params) :
    ∃ label, r ∈ (body.block label).params := by
  obtain ⟨b, hb, hr⟩ := List.mem_flatMap.mp h
  obtain ⟨label, hLt, rfl⟩ := List.mem_iff_getElem.mp hb
  exact ⟨label, by rwa [block_of_lt hLt]⟩

theorem block_modifyBlock (f : Block → Block) :
    (body.modifyBlock label f).block other =
      if other = label ∧ label < body.blocks.length then f (body.block other)
      else body.block other := by
  simp only [block, modifyBlock, List.getD_eq_getElem?_getD, List.getElem?_modify]
  by_cases hEq : other = label
  · subst hEq
    by_cases hLt : other < body.blocks.length <;> simp [hLt]
  · simp [hEq, Ne.symm hEq]

theorem block_modifyBlock_self (f : Block → Block) (h : label < body.blocks.length) :
    (body.modifyBlock label f).block label = f (body.block label) := by
  rw [block_modifyBlock, if_pos ⟨rfl, h⟩]

theorem block_modifyBlock_of_ne (f : Block → Block) (h : other ≠ label) :
    (body.modifyBlock label f).block other = body.block other := by
  rw [block_modifyBlock, if_neg fun hBoth => h hBoth.1]

@[simp] theorem length_modifyBlock (f : Block → Block) :
    (body.modifyBlock label f).blocks.length = body.blocks.length := by
  simp [modifyBlock]

theorem block_mapBlocks {f : Block → Block} (hEmpty : f Block.empty = Block.empty) :
    (body.mapBlocks f).block label = f (body.block label) := by
  simp only [block, mapBlocks, List.getD_eq_getElem?_getD, List.getElem?_map]
  cases body.blocks[label]? with
  | none => exact hEmpty.symm
  | some b => rfl

@[simp] theorem length_mapBlocks (f : Block → Block) :
    (body.mapBlocks f).blocks.length = body.blocks.length := by
  simp [mapBlocks]

theorem block_renameUses (f : Reg → Reg) :
    (body.renameUses f).block label = (body.block label).renameUses f :=
  block_mapBlocks rfl

end Body

end Ir

end LiveCompiler
