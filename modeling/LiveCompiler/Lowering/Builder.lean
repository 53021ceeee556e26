import LiveCompiler.Ir.Basic
import LiveCompiler.Lowering.Error

/-!
# Building a body

A builder holds what has been made so far and the block that takes new instructions.
Registers, slots and blocks are handed out in order and never taken back.

Blocks in the making are kept in arrays, so that a step takes the same time in a long block as in
a short one.  `Builder.body` is the body made so far; what each step does to it is said by the
lemmas `body_append` to `body_freshBlock`.
-/

namespace LiveCompiler

open Ir

/-- A block in the making. -/
structure BlockDraft where
  params : List Reg
  instrs : Array Instr
  terminator : Terminator

namespace BlockDraft

/-- A block with given parameters and without content. -/
def start (params : List Reg) : BlockDraft where
  params := params
  instrs := #[]
  terminator := .unreachable

instance : Inhabited BlockDraft where
  default := start []

/-- The block made so far. -/
def block (draft : BlockDraft) : Block where
  params := draft.params
  instrs := draft.instrs.toList
  terminator := draft.terminator

end BlockDraft

/-- A body in the making. -/
structure Builder where
  name : String
  arity : Nat
  blocks : Array BlockDraft
  /-- How many registers have been handed out. -/
  regCount : Nat
  /-- How many slots have been handed out. -/
  slotCount : Nat
  /-- The block that takes new instructions. -/
  current : Label

/-- A step of the construction, which a lowering error ends. -/
abbrev Lower := StateT Builder (Except LoweringError)

namespace Builder

/-- A body with an entry block and nothing in it. -/
def start (name : String) (arity : Nat) : Builder where
  name := name
  arity := arity
  blocks := #[BlockDraft.start []]
  regCount := 0
  slotCount := 0
  current := 0

/-- The body made so far. -/
def body (b : Builder) : Body where
  name := b.name
  arity := b.arity
  blocks := b.blocks.toList.map BlockDraft.block
  entry := 0
  regCount := b.regCount
  slots := List.replicate b.slotCount .unknown

/-- Append an instruction to the current block. -/
def append (b : Builder) (i : Instr) : Builder :=
  { b with
    blocks := b.blocks.modify b.current fun draft =>
      { draft with instrs := draft.instrs.push i } }

/-- End the current block. -/
def endBlock (b : Builder) (t : Terminator) : Builder :=
  { b with blocks := b.blocks.modify b.current fun draft => { draft with terminator := t } }

/-- Go on in another block. -/
def continueIn (b : Builder) (label : Label) : Builder :=
  { b with current := label }

/-- Hand out a register. -/
def freshReg (b : Builder) : Reg × Builder :=
  (b.regCount, { b with regCount := b.regCount + 1 })

/-- Hand out a slot. -/
def freshSlot (b : Builder) : Slot × Builder :=
  (b.slotCount, { b with slotCount := b.slotCount + 1 })

/-- Hand out a block with given parameters. -/
def freshBlock (b : Builder) (params : List Reg) : Label × Builder :=
  (b.blocks.size, { b with blocks := b.blocks.push (BlockDraft.start params) })

/-! ## What the steps do to the body -/

theorem map_block_modify {drafts : Array BlockDraft} {label : Label} {f : BlockDraft → BlockDraft}
    {g : Block → Block} (h : ∀ draft, (f draft).block = g draft.block) :
    (drafts.modify label f).toList.map BlockDraft.block =
      (drafts.toList.map BlockDraft.block).modify label g := by
  rw [Array.toList_modify]
  refine List.ext_getElem? fun n => ?_
  simp only [List.getElem?_map, List.getElem?_modify]
  split <;> simp [Function.comp_def, h]

theorem body_append (b : Builder) (i : Instr) :
    (b.append i).body = b.body.modifyBlock b.current fun block =>
      { block with instrs := block.instrs ++ [i] } := by
  have hDraft : ∀ draft : BlockDraft, BlockDraft.block { draft with instrs := draft.instrs.push i } =
      { draft.block with instrs := draft.block.instrs ++ [i] } := by
    simp [BlockDraft.block]
  have hBlocks : (b.append i).blocks.toList.map BlockDraft.block =
      b.body.blocks.modify b.current fun block => { block with instrs := block.instrs ++ [i] } :=
    map_block_modify hDraft
  exact congrArg (fun blocks => { b.body with blocks := blocks }) hBlocks

theorem body_endBlock (b : Builder) (t : Terminator) :
    (b.endBlock t).body = b.body.modifyBlock b.current fun block =>
      { block with terminator := t } := by
  have hBlocks : (b.endBlock t).blocks.toList.map BlockDraft.block =
      b.body.blocks.modify b.current fun block => { block with terminator := t } :=
    map_block_modify fun _ => rfl
  exact congrArg (fun blocks => { b.body with blocks := blocks }) hBlocks

theorem body_freshSlot (b : Builder) :
    b.freshSlot.2.body = { b.body with slots := b.body.slots ++ [.unknown] } :=
  congrArg (fun slots => { b.body with slots := slots }) List.replicate_succ'

theorem body_freshBlock (b : Builder) (params : List Reg) :
    (b.freshBlock params).2.body =
      { b.body with blocks := b.body.blocks ++ [{ Block.empty with params := params }] } := by
  have hBlocks : (b.blocks.push (BlockDraft.start params)).toList.map BlockDraft.block =
      b.body.blocks ++ [{ Block.empty with params := params }] := by
    rw [Array.toList_push, List.map_append]
    rfl
  exact congrArg (fun blocks => { b.body with blocks := blocks }) hBlocks

theorem length_append (b : Builder) (i : Instr) :
    (b.append i).body.blocks.length = b.body.blocks.length := by
  simp [append, body]

theorem length_endBlock (b : Builder) (t : Terminator) :
    (b.endBlock t).body.blocks.length = b.body.blocks.length := by
  simp [endBlock, body]

theorem freshSlot_eq (b : Builder) : b.freshSlot.1 = b.body.slots.length :=
  List.length_replicate.symm

theorem freshBlock_eq (b : Builder) (params : List Reg) :
    (b.freshBlock params).1 = b.body.blocks.length :=
  (List.length_map _).symm

end Builder

namespace Lower

/-- Hand out a register. -/
def freshReg : Lower Reg :=
  modifyGet Builder.freshReg

/-- Hand out a slot. -/
def freshSlot : Lower Slot :=
  modifyGet Builder.freshSlot

/-- Hand out a block with given parameters. -/
def freshBlock (params : List Reg) : Lower Label :=
  modifyGet (Builder.freshBlock · params)

/-- Append an instruction to the current block. -/
def append (i : Instr) : Lower Unit :=
  modify (Builder.append · i)

/-- End the current block. -/
def endBlock (t : Terminator) : Lower Unit :=
  modify (Builder.endBlock · t)

/-- Go on in another block. -/
def continueIn (label : Label) : Lower Unit :=
  modify (Builder.continueIn · label)

/-- Write a register by an instruction. -/
def appendTo (i : Reg → Instr) : Lower Reg := do
  let dst ← freshReg
  append (i dst)
  return dst

end Lower

end LiveCompiler
