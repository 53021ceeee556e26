import LiveCompiler.Ir.Flow
import Mathlib.Data.List.Basic

/-!
# Bodies with other functions to call

A body names the functions that it calls by their positions.  Two bodies *mirror* each other if one
calls the functions that the other calls under a renaming, and is otherwise the same but for its
name (`Body.Mirrors`).  `Body.retarget` makes such a body.

What does not look at calls finds the same in both bodies: the registers, the slots, the blocks,
and the paths between them.
-/

namespace LiveCompiler

namespace Ir

variable {rename : FuncId → FuncId} {name : String} {body other : Body}

/-! ## Instructions and blocks -/

/-- Rename the function that an instruction calls. -/
def Instr.mapCallee (rename : FuncId → FuncId) : Instr → Instr
  | .call dst callee args => .call dst (rename callee) args
  | i => i

/-- Rename the functions that a block calls. -/
def Block.mapCallees (rename : FuncId → FuncId) (b : Block) : Block :=
  { b with instrs := b.instrs.map (Instr.mapCallee rename) }

namespace Instr

@[simp] theorem mapCallee_id (i : Instr) : i.mapCallee id = i := by
  cases i <;> rfl

@[simp] theorem dst_mapCallee (i : Instr) : (i.mapCallee rename).dst = i.dst := by
  cases i <;> rfl

@[simp] theorem uses_mapCallee (i : Instr) : (i.mapCallee rename).uses = i.uses := by
  cases i <;> rfl

@[simp] theorem isPure_mapCallee (i : Instr) : (i.mapCallee rename).isPure = i.isPure := by
  cases i <;> rfl

@[simp] theorem renameUses_mapCallee (f : Reg → Reg) (i : Instr) :
    (i.mapCallee rename).renameUses f = (i.renameUses f).mapCallee rename := by
  cases i <;> rfl

end Instr

namespace Block

@[simp] theorem mapCallees_id (b : Block) : b.mapCallees id = b := by
  have hInstrs : b.instrs.map (Instr.mapCallee id) = b.instrs := by
    rw [funext Instr.mapCallee_id, List.map_id']
  rw [mapCallees, hInstrs]

@[simp] theorem params_mapCallees (b : Block) : (b.mapCallees rename).params = b.params := rfl

@[simp] theorem instrs_mapCallees (b : Block) :
    (b.mapCallees rename).instrs = b.instrs.map (Instr.mapCallee rename) := rfl

@[simp] theorem terminator_mapCallees (b : Block) :
    (b.mapCallees rename).terminator = b.terminator := rfl

@[simp] theorem uses_mapCallees (b : Block) : (b.mapCallees rename).uses = b.uses := by
  simp [uses, List.flatMap_map]

@[simp] theorem renameUses_mapCallees (f : Reg → Reg) (b : Block) :
    (b.mapCallees rename).renameUses f = (b.renameUses f).mapCallees rename := by
  simp [renameUses, mapCallees, Function.comp_def]

end Block

/-! ## Bodies -/

namespace Body

/-- A body that is another one under a renaming of the functions that it calls. -/
structure Mirrors (rename : FuncId → FuncId) (body other : Body) : Prop where
  arity_eq : other.arity = body.arity
  blocks_eq : other.blocks = body.blocks.map (Block.mapCallees rename)
  entry_eq : other.entry = body.entry
  regCount_eq : other.regCount = body.regCount
  slots_eq : other.slots = body.slots

theorem Mirrors.block (h : body.Mirrors rename other) (label : Label) :
    other.block label = (body.block label).mapCallees rename := by
  rw [Body.block, Body.block, h.blocks_eq, List.getD_eq_getElem?_getD, List.getElem?_map,
    List.getD_eq_getElem?_getD]
  cases body.blocks[label]? <;> rfl

theorem mirrors_id (body : Body) : body.Mirrors id body where
  arity_eq := rfl
  blocks_eq := by rw [funext Block.mapCallees_id, List.map_id']
  entry_eq := rfl
  regCount_eq := rfl
  slots_eq := rfl

/-- Give a body a name, and other functions to call. -/
def retarget (rename : FuncId → FuncId) (name : String) (body : Body) : Body :=
  { body with name := name, blocks := body.blocks.map (Block.mapCallees rename) }

theorem mirrors_retarget (rename : FuncId → FuncId) (name : String) (body : Body) :
    body.Mirrors rename (body.retarget rename name) :=
  ⟨rfl, rfl, rfl, rfl, rfl⟩

section Fields

@[simp] theorem name_retarget : (body.retarget rename name).name = name := rfl

@[simp] theorem arity_retarget : (body.retarget rename name).arity = body.arity := rfl

@[simp] theorem blocks_retarget :
    (body.retarget rename name).blocks = body.blocks.map (Block.mapCallees rename) := rfl

@[simp] theorem entry_retarget : (body.retarget rename name).entry = body.entry := rfl

@[simp] theorem regCount_retarget : (body.retarget rename name).regCount = body.regCount := rfl

@[simp] theorem slots_retarget : (body.retarget rename name).slots = body.slots := rfl

end Fields

@[simp] theorem block_retarget (label : Label) :
    (body.retarget rename name).block label = (body.block label).mapCallees rename := by
  simp only [block, blocks_retarget, List.getD_eq_getElem?_getD, List.getElem?_map]
  cases body.blocks[label]? <;> rfl

@[simp] theorem graph_retarget : (body.retarget rename name).graph = body.graph := by
  simp [graph, Function.comp_def]

@[simp] theorem order_retarget : (body.retarget rename name).order = body.order := by
  simp [order]

@[simp] theorem dominance_retarget : (body.retarget rename name).dominance = body.dominance := by
  simp [dominance]

@[simp] theorem uses_retarget : (body.retarget rename name).uses = body.uses := by
  simp [uses, List.flatMap_map]

@[simp] theorem params_retarget : (body.retarget rename name).params = body.params := by
  simp [params, List.flatMap_map]

@[simp] theorem edges_retarget : (body.retarget rename name).edges = body.edges := by
  simp [edges, List.flatMap_map]

@[simp] theorem instrCount_retarget :
    (body.retarget rename name).instrCount = body.instrCount := by
  simp [instrCount, instrs, List.length_flatMap, Function.comp_def]

/-- A change of one block that respects calls can be made before or after retargeting. -/
theorem modifyBlock_retarget {f g : Block → Block} (label : Label)
    (h : ∀ b, f (b.mapCallees rename) = (g b).mapCallees rename) :
    (body.retarget rename name).modifyBlock label f =
      (body.modifyBlock label g).retarget rename name := by
  have hBlocks : (body.blocks.map (Block.mapCallees rename)).modify label f =
      (body.blocks.modify label g).map (Block.mapCallees rename) := by
    refine List.ext_getElem? fun i => ?_
    rw [List.getElem?_modify, List.getElem?_map, List.getElem?_map, List.getElem?_modify]
    cases body.blocks[i]? with
    | none => rfl
    | some b => by_cases hSame : label = i <;> simp [hSame, h]
  simp only [modifyBlock, retarget, hBlocks]

/-- A change of all blocks that respects calls can be made before or after retargeting. -/
theorem mapBlocks_retarget {f g : Block → Block}
    (h : ∀ b, f (b.mapCallees rename) = (g b).mapCallees rename) :
    (body.retarget rename name).mapBlocks f = (body.mapBlocks g).retarget rename name := by
  simp [mapBlocks, retarget, Function.comp_def, h]

@[simp] theorem renameUses_retarget (f : Reg → Reg) :
    (body.retarget rename name).renameUses f = (body.renameUses f).retarget rename name :=
  mapBlocks_retarget (Block.renameUses_mapCallees f)

end Body

end Ir

end LiveCompiler
