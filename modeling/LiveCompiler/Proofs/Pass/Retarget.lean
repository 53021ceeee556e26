import LiveCompiler.Proofs.Ir.Retarget
import LiveCompiler.Pass.Pipeline

/-!
# Passes do not look at what is called

No pass reads the position of a called function: calls are neither merged, nor moved, nor taken
out for the function that they call.  So it comes to the same whether a body is retargeted before
a pass or after it (`IsBlindToCallees`), and the flag of the pass is the same.  What holds of all
passes of the standard pipeline holds of the pipeline (`optimize_retarget`).
-/

namespace LiveCompiler

open Ir

/-- A change to bodies that comes to the same before and after retargeting. -/
def IsBlindToCallees (run : Body → Body × Bool) : Prop :=
  ∀ (rename : FuncId → FuncId) (name : String) (body : Body),
    run (body.retarget rename name) = ((run body).1.retarget rename name, (run body).2)

variable {rename : FuncId → FuncId} {name : String}

@[simp] theorem Substitution.apply_retarget (s : Substitution) (body : Body) :
    s.apply (body.retarget rename name) = (s.apply body).retarget rename name := by
  unfold apply
  split
  · rfl
  · exact Body.renameUses_retarget _

/-- A change of every block by its label. -/
theorem mapIdx_mapCallees (rename : FuncId → FuncId) {f : Label → Block → Block}
    (h : ∀ label b, f label (b.mapCallees rename) = (f label b).mapCallees rename)
    (blocks : List Block) :
    (blocks.map (Block.mapCallees rename)).mapIdx f =
      (blocks.mapIdx f).map (Block.mapCallees rename) := by
  refine List.ext_getElem? fun i => ?_
  simp [Function.comp_def, h]

/-! ## Ownership of slots -/

namespace SlotOwnership

@[simp] theorem touched_mapCallee (i : Instr) : touched (i.mapCallee rename) = touched i := by
  cases i <;> rfl

@[simp] theorem sizeInUse_retarget (body : Body) :
    sizeInUse (body.retarget rename name) = sizeInUse body := by
  simp [sizeInUse, List.foldl_map, List.filterMap_map]

theorem isBlindToCallees : IsBlindToCallees run := by
  intro rename name body
  simp only [run, owners, sizeInUse_retarget, Body.slots_retarget]
  rfl

end SlotOwnership

/-! ## Forwarding of parameters -/

namespace Forwarding

theorem incoming_retarget (body : Body) :
    incoming (body.retarget rename name) = incoming body := by
  funext label index param
  rw [incoming, Body.edges_retarget, incoming]

theorem findParam?_retarget (body : Body) (label : Label) (params : List Reg) :
    ∀ index, findParam? (body.retarget rename name) label index params =
      findParam? body label index params := by
  induction params with
  | nil => exact fun _ => rfl
  | cons param rest ih =>
    intro index
    rw [findParam?, findParam?, incoming_retarget, ih]

theorem findFrom?_retarget (body : Body) (blocks : List Block) :
    ∀ label, findFrom? (body.retarget rename name) label
      (blocks.map (Block.mapCallees rename)) = findFrom? body label blocks := by
  induction blocks with
  | nil => exact fun _ => rfl
  | cons b rest ih =>
    intro label
    rw [List.map_cons, findFrom?, findFrom?, Body.entry_retarget, findParam?_retarget, ih]
    rfl

theorem drop_retarget (body : Body) (forward : Forward) :
    drop (body.retarget rename name) forward = (drop body forward).retarget rename name := by
  have hShortened : (body.retarget rename name).modifyBlock forward.label
        (fun b => { b with params := b.params.eraseIdx forward.index }) =
      (body.modifyBlock forward.label fun b =>
        { b with params := b.params.eraseIdx forward.index }).retarget rename name :=
    Body.modifyBlock_retarget _ fun _ => rfl
  have hFed : ∀ shortened : Body, (shortened.retarget rename name).mapBlocks
        (fun b => { b with terminator := b.terminator.mapEdges (dropArg forward) }) =
      (shortened.mapBlocks fun b =>
        { b with terminator := b.terminator.mapEdges (dropArg forward) }).retarget rename name :=
    fun _ => Body.mapBlocks_retarget fun _ => rfl
  simp only [drop, hShortened, hFed, Body.renameUses_retarget]

theorem rounds_retarget (count : Nat) : IsBlindToCallees (rounds count) := by
  intro rename name
  induction count with
  | zero => exact fun _ => rfl
  | succ count ih =>
    intro body
    have hFind : find? (body.retarget rename name) = find? body :=
      findFrom?_retarget body body.blocks 0
    simp only [rounds, hFind]
    cases find? body with
    | none => rfl
    | some forward => simp only [drop_retarget, ih]

end Forwarding

theorem isBlindToCallees_forwardParams : IsBlindToCallees forwardParams := by
  intro rename name body
  rw [forwardParams, Body.params_retarget, Forwarding.rounds_retarget]
  rfl

/-! ## Promotion -/

namespace Promotion

theorem emptyUnreached_retarget (d : Dominance) (body : Body) :
    emptyUnreached d (body.retarget rename name) =
      (emptyUnreached d body).retarget rename name := by
  have hBlocks := mapIdx_mapCallees rename
    (f := fun label b => if d.isReachable label then b else Block.empty)
    (fun label b => by split <;> rfl) body.blocks
  simp only [emptyUnreached, Body.retarget, hBlocks]

theorem storesTo_mapCallees (slot : Slot) (b : Block) :
    storesTo slot (b.mapCallees rename) = storesTo slot b := by
  simp only [storesTo, Block.instrs_mapCallees, List.any_map]
  congr 1
  funext i
  cases i <;> rfl

theorem slotParams_retarget (d : Dominance) (body : Body) (slots : List Slot) :
    slotParams d (body.retarget rename name) slots = slotParams d body slots := by
  simp only [slotParams, places, Body.block_retarget, storesTo_mapCallees, Body.blocks_retarget,
    List.length_map, Body.regCount_retarget]

theorem appendSlotParams_retarget (body : Body) (params : List SlotParam) :
    appendSlotParams (body.retarget rename name) params =
      (appendSlotParams body params).retarget rename name := by
  have hBlocks := mapIdx_mapCallees rename
    (f := fun label b => { b with params := b.params ++ (paramsOf params label).map SlotParam.reg })
    (fun _ _ => rfl) body.blocks
  simp only [appendSlotParams, Body.retarget, hBlocks]

theorem renameInstrs_mapCallee (slots : List Slot) (zeroReg : Reg) (instrs : List Instr) :
    ∀ (current : Current) (replaced : Substitution) (usesZero : Bool),
      renameInstrs slots zeroReg (instrs.map (Instr.mapCallee rename)) current replaced usesZero =
        ((renameInstrs slots zeroReg instrs current replaced usesZero).1.map
            (Instr.mapCallee rename),
          (renameInstrs slots zeroReg instrs current replaced usesZero).2) := by
  induction instrs with
  | nil => exact fun _ _ _ => rfl
  | cons i rest ih =>
    intro current replaced usesZero
    cases i with
    | load dst slot =>
      simp only [List.map_cons, Instr.mapCallee, renameInstrs]
      split
      · exact ih _ _ _
      · simp only [ih, List.map_cons, Instr.mapCallee]
    | store slot src =>
      simp only [List.map_cons, Instr.mapCallee, renameInstrs]
      split
      · exact ih _ _ _
      · simp only [ih, List.map_cons, Instr.mapCallee]
    | _ => simp only [List.map_cons, Instr.mapCallee, renameInstrs, ih]

/-- The state of the walk over a retargeted body. -/
def Renaming.retarget (rename : FuncId → FuncId) (name : String) (s : Renaming) : Renaming :=
  { s with body := s.body.retarget rename name }

theorem renameBlock_retarget (slots : List Slot) (params : List SlotParam) (zeroReg : Reg)
    (s : Renaming) (visit : Label × Option Label) :
    renameBlock slots params zeroReg (s.retarget rename name) visit =
      (renameBlock slots params zeroReg s visit).retarget rename name := by
  obtain ⟨label, parent⟩ := visit
  simp only [renameBlock, Renaming.retarget, Body.block_retarget, Block.instrs_mapCallees,
    Block.terminator_mapCallees, renameInstrs_mapCallee, Renaming.mk.injEq, and_true]
  exact Body.modifyBlock_retarget _ fun _ => rfl

theorem renameSlots_retarget (d : Dominance) (slots : List Slot) (params : List SlotParam)
    (body : Body) :
    renameSlots d slots params (body.retarget rename name) =
      (renameSlots d slots params body).retarget rename name := by
  -- The walk over the blocks is a fold, and what is done after it is a function of its result.
  let addZero (b : Block) : Block := { b with instrs := .const body.regCount 0.0 :: b.instrs }
  let finish (walked : Renaming) : Body :=
    walked.replaced.apply
      (if walked.usesZero then walked.body.modifyBlock body.entry addZero else walked.body)
  have hFinish : ∀ walked : Renaming,
      finish (walked.retarget rename name) = (finish walked).retarget rename name := by
    intro walked
    have hZeroed : (walked.body.retarget rename name).modifyBlock body.entry addZero =
        (walked.body.modifyBlock body.entry addZero).retarget rename name :=
      Body.modifyBlock_retarget _ fun _ => rfl
    simp only [finish, Renaming.retarget, hZeroed]
    split
    · exact Substitution.apply_retarget _ _
    · exact Substitution.apply_retarget _ _
  have hWalk := @List.foldl_hom _ _ _ (Renaming.retarget rename name)
    (renameBlock slots params body.regCount) (renameBlock slots params body.regCount) d.preorder
    { body := { body with regCount := body.regCount + 1 }, replaced := Substitution.empty,
      usesZero := false, atEnd := [] }
    (renameBlock_retarget slots params body.regCount)
  exact (congrArg finish hWalk).trans (hFinish _)

theorem renumber_mapCallee (f : Slot → Slot) (i : Instr) :
    renumber f (i.mapCallee rename) = (renumber f i).mapCallee rename := by
  cases i <;> rfl

theorem closeSlotGaps_retarget (slots : List Slot) (body : Body) :
    closeSlotGaps slots (body.retarget rename name) =
      (closeSlotGaps slots body).retarget rename name := by
  simp only [closeSlotGaps, Body.retarget, Block.mapCallees, List.map_map, Function.comp_def,
    renumber_mapCallee]
  rfl

theorem isBlindToCallees : IsBlindToCallees run := by
  intro rename name body
  have hPromotable : promotable (body.retarget rename name) = promotable body := rfl
  simp only [run, hPromotable, Body.dominance_retarget, emptyUnreached_retarget,
    slotParams_retarget, appendSlotParams_retarget, renameSlots_retarget, closeSlotGaps_retarget,
    isBlindToCallees_forwardParams rename name]
  cases (promotable body).isEmpty <;> rfl

end Promotion

/-! ## Folding -/

namespace Folding

theorem fold_mapCallee (s : Sweep) (i : Instr) :
    s.fold (i.mapCallee rename) = ((s.fold i).1.mapCallee rename, (s.fold i).2) := by
  cases i with
  | arith op dst left right =>
    simp only [Instr.mapCallee, Sweep.fold]
    split
    · rfl
    · unfold Sweep.simplify
      split <;> rfl
  | less dst left right =>
    simp only [Instr.mapCallee, Sweep.fold]
    split <;> rfl
  | _ => rfl

theorem foldInstrs_mapCallee (instrs : List Instr) : ∀ s : Sweep,
    foldInstrs s (instrs.map (Instr.mapCallee rename)) =
      ((foldInstrs s instrs).1.map (Instr.mapCallee rename), (foldInstrs s instrs).2) := by
  induction instrs with
  | nil => exact fun _ => rfl
  | cons i rest ih =>
    intro s
    simp only [List.map_cons, foldInstrs, Instr.renameUses_mapCallee, fold_mapCallee, ih]

theorem foldBlock_retarget (state : Body × Sweep) (label : Label) :
    foldBlock (state.1.retarget rename name, state.2) label =
      ((foldBlock state label).1.retarget rename name, (foldBlock state label).2) := by
  obtain ⟨body, s⟩ := state
  simp only [foldBlock, Body.block_retarget, Block.instrs_mapCallees, foldInstrs_mapCallee,
    Prod.mk.injEq, and_true]
  exact Body.modifyBlock_retarget _ fun _ => rfl

theorem isBlindToCallees_fold : IsBlindToCallees fold := by
  intro rename name body
  have hSweep := @List.foldl_hom _ _ _
    (fun state : Body × Sweep => (state.1.retarget rename name, state.2))
    foldBlock foldBlock body.order (body, Sweep.start) foldBlock_retarget
  dsimp only at hSweep
  simp only [fold, Body.order_retarget, hSweep, Substitution.apply_retarget]

theorem isDead_mapCallee (used : List Reg) (i : Instr) :
    isDead used (i.mapCallee rename) = isDead used i := by
  simp only [isDead, Instr.isPure_mapCallee, Instr.dst_mapCallee]

theorem dropOnce_retarget (body : Body) :
    dropOnce (body.retarget rename name) = (dropOnce body).retarget rename name := by
  simp only [dropOnce, Body.uses_retarget]
  refine Body.mapBlocks_retarget fun b => ?_
  simp only [Block.mapCallees, List.filter_map, Function.comp_def, isDead_mapCallee]

theorem isBlindToCallees_dropRounds (count : Nat) : IsBlindToCallees (dropRounds count) := by
  intro rename name
  induction count with
  | zero => exact fun _ => rfl
  | succ count ih =>
    intro body
    simp only [dropRounds, dropOnce_retarget, Body.instrCount_retarget, ih]
    split <;> rfl

theorem isBlindToCallees : IsBlindToCallees run := by
  intro rename name body
  simp only [run, dropDead, isBlindToCallees_fold rename name, Body.instrCount_retarget,
    isBlindToCallees_dropRounds _ rename name]

end Folding

/-! ## Order of operands -/

namespace OperandOrder

theorem instrRank_mapCallee (blockRank : Nat) (i : Instr) :
    instrRank blockRank (i.mapCallee rename) = instrRank blockRank i := by
  cases i <;> rfl

theorem ranks_retarget (body : Body) : ranks (body.retarget rename name) = ranks body := by
  simp only [ranks, rankBlock, Body.order_retarget, Body.arity_retarget, Body.block_retarget,
    Block.params_mapCallees, Block.instrs_mapCallees, List.foldl_map, Instr.dst_mapCallee,
    instrRank_mapCallee]

theorem isMisordered_mapCallee (ranks : Ranks) (i : Instr) :
    isMisordered ranks (i.mapCallee rename) = isMisordered ranks i := by
  cases i <;> rfl

theorem exchange_mapCallee (i : Instr) :
    exchange (i.mapCallee rename) = (exchange i).mapCallee rename := by
  cases i <;> rfl

theorem isBlindToCallees : IsBlindToCallees run := by
  intro rename name body
  simp only [run, ranks_retarget]
  refine Prod.ext (Body.mapBlocks_retarget fun b => ?_) ?_
  · simp only [Block.mapCallees, List.map_map, Function.comp_def, isMisordered_mapCallee,
      exchange_mapCallee, apply_ite (Instr.mapCallee rename)]
  · simp only [Body.blocks_retarget, List.any_map, Function.comp_def, Block.instrs_mapCallees,
      isMisordered_mapCallee]

end OperandOrder

/-! ## Value numbering -/

namespace ValueNumbering

theorem keyOf_mapCallee (i : Instr) : keyOf (i.mapCallee rename) = keyOf i := by
  cases i <;> rfl

theorem numberInstrs_mapCallee (instrs : List Instr) :
    ∀ (known : Known) (replaced : Substitution) (changed : Bool),
      numberInstrs (instrs.map (Instr.mapCallee rename)) known replaced changed =
        ((numberInstrs instrs known replaced changed).1.map (Instr.mapCallee rename),
          (numberInstrs instrs known replaced changed).2) := by
  induction instrs with
  | nil => exact fun _ _ _ => rfl
  | cons i rest ih =>
    intro known replaced changed
    simp only [List.map_cons, numberInstrs, Instr.renameUses_mapCallee, keyOf_mapCallee,
      Instr.dst_mapCallee]
    split
    · split
      · exact ih _ _ _
      · simp only [ih, List.map_cons]
    · simp only [ih, List.map_cons]

/-- The state of the walk over a retargeted body. -/
def Walk.retarget (rename : FuncId → FuncId) (name : String) (w : Walk) : Walk :=
  { w with body := w.body.retarget rename name }

theorem numberBlock_retarget (w : Walk) (visit : Label × Option Label) :
    numberBlock (w.retarget rename name) visit = (numberBlock w visit).retarget rename name := by
  obtain ⟨label, parent⟩ := visit
  simp only [numberBlock, Walk.retarget, Body.block_retarget, Block.instrs_mapCallees,
    numberInstrs_mapCallee, Walk.mk.injEq, and_true]
  exact Body.modifyBlock_retarget _ fun _ => rfl

theorem isBlindToCallees : IsBlindToCallees run := by
  intro rename name body
  have hWalk := @List.foldl_hom _ _ _ (Walk.retarget rename name) numberBlock numberBlock
    body.dominance.preorder
    { body := body, replaced := Substitution.empty, changed := false, atEnd := [] }
    numberBlock_retarget
  simp only [Walk.retarget] at hWalk
  simp only [run, Body.dominance_retarget, hWalk, Substitution.apply_retarget]

end ValueNumbering

/-! ## Cleanup of the control flow -/

namespace FlowCleanup

theorem constants_retarget (body : Body) :
    constants (body.retarget rename name) = constants body := by
  simp only [constants, Body.blocks_retarget, List.flatMap_map, Block.instrs_mapCallees,
    List.filterMap_map]
  congr 2
  funext b
  congr 1
  funext i
  cases i <;> rfl

theorem isBlindToCallees_settleBranches : IsBlindToCallees settleBranches := by
  intro rename name body
  simp only [settleBranches, constants_retarget]
  refine Prod.ext (Body.mapBlocks_retarget fun b => ?_) ?_
  · simp only [Block.terminator_mapCallees]
    split <;> rfl
  · simp only [Body.blocks_retarget, List.any_map, Function.comp_def, Block.terminator_mapCallees]

/-- The state of joins in a retargeted body. -/
def Joining.retarget (rename : FuncId → FuncId) (name : String) (s : Joining) : Joining :=
  { s with body := s.body.retarget rename name }

theorem onlyJump?_retarget (s : Joining) (label : Label) :
    onlyJump? (s.retarget rename name) label = onlyJump? s label := by
  simp only [onlyJump?, Joining.retarget, Body.block_retarget, Block.terminator_mapCallees,
    Body.entry_retarget]
  rfl

theorem join_retarget (s : Joining) (label : Label) (edge : Edge) :
    join (s.retarget rename name) label edge = (join s label edge).retarget rename name := by
  have hEmptied : (s.body.retarget rename name).modifyBlock edge.target (fun _ => Block.empty) =
      (s.body.modifyBlock edge.target fun _ => Block.empty).retarget rename name :=
    Body.modifyBlock_retarget _ fun _ => rfl
  have hJoined : ∀ emptied : Body, (emptied.retarget rename name).modifyBlock label
        (fun b =>
          { b with
            instrs := b.instrs ++ (s.body.block edge.target).instrs.map (Instr.mapCallee rename)
            terminator := (s.body.block edge.target).terminator }) =
      (emptied.modifyBlock label fun b =>
        { b with
          instrs := b.instrs ++ (s.body.block edge.target).instrs
          terminator := (s.body.block edge.target).terminator }).retarget rename name :=
    fun _ => Body.modifyBlock_retarget _ fun b => by
      simp only [Block.mapCallees, List.map_append]
  simp only [join, Joining.retarget, Body.block_retarget, Block.params_mapCallees,
    Block.instrs_mapCallees, Block.terminator_mapCallees, hEmptied, hJoined,
    Body.renameUses_retarget, Joining.mk.injEq, and_true]
  split <;> rfl

theorem joinFrom_retarget (label : Label) (count : Nat) : ∀ s : Joining,
    joinFrom label count (s.retarget rename name) =
      (joinFrom label count s).retarget rename name := by
  induction count with
  | zero => exact fun _ => rfl
  | succ count ih =>
    intro s
    simp only [joinFrom, onlyJump?_retarget]
    cases onlyJump? s label with
    | none => rfl
    | some edge => simp only [join_retarget, ih]

theorem isBlindToCallees_joinBlocks : IsBlindToCallees joinBlocks := by
  intro rename name body
  have hEntering : enteringEdges (body.retarget rename name) body.order =
      enteringEdges body body.order := by
    simp only [enteringEdges, Body.block_retarget, Block.terminator_mapCallees,
      Body.blocks_retarget, List.length_map]
  have hJoin := @List.foldl_hom _ _ _ (Joining.retarget rename name)
    (fun s label => joinFrom label body.blocks.length s)
    (fun s label => joinFrom label body.blocks.length s) body.order
    { body := body, entering := enteringEdges body body.order, changed := false }
    fun s label => joinFrom_retarget label body.blocks.length s
  simp only [Joining.retarget] at hJoin
  simp only [joinBlocks, Body.order_retarget, hEntering, Body.blocks_retarget, List.length_map,
    hJoin]

theorem isBlindToCallees_round : IsBlindToCallees round := by
  intro rename name body
  simp only [round, isBlindToCallees_settleBranches rename name,
    isBlindToCallees_forwardParams rename name, isBlindToCallees_joinBlocks rename name]

theorem isBlindToCallees_rounds (count : Nat) : IsBlindToCallees (rounds count) := by
  intro rename name
  induction count with
  | zero => exact fun _ => rfl
  | succ count ih =>
    intro body
    simp only [rounds, isBlindToCallees_round rename name, ih]
    split <;> rfl

theorem isBlindToCallees_dropUnreachable : IsBlindToCallees dropUnreachable := by
  intro rename name body
  have hKept : (body.retarget rename name).block = fun label =>
      (body.block label).mapCallees rename := funext fun _ => Body.block_retarget _
  simp only [dropUnreachable, Body.graph_retarget, Body.entry_retarget, Body.blocks_retarget,
    List.length_map, hKept]
  split
  · rfl
  · simp only [Body.retarget, List.map_map, Function.comp_def, Block.mapCallees]

theorem isBlindToCallees : IsBlindToCallees run := by
  intro rename name body
  have hWeight : weight (body.retarget rename name) = weight body := by
    simp only [weight, Body.edges_retarget, Body.params_retarget]
  simp only [run, hWeight, isBlindToCallees_rounds _ rename name,
    isBlindToCallees_dropUnreachable rename name]

end FlowCleanup

/-! ## The pipeline -/

/-- No pass of the standard pipeline looks at callees. -/
theorem isBlindToCallees_of_mem {pass : Pass} (h : pass ∈ standardPasses) :
    IsBlindToCallees pass.run := by
  simp only [standardPasses, List.mem_cons, List.not_mem_nil, or_false] at h
  rcases h with rfl | rfl | rfl | rfl | rfl | rfl
  · exact SlotOwnership.isBlindToCallees
  · exact Promotion.isBlindToCallees
  · exact Folding.isBlindToCallees
  · exact OperandOrder.isBlindToCallees
  · exact ValueNumbering.isBlindToCallees
  · exact FlowCleanup.isBlindToCallees

theorem isBlindToCallees_runPasses (passes : List Pass)
    (h : ∀ pass ∈ passes, IsBlindToCallees pass.run) : IsBlindToCallees (runPasses passes) := by
  intro rename name body
  unfold runPasses
  -- The fold hands the flag on, so the induction needs it for any flag.
  generalize false = changed
  induction passes generalizing body changed with
  | nil => rfl
  | cons pass rest ih =>
    have hRest : ∀ pass ∈ rest, IsBlindToCallees pass.run := fun pass hMem =>
      h pass (List.mem_cons_of_mem _ hMem)
    simp only [List.foldl_cons, h pass List.mem_cons_self rename name body, ih hRest]

/-- It comes to the same whether a body is retargeted before the pipeline or after it. -/
theorem optimize_retarget (body : Body) :
    optimize (body.retarget rename name) =
      ((optimize body).1.retarget rename name, (optimize body).2) :=
  isBlindToCallees_runPasses standardPasses (fun _ => isBlindToCallees_of_mem) rename name body

/-- The pipeline keeps the name, as it would keep any other. -/
theorem name_optimize (body : Body) : (optimize body).1.name = body.name := by
  have hSelf : body.retarget id body.name = body := by
    rw [Body.retarget, ← body.mirrors_id.blocks_eq]
  have hRun := @optimize_retarget id body.name body
  rw [hSelf] at hRun
  rw [hRun]
  exact Body.name_retarget

end LiveCompiler
