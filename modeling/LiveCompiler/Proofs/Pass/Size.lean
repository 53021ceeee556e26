import LiveCompiler.Proofs.Pass.Reports

/-!
# No pass makes a body larger

The size of a body counts its instructions, its edges and its parameters.  Folding takes out
instructions only, and putting operands in order takes out nothing.  Value numbering and the cleanup
of the control flow make the body smaller whenever they change it (`ValueNumbering.size_run`,
`FlowCleanup.size_run`).
-/

namespace LiveCompiler

open Ir FlowCleanup

namespace Ir

/-- How many instructions, edges and parameters a body has. -/
def Body.size (body : Body) : Nat :=
  body.instrCount + weight body

end Ir

variable {body : Body} {label : Label}

/-! ## Edges and parameters -/

namespace FlowCleanup

/-- What is listed of the blocks of a body stays as long, if one of them is changed to a block that
lists as much. -/
theorem length_flatMap_modifyBlock_eq {α : Type} (g : Block → List α) {f : Block → Block}
    (h : (g (f (body.block label))).length = (g (body.block label)).length) :
    ((body.modifyBlock label f).blocks.flatMap g).length = (body.blocks.flatMap g).length := by
  by_cases hLt : label < body.blocks.length
  · have hCount := length_flatMap_modifyBlock g f hLt
    omega
  · exact congrArg (fun blocks => (blocks.flatMap g).length)
      (List.modify_eq_self (Nat.le_of_not_lt hLt))

/-- Other instructions in a block change neither edges nor parameters. -/
theorem weight_modifyInstrs (instrs : Block → List Instr) :
    weight (body.modifyBlock label fun b => { b with instrs := instrs b }) = weight body :=
  congrArg₂ (· + ·) (length_flatMap_modifyBlock_eq (fun b => b.terminator.edges) rfl)
    (length_flatMap_modifyBlock_eq Block.params rfl)

theorem weight_mapInstrs (instrs : Block → List Instr) :
    weight (body.mapBlocks fun b => { b with instrs := instrs b }) = weight body :=
  congrArg₂ (· + ·) (length_flatMap_mapBlocks (fun b => b.terminator.edges) fun _ => rfl)
    (length_flatMap_mapBlocks Block.params fun _ => rfl)

theorem weight_apply (s : Substitution) (body : Body) : weight (s.apply body) = weight body := by
  unfold Substitution.apply
  split
  · rfl
  · obtain ⟨hParams, hEdges⟩ := lengths_renameUses body s.representative
    exact congrArg₂ (· + ·) hEdges hParams

end FlowCleanup

/-! ## Folding -/

namespace Folding

theorem length_foldInstrs (instrs : List Instr) : ∀ s : Sweep,
    (foldInstrs s instrs).1.length = instrs.length := by
  induction instrs with
  | nil => exact fun _ => rfl
  | cons i instrs ih => exact fun s => congrArg (· + 1) (ih _)

theorem size_foldBlock (state : Body × Sweep) (label : Label) :
    (foldBlock state label).1.size = state.1.size :=
  congrArg₂ (· + ·) (length_flatMap_modifyBlock_eq Block.instrs (length_foldInstrs _ _))
    (weight_modifyInstrs _)

theorem size_fold (body : Body) : (fold body).1.size = body.size := by
  have hWalk : ∀ (labels : List Label) (state : Body × Sweep),
      (labels.foldl foldBlock state).1.size = state.1.size := by
    intro labels
    induction labels with
    | nil => exact fun _ => rfl
    | cons label labels ih => exact fun state => (ih _).trans (size_foldBlock state label)
  unfold fold
  dsimp only
  rw [Body.size, Substitution.instrCount_apply, weight_apply]
  exact hWalk body.order (body, Sweep.start)

theorem size_dropRounds (count : Nat) : ∀ body : Body,
    (dropRounds count body).1.size ≤ body.size := by
  induction count with
  | zero => exact fun _ => Nat.le_refl _
  | succ count ih =>
    intro body
    have hOnce : (dropOnce body).size ≤ body.size := by
      apply Nat.add_le_add _ (Nat.le_of_eq (weight_mapInstrs _))
      unfold Body.instrCount
      rw [instrs_dropOnce]
      exact List.length_filter_le _ _
    unfold dropRounds
    dsimp only
    split
    · exact Nat.le_refl _
    · exact (ih _).trans hOnce

/-- Folding takes out instructions only. -/
theorem size_run (body : Body) : (run body).1.size ≤ body.size :=
  (size_dropRounds _ _).trans (Nat.le_of_eq (size_fold body))

end Folding

/-! ## Order of operands -/

/-- Putting operands in order takes out nothing. -/
theorem OperandOrder.size_run (body : Body) : (run body).1.size = body.size :=
  congrArg₂ (· + ·) (length_flatMap_mapBlocks Block.instrs fun _ => List.length_map _)
    (weight_mapInstrs _)

/-! ## Value numbering -/

namespace ValueNumbering

theorem weight_run (body : Body) : weight (run body).1 = weight body := by
  have hWalk : ∀ (visits : List (Label × Option Label)) (w : Walk),
      weight (visits.foldl numberBlock w).body = weight w.body := by
    intro visits
    induction visits with
    | nil => exact fun _ => rfl
    | cons visit visits ih => exact fun w => (ih _).trans (weight_modifyInstrs _)
  unfold run
  dsimp only
  rw [weight_apply]
  exact hWalk _ _

/-- Value numbering makes a body that it changes smaller. -/
theorem size_run (body : Body) : (run body).1.size + (run body).2.toNat ≤ body.size := by
  have hCount := instrCount_run body
  unfold Body.size
  rw [weight_run]
  omega

end ValueNumbering

/-! ## Cleanup of the control flow -/

namespace FlowCleanup

theorem instrCount_mapBlocks {f : Block → Block}
    (h : ∀ b, (f b).instrs.length = b.instrs.length) :
    (body.mapBlocks f).instrCount = body.instrCount :=
  length_flatMap_mapBlocks Block.instrs h

theorem instrCount_renameUses (f : Reg → Reg) (body : Body) :
    (body.renameUses f).instrCount = body.instrCount :=
  instrCount_mapBlocks fun _ => List.length_map _

theorem instrCount_forwarding (count : Nat) : ∀ body : Body,
    (Forwarding.rounds count body).1.instrCount = body.instrCount := by
  induction count with
  | zero => exact fun _ => rfl
  | succ count ih =>
    intro body
    have hDrop : ∀ forward, (Forwarding.drop body forward).instrCount = body.instrCount := by
      intro forward
      unfold Forwarding.drop
      rw [instrCount_renameUses, instrCount_mapBlocks]
      · apply length_flatMap_modifyBlock_eq Block.instrs
        rfl
      · exact fun _ => rfl
    unfold Forwarding.rounds
    split
    · rfl
    · exact (ih _).trans (hDrop _)

theorem instrCount_settleBranches (body : Body) :
    (settleBranches body).1.instrCount = body.instrCount := by
  apply instrCount_mapBlocks
  intro b
  split <;> rfl

/-- A join moves the instructions of one block to another. -/
theorem instrCount_join {s : Joining} {edge : Edge} (hOnly : onlyJump? s label = some edge) :
    (join s label edge).body.instrCount = s.body.instrCount := by
  have hJoined := length_flatMap_join Block.instrs (fun b =>
    { b with
      instrs := b.instrs ++ (s.body.block edge.target).instrs
      terminator := (s.body.block edge.target).terminator })
    (lt_of_onlyJump? hOnly) (onlyJump?_spec hOnly).2.1.symm
  have hNone : Block.empty.instrs.length = 0 := rfl
  rw [List.length_append] at hJoined
  unfold join
  dsimp only
  split
  · unfold Body.instrCount Body.instrs
    omega
  · refine (instrCount_renameUses _ _).trans ?_
    unfold Body.instrCount Body.instrs
    omega

theorem instrCount_joinFrom (label : Label) (count : Nat) : ∀ s : Joining,
    (joinFrom label count s).body.instrCount = s.body.instrCount := by
  induction count with
  | zero => exact fun _ => rfl
  | succ count ih =>
    intro s
    unfold joinFrom
    split
    · rename_i edge hOnly
      exact (ih _).trans (instrCount_join hOnly)
    · rfl

theorem instrCount_joinBlocks (body : Body) : (joinBlocks body).1.instrCount = body.instrCount := by
  have hWalk : ∀ (labels : List Label) (count : Nat) (s : Joining),
      (labels.foldl (fun s label => joinFrom label count s) s).body.instrCount =
        s.body.instrCount := by
    intro labels count
    induction labels with
    | nil => exact fun _ => rfl
    | cons label labels ih => exact fun s => (ih _).trans (instrCount_joinFrom label count s)
  exact hWalk _ _ _

/-- No round takes out an instruction. -/
theorem instrCount_rounds (count : Nat) : ∀ body : Body,
    (rounds count body).1.instrCount = body.instrCount := by
  induction count with
  | zero => exact fun _ => rfl
  | succ count ih =>
    intro body
    have hRound : (round body).1.instrCount = body.instrCount :=
      (instrCount_joinBlocks _).trans
        ((instrCount_forwarding _ _).trans (instrCount_settleBranches body))
    unfold rounds
    dsimp only
    split
    · exact (ih _).trans hRound
    · exact hRound

/-- If the entry leads to all blocks, the cleanup makes a body that it changes smaller. -/
theorem size_run (hShaped : body.Shaped) (hConnected : body.Connected) :
    (run body).1.size + (run body).2.toNat ≤ body.size := by
  have hWeight := weight_rounds (weight body + 1) body
  have hCount := instrCount_rounds (weight body + 1) body
  have hDropped := weight_dropUnreachable (rounds (weight body + 1) body).1
  have hDroppedCount : (dropUnreachable (rounds (weight body + 1) body).1).1.instrCount ≤
      (rounds (weight body + 1) body).1.instrCount :=
    length_flatMap_dropUnreachable Block.instrs fun _ _ => rfl
  rw [snd_run, fst_run]
  unfold Body.size
  cases hRounds : (rounds (weight body + 1) body).2 with
  | true =>
    rw [hRounds] at hWeight
    rw [Bool.true_or]
    omega
  | false =>
    -- Without a round that changes something, there is no block to drop.
    have hSame := (still_of_snd_rounds hRounds).rounds_eq (weight body + 1)
    rw [hSame, dropUnreachable_eq hShaped hConnected]
    exact Nat.le_refl _

end FlowCleanup

end LiveCompiler
