import LiveCompiler.Proofs.Pass.FlowCleanup.Branches
import LiveCompiler.Proofs.Pass.FlowCleanup.Dropping
import LiveCompiler.Proofs.Pass.FlowCleanup.Joining
import LiveCompiler.Proofs.Repeats

/-!
# Cleaning up the control flow comes to an end

The pass has three loops: rounds, the parameters forwarded in a round, and the blocks joined to one
block.  Each is made at most so many times.  Here they are taken with no such bound, and the bounds
are seen to be high enough: each parameter that is forwarded is one less, each join uses up a block
that one edge enters, and a round that changes something lowers the number of edges and parameters.
-/

namespace LiveCompiler

open Ir

namespace FlowCleanup

/-! ## Loops without a bound -/

/-- Drop one parameter that gets one single value, if there is one. -/
def forwardStep (body : Body) : Body × Bool :=
  match Forwarding.find? body with
  | none => (body, false)
  | some forward => (Forwarding.drop body forward, true)

/-- Join one block to a block, if a jump is the only way into it. -/
def joinStep (label : Label) (s : Joining) : Joining × Bool :=
  match onlyJump? s label with
  | none => (s, false)
  | some edge => (join s label edge, true)

/-- Join blocks to each of some blocks, one after another. -/
inductive JoinsEach : List Label → Joining → Joining → Prop
  | nil (s : Joining) : JoinsEach [] s s
  | cons {label : Label} {labels : List Label} {s s' : Joining} {out : Joining × Bool}
      (first : Repeats (fun s out => joinStep label s = out) s out)
      (rest : JoinsEach labels out.1 s') : JoinsEach (label :: labels) s s'

/-- One round of the three steps, with no bound on their loops. -/
inductive RoundGives (body : Body) : Body × Bool → Prop
  | mk {forwarded : Body × Bool} {joined : Joining}
      (forwards : Repeats (fun body out => forwardStep body = out) (settleBranches body).1
        forwarded)
      (joins : JoinsEach forwarded.1.order
        ⟨forwarded.1, enteringEdges forwarded.1 forwarded.1.order, false⟩ joined) :
      RoundGives body (joined.body, (settleBranches body).2 || forwarded.2 || joined.changed)

/-- What cleaning up gives with no bound on any of the loops, and whether it changed something. -/
inductive Gives (body : Body) : Body × Bool → Prop
  | mk {settled : Body × Bool} (rounds : Repeats RoundGives body settled) :
      Gives body ((dropUnreachable settled.1).1, settled.2 || (dropUnreachable settled.1).2)

theorem JoinsEach.unique {labels : List Label} {s s' s'' : Joining} (h : JoinsEach labels s s')
    (h' : JoinsEach labels s s'') : s' = s'' := by
  induction h with
  | nil s =>
    cases h'
    rfl
  | cons first _ ih =>
    cases h' with
    | cons first' rest' =>
      obtain rfl := first.unique_of_eq first'
      exact ih rest'

theorem RoundGives.unique {body : Body} {out out' : Body × Bool} (h : RoundGives body out)
    (h' : RoundGives body out') : out = out' := by
  obtain ⟨forwards, joins⟩ := h
  obtain ⟨forwards', joins'⟩ := h'
  obtain rfl := forwards.unique_of_eq forwards'
  rw [joins.unique joins']

theorem Gives.unique {body : Body} {out out' : Body × Bool} (h : Gives body out)
    (h' : Gives body out') : out = out' := by
  obtain ⟨rounds⟩ := h
  obtain ⟨rounds'⟩ := h'
  obtain rfl := rounds.unique
    (fun body out out' (hOut : RoundGives body out) (hOut' : RoundGives body out') =>
      hOut.unique hOut') rounds'
  rfl

/-! ## Edges and parameters -/

variable {body : Body} {label : Label}

/-- What is listed of the blocks of a body, if one of them is changed. -/
theorem length_flatMap_modifyBlock {α : Type} (g : Block → List α) (f : Block → Block)
    (h : label < body.blocks.length) :
    ((body.modifyBlock label f).blocks.flatMap g).length + (g (body.block label)).length =
      (body.blocks.flatMap g).length + (g (f (body.block label))).length := by
  rw [Body.block_of_lt h, Body.modifyBlock]
  dsimp only
  generalize body.blocks = blocks at h ⊢
  induction blocks generalizing label with
  | nil => exact absurd h (Nat.not_lt_zero _)
  | cons b blocks ih =>
    cases label with
    | zero =>
      simp only [List.modify_zero_cons, List.flatMap_cons, List.length_append,
        List.getElem_cons_zero]
      omega
    | succ label =>
      have hRest := ih (Nat.lt_of_succ_lt_succ h)
      simp only [List.modify_succ_cons, List.flatMap_cons, List.length_append,
        List.getElem_cons_succ]
      omega

/-- What is listed of the blocks of a body, if all of them are changed and list as much as
before. -/
theorem length_flatMap_mapBlocks {α : Type} (g : Block → List α) {f : Block → Block}
    (h : ∀ b, (g (f b)).length = (g b).length) :
    ((body.mapBlocks f).blocks.flatMap g).length = (body.blocks.flatMap g).length := by
  simp only [Body.mapBlocks, List.flatMap_map, List.length_flatMap, h]

theorem lengths_renameUses (body : Body) (f : Reg → Reg) :
    (body.renameUses f).params.length = body.params.length ∧
      (body.renameUses f).edges.length = body.edges.length :=
  ⟨length_flatMap_mapBlocks Block.params fun _ => rfl,
    length_flatMap_mapBlocks (fun b => b.terminator.edges) fun b => by
      rw [Block.terminator_renameUses, Terminator.edges_renameUses, List.length_map]⟩

theorem lengths_mapEdges (body : Body) (f : Edge → Edge) :
    (body.mapBlocks fun b => { b with terminator := b.terminator.mapEdges f }).params.length =
        body.params.length ∧
      (body.mapBlocks fun b => { b with terminator := b.terminator.mapEdges f }).edges.length =
        body.edges.length :=
  ⟨length_flatMap_mapBlocks Block.params fun _ => rfl,
    length_flatMap_mapBlocks (fun b => b.terminator.edges) fun b => by
      rw [Terminator.edges_mapEdges, List.length_map]⟩

/-! ## Branches -/

/-- A branch whose way is known loses one of its two edges. -/
theorem length_edges_settle (constants : List (Reg × Float)) (b : Block) :
    (settle constants b).terminator.edges.length +
        (knownEdge? constants b.terminator).isSome.toNat ≤ b.terminator.edges.length := by
  unfold settle
  split
  · rename_i edge hKnown
    cases hTerminator : b.terminator with
    | branch condition onTrue onFalse => exact Nat.add_le_add_left (Bool.toNat_le _) 1
    | _ =>
      rw [hTerminator] at hKnown
      cases hKnown
  · rename_i hNone
    rw [hNone]
    exact Nat.le_refl _

theorem weight_settleBranches (body : Body) :
    weight (settleBranches body).1 + (settleBranches body).2.toNat ≤ weight body := by
  have hParams : (settleBranches body).1.params.length = body.params.length :=
    length_flatMap_mapBlocks Block.params fun b =>
      congrArg List.length (params_settle (constants body) b)
  have hEdges : ∀ blocks : List Block,
      ((blocks.map (settle (constants body))).flatMap fun b => b.terminator.edges).length +
        (blocks.any fun b => (knownEdge? (constants body) b.terminator).isSome).toNat ≤
      (blocks.flatMap fun b => b.terminator.edges).length := by
    intro blocks
    induction blocks with
    | nil => exact Nat.le_refl _
    | cons b blocks ih =>
      simp only [List.map_cons, List.flatMap_cons, List.length_append, List.any_cons]
      have hFirst := length_edges_settle (constants body) b
      have hEither := toNat_or_le (knownEdge? (constants body) b.terminator).isSome
        (blocks.any fun b => (knownEdge? (constants body) b.terminator).isSome)
      omega
  have hAll : (settleBranches body).1.edges.length + (settleBranches body).2.toNat ≤
      body.edges.length := hEdges body.blocks
  unfold weight
  omega

/-! ## Forwarding -/

/-- One parameter is dropped and no edge. -/
theorem lengths_drop {forward : Forwarding.Forward} (hFind : Forwarding.find? body = some forward) :
    (Forwarding.drop body forward).params.length + 1 = body.params.length ∧
      (Forwarding.drop body forward).edges.length = body.edges.length := by
  have h := Forwarding.found_of_findFrom? body.blocks 0 rfl hFind
  have hIndex : forward.index < (body.block forward.label).params.length :=
    (List.getElem?_eq_some_iff.mp h.at_index).1
  have hLt : forward.label < body.blocks.length :=
    Body.lt_of_mem_defs (Body.mem_defs.mpr (.inl (List.mem_of_getElem? h.at_index)))
  have hErased := List.length_eraseIdx_add_one hIndex
  have hParams := length_flatMap_modifyBlock Block.params
    (fun b => { b with params := b.params.eraseIdx forward.index }) hLt
  have hEdges := length_flatMap_modifyBlock (fun b => b.terminator.edges)
    (fun b => { b with params := b.params.eraseIdx forward.index }) hLt
  unfold Forwarding.drop
  rw [(lengths_renameUses _ _).1, (lengths_renameUses _ _).2, (lengths_mapEdges _ _).1,
    (lengths_mapEdges _ _).2]
  refine ⟨?_, Nat.add_right_cancel hEdges⟩
  unfold Body.params
  dsimp only at hParams
  omega

/-- Forwarding with no bound on how many parameters are dropped. -/
theorem repeats_forwarding (count : Nat) : ∀ {body : Body}, body.params.length ≤ count →
    Repeats (fun body out => forwardStep body = out) body (Forwarding.rounds count body) := by
  induction count with
  | zero =>
    intro body hCount
    refine .last ?_
    unfold forwardStep
    split
    · rfl
    · rename_i forward hFind
      have hDrop := (lengths_drop hFind).1
      omega
  | succ count ih =>
    intro body hCount
    unfold Forwarding.rounds
    split
    · rename_i hFind
      exact .last (by rw [forwardStep, hFind])
    · rename_i forward hFind
      have hDrop := (lengths_drop hFind).1
      exact .again (by rw [forwardStep, hFind]) (ih (by omega))

theorem weight_forwardRounds (count : Nat) : ∀ body : Body,
    weight (Forwarding.rounds count body).1 + (Forwarding.rounds count body).2.toNat ≤
      weight body := by
  induction count with
  | zero => exact fun _ => Nat.le_refl _
  | succ count ih =>
    intro body
    unfold Forwarding.rounds
    split
    · exact Nat.le_refl _
    · rename_i forward hFind
      have hRest := ih (Forwarding.drop body forward)
      obtain ⟨hParams, hEdges⟩ := lengths_drop hFind
      simp only [weight, Bool.toNat_true] at hRest ⊢
      omega

/-! ## Joins -/

/-- What is listed of the blocks of a body, if one block is emptied and another is put together from
what the two had. -/
theorem length_flatMap_join {α : Type} (g : Block → List α) (f : Block → Block) {target : Label}
    (hLabel : label < body.blocks.length) (hne : label ≠ target) :
    (((body.modifyBlock target fun _ => Block.empty).modifyBlock label f).blocks.flatMap g).length +
        (g (body.block target)).length + (g (body.block label)).length =
      (body.blocks.flatMap g).length + (g Block.empty).length +
        (g (f (body.block label))).length := by
  have hEmptied : ((body.modifyBlock target fun _ => Block.empty).blocks.flatMap g).length +
      (g (body.block target)).length =
        (body.blocks.flatMap g).length + (g Block.empty).length := by
    by_cases hTarget : target < body.blocks.length
    · exact length_flatMap_modifyBlock g (fun _ => Block.empty) hTarget
    · -- There is no such block, so nothing is emptied.
      have hLe := Nat.le_of_not_lt hTarget
      rw [Body.block_of_le hLe, Body.modifyBlock, List.modify_eq_self hLe]
  have hJoined := length_flatMap_modifyBlock g f
    (show label < (body.modifyBlock target fun _ => Block.empty).blocks.length by
      rwa [Body.length_modifyBlock])
  rw [Body.block_modifyBlock_of_ne _ hne] at hJoined
  omega

/-- A join takes away the edge that it follows. -/
theorem weight_join {s : Joining} {edge : Edge} (hOnly : onlyJump? s label = some edge) :
    weight (join s label edge).body + 1 ≤ weight s.body := by
  obtain ⟨hJump, hne, -, -⟩ := onlyJump?_spec hOnly
  have hOne : (s.body.block label).terminator.edges.length = 1 := by rw [hJump]; rfl
  have hJoined := fun (α : Type) (g : Block → List α) =>
    length_flatMap_join g (fun b =>
      { b with
        instrs := b.instrs ++ (s.body.block edge.target).instrs
        terminator := (s.body.block edge.target).terminator })
      (lt_of_onlyJump? hOnly) hne.symm
  have hEdges := hJoined _ fun b => b.terminator.edges
  have hParams := hJoined _ Block.params
  have hNone : Block.empty.terminator.edges.length = 0 ∧ Block.empty.params.length = 0 := ⟨rfl, rfl⟩
  unfold weight join
  dsimp only at hEdges hParams ⊢
  split
  · unfold Body.edges Body.params
    omega
  · rw [(lengths_renameUses _ _).1, (lengths_renameUses _ _).2]
    unfold Body.edges Body.params
    omega

/-- What a round of joins keeps: there is a count for each block, and each join has taken away an
edge. -/
structure Spent (size bound : Nat) (s : Joining) : Prop where
  blocks : s.body.blocks.length = size
  entering : s.entering.length = size
  weight : weight s.body + s.changed.toNat ≤ bound

namespace Spent

variable {size bound : Nat} {s : Joining} {edge : Edge}

/-- A join uses up a block that one edge enters. -/
theorem join (h : Spent size bound s) (hOnly : onlyJump? s label = some edge) :
    Spent size bound (FlowCleanup.join s label edge) ∧
      (FlowCleanup.join s label edge).entering.count 1 < s.entering.count 1 := by
  obtain ⟨hTarget, hOne⟩ := List.getElem?_eq_some_iff.mp (onlyJump?_spec hOnly).2.2.2
  have hWeight := weight_join hOnly
  have hBound := h.weight
  have hSet : (FlowCleanup.join s label edge).entering = s.entering.set edge.target 0 := rfl
  have hChanged : (FlowCleanup.join s label edge).changed = true := rfl
  refine ⟨⟨?_, ?_, ?_⟩, ?_⟩
  · have hBlocks := h.blocks
    unfold FlowCleanup.join
    dsimp only
    split <;> simpa [Body.renameUses, Body.mapBlocks] using hBlocks
  · rw [hSet, List.length_set, h.entering]
  · rw [hChanged]
    exact Nat.le_trans hWeight (Nat.le_trans (Nat.le_add_right _ _) hBound)
  · have hPos : 0 < s.entering.count 1 := List.count_pos_iff.mpr (hOne ▸ List.getElem_mem hTarget)
    rw [hSet, List.count_set hTarget, hOne]
    exact Nat.sub_lt hPos Nat.one_pos

/-- The joins to one block with no bound on how many there are. -/
theorem repeats (label : Label) (count : Nat) : ∀ {s : Joining},
    Spent size bound s → s.entering.count 1 ≤ count →
      Spent size bound (joinFrom label count s) ∧
        ∃ changed, Repeats (fun s out => joinStep label s = out) s
          (joinFrom label count s, changed) := by
  induction count with
  | zero =>
    intro s h hCount
    refine ⟨h, false, .last ?_⟩
    unfold joinStep
    split
    · rfl
    · rename_i edge hOnly
      exact absurd (h.join hOnly).2 (by omega)
  | succ count ih =>
    intro s h hCount
    unfold joinFrom
    split
    · rename_i edge hOnly
      obtain ⟨hJoin, hLess⟩ := h.join hOnly
      obtain ⟨hRest, changed, hRepeats⟩ := ih hJoin (by omega)
      exact ⟨hRest, true, .again (by rw [joinStep, hOnly]) hRepeats⟩
    · rename_i hOnly
      exact ⟨h, false, .last (by rw [joinStep, hOnly])⟩

/-- The joins to each of some blocks.  There are never more to make than there are blocks. -/
theorem joinsEach (labels : List Label) : ∀ {s : Joining}, Spent size bound s →
    Spent size bound (labels.foldl (fun s label => joinFrom label size s) s) ∧
      JoinsEach labels s (labels.foldl (fun s label => joinFrom label size s) s) := by
  induction labels with
  | nil => exact fun h => ⟨h, .nil _⟩
  | cons label labels ih =>
    intro s h
    obtain ⟨hFirst, changed, hRepeats⟩ := h.repeats label size
      (Nat.le_trans List.count_le_length (Nat.le_of_eq h.entering))
    obtain ⟨hRest, hEach⟩ := ih hFirst
    exact ⟨hRest, .cons hRepeats hEach⟩

end Spent

theorem spent_start (body : Body) :
    Spent body.blocks.length (weight body) ⟨body, enteringEdges body body.order, false⟩ where
  blocks := rfl
  entering := by simp [enteringEdges]
  weight := Nat.le_refl _

/-! ## Rounds -/

theorem snd_round (body : Body) :
    (round body).2 = ((settleBranches body).2 || (forwardParams (settleBranches body).1).2 ||
      (joinBlocks (forwardParams (settleBranches body).1).1).2) := rfl

/-- A round is one of loops with no bound, and if it changes something the body gets lighter. -/
theorem roundGives_round (body : Body) :
    RoundGives body (round body) ∧ weight (round body).1 + (round body).2.toNat ≤ weight body := by
  have hSettled := weight_settleBranches body
  have hForwarded := weight_forwardRounds (settleBranches body).1.params.length
    (settleBranches body).1
  obtain ⟨hSpent, hJoins⟩ :=
    (spent_start (forwardParams (settleBranches body).1).1).joinsEach
      (forwardParams (settleBranches body).1).1.order
  refine ⟨.mk (repeats_forwarding _ (Nat.le_refl _)) hJoins, ?_⟩
  have hJoined : weight (round body).1 +
      (joinBlocks (forwardParams (settleBranches body).1).1).2.toNat ≤
      weight (forwardParams (settleBranches body).1).1 := hSpent.weight
  have hAny := toNat_or_le ((settleBranches body).2 || (forwardParams (settleBranches body).1).2)
    (joinBlocks (forwardParams (settleBranches body).1).1).2
  have hEither := toNat_or_le (settleBranches body).2 (forwardParams (settleBranches body).1).2
  calc weight (round body).1 + (round body).2.toNat
      ≤ weight (forwardParams (settleBranches body).1).1 +
          (forwardParams (settleBranches body).1).2.toNat + (settleBranches body).2.toNat := by
        rw [snd_round]
        omega
    _ ≤ weight (settleBranches body).1 + (settleBranches body).2.toNat :=
        Nat.add_le_add_right hForwarded _
    _ ≤ weight body := hSettled

/-- Rounds with no bound on how many there are.  Each that changes something leaves a lighter
body. -/
theorem repeats_rounds (count : Nat) : ∀ {body : Body}, weight body < count →
    Repeats RoundGives body (rounds count body) := by
  induction count with
  | zero => exact fun h => absurd h (Nat.not_lt_zero _)
  | succ count ih =>
    intro body hCount
    obtain ⟨hGives, hWeight⟩ := roundGives_round body
    unfold rounds
    dsimp only
    split
    · rename_i hChanged
      rw [hChanged, Bool.toNat_true] at hWeight
      exact .again (hChanged ▸ hGives) (ih (by omega))
    · rename_i hStill
      exact .last (Bool.eq_false_of_not_eq_true hStill ▸ hGives)

/-- With no bound on its loops cleaning up comes to an end, and gives what it gives with the
bounds. -/
theorem gives_iff {body : Body} {out : Body × Bool} : Gives body out ↔ out = run body := by
  have hRun : Gives body (run body) := .mk (repeats_rounds _ (Nat.lt_succ_self _))
  exact ⟨fun h => h.unique hRun, fun h => h ▸ hRun⟩

end FlowCleanup

end LiveCompiler
