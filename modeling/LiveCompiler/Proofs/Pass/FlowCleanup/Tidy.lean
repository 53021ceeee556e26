import LiveCompiler.Proofs.Ir.Checking
import LiveCompiler.Proofs.Pass.FlowCleanup
import LiveCompiler.Proofs.Pass.FlowCleanup.Still

/-!
# What a cleaned-up body looks like

The rounds come to rest at a body (`Still`) whose reached blocks then get new labels.  What holds
of branches and jumps there holds of the blocks that stay (`Still.tidy`), as both are judged by
reached blocks alone.

Parameters are not.  As long as an unreached block is there its edges count, so a parameter can
get one single value for the first time when the block is dropped (`exists_unreached_of_trivial`).
`run_tidy` puts this together: such a parameter is the only thing that another run can find.
-/

namespace LiveCompiler

open Ir

namespace FlowCleanup

open Forwarding (Trivial)

variable {body after : Body} {place : Label → Label}

/-- All blocks are reached, no branch has a known way, and no jump is the only edge into another
block, which is not the entry. -/
structure Tidy (body : Body) : Prop where
  connected : body.Connected
  arms : ∀ label condition onTrue onFalse,
    (body.block label).terminator = .branch condition onTrue onFalse → onTrue ≠ onFalse
  conditions : ∀ label condition onTrue onFalse,
    (body.block label).terminator = .branch condition onTrue onFalse →
      ∀ other x, Instr.const condition x ∉ (body.block other).instrs
  jumps : ∀ label edge, (body.block label).terminator = .jump edge → edge.target ≠ label →
    edge.target ≠ body.entry →
      (targets body (List.range body.blocks.length)).count edge.target ≠ 1

/-! ## Branches and edges -/

theorem lookup_constants_eq_none_iff {r : Reg} :
    (constants body).lookup r = none ↔ ∀ label x, Instr.const r x ∉ (body.block label).instrs := by
  constructor
  · intro hNone label x hi
    have hMem : (r, x) ∈ constants body := by
      refine List.mem_reverse.mpr (List.mem_flatMap.mpr ⟨_, Body.block_mem_of_instr hi, ?_⟩)
      exact List.mem_filterMap.mpr ⟨_, hi, rfl⟩
    exact absurd rfl (bne_iff_ne.mp (List.lookup_eq_none_iff.mp hNone (r, x) hMem))
  · intro hAll
    by_contra hSome
    obtain ⟨x, hLookup⟩ := Option.ne_none_iff_exists'.mp hSome
    obtain ⟨label, hi⟩ := exists_const_of_lookup hLookup
    exact hAll label x hi

theorem knownEdge?_branch_eq_none_iff {condition : Reg} {onTrue onFalse : Edge} :
    knownEdge? (constants body) (.branch condition onTrue onFalse) = none ↔
      onTrue ≠ onFalse ∧ ∀ label x, Instr.const condition x ∉ (body.block label).instrs := by
  rw [← lookup_constants_eq_none_iff, knownEdge?]
  by_cases hSame : onTrue = onFalse
  · simp [hSame]
  · simp [hSame]

theorem getElem?_enteringEdges {order : List Label} {label : Label}
    (hLt : label < body.blocks.length) :
    (enteringEdges body order)[label]? = some ((targets body order).count label) := by
  simp [enteringEdges, targets, hLt]

/-! ## New labels -/

theorem order_perm_range (hShaped : body.Shaped) (hConnected : body.Connected) :
    body.order.Perm (List.range body.blocks.length) := by
  refine (List.perm_ext_iff_of_nodup (body.graph.order_nodup body.entry) List.nodup_range).mpr ?_
  intro label
  rw [List.mem_range]
  exact ⟨fun h => hShaped.lt_of_reached (hShaped.mem_order_iff.mp h),
    fun h => hShaped.mem_order_iff.mpr (hConnected label h)⟩

/-- If all blocks are reached, none is dropped. -/
theorem dropUnreachable_eq (hShaped : body.Shaped) (hConnected : body.Connected) :
    dropUnreachable body = (body, false) := by
  have hLength : (body.graph.search body.entry).finished.length = body.blocks.length :=
    (order_perm_range hShaped hConnected).length_eq.trans List.length_range
  unfold dropUnreachable
  dsimp only
  rw [if_pos hLength]

/-- The blocks that stay have new labels, which may be the old ones. -/
theorem exists_relabels (hShaped : body.Shaped) :
    ∃ place, body.Relabels (dropUnreachable body).1 place := by
  rcases dropUnreachable_cases hShaped with ⟨hSame, hAll⟩ | hRelabels
  · refine ⟨id, ?_⟩
    rw [hSame]
    refine ⟨rfl, rfl, rfl, rfl, fun label _ => ?_, fun label hReached =>
      hShaped.lt_of_reached hReached, fun _ _ _ _ hEq => hEq, fun label hLt =>
      ⟨label, hAll label hLt, rfl⟩⟩
    have hEdges : (body.block label).terminator.mapEdges (Edge.retarget id) =
        (body.block label).terminator := by
      cases (body.block label).terminator <;> rfl
    rw [hEdges]
    rfl
  · exact ⟨_, hRelabels⟩

theorem order_map_perm (hShaped : body.Shaped) (h : body.Relabels after place) :
    (body.order.map place).Perm (List.range after.blocks.length) := by
  have hNodup : (body.order.map place).Nodup :=
    (body.graph.order_nodup body.entry).map_on fun label hLabel other hOther hEq =>
      h.inj label other (hShaped.mem_order_iff.mp hLabel) (hShaped.mem_order_iff.mp hOther) hEq
  refine (List.perm_ext_iff_of_nodup hNodup List.nodup_range).mpr fun label => ?_
  rw [List.mem_map, List.mem_range]
  constructor
  · rintro ⟨old, hOld, rfl⟩
    exact h.lt old (hShaped.mem_order_iff.mp hOld)
  · intro hLt
    obtain ⟨old, hOld, rfl⟩ := h.onto label hLt
    exact ⟨old, hShaped.mem_order_iff.mpr hOld, rfl⟩

/-- A block that stays is entered by as many edges as before from reached blocks. -/
theorem count_targets_relabels (hShaped : body.Shaped) (h : body.Relabels after place)
    {label : Label} (hReached : body.Reached label) :
    (targets after (List.range after.blocks.length)).count (place label) =
      (targets body body.order).count label := by
  have hTargets : ∀ old ∈ body.order, (after.block (place old)).terminator.successors =
      (body.block old).terminator.successors.map place := by
    intro old hOld
    rw [h.block old (hShaped.mem_order_iff.mp hOld), Terminator.successors_retarget]
  calc (targets after (List.range after.blocks.length)).count (place label)
      = (targets after (body.order.map place)).count (place label) :=
        ((order_map_perm hShaped h).flatMap_right _).count_eq _ |>.symm
    _ = ((targets body body.order).map place).count (place label) := by
        rw [targets, targets, List.flatMap_map, List.map_flatMap]
        exact congrArg (List.count (place label)) (List.flatMap_congr hTargets)
    _ = (targets body body.order).count label := by
        rw [List.count, List.countP_map, List.count]
        refine List.countP_congr fun target hTarget => ?_
        obtain ⟨old, hOld, hSucc⟩ := List.mem_flatMap.mp hTarget
        have hOther := (hShaped.mem_order_iff.mp hOld).successor hSucc
        simpa using ⟨fun hEq => h.inj target label hOther hReached hEq, fun hEq => hEq ▸ rfl⟩

/-! ## The rounds at rest -/

theorem eq_branch_of_mapEdges {f : Edge → Edge} {t : Terminator} {condition : Reg}
    {onTrue onFalse : Edge} (h : t.mapEdges f = .branch condition onTrue onFalse) :
    ∃ onTrue' onFalse', t = .branch condition onTrue' onFalse' ∧ onTrue = f onTrue' ∧
      onFalse = f onFalse' := by
  cases t with
  | branch condition' onTrue' onFalse' =>
    obtain ⟨rfl, rfl, rfl⟩ := Terminator.branch.inj h
    exact ⟨onTrue', onFalse', rfl, rfl, rfl⟩
  | _ => cases h

theorem eq_jump_of_mapEdges {f : Edge → Edge} {t : Terminator} {edge : Edge}
    (h : t.mapEdges f = .jump edge) : ∃ edge', t = .jump edge' ∧ edge = f edge' := by
  cases t with
  | jump edge' => exact ⟨edge', rfl, (Terminator.jump.inj h).symm⟩
  | _ => cases h

/-- A block with an end is a block that stayed. -/
theorem exists_terminator (h : body.Relabels after place) {label : Label} {t : Terminator}
    (hTerminator : (after.block label).terminator = t) (hEnds : t ≠ .unreachable) :
    ∃ old, body.Reached old ∧ place old = label ∧
      (body.block old).terminator.mapEdges (Edge.retarget place) = t := by
  have hLt : label < after.blocks.length := Body.lt_of_terminator_ne (hTerminator ▸ hEnds)
  obtain ⟨old, hOld, rfl⟩ := h.onto label hLt
  rw [h.block old hOld] at hTerminator
  exact ⟨old, hOld, rfl, hTerminator⟩

/-- Branches at rest have two ways, and no constant decides between them. -/
theorem Still.branch (hStill : Still body) (h : body.Relabels after place) {label : Label}
    {condition : Reg} {onTrue onFalse : Edge}
    (hBranch : (after.block label).terminator = .branch condition onTrue onFalse) :
    onTrue ≠ onFalse ∧ ∀ other x, Instr.const condition x ∉ (after.block other).instrs := by
  obtain ⟨old, hOld, rfl, hMap⟩ := exists_terminator h hBranch (by simp)
  obtain ⟨onTrue, onFalse, hTerminator, rfl, rfl⟩ := eq_branch_of_mapEdges hMap
  have hNone := hStill.branches old
  rw [hTerminator, knownEdge?_branch_eq_none_iff] at hNone
  have hInto : ∀ e ∈ [onTrue, onFalse], body.Reached e.target := fun e he =>
    hOld.successor (List.mem_map_of_mem (by rwa [hTerminator]))
  constructor
  · intro hEq
    obtain ⟨hTargets, hArgs⟩ := Edge.mk.inj hEq
    have hTarget := h.inj _ _ (hInto onTrue (by simp)) (hInto onFalse (by simp)) hTargets
    exact hNone.1 (by cases onTrue; cases onFalse; simp_all)
  · intro other x hi
    obtain ⟨source, hSource, rfl⟩ := h.onto other (Body.lt_of_mem_instrs hi)
    rw [h.block source hSource] at hi
    exact hNone.2 source x hi

/-- A jump at rest is not the only edge into another block, which is not the entry. -/
theorem Still.jump (hShaped : body.Shaped) (hStill : Still body) (h : body.Relabels after place)
    {label : Label} {edge : Edge} (hJump : (after.block label).terminator = .jump edge)
    (hne : edge.target ≠ label) (hEntry : edge.target ≠ after.entry) :
    (targets after (List.range after.blocks.length)).count edge.target ≠ 1 := by
  obtain ⟨old, hOld, rfl, hMap⟩ := exists_terminator h hJump (by simp)
  obtain ⟨edge, hTerminator, rfl⟩ := eq_jump_of_mapEdges hMap
  have hTarget : body.Reached edge.target :=
    hOld.successor (List.mem_map_of_mem (by simp [hTerminator, Terminator.edges]))
  intro hOne
  have hCount : (targets body body.order).count edge.target = 1 :=
    (count_targets_relabels hShaped h hTarget).symm.trans hOne
  have hGuard : edge.target ≠ old ∧ edge.target ≠ body.entry ∧
      (enteringEdges body body.order)[edge.target]? = some 1 := by
    refine ⟨fun hEq => hne (congrArg place hEq), fun hEq => hEntry ?_, ?_⟩
    · rw [h.entry]
      exact congrArg place hEq
    · rw [getElem?_enteringEdges (hShaped.lt_of_reached hTarget), hCount]
  have hNone := hStill.jumps old (hShaped.mem_order_iff.mpr hOld)
  simp [onlyJump?, hTerminator, hGuard] at hNone

/-- At rest, the blocks that stay make a tidy body. -/
theorem Still.tidy (hShaped : body.Shaped) (hStill : Still body) (h : body.Relabels after place) :
    Tidy after where
  connected _ hLt := h.reached_of_lt hLt
  arms _ _ _ _ hBranch := (hStill.branch h hBranch).1
  conditions _ _ _ _ hBranch := (hStill.branch h hBranch).2
  jumps _ _ hJump hne hEntry := hStill.jump hShaped h hJump hne hEntry

/-- A parameter gets one single value only because an edge from an unreached block, which passes
another one, was dropped. -/
theorem exists_unreached_of_trivial (hStill : Still body)
    (h : body.Relabels after place) {label : Label} {index : Nat} {param value : Reg}
    (hReached : body.Reached label) (hTrivial : Trivial after (place label) index param value) :
    ∃ other, ¬ body.Reached other ∧ ∃ e ∈ (body.block other).terminator.edges, e.target = label ∧
      ∃ r, e.args[index]? = some r ∧ r ≠ param ∧ r ≠ value := by
  by_contra hNone
  refine Forwarding.find?_eq_none_iff.mp hStill.params label index param value ?_
  have hBlock := h.block label hReached
  refine ⟨fun hEq => hTrivial.ne_entry (hEq ▸ h.entry.symm), ?_, hTrivial.ne, ?_, ?_⟩
  · have hAt := hTrivial.at_index
    rwa [hBlock] at hAt
  · obtain ⟨e, he, hTarget, hAt⟩ := hTrivial.passed
    obtain ⟨l, hl⟩ := Body.mem_edges_iff.mp he
    obtain ⟨old, hOld, rfl⟩ := h.onto l (Body.lt_of_mem_edges hl)
    rw [h.block old hOld, Terminator.edges_mapEdges] at hl
    obtain ⟨source, hSource, rfl⟩ := List.mem_map.mp hl
    exact ⟨source, Body.mem_edges_iff.mpr ⟨old, hSource⟩,
      h.inj _ _ (hOld.successor (List.mem_map_of_mem hSource)) hReached hTarget, hAt⟩
  · intro e he hTarget r hr
    obtain ⟨l, hl⟩ := Body.mem_edges_iff.mp he
    by_cases hHere : body.Reached l
    · refine hTrivial.only (e.retarget place) (Body.mem_edges_iff.mpr ⟨place l, ?_⟩)
        (congrArg place hTarget) r hr
      rw [h.block l hHere, Terminator.edges_mapEdges]
      exact List.mem_map_of_mem hl
    · by_contra hOther
      rw [not_or] at hOther
      exact hNone ⟨l, hHere, e, hl, hTarget, r, hr, hOther⟩

/-! ## Another run -/

/-- A tidy body is at rest if no parameter gets one single value. -/
theorem Tidy.still (h : Tidy body) (hShaped : body.Shaped)
    (hNone : ∀ label index param value, ¬ Trivial body label index param value) : Still body := by
  refine ⟨fun label => ?_, Forwarding.find?_eq_none_iff.mpr hNone, fun label hLabel => ?_⟩
  · cases hTerminator : (body.block label).terminator with
    | branch condition onTrue onFalse =>
      exact knownEdge?_branch_eq_none_iff.mpr ⟨h.arms _ _ _ _ hTerminator,
        h.conditions _ _ _ _ hTerminator⟩
    | _ => rfl
  · by_contra hSome
    obtain ⟨edge, hOnly⟩ := Option.ne_none_iff_exists'.mp hSome
    obtain ⟨hJump, hne, hEntry, hOne⟩ := onlyJump?_spec hOnly
    have hReached := hShaped.mem_order_iff.mp hLabel
    have hTarget : body.Reached edge.target := by
      refine hReached.successor (List.mem_map_of_mem ?_)
      rw [hJump]
      exact List.mem_singleton.mpr rfl
    rw [getElem?_enteringEdges (hShaped.lt_of_reached hTarget)] at hOne
    refine h.jumps label edge hJump hne hEntry ?_
    rw [targets, ((order_perm_range hShaped h.connected).flatMap_right _).symm.count_eq]
    exact Option.some.inj hOne

/-- Another run finds parameters that get one single value, and nothing else. -/
theorem Tidy.run_eq_iff (h : Tidy body) (hShaped : body.Shaped) :
    run body = (body, false) ↔
      ∀ label index param value, ¬ Trivial body label index param value := by
  constructor
  · intro hRun
    have hFlag : (run body).2 = false := congrArg Prod.snd hRun
    have hRounds : (rounds (weight body + 1) body).2 = false :=
      (Bool.or_eq_false_iff.mp hFlag).1
    exact Forwarding.find?_eq_none_iff.mp (still_of_snd_rounds hRounds).params
  · intro hNone
    have hStill := h.still hShaped hNone
    unfold run
    rw [hStill.rounds_eq]
    dsimp only
    rw [dropUnreachable_eq hShaped h.connected]
    rfl

/-- After cleaning up, the blocks that stay have new labels, the entry is the same block, all blocks
are reached, no branch has a known way and no jump is the only way into another block.  Where a
parameter gets one single value an unreached block passed another one before it was dropped, and
another run changes nothing if and only if there is no such parameter. -/
theorem run_tidy (hShaped : body.Shaped) :
    let settled := (rounds (weight body + 1) body).1
    let cleaned := (run body).1
    ∃ place, settled.Relabels cleaned place ∧ settled.entry = body.entry ∧ Tidy cleaned ∧
      (∀ label index param value, settled.Reached label →
        Trivial cleaned (place label) index param value →
          ∃ other, ¬ settled.Reached other ∧
            ∃ e ∈ (settled.block other).terminator.edges, e.target = label ∧
              ∃ r, e.args[index]? = some r ∧ r ≠ param ∧ r ≠ value) ∧
      (run cleaned = (cleaned, false) ↔
        ∀ label index param value, ¬ Trivial cleaned label index param value) := by
  intro settled cleaned
  have hSettled : settled.Shaped := (@keeps_rounds .any (weight body + 1) body hShaped).1.shaped
  have hStill : Still settled := still_rounds _ (Nat.lt_succ_self _)
  obtain ⟨place, hPlace⟩ := exists_relabels hSettled
  have hCleaned : cleaned = (dropUnreachable settled).1 := fst_run body
  rw [← hCleaned] at hPlace
  have hTidy := hStill.tidy hSettled hPlace
  exact ⟨place, hPlace, entry_rounds _ _, hTidy, fun label index param value hReached hTrivial =>
    exists_unreached_of_trivial hStill hPlace hReached hTrivial,
    hTidy.run_eq_iff (hPlace.shaped hSettled)⟩

/-- A branch on a constant skips a block that passes another value to a parameter than the block
that is taken. -/
def foldedArm : Body where
  name := "foldedArm"
  arity := 1
  regCount := 4
  entry := 0
  slots := []
  blocks := [
    { params := []
      instrs := [.param 0 0, .const 1 1.0, .const 2 2.0]
      terminator := .branch 1 ⟨1, []⟩ ⟨2, []⟩ },
    { params := [], instrs := [], terminator := .branch 0 ⟨3, [1]⟩ ⟨4, []⟩ },
    { params := [], instrs := [], terminator := .jump ⟨3, [2]⟩ },
    { params := [3], instrs := [], terminator := .ret 3 },
    { params := [], instrs := [], terminator := .ret 2 }]

theorem shaped_foldedArm : foldedArm.Shaped :=
  Body.shaped_of_checks [[], [0, 1, 2], [0, 1, 2], [0, 1, 2], [0, 1, 2]] (by decide +kernel)

theorem trivial_foldedArm : Trivial (run foldedArm).1 1 0 3 1 :=
  Forwarding.found_iff_trivial.mp
    (Forwarding.found_of_findFrom? _ 0 rfl (by decide +kernel))

/-- The parameter that is left over gets another value from a block that was not reached. -/
theorem run_tidy_foldedArm : foldedArm.Shaped ∧ Tidy (run foldedArm).1 ∧
    run (run foldedArm).1 ≠ ((run foldedArm).1, false) ∧
    ∃ other, ¬ (rounds (weight foldedArm + 1) foldedArm).1.Reached other := by
  obtain ⟨place, hPlace, -, hTidy, hSource, hAgain⟩ := run_tidy shaped_foldedArm
  refine ⟨shaped_foldedArm, hTidy, fun hSame => hAgain.mp hSame _ _ _ _ trivial_foldedArm, ?_⟩
  obtain ⟨label, hReached, hLabel⟩ := hPlace.onto 1 (by decide +kernel)
  obtain ⟨other, hNot, -⟩ := hSource label 0 3 1 hReached (hLabel ▸ trivial_foldedArm)
  exact ⟨other, hNot⟩

/-- Cleaning up can leave a parameter that gets one single value, and then another run changes
something. -/
theorem not_forall_run_untrivial : ¬ ∀ body : Body, body.Shaped →
    (∀ label index param value, ¬ Trivial (run body).1 label index param value) ∧
      (run (run body).1).2 = false := by
  intro hAll
  obtain ⟨hNone, -⟩ := hAll foldedArm shaped_foldedArm
  exact hNone 1 0 3 1 trivial_foldedArm

end FlowCleanup

end LiveCompiler
