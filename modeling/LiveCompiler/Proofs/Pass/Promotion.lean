import LiveCompiler.Proofs.Pass.Forwarding
import LiveCompiler.Proofs.Pass.Promotion.Renumbering
import LiveCompiler.Proofs.Pass.Promotion.Tracking

/-!
# Promotion keeps what a body yields

The promoted body is a rewriting of the body whose edges pass on the registers that hold the
slots: stores are taken out, loads are replaced by what holds the slot, and the zero at the
start of the entry stays if it is in use (`promoted_rewrites`).  Slots that are not promoted
keep their loads and stores, under new numbers.

No edge may lead back to the entry: it has no parameters, so what is stored on the way back
would not reach its loads.
-/

namespace LiveCompiler

open Ir

namespace Promotion

variable {body : Body} {slots : List Slot} {params : List SlotParam}
  {before : Label → Carried} {visited : List Label} {label : Label} {s : Renaming}

/-! ## The promoted body, block by block -/

/-- The state of the walk with the zero written at the start of the entry, if it is in use. -/
def zeroed (body : Body) (params : List SlotParam) (s : Renaming) : Body :=
  if s.usesZero then
    s.body.modifyBlock body.entry fun b =>
      { b with instrs := .const (zeroReg body params) 0.0 :: b.instrs }
  else s.body

/-- The promoted body, the promoted slots still in its table. -/
def promoted (body : Body) (params : List SlotParam) (s : Renaming) : Body :=
  s.replaced.apply (zeroed body params s)

/-- The heading that is left of a block. -/
def headingLeft (body : Body) (params : List SlotParam) (s : Renaming) (label : Label) :
    List Instr :=
  if s.usesZero then heading body params label else []

theorem leavesSlots_heading {i : Instr} (hi : i ∈ heading body params label) :
    leavesSlots slots i = true := by
  unfold heading at hi
  split at hi
  · rw [List.mem_singleton.mp hi]
    rfl
  · cases hi

theorem headingLeft_subset {i : Instr} (hi : i ∈ headingLeft body params s label) :
    i ∈ heading body params label := by
  unfold headingLeft at hi
  split at hi
  · exact hi
  · cases hi

@[simp] theorem leavesSlots_renameUses (f : Reg → Reg) (i : Instr) :
    leavesSlots slots (i.renameUses f) = leavesSlots slots i := by
  cases i <;> rfl

theorem block_appended_of_not_reached (hShaped : body.Shaped)
    (hParams : SlotParams body slots params) (h : ¬ body.Reached label) :
    (appended body params).block label = Block.empty := by
  have hMark : body.dominance.isReachable label = false :=
    Bool.eq_false_iff.mpr fun hMark => h ((isReachable_iff hShaped label).mp hMark)
  have hNone : paramsOf params label = [] :=
    List.filter_eq_nil_iff.mpr fun p hp hEq =>
      h (beq_iff_eq.mp hEq ▸ hParams.reached p hp)
  by_cases hLt : label < body.blocks.length
  · simp [Body.block, appended, appendSlotParams, emptyUnreached, hLt, hMark, hNone, Block.empty]
  · refine Body.block_of_le ?_
    simpa [appended, appendSlotParams, emptyUnreached] using hLt

/-- A finished walk over the blocks that the entry leads to. -/
structure Finished (body : Body) (slots : List Slot) (params : List SlotParam)
    (before : Label → Carried) (visited : List Label) (s : Renaming) : Prop where
  rooted : body.Rooted
  slotParams : SlotParams body slots params
  all : ∀ label, label ∈ visited ↔ body.Reached label
  walk : Walk body slots params before visited s.replaced s.usesZero
  renamed : Renamed body slots params before visited s

namespace Finished

theorem shaped (h : Finished body slots params before visited s) : body.Shaped :=
  h.rooted.toShaped

theorem complete (h : Finished body slots params before visited s) :
    Complete body slots params before s.replaced s.usesZero :=
  ⟨h.rooted, h.slotParams, visited, h.all, h.walk⟩

theorem block_zeroed (h : Finished body slots params before visited s)
    (hReached : body.Reached label) : (zeroed body params s).block label =
      { params := (body.block label).params ++ (paramsOf params label).map SlotParam.reg
        instrs := headingLeft body params s label ++
          (body.block label).instrs.filter (leavesSlots slots)
        terminator := (body.block label).terminator.mapEdges
          (feed params (holderOut body slots params before label)) } := by
  have hDone := h.renamed.done label ((h.all label).mpr hReached)
  have hLt : body.entry < s.body.blocks.length := h.renamed.length ▸ h.shaped.entry_lt
  unfold zeroed headingLeft heading
  split
  · rw [Body.block_modifyBlock]
    by_cases hEntry : label = body.entry
    · rw [if_pos ⟨hEntry, hLt⟩, if_pos hEntry, hDone]
      rfl
    · rw [if_neg fun hBoth => hEntry hBoth.1, if_neg hEntry, hDone]
      rfl
  · exact hDone

theorem block_zeroed_of_not_reached (h : Finished body slots params before visited s)
    (hNot : ¬ body.Reached label) : (zeroed body params s).block label = Block.empty := by
  have hAhead := (h.renamed.ahead label fun hIn => hNot ((h.all label).mp hIn)).trans
    (block_appended_of_not_reached h.shaped h.slotParams hNot)
  unfold zeroed
  split
  · rw [Body.block_modifyBlock, if_neg]
    · exact hAhead
    · rintro ⟨rfl, -⟩
      exact hNot (.entry body)
  · exact hAhead

theorem block_promoted (label : Label) : (promoted body params s).block label =
    ((zeroed body params s).block label).renameUses s.replaced.representative :=
  Substitution.block_apply _ _ label

/-- The promoted body leaves the promoted slots alone. -/
theorem leavesSlots_promoted (h : Finished body slots params before visited s)
    (hReached : body.Reached label) {i : Instr}
    (hi : i ∈ ((promoted body params s).block label).instrs) : leavesSlots slots i = true := by
  rw [block_promoted, Block.instrs_renameUses, h.block_zeroed hReached] at hi
  obtain ⟨j, hj, rfl⟩ := List.mem_map.mp hi
  rw [leavesSlots_renameUses]
  rcases List.mem_append.mp hj with hHead | hKept
  · exact leavesSlots_heading (headingLeft_subset hHead)
  · exact (List.mem_filter.mp hKept).2

theorem fields_promoted (h : Finished body slots params before visited s) :
    (promoted body params s).entry = body.entry ∧
      (promoted body params s).blocks.length = body.blocks.length ∧
      (promoted body params s).arity = body.arity ∧
      (promoted body params s).regCount = zeroReg body params + 1 ∧
      (promoted body params s).slots = body.slots := by
  have hZeroed : (zeroed body params s).entry = body.entry ∧
      (zeroed body params s).blocks.length = body.blocks.length ∧
      (zeroed body params s).arity = body.arity ∧
      (zeroed body params s).regCount = zeroReg body params + 1 ∧
      (zeroed body params s).slots = body.slots := by
    unfold zeroed
    split
    · exact ⟨h.renamed.entry, by rw [Body.length_modifyBlock, h.renamed.length], h.renamed.arity,
        h.renamed.regCount, h.renamed.slots_eq⟩
    · exact ⟨h.renamed.entry, h.renamed.length, h.renamed.arity, h.renamed.regCount,
        h.renamed.slots_eq⟩
  obtain ⟨hEntry, hLength, hArity, hCount, hSlots⟩ :=
    Substitution.apply_fields s.replaced (zeroed body params s)
  exact ⟨hEntry.trans hZeroed.1, hLength.trans hZeroed.2.1, hArity.trans hZeroed.2.2.1,
    hCount.trans hZeroed.2.2.2.1, hSlots.trans hZeroed.2.2.2.2⟩

/-! ## A rewriting -/

/-- The registers that are kept: those of loads go, and the zero if it is not in use. -/
def stays (body : Body) (params : List SlotParam) (s : Renaming) (r : Reg) : Bool :=
  (s.replaced.entries.lookup r).isNone && (r != zeroReg body params || s.usesZero)

variable {r : Reg}

theorem reached_passing (h : Finished body slots params before visited s) :
    (passing body slots params before).Reached label ↔ body.Reached label :=
  reached_fed_iff h.shaped

theorem reached_promoted (h : Finished body slots params before visited s) :
    (promoted body params s).Reached label ↔ body.Reached label := by
  unfold Body.Reached
  rw [h.fields_promoted.1]
  refine Digraph.LeadsTo.congr fun p hp => ?_
  rw [Body.succ_graph, Body.succ_graph, block_promoted, Block.terminator_renameUses,
    Terminator.successors_renameUses, h.block_zeroed hp]
  exact successors_feed _ _

theorem stays_iff : stays body params s r = true ↔
    ¬ s.replaced.Replaces r ∧ (r = zeroReg body params → s.usesZero = true) := by
  unfold stays Substitution.Replaces
  rw [Bool.and_eq_true, Option.isNone_iff_eq_none, Bool.or_eq_true, bne_iff_ne, not_not]
  refine and_congr_right fun _ => ?_
  constructor
  · exact fun hOr hEq => hOr.resolve_left fun hne => hne hEq
  · exact fun hImp => (Decidable.em (r = zeroReg body params)).symm.imp id hImp

theorem settled (h : Finished body slots params before visited s) :
    Settled body slots params before visited s.replaced :=
  h.walk.settled h.shaped h.slotParams

/-- The replacements hold in every run. -/
theorem stands (h : Finished body slots params before visited s) (r : Reg) :
    (passing body slots params before).Stands ((passing body slots params before).Seen .blank) r
      (s.replaced.representative r) := by
  have hSound := h.complete.sound h.settled.sound.layered (List.suffix_refl _)
  refine ⟨(hSound.stands r).known, fun label done store hPoint hSeen hKnown => ?_⟩
  obtain ⟨c, hVisit⟩ := hSeen
  exact (hSound.stands r).equal label done store hPoint
    (h.complete.tracks_of_visits hVisit).loads hKnown

/-- A register that is not loaded is not replaced. -/
theorem not_replaces (h : Finished body slots params before visited s)
    (hNot : ∀ label, body.Reached label → ∀ slot, Instr.load r slot ∉ (body.block label).instrs) :
    ¬ s.replaced.Replaces r := by
  intro hReplaces
  obtain ⟨label, hLabel, slot, -, hLoad⟩ := (h.settled.keys r).mp hReplaces
  exact hNot label ((h.all label).mp hLabel) slot hLoad

theorem stays_param (h : Finished body slots params before visited s)
    (hReached : body.Reached label) (hr : r ∈ ((passing body slots params before).block label).params) :
    stays body params s r = true := by
  refine stays_iff.mpr ⟨h.not_replaces fun other hOther slot hLoad => ?_, fun hZero => ?_⟩
  · -- A parameter is not written by a load.
    obtain ⟨front, tail, hInstrs⟩ := List.append_of_mem hLoad
    have hAt := h.complete.writtenAt_passing hOther hInstrs rfl
    exact h.complete.shaped_passing.definesOnce.notMem_params hAt.mem_dsts hr
  · rw [h.complete.block_passing hReached] at hr
    rcases List.mem_append.mp hr with hOld | hNew
    · have hLt := h.shaped.defs_lt label r (Body.mem_defs.mpr (.inl hOld))
      exact absurd (hZero ▸ hLt) (Nat.not_lt_of_le regCount_le_zeroReg)
    · obtain ⟨p, hp, -, rfl⟩ := mem_regsOf.mp hNew
      exact absurd hZero (Nat.ne_of_lt (lt_zeroReg_of_mem_params h.slotParams hp))

/-- What stands for a register is kept, unless it is a zero that is not in use. -/
theorem stays_representative (h : Finished body slots params before visited s)
    (hZero : s.usesZero = false → r ≠ zeroReg body params) :
    stays body params s (s.replaced.representative r) = true := by
  refine stays_iff.mpr ⟨?_, fun hEq => ?_⟩
  · unfold Substitution.Replaces
    rw [Substitution.representative_eq h.settled.sound.layered, not_not]
    exact Substitution.lookup_resolve h.settled.sound.layered r
  · by_contra hUnused
    rw [Bool.not_eq_true] at hUnused
    have hFree := (h.walk.zeroFree h.shaped h.slotParams hUnused).1
    rcases s.replaced.representative_cases r with hSame | ⟨a, ha⟩
    · exact hZero hUnused (hSame ▸ hEq)
    · exact hFree a _ ha hEq

theorem stays_use (h : Finished body slots params before visited s)
    (hLt : r < body.regCount) :
    stays body params s (s.replaced.representative r) = true :=
  h.stays_representative fun _ =>
    Nat.ne_of_lt (Nat.lt_of_lt_of_le hLt regCount_le_zeroReg)

/-- Stores to promoted slots may go. -/
theorem not_loads_promoted (h : Finished body slots params before visited s) {slot : Slot}
    (hSlot : slot ∈ slots) : ¬ (promoted body params s).Loads slot := by
  rintro ⟨label, hReached, i, hi, hLoaded⟩
  have hLeaves := h.leavesSlots_promoted (h.reached_promoted.mp hReached) hi
  cases i with
  | load dst other =>
    obtain rfl := Option.some.inj hLoaded
    exact leavesSlots_iff.mp hLeaves other rfl hSlot
  | _ => cases hLoaded

/-- The instructions of the old body, from a point on. -/
theorem rewritesInstrs_rest (h : Finished body slots params before visited s)
    (hReached : body.Reached label) (rest : List Instr) : ∀ done : List Instr,
    (body.block label).instrs = done ++ rest →
      (passing body slots params before).RewritesInstrs .blank s.replaced.representative
        (stays body params s) (fun slot => ¬ (promoted body params s).Loads slot) label
        (heading body params label ++ done) rest
        ((rest.filter (leavesSlots slots)).map (Instr.renameUses s.replaced.representative)) := by
  induction rest with
  | nil => exact fun done _ => .nil _
  | cons i rest ih =>
    intro done hInstrs
    have hRest := ih (done ++ [i]) (by rw [hInstrs, List.append_assoc, List.singleton_append])
    rw [← List.append_assoc] at hRest
    have hMem : i ∈ (body.block label).instrs := by simp [hInstrs]
    rcases leavesSlots_cases slots i with
      hLeaves | ⟨dst, slot, hSlot, rfl⟩ | ⟨slot, hSlot, src, rfl⟩
    · rw [List.filter_cons_of_pos hLeaves, List.map_cons]
      refine .keep (.refl _ _ _ _ _) (fun a ha => ⟨?_, ?_⟩) hRest
      · exact known_fed h.shaped hReached
          (h.shaped.uses_known label hReached done i rest hInstrs a ha)
      · exact h.stays_use ((h.shaped.regsBounded.instr hReached hMem).2 a ha)
    · rw [List.filter_cons_of_neg (by simp [not_leavesSlots_load hSlot])]
      refine .drop (fun _ => rfl) (fun q hq => ?_) (fun _ hStored => nomatch hStored) hRest
      obtain rfl := Option.some.inj hq
      refine Bool.eq_false_iff.mpr fun hKeep => (stays_iff.mp hKeep).1 ?_
      exact (h.settled.keys dst).mpr ⟨label, (h.all label).mpr hReached, slot, hSlot, hMem⟩
    · rw [List.filter_cons_of_neg (by simp [not_leavesSlots_store hSlot])]
      refine .drop (fun _ => rfl) (fun _ hDst => nomatch hDst) (fun other hStored => ?_) hRest
      obtain rfl := Option.some.inj hStored
      exact h.not_loads_promoted hSlot

theorem rewritesInstrs_block (h : Finished body slots params before visited s)
    (hReached : body.Reached label) :
    (passing body slots params before).RewritesInstrs .blank s.replaced.representative
      (stays body params s) (fun slot => ¬ (promoted body params s).Loads slot) label []
      ((passing body slots params before).block label).instrs
      ((promoted body params s).block label).instrs := by
  have hRest := h.rewritesInstrs_rest hReached _ [] (List.nil_append _).symm
  rw [h.complete.block_passing hReached, block_promoted, h.block_zeroed hReached,
    Block.instrs_renameUses]
  dsimp only
  rw [List.map_append]
  rw [List.append_nil] at hRest
  unfold headingLeft heading at *
  by_cases hEntry : label = body.entry
  · rw [if_pos hEntry] at hRest ⊢
    by_cases hZero : s.usesZero = true
    · rw [if_pos hZero]
      exact .keep (.refl _ _ _ _ _) (fun a ha => absurd ha List.not_mem_nil) hRest
    · rw [if_neg hZero]
      refine .drop (fun _ => rfl) (fun q hq => ?_) (fun _ hStored => nomatch hStored) hRest
      obtain rfl := Option.some.inj hq
      exact Bool.eq_false_iff.mpr fun hKeep => hZero ((stays_iff.mp hKeep).2 rfl)
  · rw [if_neg hEntry] at hRest ⊢
    have hNone : (if s.usesZero = true then ([] : List Instr) else []) = [] := by split <;> rfl
    rw [hNone]
    exact hRest

theorem stays_exit (h : Finished body slots params before visited s)
    (hReached : body.Reached label) {a : Reg}
    (ha : a ∈ ((passing body slots params before).block label).terminator.uses) :
    stays body params s (s.replaced.representative a) = true := by
  rw [h.complete.block_passing hReached] at ha
  rcases mem_uses_feed ha with hOld | ⟨p, hp, hTarget, rfl⟩
  · exact h.stays_use (h.shaped.regsBounded.uses label hReached a (List.mem_append_right _ hOld))
  · refine h.stays_representative fun hUnused => ?_
    obtain ⟨hFree, hEdges⟩ := (h.walk.zeroFree h.shaped h.slotParams hUnused).2 label
      ((h.all label).mpr hReached)
    obtain ⟨e, he, hLabel⟩ := List.mem_map.mp hTarget
    refine hFree.holding_ne (Bool.eq_false_iff.mpr fun hNone => ?_)
    rw [List.any_eq_false] at hEdges
    refine hEdges e he (List.any_eq_true.mpr ⟨p, mem_paramsOf.mpr ⟨hp, hLabel.symm⟩, hNone⟩)

/-- The promoted body is a rewriting of the body that passes on what holds the slots. -/
theorem promoted_rewrites (h : Finished body slots params before visited s) :
    (passing body slots params before).Rewrites .blank (promoted body params s)
      s.replaced.representative (stays body params s) := by
  obtain ⟨hEntry, hLength, hArity, hCount, hSlots⟩ := h.fields_promoted
  have hFits : ∀ label, body.Reached label →
      ∀ e ∈ ((passing body slots params before).block label).terminator.edges,
        (passing body slots params before).keepArgs (stays body params s) e = e := by
    intro label hReached e he
    have hReached' := h.reached_passing.mpr hReached
    refine Body.keepArgs_of_forall
      (h.complete.shaped_passing.edge_fits label hReached' e he).2 fun p hp => ?_
    exact h.stays_param (h.reached_passing.mp (hReached'.successor (List.mem_map_of_mem he))) hp
  refine ⟨hEntry, hLength.trans length_fed.symm, hArity, Nat.le_of_eq hCount.symm,
    Nat.le_of_eq (congrArg List.length hSlots.symm), fun label => ?_, fun label hReached => ?_,
    fun label hReached => h.rewritesInstrs_block (h.reached_passing.mp hReached),
    fun label hReached => ?_, fun label hReached a ha => ?_, h.stands⟩
  · by_cases hReached : body.Reached label
    · rw [block_promoted, Block.defs_renameUses, h.block_zeroed hReached,
        h.complete.block_passing hReached]
      refine List.Sublist.append_left (List.Sublist.filterMap _ ?_) _
      refine List.Sublist.append ?_ List.filter_sublist
      unfold headingLeft
      split
      · exact List.Sublist.refl _
      · exact List.nil_sublist _
    · rw [block_promoted, h.block_zeroed_of_not_reached hReached]
      exact List.nil_sublist _
  · have hReached := h.reached_passing.mp hReached
    rw [List.filter_eq_self.mpr fun p hp => h.stays_param hReached hp, block_promoted,
      Block.params_renameUses, h.block_zeroed hReached, h.complete.block_passing hReached]
  · have hReached := h.reached_passing.mp hReached
    rw [Terminator.mapEdges_of_forall (hFits label hReached), block_promoted,
      Block.terminator_renameUses, h.block_zeroed hReached, h.complete.block_passing hReached]
  · have hReached := h.reached_passing.mp hReached
    rw [Terminator.mapEdges_of_forall (hFits label hReached)] at ha
    exact h.stays_exit hReached ha

/-- The promoted body, its slots under their new numbers. -/
theorem keeps_closed (h : Finished body slots params before visited s) :
    body.Keeps .blank (closeSlotGaps slots (promoted body params s)) ∧
      (body.Connected → (closeSlotGaps slots (promoted body params s)).Connected) := by
  have hPassing : body.Keeps .blank (passing body slots params before) :=
    ⟨h.complete.shaped_passing, fun _ => h.complete.rooted_passing,
      fun _ hWf => wellFormed_fed hWf h.complete.rooted_passing, rfl,
      fun contents _ => yields_fed h.shaped h.slotParams contents⟩
  have hRewrites := h.promoted_rewrites
  have hPromoted := hRewrites.keeps hPassing.shaped
  have hLeaves : ∀ label, (promoted body params s).Reached label →
      ∀ i ∈ ((promoted body params s).block label).instrs, leavesSlots slots i = true :=
    fun label hReached i hi => h.leavesSlots_promoted (h.reached_promoted.mp hReached) hi
  refine ⟨(hPassing.trans hPromoted).trans (keeps_closeSlotGaps hPromoted.shaped hLeaves),
    fun hConnected => (renumbers_closeSlotGaps hLeaves).connected (hRewrites.connected ?_)⟩
  intro label hLt
  exact h.reached_passing.mpr (hConnected label (Nat.lt_of_lt_of_eq hLt length_fed))

end Finished

/-! ## The pass -/

theorem slotParams_emptyUnreached (hShaped : body.Shaped) (slots : List Slot) :
    slotParams body.dominance (emptyUnreached body.dominance body) slots =
      slotParams body.dominance body slots := by
  have hBlock : ∀ l ∈ body.dominance.order,
      (emptyUnreached body.dominance body).block l = body.block l := by
    intro l hl
    have hReached := hShaped.mem_order_iff.mp hl
    have hLt := hShaped.lt_of_reached hReached
    have hMark := (isReachable_iff hShaped l).mpr hReached
    simp [Body.block, emptyUnreached, hLt, hMark]
  have hLength : (emptyUnreached body.dominance body).blocks.length = body.blocks.length := by
    simp [emptyUnreached]
  have hPlaces : places body.dominance (emptyUnreached body.dominance body) slots =
      places body.dominance body slots := by
    unfold places
    dsimp only
    refine List.flatMap_congr fun slot _ => ?_
    rw [hLength, List.filter_congr fun l hl => by rw [hBlock l hl]]
  unfold slotParams
  rw [hPlaces]
  rfl

theorem nodup_promotable (body : Body) : (promotable body).Nodup :=
  List.nodup_range.filter _

theorem promotable_eq (hOwn : ∀ owner ∈ body.slots, owner = .exclusive) :
    promotable body = List.range body.slots.length := by
  refine List.filter_eq_self.mpr fun slot hSlot => ?_
  have hLt := List.mem_range.mp hSlot
  rw [List.getElem?_eq_getElem hLt, hOwn _ (List.getElem_mem hLt)]
  rfl

/-- Promotion gives a body that yields the same, and loses no way to a block.  If all slots can
be promoted, none stays. -/
theorem run_spec (hRooted : body.Rooted) :
    body.Keeps .blank (run body).1 ∧ (body.Connected → (run body).1.Connected) ∧
      ((∀ owner ∈ body.slots, owner = .exclusive) → (run body).1.slots = []) := by
  unfold run
  dsimp only
  split
  · rename_i hNone
    refine ⟨.refl hRooted.toShaped, fun hConnected => hConnected, fun hOwn => ?_⟩
    rwa [promotable_eq hOwn, List.isEmpty_iff, List.range_eq_nil, List.length_eq_zero_iff] at hNone
  · have hParams := slotParams_spec hRooted (nodup_promotable body)
    obtain ⟨visited, hAll, before, hWalk, hRenamed⟩ := exists_walked hRooted.toShaped hParams
    have hFinished : Finished body _ _ before visited _ :=
      ⟨hRooted, hParams, hAll, hWalk, hRenamed⟩
    obtain ⟨hClosed, hConnected⟩ := hFinished.keeps_closed
    have hSlots := congrArg List.length hFinished.fields_promoted.2.2.2.2
    obtain ⟨hForwarded, hSame⟩ := Forwarding.keeps hClosed.shaped
    rw [slotParams_emptyUnreached hRooted.toShaped]
    refine ⟨hClosed.trans hForwarded,
      fun hAll => Forwarding.connected hClosed.shaped (hConnected hAll), fun hOwn => ?_⟩
    refine hSame.trans ?_
    rw [promotable_eq hOwn] at hSlots ⊢
    exact slots_closeSlotGaps_range hSlots

/-- Promoting slots keeps what a body yields. -/
theorem keeps (hRooted : body.Rooted) : body.Keeps .blank (run body).1 :=
  (run_spec hRooted).1

/-- Promotion loses no way to a block. -/
theorem connected (hRooted : body.Rooted) (hConnected : body.Connected) :
    (run body).1.Connected :=
  (run_spec hRooted).2.1 hConnected

/-- Promoting all slots leaves none. -/
theorem slots_run (hRooted : body.Rooted) (hOwn : ∀ owner ∈ body.slots, owner = .exclusive) :
    (run body).1.slots = [] :=
  (run_spec hRooted).2.2 hOwn

end Promotion

end LiveCompiler
