import LiveCompiler.Proofs.Ir.Dominators
import LiveCompiler.Proofs.Pass.Promotion.Placement

/-!
# Parameters at the iterated frontiers

A slot gets one parameter in each block of the least set that holds the frontiers of the reached
blocks that store to it, and of its own members (`frontiers_and_slotParams`).  The frontiers are
those that the paths give, as no edge leads back to the entry.

The parameters are counted by the places that they were made for: each place is listed once.
-/

namespace LiveCompiler

open Ir

namespace Promotion

variable {body : Body} {slots : List Slot} {slot : Slot} {label : Label}

/-- A block needs a parameter for a slot: it is in the least set that holds the frontiers of the
reached blocks that store to the slot, and of its own members. -/
def NeedsParam (body : Body) (slot : Slot) (label : Label) : Prop :=
  Iterated body.frontier (fun a => body.Reached a ∧ storesTo slot (body.block a) = true) label

theorem Iterated.congr {frontier : Label → List Label} {stores stores' : Label → Prop}
    (hSame : ∀ a, stores a ↔ stores' a) :
    Iterated frontier stores label ↔ Iterated frontier stores' label := by
  rw [show stores = stores' from funext fun a => propext (hSame a)]

theorem mem_places_iff_needsParam (h : body.InRange) :
    (label, slot) ∈ places body.dominance body slots ↔
      slot ∈ slots ∧ NeedsParam body slot label := by
  rw [mem_places_iff]
  refine and_congr_right fun _ => ((places_slot_spec slot).2 label).trans ?_
  refine Iterated.congr fun a => ?_
  rw [List.mem_filter]
  exact and_congr_left' h.mem_order_iff

theorem map_place_slotParams (d : Dominance) (body : Body) (slots : List Slot) :
    (slotParams d body slots).map (fun p => (p.label, p.slot)) = places d body slots := by
  refine List.ext_getElem (by simp [slotParams]) fun i hi hi' => ?_
  simp [slotParams]

/-- The parameters take the registers after those of the body, one after another. -/
theorem map_reg_slotParams (d : Dominance) (body : Body) (slots : List Slot) :
    (slotParams d body slots).map SlotParam.reg =
      List.range' body.regCount (slotParams d body slots).length := by
  refine List.ext_getElem (by simp) fun i hi hi' => ?_
  simp [slotParams]

/-- The parameters of a block for a slot are as many as their place is listed. -/
theorem countP_paramsOf (d : Dominance) (body : Body) (slots : List Slot) (slot : Slot)
    (label : Label) :
    (paramsOf (slotParams d body slots) label).countP (fun p => p.slot == slot) =
      (places d body slots).count (label, slot) := by
  rw [← map_place_slotParams, paramsOf, List.countP_filter, List.count, List.countP_map]
  refine List.countP_congr fun p _ => ?_
  simp [Bool.and_comm]

theorem params_appendSlotParams (params : List SlotParam) (hLt : label < body.blocks.length) :
    ((appendSlotParams body params).block label).params =
      (body.block label).params ++ (paramsOf params label).map SlotParam.reg := by
  simp [appendSlotParams, Body.block, hLt]

/-- Frontiers are the blocks just outside of what a block dominates, each listed once, and the
blocks that need a parameter for a slot get one, in a new register, and no others do. -/
theorem frontiers_and_slotParams (h : body.InRange)
    (hFirst : ∀ label, body.Reached label →
      body.entry ∉ (body.block label).terminator.successors) (hSlots : slots.Nodup) :
    (∀ a, (body.frontier a).Nodup ∧ ∀ b, b ∈ body.frontier a ↔ body.Reached b ∧
      (∃ p, body.Reached p ∧ b ∈ (body.block p).terminator.successors ∧
        body.dominance.dominates a p = true) ∧
      ¬ (a ≠ b ∧ body.dominance.dominates a b = true)) ∧
    let params := slotParams body.dominance body slots
    (∀ slot ∈ slots, ∀ label,
      (NeedsParam body slot label →
        (paramsOf params label).countP (fun p => p.slot == slot) = 1) ∧
      (¬ NeedsParam body slot label →
        (paramsOf params label).countP (fun p => p.slot == slot) = 0)) ∧
    (∀ p ∈ params, p.slot ∈ slots) ∧
    params.map SlotParam.reg = List.range' body.regCount params.length ∧
    ∀ label < body.blocks.length, ((appendSlotParams body params).block label).params =
      (body.block label).params ++ (paramsOf params label).map SlotParam.reg := by
  have hNodup : (places body.dominance body slots).Nodup := places_nodup hSlots
  refine ⟨fun a => ⟨Dominance.nodup_frontiers a, fun b => h.mem_frontier_iff hFirst⟩,
    fun slot hSlot label => ⟨fun hNeeds => ?_, fun hNot => ?_⟩, fun p hp => ?_,
    map_reg_slotParams _ _ _, fun label hLt => params_appendSlotParams _ hLt⟩
  · rw [countP_paramsOf]
    exact List.count_eq_one_of_mem hNodup ((mem_places_iff_needsParam h).mpr ⟨hSlot, hNeeds⟩)
  · rw [countP_paramsOf]
    exact List.count_eq_zero_of_not_mem fun hPlace =>
      hNot ((mem_places_iff_needsParam h).mp hPlace).2
  · have hPlace : (p.label, p.slot) ∈ places body.dominance body slots := by
      rw [← map_place_slotParams]
      exact List.mem_map_of_mem hp
    exact (mem_places_iff.mp hPlace).1

/-- A loop around a branch.  Both slots need a parameter at the head of the loop, where nothing is
stored; the last block stores to a slot and is not reached. -/
def weaving : Body where
  name := "weaving"
  arity := 1
  regCount := 5
  entry := 0
  slots := [.exclusive, .exclusive]
  blocks := [
    { params := [], instrs := [.param 0 0], terminator := .jump ⟨1, []⟩ },
    { params := [], instrs := [.load 1 0], terminator := .branch 1 ⟨2, []⟩ ⟨5, []⟩ },
    { params := [], instrs := [.store 0 0, .load 2 1], terminator := .branch 2 ⟨3, []⟩ ⟨4, []⟩ },
    { params := [], instrs := [.store 1 0], terminator := .jump ⟨4, []⟩ },
    { params := [], instrs := [.load 3 1], terminator := .jump ⟨1, []⟩ },
    { params := [], instrs := [.load 4 1], terminator := .ret 4 },
    { params := [], instrs := [.store 1 0], terminator := .jump ⟨5, []⟩ }]

theorem frontiers_and_slotParams_weaving : weaving.InRange ∧
    (∃ p, weaving.Reached p ∧ 4 ∈ (weaving.block p).terminator.successors ∧
      weaving.dominance.dominates 3 p = true) ∧
    NeedsParam weaving 1 1 ∧ ¬ NeedsParam weaving 1 5 ∧
    (paramsOf (slotParams weaving.dominance weaving [0, 1]) 1).countP (fun p => p.slot == 1) = 1 ∧
    ((appendSlotParams weaving (slotParams weaving.dominance weaving [0, 1])).block 1).params =
      [5, 7] := by
  have hInRange : weaving.InRange := ⟨by decide, by decide⟩
  have hFirst : ∀ label, weaving.Reached label →
      weaving.entry ∉ (weaving.block label).terminator.successors := by
    intro label _
    by_cases hLt : label < weaving.blocks.length
    · exact (by decide : ∀ label < weaving.blocks.length,
        weaving.entry ∉ (weaving.block label).terminator.successors) label hLt
    · rw [Body.block_of_le (Nat.le_of_not_lt hLt)]
      exact List.not_mem_nil
  obtain ⟨hFrontiers, hCount, -, -, hParams⟩ :=
    frontiers_and_slotParams hInRange hFirst (by decide : ([0, 1] : List Slot).Nodup)
  have hReached : weaving.Reached 3 := hInRange.mem_order_iff.mp (by decide +kernel)
  -- The store in the third block calls for a parameter where its branch ends, and this one for
  -- another at the head of the loop.
  have hNeeds : NeedsParam weaving 1 1 :=
    .again (.first (a := 3) ⟨hReached, by decide⟩ (v := 4) (by decide +kernel)) (by decide +kernel)
  refine ⟨hInRange, (((hFrontiers 3).2 4).mp (by decide +kernel)).2.1, hNeeds, fun hOther => ?_,
    (hCount 1 (by decide) 1).1 hNeeds, (hParams 1 (by decide)).trans (by decide +kernel)⟩
  have hOne := (hCount 1 (by decide) 5).1 hOther
  exact absurd hOne (by decide +kernel)

end Promotion

end LiveCompiler
