import LiveCompiler.Pass.Ownership
import LiveCompiler.Pass.Promotion
import LiveCompiler.Proofs.Ir.Rewriting
import LiveCompiler.Proofs.Pass.Promotion.Renaming
import Mathlib.Data.Nat.Count

/-!
# Slots under new numbers

A body whose loads and stores name slots by other numbers keeps its shape, and yields the same
if no two of the slots in use fall together (`Renumbers.keeps`).  Taking the promoted slots out
of the table gives every slot that stays the number of those that stay before it, so it is such
a renumbering of a body that leaves the promoted slots alone (`keeps_closeSlotGaps`).
-/

namespace LiveCompiler

open Ir

namespace Promotion

section Renumber

variable {f : Slot → Slot} {i : Instr}

@[simp] theorem dst_renumber : (renumber f i).dst = i.dst := by
  cases i <;> rfl

@[simp] theorem uses_renumber : (renumber f i).uses = i.uses := by
  cases i <;> rfl

theorem stored_renumber : (renumber f i).stored = i.stored.map f := by
  cases i <;> rfl

theorem made_renumber (regs : Reg → Float) : (renumber f i).made regs = i.made regs := by
  cases i <;> rfl

theorem touched_of_stored {slot : Slot} (h : i.stored = some slot) :
    SlotOwnership.touched i = some slot := by
  cases i with
  | store other src => exact h
  | _ => cases h

end Renumber

/-- A body is another one with new numbers for the slots in use. -/
structure Renumbers (f : Slot → Slot) (inUse : Slot → Prop) (body after : Body) : Prop where
  entry : after.entry = body.entry
  arity : after.arity = body.arity
  regCount : after.regCount = body.regCount
  blocks : after.blocks =
    body.blocks.map fun b => { b with instrs := b.instrs.map (renumber f) }
  touched : ∀ label, body.Reached label → ∀ i ∈ (body.block label).instrs, ∀ slot,
    SlotOwnership.touched i = some slot → inUse slot
  inj : ∀ slot other, inUse slot → inUse other → f slot = f other → slot = other

namespace Renumbers

variable {callable : FuncId → Nat → Prop} {f : Slot → Slot} {inUse : Slot → Prop}
  {body after : Body} {label : Label} {r : Reg}

/-! ## The shape is kept -/

theorem block (h : Renumbers f inUse body after) (label : Label) : after.block label =
    { body.block label with instrs := (body.block label).instrs.map (renumber f) } := by
  rw [Body.block, Body.block, h.blocks, List.getD_eq_getElem?_getD, List.getElem?_map,
    List.getD_eq_getElem?_getD]
  cases body.blocks[label]? <;> rfl

theorem graph (h : Renumbers f inUse body after) : after.graph = body.graph := by
  simp [Body.graph, h.blocks, Function.comp_def]

theorem reached_iff (h : Renumbers f inUse body after) :
    after.Reached label ↔ body.Reached label := by
  unfold Body.Reached
  rw [h.graph, h.entry]

theorem defs (h : Renumbers f inUse body after) (label : Label) :
    (after.block label).defs = (body.block label).defs := by
  rw [h.block, Block.defs, Block.defs, List.filterMap_map]
  exact congrArg _ (List.filterMap_congr fun _ _ => dst_renumber)

theorem known (h : Renumbers f inUse body after) {done : List Instr}
    (hr : body.Known label done r) : after.Known label (done.map (renumber f)) r := by
  rcases hr with ⟨d, hd, hDom⟩ | hParam | hDone
  · refine .inl ⟨d, (h.defs d).symm ▸ hd, ?_⟩
    rwa [h.graph, h.entry]
  · refine .inr (.inl ?_)
    rwa [h.block]
  · refine .inr (.inr ?_)
    rw [List.filterMap_map]
    exact (List.filterMap_congr fun _ _ => dst_renumber).symm ▸ hDone

theorem shaped (hShaped : body.Shaped) (h : Renumbers f inUse body after) : after.Shaped where
  entry_lt := by
    rw [h.entry, h.blocks, List.length_map]
    exact hShaped.entry_lt
  entry_params := by
    rw [h.entry, h.block]
    exact hShaped.entry_params
  defs_nodup label := h.defs label ▸ hShaped.defs_nodup label
  defs_unique label other r hr hr' :=
    hShaped.defs_unique label other r (h.defs label ▸ hr) (h.defs other ▸ hr')
  defs_lt label r hr := h.regCount ▸ hShaped.defs_lt label r (h.defs label ▸ hr)
  uses_known label hReached done i rest hInstrs r hr := by
    rw [h.block] at hInstrs
    obtain ⟨front, back, hSplit, rfl, hBack⟩ := List.map_eq_append_iff.mp hInstrs
    obtain ⟨j, tail, rfl, rfl, -⟩ := List.map_eq_cons_iff.mp hBack
    rw [uses_renumber] at hr
    exact h.known (hShaped.uses_known label (h.reached_iff.mp hReached) front j tail hSplit r hr)
  exit_known label hReached r hr := by
    rw [h.block] at hr ⊢
    exact h.known (hShaped.exit_known label (h.reached_iff.mp hReached) r hr)
  edge_fits label hReached e he := by
    rw [h.block] at he
    rw [h.block, h.blocks, List.length_map]
    exact hShaped.edge_fits label (h.reached_iff.mp hReached) e he

theorem rooted (hRooted : body.Rooted) (h : Renumbers f inUse body after) : after.Rooted where
  toShaped := h.shaped hRooted.toShaped
  entry_first label hReached := by
    rw [h.entry, h.block]
    exact hRooted.entry_first label (h.reached_iff.mp hReached)

theorem wellFormed (hWf : body.WellFormed callable) (h : Renumbers f inUse body after)
    (hLt : ∀ slot < body.slots.length, inUse slot → f slot < after.slots.length) :
    after.WellFormed callable where
  toRooted := h.rooted hWf.toRooted
  ends label hReached := by
    rw [h.block]
    exact hWf.ends label (h.reached_iff.mp hReached)
  legal label hReached i hi := by
    rw [h.block] at hi
    obtain ⟨j, hj, rfl⟩ := List.mem_map.mp hi
    have hReached := h.reached_iff.mp hReached
    have hLegal := hWf.legal label hReached j hj
    have hTouched := h.touched label hReached j hj
    rw [h.arity]
    cases j with
    | load dst slot => exact hLt slot hLegal (hTouched slot rfl)
    | store slot src => exact hLt slot hLegal (hTouched slot rfl)
    | _ => exact hLegal

/-! ## What is yielded is kept -/

/-- Two stores that hold the same, the slots in use under their new numbers. -/
structure Agree (f : Slot → Slot) (inUse : Slot → Prop) (s s' : Store) : Prop where
  regs : s'.regs = s.regs
  calls : s'.calls = s.calls
  slots : ∀ slot, inUse slot → s'.slots (f slot) = s.slots slot

variable {c : Setting} {s s' : Store} {i : Instr}

theorem value_renumber (hAgree : Agree f inUse s s')
    (hTouched : ∀ slot, SlotOwnership.touched i = some slot → inUse slot) :
    (renumber f i).value c s' = i.value c s := by
  cases i with
  | load dst slot => exact hAgree.slots slot (hTouched slot rfl)
  | _ => simp only [renumber, Instr.value, hAgree.regs, hAgree.calls]

theorem agree_effect (h : Renumbers f inUse body after) (hAgree : Agree f inUse s s')
    (hTouched : ∀ slot, SlotOwnership.touched i = some slot → inUse slot) :
    Agree f inUse (i.effect c s) ((renumber f i).effect c s') := by
  have hValue := value_renumber (c := c) hAgree hTouched
  refine ⟨funext fun r => ?_, ?_, fun slot hInUse => ?_⟩
  · show (if (renumber f i).dst = some r then (renumber f i).value c s' else s'.regs r) = _
    rw [dst_renumber, hValue, hAgree.regs]
    rfl
  · show s'.calls ++ (renumber f i).made s'.regs = _
    rw [made_renumber, hAgree.calls, hAgree.regs]
    rfl
  · show (if (renumber f i).stored = some (f slot) then (renumber f i).value c s'
      else s'.slots (f slot)) = if i.stored = some slot then i.value c s else s.slots slot
    have hStored : (renumber f i).stored = some (f slot) ↔ i.stored = some slot := by
      rw [stored_renumber, Option.map_eq_some_iff]
      constructor
      · rintro ⟨other, hOther, hEq⟩
        rw [hOther, h.inj other slot (hTouched other (touched_of_stored hOther)) hInUse hEq]
      · exact fun hSlot => ⟨slot, hSlot, rfl⟩
    simp only [hStored, hValue, hAgree.slots slot hInUse]

theorem agree_run (h : Renumbers f inUse body after) (instrs : List Instr)
    (hTouched : ∀ i ∈ instrs, ∀ slot, SlotOwnership.touched i = some slot → inUse slot)
    {s s' : Store} (hAgree : Agree f inUse s s') :
    Agree f inUse (s.run c instrs) (s'.run c (instrs.map (renumber f))) := by
  induction instrs generalizing s s' with
  | nil => exact hAgree
  | cons i rest ih =>
    exact ih (fun j hj => hTouched j (List.mem_cons_of_mem _ hj))
      (h.agree_effect hAgree (hTouched i List.mem_cons_self))

theorem yields_iff (h : Renumbers f inUse body after) (c : Setting) (x : Float)
    (calls : List Call) :
    body.YieldsHolding c (fun _ => 0.0) x calls ↔
      after.YieldsHolding c (fun _ => 0.0) x calls := by
  refine @Body.yieldsHolding_iff_of_step c _ _ body after (fun label s other s' =>
    other = label ∧ body.Reached label ∧ Agree f inUse s s') ?_
    ⟨h.entry, .entry body, rfl, rfl, fun _ _ => rfl⟩ x calls
  rintro _ s label s' ⟨rfl, hReached, hAgree⟩
  have hEnd := h.agree_run (c := c) _ (h.touched label hReached) hAgree
  unfold Body.outcomeFrom Body.outcome
  rw [h.block]
  dsimp only
  rw [hEnd.regs]
  cases hExit : (body.block label).terminator.exit (s.run c (body.block label).instrs).regs with
  | returned y =>
    dsimp only
    rw [hEnd.calls]
    exact .returned _ _
  | goto target values =>
    obtain ⟨e, he, rfl, -⟩ := Terminator.exists_edge hExit
    refine .entered ⟨rfl, hReached.successor (List.mem_map_of_mem he), ?_, hEnd.calls, hEnd.slots⟩
    show bindAll _ _ values = bindAll _ _ values
    rw [hEnd.regs, h.block]
  | stuck => exact .stuck

/-- Renumbering keeps what a body yields. -/
theorem keeps (hShaped : body.Shaped) (h : Renumbers f inUse body after)
    (hLt : ∀ slot < body.slots.length, inUse slot → f slot < after.slots.length) :
    body.Keeps .blank after :=
  ⟨h.shaped hShaped, fun hRooted => h.rooted hRooted, fun _ hWf => h.wellFormed hWf hLt, h.arity,
    by rintro _ rfl; exact h.yields_iff⟩

theorem connected (h : Renumbers f inUse body after) (hConnected : body.Connected) :
    after.Connected := by
  intro label hLt
  rw [h.blocks, List.length_map] at hLt
  exact h.reached_iff.mpr (hConnected label hLt)

end Renumbers

/-! ## Closing the gaps -/

section Gaps

variable {slots : List Slot} {body : Body} {slot other : Slot}

theorem slotAfter_eq_count (slots : List Slot) (slot : Slot) :
    slotAfter slots slot = Nat.count (· ∉ slots) slot := by
  unfold slotAfter
  induction slot with
  | zero => rfl
  | succ slot ih =>
    rw [List.range_succ, List.filter_append, List.length_append, ih, Nat.count_succ]
    by_cases hMem : slot ∈ slots <;> simp [hMem]

theorem slotAfter_le (slots : List Slot) (slot : Slot) : slotAfter slots slot ≤ slot := by
  unfold slotAfter
  exact (List.length_filter_le _ _).trans (List.length_range).le

/-- The new number of a slot. -/
def newSlot (slots : List Slot) (size : Nat) (slot : Slot) : Slot :=
  if slot < size ∧ slot ∉ slots then slotAfter slots slot else slot

/-- Slots that stay do not fall together. -/
theorem newSlot_inj {size : Nat} (hSlot : slot ∉ slots) (hOther : other ∉ slots)
    (h : newSlot slots size slot = newSlot slots size other) : slot = other := by
  have hFar : ∀ {a b}, a < size → ¬ b < size → slotAfter slots a ≠ b := fun {a b} ha hb hEq =>
    hb (Nat.lt_of_le_of_lt (hEq ▸ slotAfter_le slots a) ha)
  unfold newSlot at h
  by_cases hLt : slot < size <;> by_cases hLt' : other < size
  · rw [if_pos ⟨hLt, hSlot⟩, if_pos ⟨hLt', hOther⟩, slotAfter_eq_count, slotAfter_eq_count] at h
    exact Nat.count_injective hSlot hOther h
  · rw [if_pos ⟨hLt, hSlot⟩, if_neg fun hBoth => hLt' hBoth.1] at h
    exact absurd h (hFar hLt hLt')
  · rw [if_neg fun hBoth => hLt hBoth.1, if_pos ⟨hLt', hOther⟩] at h
    exact absurd h.symm (hFar hLt' hLt)
  · rwa [if_neg fun hBoth => hLt hBoth.1, if_neg fun hBoth => hLt' hBoth.1] at h

theorem length_slots_closeSlotGaps (slots : List Slot) (body : Body) :
    (closeSlotGaps slots body).slots.length = slotAfter slots body.slots.length := by
  unfold closeSlotGaps slotAfter
  dsimp only
  rw [List.length_filterMap_eq_countP, List.countP_eq_length]
  intro slot hSlot
  rw [List.getElem?_eq_getElem (List.mem_range.mp (List.mem_filter.mp hSlot).1)]
  rfl

theorem renumbers_closeSlotGaps (hLeaves : ∀ label, body.Reached label →
      ∀ i ∈ (body.block label).instrs, leavesSlots slots i = true) :
    Renumbers (newSlot slots body.slots.length) (· ∉ slots) body (closeSlotGaps slots body) where
  entry := rfl
  arity := rfl
  regCount := rfl
  blocks := rfl
  touched label hReached i hi := leavesSlots_iff.mp (hLeaves label hReached i hi)
  inj _ _ := newSlot_inj

/-- Taking slots out of the table keeps what a body yields that leaves them alone. -/
theorem keeps_closeSlotGaps (hShaped : body.Shaped) (hLeaves : ∀ label, body.Reached label →
      ∀ i ∈ (body.block label).instrs, leavesSlots slots i = true) :
    body.Keeps .blank (closeSlotGaps slots body) := by
  refine (renumbers_closeSlotGaps hLeaves).keeps hShaped fun slot hLt hStays => ?_
  rw [length_slots_closeSlotGaps, newSlot, if_pos ⟨hLt, hStays⟩, slotAfter_eq_count,
    slotAfter_eq_count]
  exact Nat.count_strict_mono hStays hLt

/-- Without slots that stay the table is empty. -/
theorem slots_closeSlotGaps_range {size : Nat} (hSize : body.slots.length = size) :
    (closeSlotGaps (List.range size) body).slots = [] := by
  refine List.length_eq_zero_iff.mp ?_
  rw [length_slots_closeSlotGaps, hSize]
  unfold slotAfter
  rw [List.length_eq_zero_iff, List.filter_eq_nil_iff]
  exact fun slot hSlot => by simpa using List.mem_range.mp hSlot

end Gaps

end Promotion

end LiveCompiler
