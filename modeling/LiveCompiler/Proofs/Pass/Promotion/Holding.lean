import LiveCompiler.Proofs.Pass.Promotion.Renaming
import Mathlib.Data.List.Induction

/-!
# What the walk carries is known

The registers that hold the slots at a point are known there, and so are the replacements of
loads wherever the loaded register is (`Walk.settled`).  This does not depend on what the edges
pass, so it is stated for the body whose edges pass the zero everywhere.

Where two paths meet without a parameter for a slot, the slot is held by the same register on
both (`Walk.holder_edge`): the nodes between the meeting point and its immediate dominator
neither store to the slot nor have a parameter for it.
-/

namespace LiveCompiler

open Ir

namespace Substitution

theorem follow_cases (s : Substitution) (steps : Nat) (r : Reg) :
    s.follow steps r = r ∨ ∃ a, (a, s.follow steps r) ∈ s.entries := by
  induction steps generalizing r with
  | zero => exact .inl rfl
  | succ steps ih =>
    rw [follow]
    split
    · rename_i next hNext
      rcases ih next with hSame | hLater
      · rw [hSame]
        exact .inr ⟨r, mem_of_lookup hNext⟩
      · exact .inr hLater
    · exact .inl rfl

/-- What stands for a register is the register or one of the replacements. -/
theorem representative_cases (s : Substitution) (r : Reg) :
    s.representative r = r ∨ ∃ a, (a, s.representative r) ∈ s.entries :=
  follow_cases s _ r

theorem stands_resolve {body : Body} {on : Label → List Instr → Store → Prop}
    {entries : List (Reg × Reg)} (h : ∀ a b, (a, b) ∈ entries → body.Stands on a b) (r : Reg) :
    body.Stands on r (resolve entries r) := by
  induction entries with
  | nil => exact .refl r
  | cons entry rest ih =>
    obtain ⟨source, target⟩ := entry
    have hRest := ih fun a b hab => h a b (List.mem_cons_of_mem _ hab)
    rw [resolve]
    split
    · rename_i hEq
      rw [hEq] at hRest
      exact hRest.trans (h source target List.mem_cons_self)
    · exact hRest

/-- If every entry replaces a register by one that stands for it, so does the substitution. -/
theorem Sound.of_entries {body : Body} {on : Label → List Instr → Store → Prop}
    {s : Substitution} (hLayered : Layered s.entries)
    (h : ∀ a b, (a, b) ∈ s.entries → body.Stands on a b) : s.Sound body on := by
  refine ⟨hLayered, fun r => ?_⟩
  rw [representative_eq hLayered]
  exact stands_resolve h r

end Substitution

namespace Promotion

variable {body : Body} {slots : List Slot} {params : List SlotParam}
  {before : Label → Carried} {visited : List Label} {replaced : Substitution} {usesZero : Bool}
  {label : Label} {done rest : List Instr} {i : Instr} {s : Carried} {slot : Slot}

/-! ## The zero -/

/-- The body whose edges pass the zero to all parameters for slots. -/
def seeded (body : Body) (params : List SlotParam) : Body :=
  fed body params fun _ _ => zeroReg body params

theorem known_zero (hShaped : body.Shaped) (label : Label) (done : List Instr) :
    (seeded body params).Known label (heading body params label ++ done) (zeroReg body params) := by
  by_cases hEntry : label = body.entry
  · refine .inr (.inr ?_)
    rw [List.filterMap_append]
    exact List.mem_append_left _ (mem_dsts_heading.mpr ⟨hEntry, rfl⟩)
  · exact .inl ⟨body.entry, (mem_defs_fed hShaped (.entry body)).mpr (.inr (.inr ⟨rfl, rfl⟩)),
      Digraph.sdom_root hEntry⟩

theorem shaped_seeded (hShaped : body.Shaped) (hParams : SlotParams body slots params) :
    (seeded body params).Shaped :=
  shaped_fed hShaped hParams fun label _ _ _ => known_zero hShaped label _

/-! ## What is carried is known -/

/-- Only what is known counts, not what the registers hold. -/
def noStore (_ : Label) (_ : List Instr) (_ : Store) : Prop :=
  False

/-- Some block of a list loads a register from a promoted slot. -/
def LoadedIn (body : Body) (slots : List Slot) (visited : List Label) (r : Reg) : Prop :=
  ∃ label ∈ visited, ∃ slot ∈ slots, Instr.load r slot ∈ (body.block label).instrs

/-- What is carried at a point of a block that is being visited. -/
structure SettledAt (body : Body) (slots : List Slot) (params : List SlotParam)
    (visited : List Label) (label : Label) (done : List Instr) (s : Carried) : Prop where
  sound : s.replaced.Sound (seeded body params) noStore
  keys : ∀ r, s.replaced.Replaces r ↔
    LoadedIn body slots visited r ∨ ∃ slot ∈ slots, Instr.load r slot ∈ done
  holds : ∀ slot ∈ slots, (seeded body params).Known label
    (heading body params label ++ done) (holding (zeroReg body params) s.current slot)

theorem point_seeded (hShaped : body.Shaped) (hReached : body.Reached label)
    (hInstrs : (body.block label).instrs = done ++ rest) :
    (seeded body params).Point label (heading body params label ++ done) := by
  refine ⟨(reached_fed_iff hShaped).mpr hReached, rest, ?_⟩
  rw [seeded, block_fed hShaped hReached, hInstrs, List.append_assoc]

theorem writtenAt_seeded (hShaped : body.Shaped) (hReached : body.Reached label)
    (hInstrs : (body.block label).instrs = done ++ i :: rest) {r : Reg} (hDst : i.dst = some r) :
    (seeded body params).WrittenAt label (heading body params label ++ done) i r := by
  refine ⟨(reached_fed_iff hShaped).mpr hReached, ⟨rest, ?_⟩, hDst⟩
  rw [seeded, block_fed hShaped hReached, hInstrs, List.append_assoc]

/-- A register is not loaded in a block visited before. -/
theorem not_loadedIn (hShaped : body.Shaped) (hFresh : label ∉ visited) {r : Reg}
    (hMem : r ∈ (body.block label).defs) : ¬ LoadedIn body slots visited r := by
  rintro ⟨other, hOther, slot, -, hLoad⟩
  have hDefs : r ∈ (body.block other).defs :=
    Body.mem_defs.mpr (.inr (List.mem_filterMap.mpr ⟨_, hLoad, rfl⟩))
  obtain rfl := hShaped.defs_unique label other r hMem hDefs
  exact hFresh hOther

theorem holding_cons (z : Reg) (current : Current) (stored slot : Slot) (r : Reg) :
    holding z ((stored, r) :: current) slot = if slot = stored then r else holding z current slot := by
  unfold holding
  rw [List.lookup_cons]
  split
  · rename_i hEq
    rw [if_pos (beq_iff_eq.mp hEq)]
    rfl
  · rename_i hNe
    rw [if_neg]
    rintro rfl
    simp at hNe

theorem SettledAt.load (hShaped : body.Shaped) (hParams : SlotParams body slots params)
    (h : SettledAt body slots params visited label done s) (hFresh : label ∉ visited)
    (hReached : body.Reached label) (hSlot : slot ∈ slots) {dst : Reg}
    (hInstrs : (body.block label).instrs = done ++ .load dst slot :: rest) :
    SettledAt body slots params visited label (done ++ [.load dst slot])
      (advance slots (zeroReg body params) s (.load dst slot)) := by
  have hAt : (seeded body params).WrittenAt label (heading body params label ++ done)
    (.load dst slot) dst := writtenAt_seeded hShaped hReached hInstrs rfl
  have hShaped' := shaped_seeded hShaped hParams
  have hHolds := h.holds slot hSlot
  have hNew : ¬ s.replaced.Replaces dst := by
    intro hOld
    rcases (h.keys dst).mp hOld with hBefore | ⟨other, -, hLoad⟩
    · refine not_loadedIn hShaped hFresh ?_ hBefore
      exact Body.mem_defs.mpr (.inr (List.mem_filterMap.mpr ⟨.load dst slot, by simp [hInstrs], rfl⟩))
    · refine hShaped'.notKnown hAt (.inr (.inr ?_))
      rw [List.filterMap_append]
      exact List.mem_append_right _ (List.mem_filterMap.mpr ⟨_, hLoad, rfl⟩)
  have hStands : (seeded body params).Stands noStore dst
      (holding (zeroReg body params) s.current slot) :=
    ⟨fun _ _ hPoint hKnown => hAt.known_of_known hShaped' hHolds hPoint hKnown,
      fun _ _ _ _ hOn => hOn.elim⟩
  have hRep := (h.sound.stands (holding (zeroReg body params) s.current slot)).known label _
    hAt.point hHolds
  rw [advance_load hSlot]
  refine ⟨h.sound.insert hNew hStands, fun r => ⟨fun hr => ?_, fun hr => ?_⟩, fun other hOther => ?_⟩
  · rcases Substitution.replaces_insert hr with rfl | hOld
    · exact .inr ⟨slot, hSlot, by simp⟩
    · rcases (h.keys r).mp hOld with hBefore | ⟨other, hMem, hLoad⟩
      · exact .inl hBefore
      · exact .inr ⟨other, hMem, List.mem_append_left _ hLoad⟩
  · rcases hr with hBefore | ⟨other, hMem, hLoad⟩
    · exact ((h.keys r).mpr (.inl hBefore)).insert
    · rcases List.mem_append.mp hLoad with hOld | hLast
      · exact ((h.keys r).mpr (.inr ⟨other, hMem, hOld⟩)).insert
      · obtain ⟨rfl, rfl⟩ := Instr.load.inj (List.mem_singleton.mp hLast)
        -- The register is not known before the load, so it is not its own replacement.
        have hne : r ≠ s.replaced.representative (holding (zeroReg body params) s.current other) :=
          fun hEq => hShaped'.notKnown hAt (hEq ▸ hRep)
        show (s.replaced.insert r _).entries.lookup r ≠ none
        rw [Substitution.entries_insert, if_neg hne, List.lookup_cons_self]
        exact Option.some_ne_none _
  · rw [← List.append_assoc]
    exact Body.known_snoc.mpr (.inl (h.holds other hOther))

theorem SettledAt.store (hShaped : body.Shaped)
    (h : SettledAt body slots params visited label done s) (hReached : body.Reached label)
    (hSlot : slot ∈ slots) {src : Reg}
    (hInstrs : (body.block label).instrs = done ++ .store slot src :: rest) :
    SettledAt body slots params visited label (done ++ [.store slot src])
      (advance slots (zeroReg body params) s (.store slot src)) := by
  have hSrc : (seeded body params).Known label (heading body params label ++ done) src :=
    known_fed hShaped hReached (hShaped.uses_known label hReached done _ rest hInstrs src
      (List.mem_singleton.mpr rfl))
  have hRep := (h.sound.stands src).known label _ (point_seeded hShaped hReached hInstrs) hSrc
  rw [advance_store hSlot]
  refine ⟨h.sound, fun r => ?_, fun other hOther => ?_⟩
  · rw [h.keys r]
    simp
  · rw [← List.append_assoc, holding_cons]
    refine Body.known_snoc.mpr (.inl ?_)
    split
    · exact hRep
    · exact h.holds other hOther

/-- An instruction that leaves the promoted slots alone. -/
theorem SettledAt.other (h : SettledAt body slots params visited label done s)
    (hLeaves : leavesSlots slots i = true) :
    SettledAt body slots params visited label (done ++ [i])
      (advance slots (zeroReg body params) s i) := by
  rw [advance_of_leavesSlots hLeaves]
  refine ⟨h.sound, fun r => (h.keys r).trans (or_congr_right ?_), fun other hOther => ?_⟩
  · refine exists_congr fun slot => and_congr_right fun hSlot => ?_
    rw [List.mem_append, List.mem_singleton, or_iff_left]
    rintro rfl
    rw [not_leavesSlots_load hSlot] at hLeaves
    cases hLeaves
  · rw [← List.append_assoc]
    exact Body.known_snoc.mpr (.inl (h.holds other hOther))

/-- One instruction. -/
theorem SettledAt.advance (hShaped : body.Shaped) (hParams : SlotParams body slots params)
    (h : SettledAt body slots params visited label done s) (hFresh : label ∉ visited)
    (hReached : body.Reached label) (hInstrs : (body.block label).instrs = done ++ i :: rest) :
    SettledAt body slots params visited label (done ++ [i])
      (Promotion.advance slots (zeroReg body params) s i) := by
  rcases leavesSlots_cases slots i with
    hLeaves | ⟨dst, slot, hSlot, rfl⟩ | ⟨slot, hSlot, src, rfl⟩
  · exact h.other hLeaves
  · exact h.load hShaped hParams hFresh hReached hSlot hInstrs
  · exact h.store hShaped hReached hSlot hInstrs

theorem settledAt_of_start (hShaped : body.Shaped) (hParams : SlotParams body slots params)
    (hStart : SettledAt body slots params visited label [] (before label)) (hFresh : label ∉ visited)
    (hReached : body.Reached label) (hInstrs : (body.block label).instrs = done ++ rest) :
    SettledAt body slots params visited label done
      (carriedAt body slots params before label done) := by
  induction done using List.reverseRecOn generalizing rest with
  | nil => exact hStart
  | append_singleton done i ih =>
    rw [List.append_assoc, List.singleton_append] at hInstrs
    rw [carriedAt_concat]
    exact (ih hInstrs).advance hShaped hParams hFresh hReached hInstrs

section Entering

variable {inherited : Current} {ps : List SlotParam} {p : SlotParam}

theorem lookup_foldl_of_forall_ne (h : ∀ q ∈ ps, q.slot ≠ slot) (inherited : Current) :
    (ps.foldl (fun current q => (q.slot, q.reg) :: current) inherited).lookup slot =
      inherited.lookup slot := by
  induction ps generalizing inherited with
  | nil => rfl
  | cons q ps ih =>
    rw [List.foldl_cons, ih fun r hr => h r (List.mem_cons_of_mem _ hr), List.lookup_cons,
      beq_false_of_ne (h q List.mem_cons_self).symm]

theorem lookup_foldl_of_mem (hp : p ∈ ps) (hUnique : ∀ q ∈ ps, q.slot = p.slot → q = p)
    (inherited : Current) :
    (ps.foldl (fun current q => (q.slot, q.reg) :: current) inherited).lookup p.slot =
      some p.reg := by
  induction ps generalizing inherited with
  | nil => cases hp
  | cons q ps ih =>
    have hRest : ∀ r ∈ ps, r.slot = p.slot → r = p := fun r hr =>
      hUnique r (List.mem_cons_of_mem _ hr)
    rw [List.foldl_cons]
    by_cases hLater : p ∈ ps
    · exact ih hLater hRest _
    · obtain rfl := (List.mem_cons.mp hp).resolve_right hLater
      have hNone : ∀ r ∈ ps, r.slot ≠ p.slot := fun r hr hEq => hLater (hRest r hr hEq ▸ hr)
      rw [lookup_foldl_of_forall_ne hNone, List.lookup_cons_self]

/-- A parameter holds its slot when its block is entered. -/
theorem lookup_entering_of_mem (hParams : SlotParams body slots params) (hp : p ∈ params)
    (inherited : Current) :
    (entering params p.label inherited).lookup p.slot = some p.reg := by
  refine lookup_foldl_of_mem (mem_paramsOf.mpr ⟨hp, rfl⟩) (fun q hq hSlot => ?_) inherited
  obtain ⟨hMem, hLabel⟩ := mem_paramsOf.mp hq
  exact hParams.unique q hMem p hp hLabel hSlot

/-- Without a parameter, what was inherited holds the slot. -/
theorem lookup_entering_of_forall_ne (h : ∀ q ∈ params, q.label = label → q.slot ≠ slot)
    (inherited : Current) :
    (entering params label inherited).lookup slot = inherited.lookup slot :=
  lookup_foldl_of_forall_ne (fun q hq => h q (mem_paramsOf.mp hq).1 (mem_paramsOf.mp hq).2) _

end Entering

/-- What holds after all visits so far. -/
structure Settled (body : Body) (slots : List Slot) (params : List SlotParam)
    (before : Label → Carried) (visited : List Label) (replaced : Substitution) : Prop where
  sound : replaced.Sound (seeded body params) noStore
  keys : ∀ r, replaced.Replaces r ↔ LoadedIn body slots visited r
  points : ∀ label ∈ visited, ∀ done rest, (body.block label).instrs = done ++ rest →
    ∃ earlier, SettledAt body slots params earlier label done
      (carriedAt body slots params before label done)

/-- A visit adds one block to what is settled. -/
theorem settled_visit (hShaped : body.Shaped) (hParams : SlotParams body slots params)
    (hStart : SettledAt body slots params visited label [] (before label)) (hFresh : label ∉ visited)
    (hReached : body.Reached label)
    (hOld : ∀ l ∈ visited, ∀ done rest, (body.block l).instrs = done ++ rest →
      ∃ earlier, SettledAt body slots params earlier l done
        (carriedAt body slots params before l done)) :
    Settled body slots params before (label :: visited)
      (carriedOut body slots params before label).replaced := by
  have hHere : ∀ done rest, (body.block label).instrs = done ++ rest →
      SettledAt body slots params visited label done
        (carriedAt body slots params before label done) :=
    fun done rest hInstrs => settledAt_of_start hShaped hParams hStart hFresh hReached hInstrs
  have hAll := hHere _ [] (List.append_nil _).symm
  refine ⟨hAll.sound, fun r => ?_, fun l hl done rest hInstrs => ?_⟩
  · refine (hAll.keys r).trans ⟨?_, ?_⟩
    · rintro (⟨l, hl, hLoad⟩ | hLoad)
      · exact ⟨l, List.mem_cons_of_mem _ hl, hLoad⟩
      · exact ⟨label, List.mem_cons_self, hLoad⟩
    · rintro ⟨l, hl, hLoad⟩
      rcases List.mem_cons.mp hl with rfl | hl
      · exact .inr hLoad
      · exact .inl ⟨l, hl, hLoad⟩
  · rcases List.mem_cons.mp hl with rfl | hl
    · exact ⟨visited, hHere done rest hInstrs⟩
    · exact hOld l hl done rest hInstrs

/-- What the immediate dominator holds at its end is available. -/
theorem available_of_parent (hShaped : body.Shaped) (hReached : body.Reached label)
    (hne : label ≠ body.entry) {parent : Label} (hIdom : body.dominance.idom label = some parent)
    (hEnd : SettledAt body slots params visited parent (body.block parent).instrs
      (carriedOut body slots params before parent)) (hSlot : slot ∈ slots) :
    (seeded body params).Available label (holderOut body slots params before parent slot) := by
  have hDom := (Dominance.idom_spec (hShaped.mem_order_iff.mpr hReached) hne hIdom).1
  have hPoint : (seeded body params).Point parent _ :=
    point_seeded hShaped (hDom.reaches hReached) (List.append_nil _).symm
  exact (hEnd.holds slot hSlot).available_of_sdom hPoint.front ((sdom_fed_iff hShaped).mpr hDom)

/-- The registers that hold slots are known at every point, and so are replacements. -/
theorem Walk.settled (hShaped : body.Shaped) (hParams : SlotParams body slots params)
    (h : Walk body slots params before visited replaced usesZero) :
    Settled body slots params before visited replaced := by
  induction h with
  | entry start =>
    refine settled_visit hShaped hParams ?_ List.not_mem_nil (.entry body)
      fun l hl => absurd hl List.not_mem_nil
    rw [start]
    refine ⟨.empty, fun r => ⟨fun hr => absurd hr (Substitution.not_replaces_empty r), ?_⟩,
      fun slot _ => known_zero hShaped _ _⟩
    rintro (⟨l, hl, -⟩ | ⟨slot, -, hLoad⟩)
    · exact absurd hl List.not_mem_nil
    · exact absurd hLoad List.not_mem_nil
  | @next visited replaced usesZero label parent walk fresh reached ne_entry idom parent_visited start ih =>
    refine settled_visit hShaped hParams ?_ fresh reached ih.points
    rw [start]
    refine ⟨ih.sound, fun r => (ih.keys r).trans ⟨.inl, ?_⟩, fun slot hSlot => ?_⟩
    · rintro (hOld | ⟨slot, -, hLoad⟩)
      · exact hOld
      · exact absurd hLoad List.not_mem_nil
    · by_cases hParam : ∃ p ∈ params, p.label = label ∧ p.slot = slot
      · obtain ⟨p, hp, rfl, rfl⟩ := hParam
        rw [holding, lookup_entering_of_mem hParams hp, Option.getD_some]
        refine .inr (.inl ?_)
        rw [seeded, block_fed hShaped reached]
        exact List.mem_append_right _ (mem_regsOf.mpr ⟨p, hp, rfl, rfl⟩)
      · have hNone : ∀ q ∈ params, q.label = label → q.slot ≠ slot := fun q hq hLabel hEq =>
          hParam ⟨q, hq, hLabel, hEq⟩
        obtain ⟨earlier, hEnd⟩ := ih.points parent parent_visited _ [] (List.append_nil _).symm
        rw [holding, lookup_entering_of_forall_ne hNone]
        exact .inl (available_of_parent hShaped reached ne_entry idom hEnd hSlot)

/-! ## Paths that meet -/

/-- What was carried at the start of a block, in terms of its immediate dominator. -/
theorem Walk.current_before (h : Walk body slots params before visited replaced usesZero)
    (hLabel : label ∈ visited) :
    (label = body.entry ∧ (before label).current = []) ∨
      label ≠ body.entry ∧ ∃ parent ∈ visited, body.dominance.idom label = some parent ∧
        (before label).current =
          entering params label (carriedOut body slots params before parent).current := by
  induction h with
  | entry start =>
    obtain rfl := List.mem_singleton.mp hLabel
    exact .inl ⟨rfl, by rw [start]⟩
  | @next visited replaced usesZero other parent walk fresh reached ne_entry idom parent_visited start ih =>
    rcases List.mem_cons.mp hLabel with rfl | hOld
    · exact .inr ⟨ne_entry, parent, List.mem_cons_of_mem _ parent_visited, idom, by rw [start]⟩
    · rcases ih hOld with hEntry | ⟨hne, up, hUp, hIdom, hCurrent⟩
      · exact .inl hEntry
      · exact .inr ⟨hne, up, List.mem_cons_of_mem _ hUp, hIdom, hCurrent⟩

/-- A block neither stores to a slot nor has a parameter for it. -/
structure Quiet (body : Body) (params : List SlotParam) (slot : Slot) (label : Label) : Prop where
  no_store : storesTo slot (body.block label) = false
  no_param : ∀ p ∈ params, p.label = label → p.slot ≠ slot

theorem lookup_foldl_advance {z : Reg} {instrs : List Instr}
    (h : ∀ src, Instr.store slot src ∉ instrs) (s : Carried) :
    (instrs.foldl (advance slots z) s).current.lookup slot = s.current.lookup slot := by
  induction instrs generalizing s with
  | nil => rfl
  | cons i rest ih =>
    rw [List.foldl_cons, ih fun src hSrc => h src (List.mem_cons_of_mem _ hSrc)]
    rcases leavesSlots_cases slots i with
      hLeaves | ⟨dst, other, hMem, rfl⟩ | ⟨other, hMem, src, rfl⟩
    · rw [advance_of_leavesSlots hLeaves]
    · rw [advance_load hMem]
    · have hne : (slot == other) = false := by
        refine beq_false_of_ne ?_
        rintro rfl
        exact h src List.mem_cons_self
      rw [advance_store hMem, List.lookup_cons, hne]

/-- A quiet block hands on what holds the slot. -/
theorem Quiet.holderOut_eq (h : Quiet body params slot label) {parent : Label}
    (hBefore : (before label).current =
      entering params label (carriedOut body slots params before parent).current) :
    holderOut body slots params before label slot = holderOut body slots params before parent slot := by
  have hNone : ∀ src, Instr.store slot src ∉ (body.block label).instrs := by
    intro src hMem
    have hStores : storesTo slot (body.block label) = true :=
      List.any_eq_true.mpr ⟨_, hMem, beq_self_eq_true slot⟩
    rw [h.no_store] at hStores
    cases hStores
  unfold holderOut holder holding carriedAt
  rw [lookup_foldl_advance hNone, hBefore, lookup_entering_of_forall_ne h.no_param]
  rfl

theorem not_dom_of_sdom {g : Digraph} {root a b : Nat} (hReach : g.Reaches root b)
    (hDom : g.SDom root a b) : ¬ g.Dom root b a := by
  rintro (rfl | hBack)
  · exact hDom.ne hReach rfl
  · exact hDom.asymm (hDom.reaches hReach) hBack

/-- Along the immediate dominators a slot is held by the same register as long as the blocks
are quiet. -/
theorem Walk.holderOut_dom (hShaped : body.Shaped)
    (h : Walk body slots params before visited replaced usesZero) :
    ∀ label ∈ visited, ∀ top, body.graph.Dom body.entry top label →
      (∀ y, body.graph.Dom body.entry y label → body.graph.SDom body.entry top y →
        Quiet body params slot y) →
      holderOut body slots params before label slot = holderOut body slots params before top slot := by
  induction h with
  | entry start =>
    rintro label hLabel top (rfl | hDom) hQuiet
    · rfl
    · rw [List.mem_singleton.mp hLabel] at hDom
      exact absurd .root hDom
  | @next visited replaced usesZero other parent walk fresh reached ne_entry idom parent_visited start ih =>
    intro label hLabel top hDom hQuiet
    rcases List.mem_cons.mp hLabel with rfl | hOld
    · rcases hDom with rfl | hDom
      · rfl
      · obtain ⟨hParent, hNearest⟩ :=
          Dominance.idom_spec (hShaped.mem_order_iff.mpr reached) ne_entry idom
        have hHere : Quiet body params slot label := hQuiet label (.inl rfl) hDom
        rw [hHere.holderOut_eq (by rw [start])]
        exact ih parent parent_visited top (hNearest top hDom) fun y hy hTop =>
          hQuiet y (.inr (hy.sdom_of_sdom hParent)) hTop
    · exact ih label hOld top hDom hQuiet

/-- Where no parameter stands for a slot, every edge into the block brings the register that
holds the slot there. -/
theorem Walk.holder_edge (hRooted : body.Rooted) (hParams : SlotParams body slots params)
    (h : Walk body slots params before visited replaced usesZero)
    (hAll : ∀ label, label ∈ visited ↔ body.Reached label) {p q : Label}
    (hReached : body.Reached p) (hEdge : q ∈ (body.block p).terminator.successors)
    (hSlot : slot ∈ slots) (hNone : ∀ x ∈ params, x.label = q → x.slot ≠ slot) :
    holder body slots params before q [] slot = holderOut body slots params before p slot := by
  have hTarget := hReached.successor hEdge
  rcases h.current_before ((hAll q).mpr hTarget) with ⟨hEntry, -⟩ |
    ⟨hne, parent, hVisited, hIdom, hCurrent⟩
  · exact absurd (hEntry ▸ hEdge) (hRooted.entry_first p hReached)
  obtain ⟨hAbove, hNearest⟩ :=
    Dominance.idom_spec (hRooted.mem_order_iff.mpr hTarget) hne hIdom
  have hGraph : q ∈ body.graph.succ p := body.succ_graph p ▸ hEdge
  have hStart : holder body slots params before q [] slot =
      holderOut body slots params before parent slot := by
    show holding _ (before q).current slot = _
    rw [hCurrent, holding, lookup_entering_of_forall_ne hNone]
    rfl
  rw [hStart]
  refine (h.holderOut_dom hRooted.toShaped p ((hAll p).mpr hReached) parent (hAbove.dom_of_edge hGraph)
    fun y hy hBelow => ?_).symm
  have hy' : body.Reached y := hy.reaches hReached
  -- A block in between does not dominate the meeting point, which would be in its frontier.
  have hNot : ¬ body.graph.SDom body.entry y q := fun hDom =>
    not_dom_of_sdom hy' hBelow (hNearest y hDom)
  have hFrontier : q ∈ body.dominance.frontiers.toArray.getD y [] :=
    Dominance.mem_frontiers (hRooted.mem_order_iff.mpr hTarget) hne
      ((Dominance.mem_preds_iff (hRooted.mem_order_iff.mpr hTarget)).mpr
        ⟨hRooted.mem_order_iff.mpr hReached, hGraph⟩) hy hNot
  have hClosed := fun hSource => hParams.closed y hy' slot hSlot hSource q hFrontier
  refine ⟨Bool.eq_false_iff.mpr fun hStores => ?_, fun x hx hLabel hEq => ?_⟩
  · obtain ⟨x, hx, hLabel, hEq⟩ := hClosed (.inl hStores)
    exact hNone x hx hLabel hEq
  · obtain ⟨x', hx', hLabel', hEq'⟩ := hClosed (.inr ⟨x, hx, hLabel, hEq⟩)
    exact hNone x' hx' hLabel' hEq'

/-! ## The zero in use -/

/-- The register for zero is not among what is carried. -/
structure ZeroFree (z : Reg) (s : Carried) : Prop where
  replaced : ∀ a b, (a, b) ∈ s.replaced.entries → b ≠ z
  current : ∀ slot r, (slot, r) ∈ s.current → r ≠ z

theorem ZeroFree.representative_ne {z : Reg} (h : ZeroFree z s) {r : Reg} (hr : r ≠ z) :
    s.replaced.representative r ≠ z := by
  rcases s.replaced.representative_cases r with hSame | ⟨a, ha⟩
  · rwa [hSame]
  · exact h.replaced a _ ha

theorem ZeroFree.holding_ne {z : Reg} (h : ZeroFree z s)
    (hSome : (s.current.lookup slot).isNone = false) : holding z s.current slot ≠ z := by
  unfold holding
  cases hLookup : s.current.lookup slot with
  | none =>
    rw [hLookup] at hSome
    cases hSome
  | some r => exact h.current slot r (mem_of_lookup hLookup)

theorem usesZero_of_advance {z : Reg} (h : (advance slots z s i).usesZero = false) :
    s.usesZero = false := by
  rcases leavesSlots_cases slots i with
    hLeaves | ⟨dst, slot, hMem, rfl⟩ | ⟨slot, hMem, src, rfl⟩
  · rwa [advance_of_leavesSlots hLeaves] at h
  · rw [advance_load hMem] at h
    exact (Bool.or_eq_false_iff.mp h).1
  · rwa [advance_store hMem] at h

theorem usesZero_of_foldl {z : Reg} (instrs : List Instr) {s : Carried}
    (h : (instrs.foldl (advance slots z) s).usesZero = false) : s.usesZero = false := by
  induction instrs generalizing s with
  | nil => exact h
  | cons i rest ih => exact usesZero_of_advance (ih h)

/-- As long as the zero is not in use, an instruction does not make it carried. -/
theorem ZeroFree.advance {z : Reg} (h : ZeroFree z s) (hUses : ∀ r ∈ i.uses, r ≠ z)
    (hUnused : (Promotion.advance slots z s i).usesZero = false) :
    ZeroFree z (Promotion.advance slots z s i) := by
  rcases leavesSlots_cases slots i with
    hLeaves | ⟨dst, slot, hMem, rfl⟩ | ⟨slot, hMem, src, rfl⟩
  · rwa [advance_of_leavesSlots hLeaves]
  · rw [advance_load hMem] at hUnused ⊢
    have hSome := (Bool.or_eq_false_iff.mp hUnused).2
    refine ⟨fun a b hab => ?_, h.current⟩
    have hEntries : (a, b) ∈ (s.replaced.insert dst (holding z s.current slot)).entries := hab
    rw [Substitution.entries_insert] at hEntries
    split at hEntries
    · exact h.replaced a b hEntries
    · rcases List.mem_cons.mp hEntries with hHead | hTail
      · rw [(Prod.mk.inj hHead).2]
        exact h.representative_ne (h.holding_ne hSome)
      · exact h.replaced a b hTail
  · rw [advance_store hMem]
    refine ⟨h.replaced, fun other r hMem => ?_⟩
    rcases List.mem_cons.mp hMem with hHead | hTail
    · rw [(Prod.mk.inj hHead).2]
      exact h.representative_ne (hUses src (List.mem_singleton.mpr rfl))
    · exact h.current other r hTail

theorem ZeroFree.foldl {z : Reg} (instrs : List Instr)
    (hUses : ∀ i ∈ instrs, ∀ r ∈ i.uses, r ≠ z) {s : Carried} (h : ZeroFree z s)
    (hUnused : (instrs.foldl (Promotion.advance slots z) s).usesZero = false) :
    ZeroFree z (instrs.foldl (Promotion.advance slots z) s) := by
  induction instrs generalizing s with
  | nil => exact h
  | cons i rest ih =>
    exact ih (fun j hj => hUses j (List.mem_cons_of_mem _ hj))
      (h.advance (hUses i List.mem_cons_self) (usesZero_of_foldl rest hUnused)) hUnused

theorem mem_entering {inherited : Current} {r : Reg} (h : (slot, r) ∈ entering params label inherited) :
    (∃ p ∈ params, p.reg = r) ∨ (slot, r) ∈ inherited := by
  have hFold : ∀ (ps : List SlotParam) (inherited : Current), (∀ p ∈ ps, p ∈ params) →
      (slot, r) ∈ ps.foldl (fun current p => (p.slot, p.reg) :: current) inherited →
      (∃ p ∈ params, p.reg = r) ∨ (slot, r) ∈ inherited := by
    intro ps
    induction ps with
    | nil => exact fun _ _ hMem => .inr hMem
    | cons p ps ih =>
      intro inherited hSub hMem
      rcases ih _ (fun q hq => hSub q (List.mem_cons_of_mem _ hq)) hMem with hParam | hRest
      · exact .inl hParam
      · rcases List.mem_cons.mp hRest with hHead | hTail
        · exact .inl ⟨p, hSub p List.mem_cons_self, (Prod.mk.inj hHead).2.symm⟩
        · exact .inr hTail
  exact hFold _ inherited (fun p hp => (mem_paramsOf.mp hp).1) h

/-- If the walk has no use for the zero, no replacement is the zero and no edge passes it. -/
theorem Walk.zeroFree (hShaped : body.Shaped) (hParams : SlotParams body slots params)
    (h : Walk body slots params before visited replaced usesZero) (hUnused : usesZero = false) :
    (∀ a b, (a, b) ∈ replaced.entries → b ≠ zeroReg body params) ∧
      ∀ label ∈ visited, ZeroFree (zeroReg body params) (carriedOut body slots params before label) ∧
        (body.block label).terminator.edges.any
          (feedsZero params (carriedOut body slots params before label).current) = false := by
  have hUses : ∀ label, body.Reached label → ∀ i ∈ (body.block label).instrs, ∀ r ∈ i.uses,
      r ≠ zeroReg body params := fun label hReached i hi r hr =>
    Nat.ne_of_lt (Nat.lt_of_lt_of_le ((hShaped.regsBounded.instr hReached hi).2 r hr)
      regCount_le_zeroReg)
  induction h with
  | entry start =>
    obtain ⟨hOut, hEdges⟩ := Bool.or_eq_false_iff.mp hUnused
    have hFree : ZeroFree (zeroReg body params) (carriedOut body slots params before body.entry) := by
      refine ZeroFree.foldl _ (hUses body.entry (.entry body)) ?_ hOut
      rw [start]
      exact ⟨fun a b hab => absurd hab List.not_mem_nil, fun slot r hr => absurd hr List.not_mem_nil⟩
    refine ⟨hFree.replaced, fun label hLabel => ?_⟩
    rw [List.mem_singleton.mp hLabel]
    exact ⟨hFree, hEdges⟩
  | @next visited replaced usesZero label parent walk fresh reached ne_entry idom parent_visited start ih =>
    obtain ⟨hOut, hEdges⟩ := Bool.or_eq_false_iff.mp hUnused
    have hStart : (before label).usesZero = false := usesZero_of_foldl _ hOut
    have hStart' : usesZero = false := by rwa [start] at hStart
    obtain ⟨hReplaced, hVisited⟩ := ih hStart'
    have hFree : ZeroFree (zeroReg body params) (carriedOut body slots params before label) := by
      refine ZeroFree.foldl _ (hUses label reached) ?_ hOut
      rw [start]
      refine ⟨hReplaced, fun slot r hr => ?_⟩
      rcases mem_entering hr with ⟨p, hp, rfl⟩ | hInherited
      · exact Nat.ne_of_lt (lt_zeroReg_of_mem_params hParams hp)
      · exact (hVisited parent parent_visited).1.current slot r hInherited
    refine ⟨hFree.replaced, fun other hOther => ?_⟩
    rcases List.mem_cons.mp hOther with rfl | hOld
    · exact ⟨hFree, hEdges⟩
    · exact hVisited other hOld

end Promotion

end LiveCompiler
