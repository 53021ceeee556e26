import LiveCompiler.Proofs.Pass.Promotion.Holding

/-!
# The registers that hold the slots hold their values

In the body whose edges pass on the registers that hold the slots (`passing`), a slot and its
register have the same value at every point of a run, and a loaded register and its replacement
have the same value wherever the loaded one is known (`tracks_of_visits`).
-/

namespace LiveCompiler

open Ir

namespace Promotion

variable {body : Body} {slots : List Slot} {params : List SlotParam}
  {before : Label → Carried} {visited : List Label} {replaced : Substitution} {usesZero : Bool}
  {label : Label} {done rest : List Instr} {i : Instr} {slot : Slot}

/-! ## Which register holds a slot -/

/-- An instruction on no promoted slot leaves all slots to their holders, and so does a load. -/
theorem holder_concat_of_leavesSlots (hLeaves : leavesSlots slots i = true) (label : Label)
    (done : List Instr) (slot : Slot) : holder body slots params before label (done ++ [i]) slot =
      holder body slots params before label done slot := by
  unfold holder
  rw [carriedAt_concat, advance_of_leavesSlots hLeaves]

theorem holder_concat_load {stored : Slot} (hMem : stored ∈ slots) (dst : Reg) (label : Label)
    (done : List Instr) (slot : Slot) :
    holder body slots params before label (done ++ [.load dst stored]) slot =
      holder body slots params before label done slot := by
  unfold holder
  rw [carriedAt_concat, advance_load hMem]

/-- A store hands a slot over to what stands for the stored register. -/
theorem holder_concat_store {stored : Slot} (hMem : stored ∈ slots) (src : Reg) (label : Label)
    (done : List Instr) (slot : Slot) :
    holder body slots params before label (done ++ [.store stored src]) slot =
      if slot = stored then
        (carriedAt body slots params before label done).replaced.representative src
      else holder body slots params before label done slot := by
  unfold holder
  rw [carriedAt_concat, advance_store hMem]
  exact holding_cons _ _ _ _ _

/-! ## Where replacements come from -/

theorem entries_suffix_advance (z : Reg) (s : Carried) (i : Instr) :
    s.replaced.entries <:+ (advance slots z s i).replaced.entries := by
  rcases leavesSlots_cases slots i with
    hLeaves | ⟨dst, slot, hMem, rfl⟩ | ⟨slot, hMem, src, rfl⟩
  · rw [advance_of_leavesSlots hLeaves]
  · rw [advance_load hMem]
    show s.replaced.entries <:+ (s.replaced.insert _ _).entries
    rw [Substitution.entries_insert]
    split
    · exact List.suffix_refl _
    · exact List.suffix_cons _ _
  · rw [advance_store hMem]

theorem entries_suffix_foldl (z : Reg) (instrs : List Instr) (s : Carried) :
    s.replaced.entries <:+ (instrs.foldl (advance slots z) s).replaced.entries := by
  induction instrs generalizing s with
  | nil => exact List.suffix_refl _
  | cons i rest ih => exact (entries_suffix_advance z s i).trans (ih _)

/-- Replacements are only added as the walk goes on. -/
theorem Walk.entries_suffix (h : Walk body slots params before visited replaced usesZero) :
    ∀ label ∈ visited, ∀ done rest, (body.block label).instrs = done ++ rest →
      (carriedAt body slots params before label done).replaced.entries <:+ replaced.entries := by
  have hHere : ∀ label done rest, (body.block label).instrs = done ++ rest →
      (carriedAt body slots params before label done).replaced.entries <:+
        (carriedOut body slots params before label).replaced.entries := by
    intro label done rest hInstrs
    unfold carriedOut
    rw [hInstrs, carriedAt_append]
    exact entries_suffix_foldl _ _ _
  induction h with
  | entry start =>
    intro label hLabel done rest hInstrs
    rw [List.mem_singleton.mp hLabel] at hInstrs ⊢
    exact hHere _ done rest hInstrs
  | @next visited replaced usesZero other parent walk fresh reached ne_entry idom parent_visited start ih =>
    intro label hLabel done rest hInstrs
    rcases List.mem_cons.mp hLabel with rfl | hOld
    · exact hHere _ done rest hInstrs
    · refine (ih label hOld done rest hInstrs).trans ?_
      have hStart : (before other).replaced.entries = replaced.entries := by rw [start]
      rw [← hStart]
      exact entries_suffix_foldl _ _ _

/-- A replacement comes from a load of a promoted slot that the register holds. -/
structure Traced (body : Body) (slots : List Slot) (params : List SlotParam)
    (before : Label → Carried) (label : Label) (done : List Instr) (slot : Slot) (a b : Reg) :
    Prop where
  mem : slot ∈ slots
  instrs : ∃ rest, (body.block label).instrs = done ++ .load a slot :: rest
  eq : b = (carriedAt body slots params before label done).replaced.representative
    (holder body slots params before label done slot)

theorem traced_foldl (hInstrs : (body.block label).instrs = done ++ rest) {a b : Reg}
    (h : (a, b) ∈ (carriedAt body slots params before label done).replaced.entries) :
    (a, b) ∈ (before label).replaced.entries ∨
      ∃ front slot, Traced body slots params before label front slot a b := by
  induction done using List.reverseRecOn generalizing rest with
  | nil => exact .inl h
  | append_singleton done i ih =>
    rw [List.append_assoc, List.singleton_append] at hInstrs
    rw [carriedAt_concat] at h
    rcases leavesSlots_cases slots i with
      hLeaves | ⟨dst, slot, hMem, rfl⟩ | ⟨slot, hMem, src, rfl⟩
    · rw [advance_of_leavesSlots hLeaves] at h
      exact ih hInstrs h
    · rw [advance_load hMem] at h
      have hEntries : (a, b) ∈ ((carriedAt body slots params before label done).replaced.insert dst
        (holder body slots params before label done slot)).entries := h
      rw [Substitution.entries_insert] at hEntries
      split at hEntries
      · exact ih hInstrs hEntries
      · rcases List.mem_cons.mp hEntries with hHead | hTail
        · obtain ⟨rfl, rfl⟩ := Prod.mk.inj hHead
          exact .inr ⟨done, slot, hMem, ⟨rest, hInstrs⟩, rfl⟩
        · exact ih hInstrs hTail
    · rw [advance_store hMem] at h
      exact ih hInstrs h

theorem Walk.traced (h : Walk body slots params before visited replaced usesZero) {a b : Reg}
    (hEntry : (a, b) ∈ replaced.entries) :
    ∃ label ∈ visited, ∃ done slot, Traced body slots params before label done slot a b := by
  induction h with
  | entry start =>
    rcases traced_foldl (List.append_nil _).symm hEntry with hOld | ⟨done, slot, hTraced⟩
    · rw [start] at hOld
      exact absurd hOld List.not_mem_nil
    · exact ⟨body.entry, List.mem_singleton.mpr rfl, done, slot, hTraced⟩
  | @next visited replaced usesZero other parent walk fresh reached ne_entry idom parent_visited start ih =>
    rcases traced_foldl (List.append_nil _).symm hEntry with hOld | ⟨done, slot, hTraced⟩
    · rw [start] at hOld
      obtain ⟨label, hLabel, hTraced⟩ := ih hOld
      exact ⟨label, List.mem_cons_of_mem _ hLabel, hTraced⟩
    · exact ⟨other, List.mem_cons_self, done, slot, hTraced⟩

/-! ## The walk over a whole body -/

/-- The body whose edges pass on the registers that hold the slots. -/
def passing (body : Body) (slots : List Slot) (params : List SlotParam)
    (before : Label → Carried) : Body :=
  fed body params (holderOut body slots params before)

/-- A walk that has visited all blocks that the entry leads to. -/
structure Complete (body : Body) (slots : List Slot) (params : List SlotParam)
    (before : Label → Carried) (replaced : Substitution) (usesZero : Bool) : Prop where
  rooted : body.Rooted
  slotParams : SlotParams body slots params
  walk : ∃ visited, (∀ label, label ∈ visited ↔ body.Reached label) ∧
    Walk body slots params before visited replaced usesZero

namespace Complete

theorem shaped (h : Complete body slots params before replaced usesZero) : body.Shaped :=
  h.rooted.toShaped

theorem settledAt (h : Complete body slots params before replaced usesZero)
    (hReached : body.Reached label) (hInstrs : (body.block label).instrs = done ++ rest) :
    ∃ earlier, SettledAt body slots params earlier label done
      (carriedAt body slots params before label done) := by
  obtain ⟨visited, hAll, hWalk⟩ := h.walk
  exact (hWalk.settled h.shaped h.slotParams).points label ((hAll label).mpr hReached)
    done rest hInstrs

/-- What holds a slot at a point is known there. -/
theorem known_holder (h : Complete body slots params before replaced usesZero)
    (hReached : body.Reached label) (hInstrs : (body.block label).instrs = done ++ rest)
    (hSlot : slot ∈ slots) :
    (passing body slots params before).Known label (heading body params label ++ done)
      (holder body slots params before label done slot) := by
  obtain ⟨earlier, hSettled⟩ := h.settledAt hReached hInstrs
  exact known_fed_congr h.shaped hReached (hSettled.holds slot hSlot)

theorem shaped_passing (h : Complete body slots params before replaced usesZero) :
    (passing body slots params before).Shaped :=
  shaped_fed h.shaped h.slotParams fun _ hReached _ hSlot =>
    h.known_holder hReached (List.append_nil _).symm hSlot

theorem rooted_passing (h : Complete body slots params before replaced usesZero) :
    (passing body slots params before).Rooted :=
  rooted_fed h.rooted h.shaped_passing

theorem block_passing (h : Complete body slots params before replaced usesZero)
    (hReached : body.Reached label) : (passing body slots params before).block label =
      { params := (body.block label).params ++ (paramsOf params label).map SlotParam.reg
        instrs := heading body params label ++ (body.block label).instrs
        terminator := (body.block label).terminator.mapEdges
          (feed params (holderOut body slots params before label)) } :=
  block_fed h.shaped hReached

theorem instrs_passing (h : Complete body slots params before replaced usesZero)
    (hReached : body.Reached label) (hInstrs : (body.block label).instrs = done ++ rest) :
    ((passing body slots params before).block label).instrs =
      (heading body params label ++ done) ++ rest := by
  rw [h.block_passing hReached, hInstrs, List.append_assoc]

theorem writtenAt_passing (h : Complete body slots params before replaced usesZero)
    (hReached : body.Reached label) (hInstrs : (body.block label).instrs = done ++ i :: rest)
    {r : Reg} (hDst : i.dst = some r) : (passing body slots params before).WrittenAt label
      (heading body params label ++ done) i r :=
  ⟨(reached_fed_iff h.shaped).mpr hReached, ⟨rest, h.instrs_passing hReached hInstrs⟩, hDst⟩

/-- A replacement is known where the register is loaded. -/
theorem known_replacement (h : Complete body slots params before replaced usesZero)
    (hReached : body.Reached label) {a b : Reg}
    (hTraced : Traced body slots params before label done slot a b) :
    (passing body slots params before).Known label (heading body params label ++ done) b := by
  obtain ⟨rest, hInstrs⟩ := hTraced.instrs
  obtain ⟨earlier, hSettled⟩ := h.settledAt hReached hInstrs
  rw [hTraced.eq]
  exact known_fed_congr h.shaped hReached ((hSettled.sound.stands _).known label _
    (point_seeded h.shaped hReached hInstrs) (hSettled.holds slot hTraced.mem))

/-- Every replacement is that of a load in a block that the entry leads to. -/
theorem exists_traced (h : Complete body slots params before replaced usesZero) {a b : Reg}
    (hEntry : (a, b) ∈ replaced.entries) :
    ∃ label done slot, body.Reached label ∧ Traced body slots params before label done slot a b := by
  obtain ⟨visited, hAll, hWalk⟩ := h.walk
  obtain ⟨label, hLabel, done, slot, hTraced⟩ := hWalk.traced hEntry
  exact ⟨label, done, slot, (hAll label).mp hLabel, hTraced⟩

end Complete

/-! ## Runs -/

/-- The replacements whose register is known hold the same value as the register. -/
def Equal (body : Body) (slots : List Slot) (params : List SlotParam)
    (before : Label → Carried) (replaced : Substitution) (label : Label) (done : List Instr) (s : Store) : Prop :=
  ∀ a b, (a, b) ∈ replaced.entries → (passing body slots params before).Known label done a →
    s.regs a = s.regs b

/-- The promoted slots and the registers that hold them agree, and so do loads and replacements. -/
structure Tracks (body : Body) (slots : List Slot) (params : List SlotParam)
    (before : Label → Carried) (replaced : Substitution) (label : Label) (done : List Instr) (s : Store) : Prop where
  held : ∀ slot ∈ slots,
    s.slots slot = s.regs (holder body slots params before label done slot)
  loads : Equal body slots params before replaced label done s

namespace Complete

/-- Replacements may be made wherever they hold the same values. -/
theorem sound (h : Complete body slots params before replaced usesZero)
    {part : Substitution} (hLayered : Substitution.Layered part.entries)
    (hPart : part.entries <:+ replaced.entries) :
    part.Sound (passing body slots params before) (Equal body slots params before replaced) := by
  refine .of_entries hLayered fun a b hab => ⟨fun other more hPoint ha => ?_,
    fun other more s _ hEqual ha => hEqual a b (hPart.subset hab) ha⟩
  obtain ⟨label, done, slot, hReached, hTraced⟩ := h.exists_traced (hPart.subset hab)
  obtain ⟨rest, hInstrs⟩ := hTraced.instrs
  exact (h.writtenAt_passing hReached hInstrs rfl).known_of_known h.shaped_passing
    (h.known_replacement hReached hTraced) hPoint ha

/-- The replacements made so far are sound at a point. -/
theorem sound_carriedAt (h : Complete body slots params before replaced usesZero)
    (hReached : body.Reached label) (hInstrs : (body.block label).instrs = done ++ rest) :
    (carriedAt body slots params before label done).replaced.Sound (passing body slots params before)
      (Equal body slots params before replaced) := by
  obtain ⟨visited, hAll, hWalk⟩ := h.walk
  obtain ⟨earlier, hSettled⟩ := h.settledAt hReached hInstrs
  exact h.sound hSettled.sound.layered
    (hWalk.entries_suffix label ((hAll label).mpr hReached) done rest hInstrs)

variable {c : Setting} {s : Store}

theorem holder_heading (label : Label) (done : List Instr) (slot : Slot) :
    holder body slots params before label (heading body params label ++ done) slot =
      holder body slots params before label done slot := by
  unfold holder
  rw [carriedAt_heading]

/-- Nothing is carried into the entry, so its slots are held by the zero. -/
theorem holder_entry (h : Complete body slots params before replaced usesZero) (slot : Slot) :
    holder body slots params before body.entry [] slot = zeroReg body params := by
  obtain ⟨visited, hAll, hWalk⟩ := h.walk
  rcases hWalk.current_before ((hAll body.entry).mpr (.entry body)) with ⟨-, hNone⟩ | ⟨hne, -⟩
  · show holding _ (before body.entry).current slot = _
    rw [hNone]
    rfl
  · exact absurd rfl hne

theorem not_known_start (h : Complete body slots params before replaced usesZero) (r : Reg) :
    ¬ (passing body slots params before).Known body.entry [] r := by
  rintro (⟨d, -, hDom⟩ | hParam | hNone)
  · exact hDom .root
  · have hParams := h.shaped_passing.entry_params
    rw [show (passing body slots params before).entry = body.entry from rfl] at hParams
    rw [hParams] at hParam
    cases hParam
  · cases hNone

/-- A run comes to the start of the entry with the store that it starts with. -/
theorem initial_of_visits (h : Complete body slots params before replaced usesZero)
    (hVisit : (passing body slots params before).Visits .blank c label done s)
    (hLabel : label = body.entry) (hDone : done = []) : s = Store.initial := by
  cases hVisit with
  | start hStart => rw [hStart, Store.initial]
  | instr visit hInstrs => simp at hDone
  | edge visit hExit =>
    obtain ⟨e, he, hTarget, -⟩ := Terminator.exists_edge hExit
    refine absurd ?_ (h.rooted_passing.entry_first _ visit.point.reached)
    rw [show (passing body slots params before).entry = _ from hLabel.symm, ← hTarget]
    exact List.mem_map_of_mem he

theorem dependsOn_single (b : Reg) : Body.DependsOn (fun regs => regs b) [b] :=
  fun _ _ hSame => hSame b (List.mem_singleton.mpr rfl)

/-- What loads and replacements hold is kept by an instruction. -/
theorem equal_instr (h : Complete body slots params before replaced usesZero)
    (hReached : body.Reached label) (hInstrs : (body.block label).instrs = done ++ i :: rest)
    (hTracks : Tracks body slots params before replaced label (heading body params label ++ done) s) :
    Equal body slots params before replaced label (heading body params label ++ done ++ [i])
      (i.effect c s) := by
  intro a b hab ha
  obtain ⟨home, front, slot, hHome, hTraced⟩ := h.exists_traced hab
  obtain ⟨tail, hLoad⟩ := hTraced.instrs
  have hAt := h.writtenAt_passing hHome hLoad rfl
  have hSplit := h.instrs_passing hReached hInstrs
  refine hAt.persists_instr h.shaped_passing (dependsOn_single b) ?_
    ((reached_fed_iff h.shaped).mpr hReached) hSplit (hTracks.loads a b hab) ?_ ha
  · intro q hq
    rw [List.mem_singleton.mp hq]
    exact h.known_replacement hHome hTraced
  · -- This is the load itself: the slot and its register agree here.
    intro hDst
    obtain ⟨rfl, hFront, rfl⟩ :=
      hAt.unique h.shaped_passing (h.writtenAt_passing hReached hInstrs hDst)
    obtain rfl := List.append_cancel_left hFront
    have hSound := (h.sound_carriedAt hHome hLoad).stands (holder body slots params before home front slot)
    have hPoint : (passing body slots params before).Point home (heading body params home ++ front) :=
      hAt.point
    have hEqual := hSound.equal home _ s hPoint hTracks.loads (h.known_holder hHome hLoad hTraced.mem)
    have hHolds := hTracks.held slot hTraced.mem
    rw [holder_heading] at hHolds
    rw [hTraced.eq]
    exact hHolds.trans hEqual

theorem tracks_instr (h : Complete body slots params before replaced usesZero)
    (hReached : body.Reached label) (hInstrs : (body.block label).instrs = done ++ i :: rest)
    (hTracks : Tracks body slots params before replaced label (heading body params label ++ done) s) :
    Tracks body slots params before replaced label (heading body params label ++ done ++ [i])
      (i.effect c s) := by
  refine ⟨fun slot hSlot => ?_, h.equal_instr hReached hInstrs hTracks⟩
  have hSplit := h.instrs_passing hReached hInstrs
  have hKnown := h.known_holder hReached hInstrs hSlot
  have hSame := h.shaped_passing.regs_effect (c := c) (s := s)
    ((reached_fed_iff h.shaped).mpr hReached) hSplit hKnown
  have hHolds := hTracks.held slot hSlot
  rw [holder_heading] at hHolds
  rw [List.append_assoc, holder_heading]
  rcases leavesSlots_cases slots i with
    hLeaves | ⟨dst, stored, hMem, rfl⟩ | ⟨stored, hMem, src, rfl⟩
  · -- The slot is not stored to, and its holder does not change.
    have hStored : i.stored ≠ some slot := by
      intro hStored
      cases i with
      | store other src => exact leavesSlots_iff.mp hLeaves slot hStored hSlot
      | _ => cases hStored
    rw [holder_concat_of_leavesSlots hLeaves, hSame, ← hHolds]
    exact if_neg hStored
  · rw [holder_concat_load hMem]
    exact hHolds.trans hSame.symm
  · have hSrc : (passing body slots params before).Known label
        (heading body params label ++ done) src :=
      known_fed h.shaped hReached (h.shaped.uses_known label hReached done _ rest hInstrs src
        (List.mem_singleton.mpr rfl))
    have hEqual := ((h.sound_carriedAt hReached hInstrs).stands src).equal label _ s
      ⟨(reached_fed_iff h.shaped).mpr hReached, _, hSplit.symm⟩ hTracks.loads hSrc
    rw [holder_concat_store hMem]
    show (if some stored = some slot then s.regs src else s.slots slot) = s.regs _
    by_cases hEq : slot = stored
    · rw [if_pos (by rw [hEq]), if_pos hEq, hEqual]
    · rw [if_neg (fun hSome => hEq (Option.some.inj hSome).symm), if_neg hEq, hHolds]

/-- What is passed to the parameter for a slot is the register that holds the slot. -/
theorem regs_slotParam (h : Complete body slots params before replaced usesZero)
    (hReached : body.Reached label) {e : Edge} (he : e ∈ (body.block label).terminator.edges)
    {p : SlotParam} (hp : p ∈ params) (hLabel : p.label = e.target) (s : Store) :
    (s.bind ((passing body slots params before).block e.target).params
      ((feed params (holderOut body slots params before label) e).args.map s.regs)).regs p.reg =
        s.regs (holderOut body slots params before label p.slot) := by
  have hTarget : body.Reached e.target := hReached.successor (List.mem_map_of_mem he)
  have hNodup := h.shaped_passing.definesOnce.params_nodup e.target
  refine bindAll_of_mem hNodup ?_
  have hLength := (h.shaped.edge_fits label hReached e he).2
  rw [h.block_passing hTarget, feed, List.map_append, List.map_map,
    List.zip_append (by rw [List.length_map, hLength]), List.zip_map']
  exact List.mem_append_right _ (List.mem_map.mpr ⟨p, mem_paramsOf.mpr ⟨hp, hLabel⟩, rfl⟩)

theorem holder_param (h : Complete body slots params before replaced usesZero) {p : SlotParam}
    (hp : p ∈ params) : holder body slots params before p.label [] p.slot = p.reg := by
  obtain ⟨visited, hAll, hWalk⟩ := h.walk
  rcases hWalk.current_before ((hAll p.label).mpr (h.slotParams.reached p hp)) with
    ⟨hEntry, -⟩ | ⟨-, parent, -, -, hCurrent⟩
  · exact absurd hEntry (h.slotParams.ne_entry p hp)
  · show holding _ (before p.label).current p.slot = _
    rw [hCurrent, holding, lookup_entering_of_mem h.slotParams hp, Option.getD_some]

/-- Without a parameter for a slot, the register that holds it comes from above. -/
theorem available_holder (h : Complete body slots params before replaced usesZero)
    (hReached : body.Reached label) (hne : label ≠ body.entry) (hSlot : slot ∈ slots)
    (hNone : ∀ p ∈ params, p.label = label → p.slot ≠ slot) :
    (passing body slots params before).Available label (holder body slots params before label [] slot) := by
  obtain ⟨visited, hAll, hWalk⟩ := h.walk
  rcases hWalk.current_before ((hAll label).mpr hReached) with
    ⟨hEntry, -⟩ | ⟨-, parent, hParent, hIdom, hCurrent⟩
  · exact absurd hEntry hne
  · have hHolder : holder body slots params before label [] slot =
        holderOut body slots params before parent slot := by
      show holding _ (before label).current slot = _
      rw [hCurrent, holding, lookup_entering_of_forall_ne hNone]
      rfl
    obtain ⟨earlier, hEnd⟩ := h.settledAt ((hAll parent).mp hParent) (List.append_nil _).symm
    obtain ⟨d, hd, hDom⟩ := available_of_parent h.shaped hReached hne hIdom hEnd hSlot
    have hDom' := (sdom_fed_iff h.shaped).mp hDom
    have hd' := (mem_defs_fed h.shaped (hDom'.reaches hReached)).mp hd
    rw [hHolder]
    exact ⟨d, (mem_defs_fed h.shaped (hDom'.reaches hReached)).mpr hd',
      (sdom_fed_iff h.shaped).mpr hDom'⟩

theorem tracks_edge (h : Complete body slots params before replaced usesZero)
    (hReached : body.Reached label) {e : Edge} (he : e ∈ (body.block label).terminator.edges)
    (hTracks : Tracks body slots params before replaced label
      (heading body params label ++ (body.block label).instrs) s) :
    Tracks body slots params before replaced e.target []
      (s.bind ((passing body slots params before).block e.target).params
        ((feed params (holderOut body slots params before label) e).args.map s.regs)) := by
  obtain ⟨visited, hAll, hWalk⟩ := h.walk
  have hEdge : e.target ∈ (body.block label).terminator.successors := List.mem_map_of_mem he
  have hTarget : body.Reached e.target := hReached.successor hEdge
  have hne : e.target ≠ body.entry := fun hEq =>
    h.rooted.entry_first label hReached (hEq ▸ hEdge)
  refine ⟨fun slot hSlot => ?_, fun a b hab ha => ?_⟩
  · have hHolds : s.slots slot = s.regs (holderOut body slots params before label slot) := by
      rw [hTracks.held slot hSlot, holder_heading]
      rfl
    show s.slots slot = _
    by_cases hParam : ∃ p ∈ params, p.label = e.target ∧ p.slot = slot
    · obtain ⟨p, hp, hLabel, rfl⟩ := hParam
      rw [← h.regs_slotParam hReached he hp hLabel] at hHolds
      rw [← hLabel, h.holder_param hp, hLabel]
      exact hHolds
    · have hNone : ∀ p ∈ params, p.label = e.target → p.slot ≠ slot := fun p hp hLabel hEq =>
        hParam ⟨p, hp, hLabel, hEq⟩
      have hAvailable := h.available_holder hTarget hne hSlot hNone
      rw [h.shaped_passing.regs_bind ((reached_fed_iff h.shaped).mpr hTarget) hAvailable,
        hWalk.holder_edge h.rooted h.slotParams hAll hReached hEdge hSlot hNone]
      exact hHolds
  · obtain ⟨home, front, slot, hHome, hTraced⟩ := h.exists_traced hab
    obtain ⟨tail, hLoad⟩ := hTraced.instrs
    have hBlock := h.block_passing hReached
    refine (h.writtenAt_passing hHome hLoad rfl).persists_edge h.shaped_passing
      (dependsOn_single b) ?_ ((reached_fed_iff h.shaped).mpr hReached) ?_ ?_ ha
    · intro q hq
      rw [List.mem_singleton.mp hq]
      exact h.known_replacement hHome hTraced
    · rw [hBlock, successors_feed]
      exact hEdge
    · rw [hBlock]
      exact hTracks.loads a b hab

/-- The register for zero is written while all slots are still zero. -/
theorem tracks_zero (h : Complete body slots params before replaced usesZero) :
    Tracks body slots params before replaced body.entry ([] ++ [.const (zeroReg body params) 0.0])
      ((Instr.const (zeroReg body params) 0.0).effect c Store.initial) := by
  refine ⟨fun slot _ => ?_, fun a b hab ha => ?_⟩
  · have hHolder : holder body slots params before body.entry ([] ++ [.const (zeroReg body params) 0.0])
        slot = zeroReg body params := by
      rw [← h.holder_entry slot]
      rfl
    rw [hHolder, Instr.regs_effect_of_eq rfl]
    rfl
  · rcases Body.known_snoc.mp ha with hBefore | hZero
    · exact absurd hBefore (h.not_known_start a)
    · -- No load writes the register for zero.
      obtain ⟨home, front, slot, hHome, hTraced⟩ := h.exists_traced hab
      obtain ⟨tail, hLoad⟩ := hTraced.instrs
      have hDef : a ∈ (body.block home).defs :=
        Body.mem_defs.mpr (.inr (List.mem_filterMap.mpr ⟨.load a slot, by simp [hLoad], rfl⟩))
      have hLt := h.shaped.defs_lt home a hDef
      rw [← Option.some.inj hZero] at hLt
      exact absurd regCount_le_zeroReg (Nat.not_le_of_lt hLt)

theorem heading_split {mid : List Instr} (h : heading body params label = done ++ i :: mid) :
    label = body.entry ∧ done = [] ∧ i = .const (zeroReg body params) 0.0 := by
  unfold heading at h
  split at h
  · rename_i hEntry
    cases done with
    | nil => exact ⟨hEntry, rfl, (List.cons.inj h).1.symm⟩
    | cons j done => simp at h
  · simp at h

/-- At every point of a run the slots and the registers that hold them agree. -/
theorem tracks_of_visits (h : Complete body slots params before replaced usesZero)
    (hVisit : (passing body slots params before).Visits .blank c label done s) :
    Tracks body slots params before replaced label done s := by
  induction hVisit with
  | start hStart =>
    refine ⟨fun slot _ => ?_, fun a b _ ha => absurd ha (h.not_known_start a)⟩
    rw [hStart]
    rfl
  | @instr label done i rest s visit hInstrs ih =>
    have hReached := (reached_fed_iff h.shaped).mp visit.point.reached
    rw [h.block_passing hReached] at hInstrs
    rcases append_eq_append_cons_cases hInstrs with ⟨mid, rfl, hMid⟩ | ⟨mid, hHead⟩
    · exact h.tracks_instr hReached hMid ih
    · obtain ⟨rfl, rfl, rfl⟩ := heading_split hHead
      rw [h.initial_of_visits visit rfl rfl]
      exact h.tracks_zero
  | @edge label target s values visit hExit ih =>
    have hReached := (reached_fed_iff h.shaped).mp visit.point.reached
    obtain ⟨e', he', rfl, rfl⟩ := Terminator.exists_edge hExit
    rw [h.block_passing hReached, Terminator.edges_mapEdges] at he'
    obtain ⟨e, he, rfl⟩ := List.mem_map.mp he'
    rw [h.block_passing hReached] at ih
    exact h.tracks_edge hReached he ih

end Complete

end Promotion

end LiveCompiler
