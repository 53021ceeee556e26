import LiveCompiler.Pass.Promotion
import LiveCompiler.Proofs.Graph.Dominance
import LiveCompiler.Proofs.Ir.Blocks
import LiveCompiler.Proofs.Ir.Ssa

/-!
# Where slots get parameters

The search for places goes through a work list (`Placing.Tracks`).  Every block is in work at
most once, so as many steps as there are blocks empty the list, and then the places are the least
set (`Iterated`) that holds the frontiers of the blocks that store to a slot and of its own members.

`SlotParams` is what the rest of the proof knows of the parameters.
-/

namespace LiveCompiler

open Ir

namespace Promotion

/-! ## The work list -/

/-- The least set that holds the frontiers of some blocks and of its own members. -/
inductive Iterated (frontier : Label → List Label) (stores : Label → Prop) : Label → Prop
  | first {a v : Label} (start : stores a) (near : v ∈ frontier a) : Iterated frontier stores v
  | again {a v : Label} (member : Iterated frontier stores a) (near : v ∈ frontier a) :
      Iterated frontier stores v

/-- The state of the search when the blocks in `finished` are done. -/
structure Placing.Tracks (frontier : Label → List Label) (bound : Nat) (storing finished : List Label)
    (s : Placing) : Prop where
  perm : s.queued.Perm (finished ++ s.work)
  nodup : s.queued.Nodup
  lt : ∀ label ∈ s.queued, label < bound
  start : ∀ label ∈ storing, label ∈ s.queued
  queued : ∀ label ∈ s.placed, label ∈ s.queued
  source : ∀ label ∈ s.queued, label ∈ storing ∨ Iterated frontier (· ∈ storing) label
  found : ∀ label ∈ s.placed, Iterated frontier (· ∈ storing) label
  distinct : s.placed.Nodup

variable {frontier : Label → List Label} {bound : Nat} {storing finished : List Label}
  {s : Placing} {label : Label}

theorem Iterated.exists_near (h : Iterated frontier (· ∈ storing) label) : ∃ a, label ∈ frontier a := by
  cases h with
  | first _ near => exact ⟨_, near⟩
  | again _ near => exact ⟨_, near⟩

theorem Placing.mem_placed_place (s : Placing) (label other : Label) :
    other ∈ (s.place label).placed ↔ other ∈ s.placed ∨ other = label := by
  unfold place
  split
  · rename_i hPlaced
    rw [List.contains_iff_mem] at hPlaced
    exact ⟨.inl, fun h => h.elim id fun hEq => hEq ▸ hPlaced⟩
  · dsimp only
    split <;> simp

theorem Placing.Tracks.place (h : s.Tracks frontier bound storing finished)
    (hFound : Iterated frontier (· ∈ storing) label) (hLt : label < bound) :
    (s.place label).Tracks frontier bound storing finished := by
  unfold Placing.place
  split
  · exact h
  · rename_i hNew
    rw [List.contains_iff_mem] at hNew
    have hFoundAll : ∀ other ∈ s.placed ++ [label], Iterated frontier (· ∈ storing) other := by
      intro other hOther
      rcases List.mem_append.mp hOther with hOld | hLast
      · exact h.found other hOld
      · exact List.mem_singleton.mp hLast ▸ hFound
    have hDistinct : (s.placed ++ [label]).Nodup :=
      List.nodup_append.mpr ⟨h.distinct, List.nodup_singleton _, fun a ha b hb hEq =>
        hNew (List.mem_singleton.mp hb ▸ hEq ▸ ha)⟩
    dsimp only
    split
    · rename_i hQueued
      rw [List.contains_iff_mem] at hQueued
      refine ⟨h.perm, h.nodup, h.lt, h.start, fun other hOther => ?_, h.source, hFoundAll,
        hDistinct⟩
      rcases List.mem_append.mp hOther with hOld | hLast
      · exact h.queued other hOld
      · exact List.mem_singleton.mp hLast ▸ hQueued
    · rename_i hFresh
      rw [List.contains_iff_mem] at hFresh
      refine ⟨(h.perm.cons label).trans List.perm_middle.symm, List.nodup_cons.mpr ⟨hFresh, h.nodup⟩,
        fun other hOther => ?_, fun other hOther => List.mem_cons_of_mem _ (h.start other hOther),
        fun other hOther => ?_, fun other hOther => ?_, hFoundAll, hDistinct⟩
      · rcases List.mem_cons.mp hOther with rfl | hOld
        · exact hLt
        · exact h.lt other hOld
      · rcases List.mem_append.mp hOther with hOld | hLast
        · exact List.mem_cons_of_mem _ (h.queued other hOld)
        · exact List.mem_cons.mpr (.inl (List.mem_singleton.mp hLast))
      · rcases List.mem_cons.mp hOther with rfl | hOld
        · exact .inr hFound
        · exact h.source other hOld

theorem Placing.Tracks.foldl (labels : List Label) : ∀ {s : Placing},
    s.Tracks frontier bound storing finished →
    (∀ label ∈ labels, Iterated frontier (· ∈ storing) label ∧ label < bound) →
      (labels.foldl Placing.place s).Tracks frontier bound storing finished ∧
        ∀ other, other ∈ (labels.foldl Placing.place s).placed ↔
          other ∈ s.placed ∨ other ∈ labels := by
  induction labels with
  | nil => exact fun h _ => ⟨h, fun _ => by simp⟩
  | cons label rest ih =>
    intro s h hLabels
    obtain ⟨hFound, hLt⟩ := hLabels label List.mem_cons_self
    obtain ⟨hTracks, hPlaced⟩ :=
      ih (h.place hFound hLt) fun l hl => hLabels l (List.mem_cons_of_mem _ hl)
    refine ⟨hTracks, fun other => ?_⟩
    rw [List.foldl_cons, hPlaced, Placing.mem_placed_place, List.mem_cons, or_assoc]

/-- The work list runs empty, and the frontiers of all that was in work are placed. -/
theorem Placing.Tracks.iterate (hLt : ∀ a, ∀ v ∈ frontier a, v < bound) (count : Nat) :
    ∀ {s : Placing} {finished : List Label}, s.Tracks frontier bound storing finished →
      (∀ label ∈ finished, ∀ v ∈ frontier label, v ∈ s.placed) →
      bound ≤ count + finished.length →
      ∃ all, (Promotion.iterate frontier count s).Tracks frontier bound storing all ∧
        (Promotion.iterate frontier count s).work = [] ∧
        ∀ label ∈ all, ∀ v ∈ frontier label, v ∈ (Promotion.iterate frontier count s).placed := by
  induction count with
  | zero =>
    intro s finished h hClosed hCount
    refine ⟨finished, h, ?_, hClosed⟩
    -- No label below the bound is left for the work list.
    have hLength := h.perm.length_eq
    have hBound : s.queued.length ≤ bound := by
      have hSub : s.queued.Subperm (List.range bound) :=
        List.subperm_of_subset h.nodup fun l hl => List.mem_range.mpr (h.lt l hl)
      simpa using hSub.length_le
    rw [List.length_append] at hLength
    exact List.length_eq_zero_iff.mp (show s.work.length = 0 by omega)
  | succ count ih =>
    intro s finished h hClosed hCount
    unfold Promotion.iterate
    split
    · rename_i hNone
      exact ⟨finished, h, hNone, hClosed⟩
    · rename_i label rest hWork
      have hMoved : ({ s with work := rest } : Placing).Tracks frontier bound storing
          (finished ++ [label]) := by
        refine ⟨?_, h.nodup, h.lt, h.start, h.queued, h.source, h.found, h.distinct⟩
        have hPerm := h.perm
        rw [hWork] at hPerm
        rwa [List.append_assoc, List.singleton_append]
      have hQueued : label ∈ s.queued := h.perm.mem_iff.mpr (by simp [hWork])
      obtain ⟨hTracks, hPlaced⟩ := hMoved.foldl (frontier label) fun v hv =>
        ⟨(h.source label hQueued).elim (.first · hv) (.again · hv), hLt label v hv⟩
      refine ih hTracks (fun other hOther v hv => (hPlaced v).mpr ?_) ?_
      · rcases List.mem_append.mp hOther with hOld | hLast
        · exact .inl (hClosed other hOld v hv)
        · exact .inr (List.mem_singleton.mp hLast ▸ hv)
      · rw [List.length_append, List.length_singleton]
        omega

/-- The places are distinct, and they are the least set that holds the frontiers of the storing
blocks and of its members. -/
theorem placesFor_spec (hLt : ∀ a, ∀ v ∈ frontier a, v < bound) (hNodup : storing.Nodup)
    (hStoring : ∀ label ∈ storing, label < bound) :
    (placesFor frontier bound storing).Nodup ∧
      ∀ label, label ∈ placesFor frontier bound storing ↔ Iterated frontier (· ∈ storing) label := by
  have hStart : ({ work := storing.reverse, queued := storing, placed := [] } : Placing).Tracks
      frontier bound storing [] :=
    ⟨(List.reverse_perm storing).symm, hNodup, hStoring, fun _ h => h, by simp, fun _ => .inl,
      by simp, List.nodup_nil⟩
  obtain ⟨all, hTracks, hWork, hClosed⟩ :=
    hStart.iterate hLt bound (by simp) (Nat.le_add_right _ _)
  have hPerm := hTracks.perm
  rw [hWork, List.append_nil] at hPerm
  refine ⟨hTracks.distinct, fun label => ⟨hTracks.found label, fun hLabel => ?_⟩⟩
  induction hLabel with
  | first start near => exact hClosed _ (hPerm.mem_iff.mp (hTracks.start _ start)) _ near
  | again _ near ih => exact hClosed _ (hPerm.mem_iff.mp (hTracks.queued _ ih)) _ near

/-! ## The parameters -/

/-- What the parameters for slots have to be: registers of their own in blocks that the entry
leads to, and closed under frontiers. -/
structure SlotParams (body : Body) (slots : List Slot) (params : List SlotParam) : Prop where
  nodup : params.Nodup
  regs : ∀ p ∈ params, body.regCount ≤ p.reg ∧ p.reg < body.regCount + params.length
  inj : ∀ p ∈ params, ∀ q ∈ params, p.reg = q.reg → p = q
  unique : ∀ p ∈ params, ∀ q ∈ params, p.label = q.label → p.slot = q.slot → p = q
  reached : ∀ p ∈ params, body.Reached p.label
  ne_entry : ∀ p ∈ params, p.label ≠ body.entry
  slot_mem : ∀ p ∈ params, p.slot ∈ slots
  closed : ∀ label, body.Reached label → ∀ slot ∈ slots,
    (storesTo slot (body.block label) = true ∨ ∃ p ∈ params, p.label = label ∧ p.slot = slot) →
    ∀ v ∈ body.dominance.frontiers.toArray.getD label [],
      ∃ p ∈ params, p.label = v ∧ p.slot = slot

variable {body : Body} {slots : List Slot}

theorem mem_slotParams {d : Dominance} {p : SlotParam} :
    p ∈ slotParams d body slots ↔ ∃ i, ∃ h : i < (places d body slots).length,
      p = ⟨(places d body slots)[i].1, (places d body slots)[i].2, body.regCount + i⟩ := by
  unfold slotParams
  rw [List.mem_mapIdx]
  exact exists_congr fun i => exists_congr fun h => eq_comm

theorem mem_places_iff {label : Label} {slot : Slot} :
    (label, slot) ∈ places body.dominance body slots ↔ slot ∈ slots ∧
      label ∈ placesFor (fun l => body.dominance.frontiers.toArray.getD l []) body.blocks.length
        (body.order.filter fun l => storesTo slot (body.block l)) := by
  unfold places
  simp only [List.mem_flatMap, List.mem_map]
  constructor
  · rintro ⟨slot', hSlot, label', hLabel, hEq⟩
    obtain ⟨rfl, rfl⟩ := Prod.mk.inj hEq
    exact ⟨hSlot, hLabel⟩
  · rintro ⟨hSlot, hLabel⟩
    exact ⟨slot, hSlot, label, hLabel, rfl⟩

theorem places_slot_spec (slot : Slot) :
    let frontier := fun l => body.dominance.frontiers.toArray.getD l []
    let storing := body.order.filter fun l => storesTo slot (body.block l)
    (placesFor frontier body.blocks.length storing).Nodup ∧
      ∀ label, label ∈ placesFor frontier body.blocks.length storing ↔
        Iterated frontier (· ∈ storing) label := by
  have hLt : ∀ {v}, v ∈ body.order → v < body.blocks.length := fun hv =>
    body.size_graph ▸ Digraph.lt_size_of_mem_order hv
  refine placesFor_spec (fun a v hv => hLt (Dominance.join_of_mem_frontiers hv).1)
    ((body.graph.order_nodup body.entry).filter _) fun label hLabel => ?_
  exact hLt (List.mem_filter.mp hLabel).1

theorem places_nodup (hSlots : slots.Nodup) :
    (places body.dominance body slots).Nodup := by
  refine List.nodup_flatMap.mpr ⟨fun slot _ => ?_, ?_⟩
  · exact (places_slot_spec slot).1.map fun a b hEq => (Prod.mk.inj hEq).1
  · refine hSlots.imp ?_
    intro slot other hne place hPlace hPlace'
    obtain ⟨label, -, rfl⟩ := List.mem_map.mp hPlace
    obtain ⟨label', -, hEq⟩ := List.mem_map.mp hPlace'
    exact hne (Prod.mk.inj hEq).2.symm

/-- The entry is no meeting point, as no edge leads back to it. -/
theorem not_join_entry (hRooted : body.Rooted) :
    ¬ 2 ≤ (body.dominance.preds body.entry).length := by
  have hEntry : body.entry ∈ body.order := hRooted.mem_order_iff.mpr .root
  have hNone : body.dominance.preds body.entry = [] := by
    refine List.eq_nil_iff_forall_not_mem.mpr fun p hp => ?_
    obtain ⟨hOrder, hEdge⟩ := (Dominance.mem_preds_iff hEntry).mp hp
    rw [Body.succ_graph] at hEdge
    exact hRooted.entry_first p (hRooted.mem_order_iff.mp hOrder) hEdge
  rw [hNone]
  exact Nat.not_succ_le_zero 1

/-- A parameter is made for one of the places. -/
theorem mem_places_of_mem {d : Dominance} {p : SlotParam} (hp : p ∈ slotParams d body slots) :
    (p.label, p.slot) ∈ places d body slots := by
  obtain ⟨i, hi, rfl⟩ := mem_slotParams.mp hp
  exact List.getElem_mem hi

theorem exists_of_mem_places {d : Dominance} {label : Label} {slot : Slot}
    (h : (label, slot) ∈ places d body slots) :
    ∃ p ∈ slotParams d body slots, p.label = label ∧ p.slot = slot := by
  obtain ⟨i, hi, hAt⟩ := List.mem_iff_getElem.mp h
  exact ⟨_, mem_slotParams.mpr ⟨i, hi, rfl⟩, congrArg Prod.fst hAt, congrArg Prod.snd hAt⟩

/-- Parameters are made for blocks where paths meet. -/
theorem join_of_mem_slotParams {p : SlotParam} (hp : p ∈ slotParams body.dominance body slots) :
    p.label ∈ body.order ∧ 2 ≤ (body.dominance.preds p.label).length := by
  obtain ⟨-, hFound⟩ := mem_places_iff.mp (mem_places_of_mem hp)
  obtain ⟨a, ha⟩ := (((places_slot_spec p.slot).2 p.label).mp hFound).exists_near
  exact Dominance.join_of_mem_frontiers ha

theorem nodup_slotParams (d : Dominance) : (slotParams d body slots).Nodup := by
  refine List.nodup_iff_getElem?_ne_getElem?.mpr fun i j hij hj hEq => ?_
  simp only [slotParams, List.getElem?_mapIdx, List.length_mapIdx] at hEq hj
  rw [List.getElem?_eq_getElem (Nat.lt_trans hij hj), List.getElem?_eq_getElem hj] at hEq
  have hReg := congrArg SlotParam.reg (Option.some.inj hEq)
  dsimp only at hReg
  exact Nat.ne_of_lt hij (Nat.add_left_cancel hReg)

theorem slotParams_spec (hRooted : body.Rooted) (hSlots : slots.Nodup) :
    SlotParams body slots (slotParams body.dominance body slots) where
  nodup := nodup_slotParams body.dominance
  regs p hp := by
    obtain ⟨i, hi, rfl⟩ := mem_slotParams.mp hp
    have hLength : (slotParams body.dominance body slots).length =
        (places body.dominance body slots).length := by
      simp [slotParams]
    rw [hLength]
    exact ⟨Nat.le_add_right _ _, Nat.add_lt_add_left hi _⟩
  inj p hp q hq hEq := by
    obtain ⟨i, hi, rfl⟩ := mem_slotParams.mp hp
    obtain ⟨j, hj, rfl⟩ := mem_slotParams.mp hq
    obtain rfl := Nat.add_left_cancel hEq
    rfl
  unique p hp q hq hLabel hSlot := by
    obtain ⟨i, hi, rfl⟩ := mem_slotParams.mp hp
    obtain ⟨j, hj, rfl⟩ := mem_slotParams.mp hq
    obtain rfl := (places_nodup hSlots).getElem_inj_iff.mp (Prod.ext hLabel hSlot)
    rfl
  reached p hp := hRooted.mem_order_iff.mp (join_of_mem_slotParams hp).1
  ne_entry p hp hEq := not_join_entry hRooted (hEq ▸ (join_of_mem_slotParams hp).2)
  slot_mem p hp := (mem_places_iff.mp (mem_places_of_mem hp)).1
  closed label hReached slot hSlot hSource v hv := by
    apply exists_of_mem_places
    refine mem_places_iff.mpr ⟨hSlot, ((places_slot_spec slot).2 v).mpr ?_⟩
    rcases hSource with hStores | ⟨p, hp, rfl, rfl⟩
    · exact .first (List.mem_filter.mpr ⟨hRooted.mem_order_iff.mpr hReached, hStores⟩) hv
    · exact .again (((places_slot_spec p.slot).2 p.label).mp
        (mem_places_iff.mp (mem_places_of_mem hp)).2) hv

end Promotion

end LiveCompiler
