import LiveCompiler.Pass.Ownership
import LiveCompiler.Proofs.Ir.Rewriting

/-!
# Every slot of the table is exclusive

When no instruction touches a slot outside of the table, classifying the slots leaves the size
of the table as it is, and nothing else of a body depends on the owners.
-/

namespace LiveCompiler

open Ir

namespace SlotOwnership

variable {starts : Starts} {body : Body}

/-- No instruction touches a slot outside of the table. -/
def InTable (body : Body) : Prop :=
  ∀ b ∈ body.blocks, ∀ i ∈ b.instrs, ∀ slot, touched i = some slot → slot < body.slots.length

theorem foldl_max_eq (slots : List Slot) (size : Nat) (h : ∀ slot ∈ slots, slot < size) :
    slots.foldl (fun size slot => max size (slot + 1)) size = size := by
  induction slots with
  | nil => rfl
  | cons slot slots ih =>
    have hHere : max size (slot + 1) = size := Nat.max_eq_left (h slot List.mem_cons_self)
    rw [List.foldl_cons, hHere]
    exact ih fun other hOther => h other (List.mem_cons_of_mem _ hOther)

theorem sizeInUse_eq (hTable : InTable body) : sizeInUse body = body.slots.length := by
  have hBlocks : ∀ blocks : List Block, (∀ b ∈ blocks, b ∈ body.blocks) →
      blocks.foldl (fun size b =>
        (b.instrs.filterMap touched).foldl (fun size slot => max size (slot + 1)) size)
        body.slots.length = body.slots.length := by
    intro blocks
    induction blocks with
    | nil => exact fun _ => rfl
    | cons b blocks ih =>
      intro hSub
      have hHere := foldl_max_eq (b.instrs.filterMap touched) body.slots.length ?_
      · rw [List.foldl_cons, hHere]
        exact ih fun other hOther => hSub other (List.mem_cons_of_mem _ hOther)
      · intro slot hSlot
        obtain ⟨i, hi, hTouched⟩ := List.mem_filterMap.mp hSlot
        exact hTable b (hSub b List.mem_cons_self) i hi slot hTouched
  exact hBlocks body.blocks fun _ hb => hb

theorem owners_eq (hTable : InTable body) :
    owners body = List.replicate body.slots.length .exclusive := by
  unfold owners
  dsimp only
  rw [sizeInUse_eq hTable, Nat.sub_self, List.replicate_zero, List.append_nil]

/-- A body with other owners for as many slots yields the same. -/
theorem keeps_slots (hShaped : body.Shaped) {slots : List Ownership}
    (hLength : slots.length = body.slots.length) :
    body.Keeps starts { body with slots := slots } := by
  have hShaped' : Body.Shaped { body with slots := slots } :=
    ⟨hShaped.entry_lt, hShaped.entry_params, hShaped.defs_nodup, hShaped.defs_unique, hShaped.defs_lt,
      hShaped.uses_known, hShaped.exit_known, hShaped.edge_fits⟩
  refine ⟨hShaped', fun hRooted => ⟨hShaped', hRooted.entry_first⟩, fun callable hWf =>
    ⟨⟨hShaped', hWf.entry_first⟩, hWf.ends, fun label hReached => ?_⟩, rfl,
    fun contents _ c x calls => ?_⟩
  · rw [hLength]
    exact hWf.legal label hReached
  · refine @Body.yieldsHolding_iff_of_step c contents contents body { body with slots := slots }
      (fun label s other s' => other = label ∧ s' = s) ?_ ⟨rfl, rfl⟩ x calls
    rintro _ _ label s ⟨rfl, rfl⟩
    show Outcome.Match _ (body.outcomeFrom c label s) (body.outcomeFrom c label s)
    cases body.outcomeFrom c label s with
    | returned x calls => exact .returned x calls
    | entered target s => exact .entered ⟨rfl, rfl⟩
    | stuck => exact .stuck

/-- Classifying the slots keeps what a body yields and makes all slots exclusive. -/
theorem keeps (hShaped : body.Shaped) (hTable : InTable body) :
    body.Keeps starts (run body).1 ∧ ∀ owner ∈ (run body).1.slots, owner = .exclusive := by
  have hRun : (run body).1 = { body with slots := owners body } := rfl
  rw [hRun, owners_eq hTable]
  exact ⟨keeps_slots hShaped List.length_replicate, fun owner hOwner =>
    List.eq_of_mem_replicate hOwner⟩

/-- Classifying the slots leaves the blocks as they are. -/
theorem connected (hConnected : body.Connected) : (run body).1.Connected :=
  fun label hLt => hConnected label hLt

end SlotOwnership

end LiveCompiler
