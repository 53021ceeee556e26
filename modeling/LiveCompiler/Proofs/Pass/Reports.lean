import LiveCompiler.Pass.Pipeline
import LiveCompiler.Proofs.Pass.FlowCleanup
import LiveCompiler.Proofs.Pass.FlowCleanup.Tidy
import LiveCompiler.Proofs.Pass.Folding.Sweep
import LiveCompiler.Proofs.Pass.Promotion.Renumbering
import Mathlib.Data.List.Flatten

/-!
# A pass reports what it did

Every pass returns a flag, and the flag tells the truth (`Pass.flag_iff_differs`): a body that is
passed over in silence is the old one, and a change that is reported can be seen in the content of
the body.

Silence is read off step by step: a walk that has reported nothing in the end has reported nothing
on the way (`foldl_silent`).  The other direction is the harder one, as a later step could take back
what an earlier one did.  It cannot where something gets smaller: the table of slots, the number of
instructions, or the edges, the parameters and the blocks.  Folding makes nothing smaller when it
moves a constant to the right.  But a body that folding gives back as it was would be reduced, and
folding is silent on reduced bodies.
-/

namespace LiveCompiler

open Ir

namespace Ir

/-- Two bodies have the same content.  They may differ in how many registers have been handed
out. -/
structure Body.SameContent (body after : Body) : Prop where
  name : after.name = body.name
  arity : after.arity = body.arity
  blocks : after.blocks = body.blocks
  entry : after.entry = body.entry
  slots : after.slots = body.slots

end Ir

/-- The flag of a pass tells whether the content of a body has changed. -/
structure Pass.Reports (pass : Pass) (body : Body) : Prop where
  silent : (pass.run body).2 = false → (pass.run body).1 = body
  loud : (pass.run body).2 = true → ¬ body.SameContent (pass.run body).1

theorem Pass.Reports.iff {pass : Pass} {body : Body} (h : pass.Reports body) :
    (pass.run body).2 = true ↔ ¬ body.SameContent (pass.run body).1 := by
  refine ⟨h.loud, fun hDiffers => ?_⟩
  by_contra hSilent
  apply hDiffers
  rw [h.silent (Bool.eq_false_of_not_eq_true hSilent)]
  exact ⟨rfl, rfl, rfl, rfl, rfl⟩

/-- A walk that has reported nothing in the end has reported nothing on the way, and has kept what
every silent step keeps. -/
theorem foldl_silent {σ α : Type} {step : σ → α → σ} (changed : σ → Bool) {Same : σ → Prop}
    (hStep : ∀ s a, changed (step s a) = false → changed s = false ∧ (Same s → Same (step s a)))
    (todo : List α) : ∀ s, changed (todo.foldl step s) = false →
      changed s = false ∧ (Same s → Same (todo.foldl step s)) := by
  induction todo with
  | nil => exact fun s hSilent => ⟨hSilent, id⟩
  | cons a todo ih =>
    intro s hSilent
    obtain ⟨hNext, hRest⟩ := ih (step s a) hSilent
    obtain ⟨hHere, hSame⟩ := hStep s a hNext
    exact ⟨hHere, fun hs => hRest (hSame hs)⟩

variable {body : Body}

/-! ## Slots -/

namespace SlotOwnership

theorem reports (body : Body) : slotOwnership.Reports body where
  silent := by
    intro hSilent
    have hSame : owners body = body.slots := by simpa [slotOwnership, run] using hSilent
    show { body with slots := owners body } = body
    rw [hSame]
  loud := by
    intro hLoud hSame
    exact bne_iff_ne.mp hLoud hSame.slots

end SlotOwnership

theorem Forwarding.slots_rounds (count : Nat) : ∀ body : Body,
    (rounds count body).1.slots = body.slots := by
  induction count with
  | zero => exact fun _ => rfl
  | succ count ih =>
    intro body
    unfold rounds
    split
    · rfl
    · exact ih _

namespace Promotion

theorem slots_renameSlots (d : Dominance) (slots : List Slot) (params : List SlotParam)
    (body : Body) : (renameSlots d slots params body).slots = body.slots := by
  have hWalk : ∀ (visits : List (Label × Option Label)) (s : Renaming),
      (visits.foldl (renameBlock slots params body.regCount) s).body.slots = s.body.slots := by
    intro visits
    induction visits with
    | nil => exact fun _ => rfl
    | cons visit visits ih => exact fun s => ih _
  unfold renameSlots
  dsimp only
  rw [(Substitution.apply_fields _ _).2.2.2.2]
  split
  · exact hWalk _ _
  · exact hWalk _ _

/-- Promotion makes the table of slots shorter. -/
theorem length_slots_run (h : promotable body ≠ []) :
    (run body).1.slots.length < body.slots.length := by
  obtain ⟨slot, hSlot⟩ := List.exists_mem_of_ne_nil _ h
  have hRange : slot ∈ List.range body.slots.length := (List.mem_filter.mp hSlot).1
  have hFewer : slotAfter (promotable body) body.slots.length < body.slots.length := by
    unfold slotAfter
    calc ((List.range body.slots.length).filter _).length
        < (List.range body.slots.length).length :=
          List.length_filter_lt_length_iff_exists.mpr ⟨slot, hRange, by simpa using hSlot⟩
      _ = body.slots.length := List.length_range
  unfold run
  rw [if_neg (by simpa using h)]
  dsimp only
  rw [forwardParams, Forwarding.slots_rounds, length_slots_closeSlotGaps, slots_renameSlots]
  exact hFewer

theorem reports (body : Body) : promotion.Reports body := by
  by_cases hNone : promotable body = []
  · have hRun : run body = (body, false) := by
      unfold run
      rw [hNone]
      rfl
    refine ⟨fun _ => congrArg Prod.fst hRun, fun hLoud => ?_⟩
    exact absurd (hLoud.symm.trans (congrArg Prod.snd hRun)) (by simp)
  · have hFlag : (run body).2 = true := by
      unfold run
      rw [if_neg (by simpa using hNone)]
    refine ⟨fun hSilent => absurd (hFlag.symm.trans hSilent) (by simp), fun _ hSame => ?_⟩
    exact Nat.ne_of_lt (length_slots_run hNone) (congrArg List.length hSame.slots)

end Promotion

/-! ## Folding -/

namespace Folding

section Sweep

variable {s : Sweep}

theorem Sweep.dropIdentity_silent {op : ArithOp} {dst left right : Reg}
    (hSilent : (s.dropIdentity op dst left right).changed = false) :
    s.dropIdentity op dst left right = s := by
  unfold dropIdentity at hSilent ⊢
  split
  · rename_i c hConst
    rw [hConst] at hSilent
    dsimp only at hSilent
    split
    · rename_i hNeutral
      rw [if_pos hNeutral] at hSilent
      cases hSilent
    · rfl
  · rfl

/-- Dropping an identity takes no report back. -/
theorem Sweep.changed_dropIdentity {op : ArithOp} {dst left right : Reg}
    (hLoud : s.changed = true) : (s.dropIdentity op dst left right).changed = true := by
  by_contra hSilent
  rw [Bool.not_eq_true] at hSilent
  have hSame := dropIdentity_silent hSilent
  rw [hSame, hLoud] at hSilent
  cases hSilent

/-- An instruction that is folded in silence is left as it is, and nothing is replaced by it. -/
theorem Sweep.fold_silent {i : Instr} (hSilent : (s.fold i).2.changed = false) :
    s.changed = false ∧ (s.fold i).1 = i ∧ (s.fold i).2.replaced = s.replaced := by
  revert hSilent
  cases i with
  | arith op dst left right =>
    unfold fold simplify
    dsimp only
    split
    · exact nofun
    · split
      · intro hSilent
        rw [changed_dropIdentity rfl] at hSilent
        cases hSilent
      · intro hSilent
        have hSame := dropIdentity_silent hSilent
        exact ⟨hSame ▸ hSilent, rfl, congrArg Sweep.replaced hSame⟩
  | less dst left right =>
    unfold fold
    dsimp only
    split
    · exact nofun
    · exact fun hSilent => ⟨hSilent, rfl, rfl⟩
  | _ => exact fun hSilent => ⟨hSilent, rfl, rfl⟩

theorem foldInstrs_silent (instrs : List Instr) : ∀ s : Sweep,
    (foldInstrs s instrs).2.changed = false → s.changed = false ∧
      (s.replaced = Substitution.empty → (foldInstrs s instrs).1 = instrs ∧
        (foldInstrs s instrs).2.replaced = Substitution.empty) := by
  induction instrs with
  | nil => exact fun s hSilent => ⟨hSilent, fun hEmpty => ⟨rfl, hEmpty⟩⟩
  | cons i rest ih =>
    intro s hSilent
    rw [foldInstrs] at hSilent ⊢
    dsimp only at hSilent ⊢
    obtain ⟨hNext, hRest⟩ := ih _ hSilent
    obtain ⟨hHere, hHead, hReplaced⟩ := Sweep.fold_silent hNext
    refine ⟨hHere, fun hEmpty => ?_⟩
    obtain ⟨hTail, hLast⟩ := hRest (hReplaced.trans hEmpty)
    refine ⟨?_, hLast⟩
    rw [hTail, hHead, hEmpty, representative_empty, Instr.renameUses_id]

end Sweep

theorem foldBlock_silent {state : Body × Sweep} {label : Label}
    (hSilent : (foldBlock state label).2.changed = false) : state.2.changed = false ∧
      (state.1 = body ∧ state.2.replaced = Substitution.empty →
        (foldBlock state label).1 = body ∧
          (foldBlock state label).2.replaced = Substitution.empty) := by
  obtain ⟨hHere, hRest⟩ := foldInstrs_silent _ _ hSilent
  refine ⟨hHere, ?_⟩
  rintro ⟨rfl, hEmpty⟩
  obtain ⟨hInstrs, hLast⟩ := hRest hEmpty
  refine ⟨?_, hLast⟩
  unfold foldBlock
  dsimp only
  rw [hInstrs, modifyBlock_instrs_self]

theorem fold_silent (hSilent : (fold body).2 = false) : (fold body).1 = body := by
  obtain ⟨-, hSame⟩ := foldl_silent (fun state : Body × Sweep => state.2.changed)
    (fun _ _ => foldBlock_silent) body.order (body, Sweep.start) hSilent
  obtain ⟨hBody, hEmpty⟩ := hSame ⟨rfl, rfl⟩
  unfold fold
  dsimp only
  rw [hBody, hEmpty]
  rfl

theorem dropRounds_silent {count : Nat} (hSilent : (dropRounds count body).2 = false) :
    (dropRounds count body).1 = body := by
  cases count with
  | zero => rfl
  | succ count =>
    unfold dropRounds at hSilent ⊢
    dsimp only at hSilent ⊢
    split
    · rfl
    · rename_i hLess
      rw [if_neg hLess] at hSilent
      cases hSilent

theorem run_silent (hSilent : (run body).2 = false) : (run body).1 = body := by
  obtain ⟨hFold, hDrop⟩ := Bool.or_eq_false_iff.mp hSilent
  exact (dropRounds_silent hDrop).trans (fold_silent hFold)

theorem reports (hSingle : body.SingleAssignment) : folding.Reports body where
  silent := run_silent
  loud := by
    -- What folding leaves behind is reduced, and so would be the body itself.
    intro hLoud hSame
    have hReduced : Reduced (run body).1 := (reduced_and_ordered hSingle).1
    have hOld : Reduced body := hReduced.congr hSame.blocks.symm hSame.entry.symm
    have hSilent : (run body).2 = false := congrArg Prod.snd hOld.run_eq
    exact absurd (hLoud.symm.trans hSilent) (by simp)

end Folding

/-! ## Order of operands -/

namespace OperandOrder

/-- Operands in the wrong order are not the same register, so exchanging them shows. -/
theorem exchange_ne {ranks : Ranks} {i : Instr} (h : isMisordered ranks i = true) :
    exchange i ≠ i := by
  cases i with
  | arith op dst left right =>
    intro hSame
    obtain ⟨-, -, -, hEq⟩ := Instr.arith.inj hSame
    obtain ⟨-, hBelow⟩ := Bool.and_eq_true_iff.mp h
    subst hEq
    simp [isBelow] at hBelow
  | _ => cases h

/-- If one instruction is in the wrong order, the blocks change. -/
theorem blocks_run_ne {b : Block} {i : Instr} (hb : b ∈ body.blocks) (hi : i ∈ b.instrs)
    (h : isMisordered (ranks body) i = true) : (run body).1.blocks ≠ body.blocks := by
  intro hSame
  have hBlocks : body.blocks.map (fun b =>
      { b with instrs := b.instrs.map (reorder (ranks body)) }) = body.blocks.map id :=
    Eq.trans hSame (List.map_id _).symm
  have hInstrs : b.instrs.map (reorder (ranks body)) = b.instrs.map id :=
    (congrArg Block.instrs (List.map_inj_left.mp hBlocks b hb)).trans (List.map_id _).symm
  have hHere := List.map_inj_left.mp hInstrs i hi
  rw [reorder, if_pos h] at hHere
  exact exchange_ne h hHere

theorem reports (body : Body) : operandOrder.Reports body where
  silent := by
    intro hSilent
    have hNone : ∀ b ∈ body.blocks, ∀ i ∈ b.instrs, isMisordered (ranks body) i = false := by
      simpa [operandOrder, run] using hSilent
    have hBlocks : (run body).1.blocks = body.blocks := by
      apply (List.map_congr_left fun b hb => ?_).trans (List.map_id _)
      have hInstrs : b.instrs.map (reorder (ranks body)) = b.instrs := by
        apply (List.map_congr_left fun i hi => ?_).trans (List.map_id _)
        rw [reorder, if_neg (by simp [hNone b hb i hi]), id]
      exact congrArg (fun instrs => { b with instrs := instrs }) hInstrs
    exact congrArg (fun blocks => { body with blocks := blocks }) hBlocks
  loud := by
    intro hLoud hSame
    obtain ⟨b, hb, hAny⟩ := List.any_eq_true.mp hLoud
    obtain ⟨i, hi, hMisordered⟩ := List.any_eq_true.mp hAny
    exact blocks_run_ne hb hi hMisordered hSame.blocks

end OperandOrder

/-! ## Value numbering -/

theorem Substitution.instrCount_apply (s : Substitution) (body : Body) :
    (s.apply body).instrCount = body.instrCount := by
  unfold apply
  split
  · rfl
  · exact FlowCleanup.length_flatMap_mapBlocks Block.instrs fun b => List.length_map _

namespace ValueNumbering

/-- An instruction is taken out when the flag is set, and else all are as they were. -/
theorem numberInstrs_reports (instrs : List Instr) :
    ∀ (known : Known) (s : Substitution) (changed : Bool),
      (numberInstrs instrs known s changed).1.length +
          (numberInstrs instrs known s changed).2.2.2.toNat ≤ instrs.length + changed.toNat ∧
        ((numberInstrs instrs known s changed).2.2.2 = false → changed = false ∧
          (s = Substitution.empty → (numberInstrs instrs known s changed).1 = instrs ∧
            (numberInstrs instrs known s changed).2.2.1 = Substitution.empty)) := by
  induction instrs with
  | nil => exact fun known s changed => ⟨Nat.le_refl _, fun h => ⟨h, fun hs => ⟨rfl, hs⟩⟩⟩
  | cons i rest ih =>
    intro known s changed
    -- An instruction that is kept adds one to both lengths.
    have hKeep : ∀ more : Known,
        (numberInstrs rest more s changed).1.length + 1 +
            (numberInstrs rest more s changed).2.2.2.toNat ≤ rest.length + 1 + changed.toNat ∧
          ((numberInstrs rest more s changed).2.2.2 = false → changed = false ∧
            (s = Substitution.empty →
              i.renameUses s.representative :: (numberInstrs rest more s changed).1 = i :: rest ∧
              (numberInstrs rest more s changed).2.2.1 = Substitution.empty)) := by
      intro more
      obtain ⟨hLength, hSilent⟩ := ih more s changed
      refine ⟨by omega, fun hFlag => ?_⟩
      obtain ⟨hChanged, hSame⟩ := hSilent hFlag
      refine ⟨hChanged, fun hEmpty => ?_⟩
      obtain ⟨hRest, hLast⟩ := hSame hEmpty
      rw [hRest, hEmpty, Folding.representative_empty, Instr.renameUses_id]
      exact ⟨rfl, hEmpty ▸ hLast⟩
    unfold numberInstrs
    dsimp only
    split
    · split
      · obtain ⟨hLength, hSilent⟩ := ih known (s.insert _ _) true
        refine ⟨?_, fun hFlag => absurd (hSilent hFlag).1 (by simp)⟩
        rw [List.length_cons]
        have hOne : (true : Bool).toNat = 1 := rfl
        omega
      · exact hKeep _
    · exact hKeep _

/-- Numbering a block takes an instruction out when the flag is set. -/
theorem instrCount_numberBlock (w : Walk) (visit : Label × Option Label) :
    (numberBlock w visit).body.instrCount + (numberBlock w visit).changed.toNat ≤
      w.body.instrCount + w.changed.toNat := by
  obtain ⟨label, parent⟩ := visit
  have hLength := (numberInstrs_reports (w.body.block label).instrs
    ((parent.bind fun p => w.atEnd.lookup p).getD []) w.replaced w.changed).1
  unfold numberBlock
  dsimp only
  generalize numberInstrs (w.body.block label).instrs _ w.replaced w.changed = out at hLength ⊢
  obtain ⟨kept, known, replaced, changed⟩ := out
  dsimp only at hLength ⊢
  by_cases hLt : label < w.body.blocks.length
  · have hCount := FlowCleanup.length_flatMap_modifyBlock Block.instrs
      (fun b => { b with instrs := kept }) hLt
    unfold Body.instrCount Body.instrs
    dsimp only at hCount
    omega
  · rw [Body.block_of_le (Nat.le_of_not_lt hLt)] at hLength
    have hSame : (w.body.modifyBlock label fun b => { b with instrs := kept }) = w.body :=
      congrArg (fun blocks => { w.body with blocks := blocks })
        (List.modify_eq_self (Nat.le_of_not_lt hLt))
    have hNil : Block.empty.instrs.length = 0 := rfl
    rw [hSame]
    omega

/-- Value numbering takes an instruction out when it reports a change. -/
theorem instrCount_run (body : Body) :
    (run body).1.instrCount + (run body).2.toNat ≤ body.instrCount := by
  have hWalk : ∀ (visits : List (Label × Option Label)) (w : Walk),
      (visits.foldl numberBlock w).body.instrCount + (visits.foldl numberBlock w).changed.toNat ≤
        w.body.instrCount + w.changed.toNat := by
    intro visits
    induction visits with
    | nil => exact fun _ => Nat.le_refl _
    | cons visit visits ih => exact fun w => (ih _).trans (instrCount_numberBlock w visit)
  unfold run
  dsimp only
  rw [Substitution.instrCount_apply]
  exact hWalk _ _

theorem numberBlock_silent {w : Walk} {visit : Label × Option Label}
    (hSilent : (numberBlock w visit).changed = false) : w.changed = false ∧
      (w.body = body ∧ w.replaced = Substitution.empty →
        (numberBlock w visit).body = body ∧
          (numberBlock w visit).replaced = Substitution.empty) := by
  obtain ⟨hHere, hRest⟩ := (numberInstrs_reports _ _ _ _).2 hSilent
  refine ⟨hHere, ?_⟩
  rintro ⟨rfl, hEmpty⟩
  obtain ⟨hInstrs, hLast⟩ := hRest hEmpty
  refine ⟨?_, hLast⟩
  unfold numberBlock
  dsimp only
  rw [hInstrs, Folding.modifyBlock_instrs_self]

theorem reports (body : Body) : valueNumbering.Reports body where
  silent := by
    intro hSilent
    obtain ⟨-, hSame⟩ := foldl_silent Walk.changed (fun _ _ => numberBlock_silent)
      body.dominance.preorder _ hSilent
    obtain ⟨hBody, hEmpty⟩ := hSame ⟨rfl, rfl⟩
    show (run body).1 = body
    unfold run
    dsimp only
    rw [hBody, hEmpty]
    rfl
  loud := by
    intro (hLoud : (run body).2 = true) hSame
    have hFewer := instrCount_run body
    rw [hLoud, Bool.toNat_true] at hFewer
    have hCount : (run body).1.instrCount = body.instrCount :=
      congrArg (fun blocks => (blocks.flatMap Block.instrs).length) hSame.blocks
    omega

end ValueNumbering

/-! ## Cleanup of the control flow -/

namespace FlowCleanup

/-- What is dropped are the blocks that are not in the search order. -/
theorem length_blocks_dropUnreachable (body : Body) :
    (dropUnreachable body).1.blocks.length = body.order.length := by
  unfold dropUnreachable
  dsimp only
  split
  · rename_i hAll
    exact hAll.symm
  · rw [List.length_map, List.length_map]
    apply List.Perm.length_eq
    apply (List.perm_ext_iff_of_nodup (List.nodup_range.filter _)
      (body.graph.order_nodup body.entry)).mpr
    intro label
    rw [List.mem_filter, List.mem_range, Digraph.seen_search_iff]
    refine and_iff_right_of_imp fun hMem => ?_
    exact body.size_graph ▸ Digraph.lt_size_of_mem_order hMem

/-- Of what the blocks have, nothing is added by dropping blocks. -/
theorem length_flatMap_dropUnreachable {α : Type} (g : Block → List α)
    (hEdges : ∀ (b : Block) (f : Edge → Edge),
      (g { b with terminator := b.terminator.mapEdges f }).length = (g b).length) :
    ((dropUnreachable body).1.blocks.flatMap g).length ≤ (body.blocks.flatMap g).length := by
  unfold dropUnreachable
  dsimp only
  split
  · exact Nat.le_refl _
  · have hAll : (List.range body.blocks.length).map body.block = body.blocks :=
      List.ext_getElem (by simp) fun label hLt hLt' => by simp [Body.block_of_lt hLt']
    have hFilter : ((List.range body.blocks.length).filter fun label =>
        (body.graph.search body.entry).seen.getD label false).Sublist
        (List.range body.blocks.length) := List.filter_sublist
    have hKept := (hFilter.map body.block).flatMap g
    rw [hAll] at hKept
    rw [List.flatMap_map, List.length_flatMap]
    simp only [hEdges]
    rw [← List.length_flatMap]
    exact hKept.length_le

theorem weight_dropUnreachable (body : Body) :
    weight (dropUnreachable body).1 ≤ weight body :=
  Nat.add_le_add
    (length_flatMap_dropUnreachable (fun b => b.terminator.edges) fun b f => by
      rw [Terminator.edges_mapEdges, List.length_map])
    (length_flatMap_dropUnreachable Block.params fun _ _ => rfl)

theorem weight_rounds (count : Nat) : ∀ body : Body,
    weight (rounds count body).1 + (rounds count body).2.toNat ≤ weight body := by
  induction count with
  | zero => exact fun _ => Nat.le_refl _
  | succ count ih =>
    intro body
    have hRound := (roundGives_round body).2
    have hRest := ih (round body).1
    unfold rounds
    dsimp only
    split
    · rename_i hChanged
      rw [hChanged] at hRound
      dsimp only
      omega
    · exact (Nat.add_le_add_left (Nat.zero_le _) _).trans hRound

/-- Dropping is silent if and only if all blocks are in the search order. -/
theorem snd_dropUnreachable (body : Body) :
    (dropUnreachable body).2 = decide (body.order.length ≠ body.blocks.length) := by
  unfold dropUnreachable
  dsimp only
  split
  · rename_i hAll
    exact (decide_eq_false (not_not.mpr hAll)).symm
  · rename_i hSome
    exact (decide_eq_true hSome).symm

theorem dropUnreachable_silent (hSilent : (dropUnreachable body).2 = false) :
    (dropUnreachable body).1 = body := by
  rw [snd_dropUnreachable, decide_eq_false_iff_not, not_not] at hSilent
  unfold dropUnreachable
  exact congrArg Prod.fst (if_pos hSilent)

theorem snd_run (body : Body) : (run body).2 = ((rounds (weight body + 1) body).2 ||
    (dropUnreachable (rounds (weight body + 1) body).1).2) := by
  rw [run]

theorem reports (body : Body) : flowCleanup.Reports body where
  silent := by
    intro (hSilent : (run body).2 = false)
    rw [snd_run, Bool.or_eq_false_iff] at hSilent
    have hStill := still_of_snd_rounds hSilent.1
    show (run body).1 = body
    rw [hStill.rounds_eq] at hSilent
    rw [fst_run, hStill.rounds_eq]
    exact dropUnreachable_silent hSilent.2
  loud := by
    intro (hLoud : (run body).2 = true) hSame
    have hBlocks : (run body).1.blocks = body.blocks := hSame.blocks
    by_cases hRounds : (rounds (weight body + 1) body).2 = true
    · -- The rounds have made the body lighter, and dropping blocks adds nothing.
      have hLighter := weight_rounds (weight body + 1) body
      have hNoMore := weight_dropUnreachable (rounds (weight body + 1) body).1
      have hWeight : weight (run body).1 = weight body := by
        unfold weight Body.edges Body.params
        rw [hBlocks]
      rw [hRounds, Bool.toNat_true] at hLighter
      rw [fst_run] at hWeight
      omega
    · -- The rounds have done nothing, so some blocks have been dropped.
      rw [Bool.not_eq_true] at hRounds
      rw [snd_run, hRounds, Bool.false_or] at hLoud
      rw [fst_run] at hBlocks
      rw [(still_of_snd_rounds hRounds).rounds_eq] at hLoud hBlocks
      rw [snd_dropUnreachable, decide_eq_true_iff, ← length_blocks_dropUnreachable] at hLoud
      exact hLoud (congrArg List.length hBlocks)

end FlowCleanup

/-- Every pass of the standard pipeline reports a change if and only if the content of the body
differs: its name, its arity, its blocks, its entry or its slots. -/
theorem Pass.flag_iff_differs (hSingle : body.SingleAssignment) {pass : Pass}
    (hPass : pass ∈ standardPasses) :
    (pass.run body).2 = true ↔ ¬ body.SameContent (pass.run body).1 := by
  have hReports : pass.Reports body := by
    simp only [standardPasses, List.mem_cons, List.not_mem_nil, or_false] at hPass
    rcases hPass with rfl | rfl | rfl | rfl | rfl | rfl
    · exact SlotOwnership.reports body
    · exact Promotion.reports body
    · exact Folding.reports hSingle
    · exact OperandOrder.reports body
    · exact ValueNumbering.reports body
    · exact FlowCleanup.reports body
  exact hReports.iff

theorem Pass.flag_iff_differs_foldedArm : FlowCleanup.foldedArm.SingleAssignment ∧
    standardPasses.map (fun pass => (pass.run FlowCleanup.foldedArm).2) =
      [false, false, false, false, false, true] ∧
    ∀ pass ∈ standardPasses, (pass.run FlowCleanup.foldedArm).2 = true ↔
      ¬ FlowCleanup.foldedArm.SameContent (pass.run FlowCleanup.foldedArm).1 :=
  ⟨FlowCleanup.shaped_foldedArm.singleAssignment, by decide +kernel, fun _ hPass =>
    Pass.flag_iff_differs FlowCleanup.shaped_foldedArm.singleAssignment hPass⟩

end LiveCompiler
