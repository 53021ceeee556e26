import LiveCompiler.Proofs.Ir.Certified

/-!
# Checking bodies and running frames

Whether a body is shaped can be computed from a record of what is written before each block
(`Body.checks`, `shaped_of_checks`).  A frame can be run for a number of steps (`Frame.play`), and
returns no more than one value (`Frame.Returns.unique`).
-/

namespace LiveCompiler

namespace Ir

/-! ## The check -/

/-- Whether instructions read only what is written before them. -/
def readsInOrder : List Reg → List Instr → Bool
  | _, [] => true
  | known, i :: rest => i.uses.all known.contains && readsInOrder (known ++ i.dst.toList) rest

namespace Body

/-- Whether a block keeps to a record. -/
def blockChecks (before : List (List Reg)) (body : Body) (label : Label) : Bool :=
  let b := body.block label
  let start := before.getD label [] ++ b.params
  let ending := start ++ b.instrs.filterMap Instr.dst
  readsInOrder start b.instrs && b.terminator.uses.all ending.contains &&
    b.terminator.edges.all fun e =>
      e.target < body.blocks.length && e.args.length == (body.block e.target).params.length &&
        (before.getD e.target []).all ending.contains

/-- Whether a body is shaped, going by a record of what is written before each block. -/
def checks (before : List (List Reg)) (body : Body) : Bool :=
  body.entry < body.blocks.length && (body.block body.entry).params.isEmpty &&
    (before.getD body.entry []).isEmpty && (body.blocks.flatMap Block.defs).Nodup &&
    ((body.blocks.flatMap Block.defs).all fun r => r < body.regCount) &&
    (List.range body.blocks.length).all (body.blockChecks before)

end Body

theorem mem_of_readsInOrder {known : List Reg} {instrs done rest : List Instr} {i : Instr}
    (h : readsInOrder known instrs = true) (hInstrs : instrs = done ++ i :: rest) {r : Reg}
    (hr : r ∈ i.uses) : r ∈ known ∨ r ∈ done.filterMap Instr.dst := by
  induction done generalizing known instrs with
  | nil =>
    rw [hInstrs, List.nil_append, readsInOrder, Bool.and_eq_true, List.all_eq_true] at h
    exact .inl (List.contains_iff_mem.mp (h.1 r hr))
  | cons j done ih =>
    rw [hInstrs, List.cons_append, readsInOrder, Bool.and_eq_true] at h
    rcases ih h.2 rfl with hBefore | hDone
    · refine (List.mem_append.mp hBefore).imp id fun hDst => ?_
      exact List.mem_filterMap.mpr ⟨j, List.mem_cons_self, Option.mem_toList.mp hDst⟩
    · obtain ⟨k, hk, hDst⟩ := List.mem_filterMap.mp hDone
      exact .inr (List.mem_filterMap.mpr ⟨k, List.mem_cons_of_mem _ hk, hDst⟩)

namespace Body

variable {body : Body} {label other : Label} {r : Reg}

/-- If no register is written twice in the whole body, none is written in two blocks. -/
theorem defs_unique_of_nodup (h : (body.blocks.flatMap Block.defs).Nodup)
    (hr : r ∈ (body.block label).defs) (hr' : r ∈ (body.block other).defs) : label = other := by
  have hLt := lt_of_mem_defs hr
  have hLt' := lt_of_mem_defs hr'
  have hPairwise := List.pairwise_iff_getElem.mp (List.nodup_flatMap.mp h).2
  rw [block_of_lt hLt] at hr
  rw [block_of_lt hLt'] at hr'
  rcases Nat.lt_trichotomy label other with hBelow | hEq | hAbove
  · exact absurd hr' (hPairwise label other hLt hLt' hBelow hr)
  · exact hEq
  · exact absurd hr (hPairwise other label hLt' hLt hAbove hr')

/-- A body that passes the check is shaped. -/
theorem shaped_of_checks (before : List (List Reg)) (h : body.checks before = true) : body.Shaped := by
  simp only [checks, Bool.and_eq_true, decide_eq_true_eq, List.isEmpty_iff, List.all_eq_true,
    List.mem_range] at h
  obtain ⟨⟨⟨⟨⟨hEntry, hParams⟩, hBefore⟩, hNodup⟩, hBound⟩, hBlocks⟩ := h
  have hChecks : ∀ label, body.blockChecks before label = true := by
    intro label
    by_cases hLt : label < body.blocks.length
    · exact hBlocks label hLt
    · unfold blockChecks
      rw [block_of_le (Nat.le_of_not_lt hLt)]
      rfl
  have hDefs : ∀ label r, r ∈ (body.block label).defs → r ∈ body.blocks.flatMap Block.defs := by
    intro label r hr
    rw [block_of_lt (lt_of_mem_defs hr)] at hr
    exact List.mem_flatMap.mpr ⟨_, List.getElem_mem _, hr⟩
  simp only [blockChecks, Bool.and_eq_true, List.all_eq_true, List.contains_iff_mem,
    decide_eq_true_eq, beq_iff_eq] at hChecks
  let promised : Record := fun label r => r ∈ before.getD label []
  have hWritten : ∀ {label} {done : List Instr} {r : Reg},
      r ∈ before.getD label [] ++ (body.block label).params ∨ r ∈ done.filterMap Instr.dst →
        body.Written promised label done r := by
    intro label done r hr
    rwa [List.mem_append, or_assoc] at hr
  have hRecorded : body.Recorded promised := by
    refine ⟨fun r hr => ?_, fun _ _ _ => defs_unique_of_nodup hNodup, fun label e he r hr => ?_⟩
    · rw [show promised body.entry = fun r => r ∈ before.getD body.entry [] from rfl, hBefore] at hr
      cases hr
    · exact hWritten (List.mem_append.mp (((hChecks label).2 e he).2 r hr))
  exact
    { entry_lt := hEntry
      entry_params := hParams
      defs_nodup := fun label => by
        by_cases hLt : label < body.blocks.length
        · rw [block_of_lt hLt]
          exact (List.nodup_flatMap.mp hNodup).1 _ (List.getElem_mem _)
        · rw [block_of_le (Nat.le_of_not_lt hLt)]
          exact List.nodup_nil
      defs_unique := hRecorded.defs_unique
      defs_lt := fun label r hr => hBound r (hDefs label r hr)
      uses_known := fun label hReached done i rest hInstrs r hr =>
        (hWritten (mem_of_readsInOrder (hChecks label).1.1 hInstrs hr)).known hRecorded hReached
      exit_known := fun label hReached r hr =>
        (hWritten (List.mem_append.mp ((hChecks label).1.2 r hr))).known hRecorded hReached
      edge_fits := fun label _ e he => ((hChecks label).2 e he).1 }

end Body

/-! ## Runs -/

deriving instance DecidableEq for Call

namespace Frame

/-- What a frame returns after which calls, in at most so many steps. -/
def play (answers : Answers) : Nat → List Call → Frame → Option (Float × List Call)
  | 0, _, _ => none
  | count + 1, calls, frame =>
    match frame.step with
    | .returned x => some (x, calls)
    | .next after => play answers count calls after
    | .call callee args dst after =>
      play answers count (calls ++ [⟨callee, args⟩])
        (after.write dst (answers calls ⟨callee, args⟩))
    | .trapped => none

variable {answers : Answers} {calls all : List Call} {frame : Frame} {x y : Float}

theorem returns_of_play (count : Nat) (h : frame.play answers count calls = some (x, all)) :
    Frame.Returns answers calls frame x all := by
  induction count generalizing calls frame with
  | zero => cases h
  | succ count ih =>
    unfold play at h
    split at h
    · rename_i hStep
      obtain ⟨rfl, rfl⟩ := Prod.mk.inj (Option.some.inj h)
      exact .returned hStep
    · rename_i hStep
      exact .next hStep (ih h)
    · rename_i hStep
      exact .call hStep (ih h)
    · cases h

/-- A frame returns one value after one sequence of calls. -/
theorem Returns.unique {all' : List Call} (h : Frame.Returns answers calls frame x all)
    (h' : Frame.Returns answers calls frame y all') : x = y ∧ all = all' := by
  induction h with
  | returned stop =>
    cases h' with
    | returned stop' => exact ⟨Step.returned.inj (stop.symm.trans stop'), rfl⟩
    | next step' => cases stop.symm.trans step'
    | call step' => cases stop.symm.trans step'
  | next step _ ih =>
    cases h' with
    | returned stop' => cases step.symm.trans stop'
    | next step' rest' =>
      obtain rfl := Step.next.inj (step.symm.trans step')
      exact ih rest'
    | call step' => cases step.symm.trans step'
  | call step _ ih =>
    cases h' with
    | returned stop' => cases step.symm.trans stop'
    | next step' => cases step.symm.trans step'
    | call step' rest' =>
      obtain ⟨rfl, rfl, rfl, rfl⟩ := Step.call.inj (step.symm.trans step')
      exact ih rest'

end Frame

end Ir

end LiveCompiler
