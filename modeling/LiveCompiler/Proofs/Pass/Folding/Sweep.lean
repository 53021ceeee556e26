import LiveCompiler.Proofs.Ir.Checking
import LiveCompiler.Proofs.Pass.Folding.Reduced

/-!
# One sweep folds everything

The sweep meets every register first where it is written and then where it is read.  So when it
comes to an instruction, what stands for the operands is final, and whether they are constant is
known.  `Sweep.Tracks` says this of a sweep behind some instructions: of all that it has left behind
nothing can be folded, except identities whose registers have been replaced.  `Tracks.step` keeps
it for one instruction, `Tracks.foldInstrs` for a block, and `visited_order` for the body.

When the replacements have been made nothing reads the identities (`Spent`).  So they are dead, and
what is left when dead instructions have been taken out is reduced (`reduced_run`).
-/

namespace LiveCompiler

open Ir

namespace Folding

/-! ## Folding one instruction -/

section Folds

variable {s : Sweep} {i : Instr}

/-- The sweep knows the constant in a register. -/
abbrev Sweep.Knows (s : Sweep) (r : Reg) (x : Float) : Prop :=
  s.constant? r = some x

theorem Sweep.knows_congr {s s' : Sweep} (h : s'.constants = s.constants) (r : Reg) (x : Float) :
    s'.Knows r x ↔ s.Knows r x := by
  unfold Knows constant?
  rw [h]

/-- Noting a constant for a register of which none was known adds this constant. -/
theorem Sweep.knows_note {s s' : Sweep} {dst : Reg} {value : Float}
    (h : s'.constants = (dst, value) :: s.constants) (hNew : ∀ x, ¬ s.Knows dst x) (r : Reg)
    (x : Float) : s'.Knows r x ↔ s.Knows r x ∨ Instr.const r x = .const dst value := by
  have hNote : s'.Knows r x ↔ (s.note dst value).Knows r x := knows_congr h r x
  rw [hNote, Knows, constant?_note]
  split
  · rename_i hEq
    subst hEq
    simp [hNew x, eq_comm]
  · rename_i hne
    simp [hne]

/-- What may become of an instruction and of the sweep: a constant is noted, nothing can be folded,
or an identity is replaced. -/
inductive Sweep.Folds (s : Sweep) (i : Instr) : Instr → Sweep → Prop
  | constant {dst : Reg} {value : Float} {s' : Sweep} (dst_eq : i.dst = some dst)
      (replaced : s'.replaced = s.replaced)
      (constants : s'.constants = (dst, value) :: s.constants) : Folds s i (.const dst value) s'
  | kept {j : Instr} {s' : Sweep} (dst_eq : j.dst = i.dst) (uses : ∀ a ∈ j.uses, a ∈ i.uses)
      (replaced : s'.replaced = s.replaced) (constants : s'.constants = s.constants)
      (reduced : j.Reduced s.Knows) (other : ∀ r x, .const r x ≠ j) : Folds s i j s'
  | identity {op : ArithOp} {dst left right : Reg} {s' : Sweep} (dst_eq : i.dst = some dst)
      (uses : left ∈ i.uses ∧ right ∈ i.uses) (replaced : s'.replaced = s.replaced.insert dst left)
      (constants : s'.constants = s.constants) : Folds s i (.arith op dst left right) s'

/-- An operation whose operands are in order is an identity or cannot be folded. -/
theorem Sweep.folds_dropIdentity {op : ArithOp} {dst left right : Reg} (changed : Bool)
    (hDst : i.dst = some dst) (hUses : left ∈ i.uses ∧ right ∈ i.uses)
    (hBoth : ¬ ((∃ x, s.Knows left x) ∧ ∃ y, s.Knows right y))
    (hLeft : op.isCommutative = true → ∀ x, ¬ s.Knows left x) :
    s.Folds i (.arith op dst left right)
      ({ s with changed := changed }.dropIdentity op dst left right) := by
  have hSubset : ∀ a ∈ [left, right], a ∈ i.uses := by simp [hUses]
  unfold dropIdentity
  split
  · rename_i c hc
    split
    · exact .identity hDst hUses rfl rfl
    · rename_i hNot
      have hNeutral : ¬ s.Knows right op.neutral := by
        intro hKnows
        apply hNot
        rw [isNeutralOnRight_iff]
        exact Option.some.inj (hc.symm.trans hKnows)
      exact .kept hDst.symm hSubset rfl rfl ⟨hBoth, hLeft, hNeutral⟩ (by simp)
  · rename_i hNone
    have hNeutral : ¬ s.Knows right op.neutral := fun hKnows => nomatch hKnows.symm.trans hNone
    exact .kept hDst.symm hSubset rfl rfl ⟨hBoth, hLeft, hNeutral⟩ (by simp)

theorem Sweep.folds (s : Sweep) (i : Instr) : s.Folds i (s.fold i).1 (s.fold i).2 := by
  cases i with
  | const dst value => exact .constant rfl rfl rfl
  | less dst left right =>
    unfold Sweep.fold
    dsimp only
    split
    · exact .constant rfl rfl rfl
    · rename_i hNot
      refine .kept rfl (fun _ ha => ha) rfl rfl ?_ (by simp)
      rintro ⟨⟨x, hx⟩, y, hy⟩
      exact hNot x y hx hy
  | arith op dst left right =>
    unfold Sweep.fold
    dsimp only
    split
    · exact .constant rfl rfl rfl
    · rename_i hNot
      have hBoth : ¬ ((∃ x, s.Knows left x) ∧ ∃ y, s.Knows right y) := by
        rintro ⟨⟨x, hx⟩, y, hy⟩
        exact hNot x y hx hy
      unfold simplify
      split
      · -- Behind the exchange the left operand is the one that was on the right.
        rename_i hSwap
        obtain ⟨-, hSome⟩ := Bool.and_eq_true_iff.mp hSwap
        have hLeft : ∃ x, s.Knows left x := Option.isSome_iff_exists.mp hSome
        exact folds_dropIdentity true rfl (by simp [Instr.uses]) (fun h => hBoth h.symm)
          fun _ y hy => hBoth ⟨hLeft, y, hy⟩
      · rename_i hStay
        apply folds_dropIdentity s.changed rfl (by simp [Instr.uses]) hBoth
        intro hComm x hx
        exact hStay (by simp [hComm, hx])
  | _ => exact .kept rfl (fun _ ha => ha) rfl rfl trivial (by simp [Sweep.fold])

end Folds

/-! ## Folding one after another -/

section Tracks

variable {s s' : Sweep} {written more : Reg → Prop} {seen : Instr → Prop} {i j : Instr}

/-- A sweep behind some instructions.  It knows the constants among them, the registers that they
read are final, and nothing of them can be folded, except identities that have been replaced. -/
structure Sweep.Tracks (s : Sweep) (written : Reg → Prop) (seen : Instr → Prop) : Prop where
  within : s.replaced.Within written
  constants : ∀ r x, s.Knows r x ↔ seen (.const r x)
  dsts : ∀ k r, seen k → k.dst = some r → written r
  uses : ∀ k, seen k → ∀ a ∈ k.uses, written a ∧ ¬ s.replaced.Replaces a
  settled : ∀ k, seen k → k.Reduced s.Knows ∨
    k.isPure = true ∧ ∃ r, k.dst = some r ∧ s.replaced.Replaces r

namespace Sweep.Tracks

theorem start : Sweep.start.Tracks written fun _ => False := by
  constructor
  case within => exact .empty written
  case constants => simp [Sweep.Knows, Sweep.constant?, Sweep.start]
  all_goals simp

theorem mono (h : s.Tracks written seen) (hMore : ∀ r, written r → more r) :
    s.Tracks more seen where
  within := h.within.mono hMore
  constants := h.constants
  dsts k r hk hDst := hMore r (h.dsts k r hk hDst)
  uses k hk a ha := (h.uses k hk a ha).imp_left (hMore a)
  settled := h.settled

theorem congr {seen' : Instr → Prop} (h : s.Tracks written seen)
    (hWritten : ∀ r, written r ↔ more r) (hSeen : ∀ k, seen k ↔ seen' k) :
    s.Tracks more seen' := by
  obtain rfl : written = more := funext fun r => propext (hWritten r)
  obtain rfl : seen = seen' := funext fun k => propext (hSeen k)
  exact h

/-- One more instruction, which writes a new register. -/
theorem extend (h : s.Tracks written seen) (j : Instr) (hNew : ∀ r, j.dst = some r → ¬ written r)
    (hUses : ∀ a ∈ j.uses, written a ∧ ¬ s.replaced.Replaces a)
    (hWithin : s'.replaced.Within fun r => written r ∨ j.dst = some r)
    (hStill : ∀ a, written a → s'.replaced.Replaces a → s.replaced.Replaces a)
    (hGrows : ∀ r, s.replaced.Replaces r → s'.replaced.Replaces r)
    (hConstants : ∀ r x, s'.Knows r x ↔ s.Knows r x ∨ .const r x = j)
    (hSettled : j.Reduced s.Knows ∨
      j.isPure = true ∧ ∃ r, j.dst = some r ∧ s'.replaced.Replaces r) :
    s'.Tracks (fun r => written r ∨ j.dst = some r) fun k => seen k ∨ k = j := by
  -- What has been written is constant as before.
  have hOld : ∀ a x, written a → s'.Knows a x → s.Knows a x := by
    intro a x ha hx
    rcases (hConstants a x).mp hx with hOld | rfl
    · exact hOld
    · exact absurd ha (hNew a rfl)
  have hLast : ∀ k, seen k ∨ k = j → ∀ a ∈ k.uses, written a ∧ ¬ s.replaced.Replaces a := by
    rintro k (hk | rfl)
    · exact h.uses k hk
    · exact hUses
  constructor
  case within => exact hWithin
  case constants =>
    intro r x
    rw [hConstants, h.constants]
  case dsts =>
    rintro k r (hk | rfl) hDst
    · exact .inl (h.dsts k r hk hDst)
    · exact .inr hDst
  case uses =>
    intro k hk a ha
    obtain ⟨hWritten, hFinal⟩ := hLast k hk a ha
    exact ⟨.inl hWritten, fun hReplaces => hFinal (hStill a hWritten hReplaces)⟩
  case settled =>
    intro k hk
    have hBefore : k.Reduced s.Knows ∨
        k.isPure = true ∧ ∃ r, k.dst = some r ∧ s'.replaced.Replaces r := by
      rcases hk with hk | rfl
      · apply (h.settled k hk).imp_right
        rintro ⟨hPure, r, hDst, hReplaces⟩
        exact ⟨hPure, r, hDst, hGrows r hReplaces⟩
      · exact hSettled
    apply hBefore.imp_left
    intro hReduced
    exact hReduced.anti fun a ha x => hOld a x (hLast k hk a ha).1

/-- Folding an instruction that reads what has been written. -/
theorem step (h : s.Tracks written seen) (hUses : ∀ a ∈ i.uses, written a)
    (hNew : ∀ r, i.dst = some r → ¬ written r)
    (hFolds : s.Folds (s.renamed i) j s') :
    s'.Tracks (fun r => written r ∨ i.dst = some r) fun k => seen k ∨ k = j := by
  have hFinal : ∀ a ∈ (s.renamed i).uses, written a ∧ ¬ s.replaced.Replaces a := by
    intro a ha
    rw [Instr.uses_renameUses] at ha
    obtain ⟨b, hb, rfl⟩ := List.mem_map.mp ha
    exact ⟨h.within.targets b (hUses b hb),
      Substitution.not_replaces_representative h.within.layered b⟩
  cases hFolds with
  | @constant dst value s' hDst hReplaced hConstants =>
    rw [Instr.dst_renameUses] at hDst
    -- The register is new, so no constant was known for it.
    have hUnknown : ∀ x, ¬ s.Knows dst x := fun x hx =>
      hNew dst hDst (h.dsts _ dst ((h.constants dst x).mp hx) rfl)
    rw [hDst] at hNew ⊢
    apply h.extend (.const dst value) hNew nofun _ _ _ (Sweep.knows_note hConstants hUnknown)
      (.inl trivial)
    · exact hReplaced ▸ h.within.mono fun r hr => .inl hr
    · exact fun a _ => hReplaced ▸ id
    · exact fun r => hReplaced ▸ id
  | kept hDst hSubset hReplaced hConstants hReduced hOther =>
    rw [Instr.dst_renameUses] at hDst
    have hKnows : ∀ r x, s'.Knows r x ↔ s.Knows r x ∨ .const r x = j := by
      intro r x
      rw [or_iff_left (hOther r x)]
      exact Sweep.knows_congr hConstants r x
    rw [← hDst] at hNew ⊢
    apply h.extend j hNew (fun a ha => hFinal a (hSubset a ha)) _ _ _ hKnows (.inl hReduced)
    · exact hReplaced ▸ h.within.mono fun r hr => .inl hr
    · exact fun a _ => hReplaced ▸ id
    · exact fun r => hReplaced ▸ id
  | @identity op dst left right s' hDst hOperands hReplaced hConstants =>
    rw [Instr.dst_renameUses] at hDst
    have hSource := hNew dst hDst
    have hTarget := (hFinal left hOperands.1).1
    have hKnows : ∀ r x,
        s'.Knows r x ↔ s.Knows r x ∨ Instr.const r x = .arith op dst left right := by
      intro r x
      rw [or_iff_left nofun]
      exact Sweep.knows_congr hConstants r x
    rw [hDst] at hNew ⊢
    apply h.extend (.arith op dst left right) hNew _ _ _ _ hKnows
    · exact .inr ⟨rfl, dst, rfl, hReplaced ▸ h.within.replaces_insert_self hSource hTarget⟩
    · simp [Instr.uses, hFinal left hOperands.1, hFinal right hOperands.2]
    · exact hReplaced ▸ h.within.insert hSource hTarget (fun r hr => .inl hr) (.inr rfl)
    · intro a ha hReplaces
      rw [hReplaced] at hReplaces
      rcases Substitution.replaces_insert hReplaces with rfl | hOld
      · exact absurd ha hSource
      · exact hOld
    · exact fun r hr => hReplaced ▸ hr.insert

/-- Folding a run of instructions. -/
theorem foldInstrs {instrs : List Instr} :
    ∀ {s : Sweep} {written : Reg → Prop} {seen : Instr → Prop}, s.Tracks written seen →
      InOrder written instrs →
      (foldInstrs s instrs).2.Tracks (fun r => written r ∨ r ∈ instrs.filterMap Instr.dst)
        fun k => seen k ∨ k ∈ (foldInstrs s instrs).1 := by
  induction instrs with
  | nil =>
    intro s written seen h _
    exact h.congr (fun r => by simp) fun k => by simp [Folding.foldInstrs]
  | cons i rest ih =>
    rintro s written seen h ⟨hUses, hNew, hRest⟩
    have hStep := h.step hUses hNew (s.folds (s.renamed i))
    apply (ih hStep hRest).congr
    · intro r
      rw [mem_dsts_cons, or_assoc]
    · intro k
      rw [Folding.foldInstrs]
      simp only [List.mem_cons]
      rw [or_assoc]

end Sweep.Tracks

theorem Sweep.dst_fold (s : Sweep) (i : Instr) : (s.fold i).1.dst = i.dst := by
  generalize hOut : s.fold i = out
  have hFolds := s.folds i
  rw [hOut] at hFolds
  obtain ⟨j, s'⟩ := out
  cases hFolds with
  | constant dst_eq => exact dst_eq.symm
  | kept dst_eq => exact dst_eq
  | identity dst_eq => exact dst_eq.symm

theorem dsts_foldInstrs (instrs : List Instr) : ∀ s : Sweep,
    (foldInstrs s instrs).1.filterMap Instr.dst = instrs.filterMap Instr.dst := by
  induction instrs with
  | nil => exact fun s => rfl
  | cons i rest ih =>
    intro s
    rw [foldInstrs]
    simp only [List.filterMap_cons, Sweep.dst_fold, Instr.dst_renameUses, ih]

end Tracks

/-! ## Folding block after block -/

section Visited

variable {body : Body} {visited : List Label} {state : Body × Sweep} {label : Label}

/-- The sweep behind some blocks. -/
structure Visited (body : Body) (visited : List Label) (state : Body × Sweep) : Prop where
  tracks : state.2.Tracks (body.WrittenBy visited) fun i =>
    ∃ label ∈ visited, i ∈ (state.1.block label).instrs
  unvisited : ∀ label, label ∉ visited → state.1.block label = body.block label
  entry : state.1.entry = body.entry
  length : state.1.blocks.length = body.blocks.length
  params : ∀ label, (state.1.block label).params = (body.block label).params
  terminator : ∀ label, (state.1.block label).terminator = (body.block label).terminator
  dsts : ∀ label, (state.1.block label).instrs.filterMap Instr.dst =
    (body.block label).instrs.filterMap Instr.dst

theorem Visited.start (body : Body) : Visited body [] (body, Sweep.start) := by
  constructor
  case tracks => exact Sweep.Tracks.start.congr (fun _ => Iff.rfl) fun i => by simp
  all_goals intros; rfl

/-- The visit of a block behind all that strictly dominate it. -/
theorem Visited.next (h : Visited body visited state) (hSingle : body.SingleAssignment)
    (hNew : label ∉ visited) (hMem : label ∈ body.order)
    (hAbove : ∀ d, body.graph.SDom body.entry d label → d ∈ visited) :
    Visited body (label :: visited) (foldBlock state label) := by
  obtain ⟨middle, s⟩ := state
  have hLt : label < middle.blocks.length := h.length ▸ Body.lt_of_mem_order hMem
  have hStep : foldBlock (middle, s) label =
      (middle.modifyBlock label fun b =>
        { b with instrs := (foldInstrs s (body.block label).instrs).1 },
        (foldInstrs s (body.block label).instrs).2) := by
    unfold foldBlock
    dsimp only
    rw [h.unvisited label hNew]
  rw [hStep]
  have hHere : ((middle.modifyBlock label fun b =>
      { b with instrs := (foldInstrs s (body.block label).instrs).1 }).block label).instrs =
      (foldInstrs s (body.block label).instrs).1 := by
    rw [Body.block_modifyBlock_self _ hLt]
  have hElse : ∀ other, other ≠ label → (middle.modifyBlock label fun b =>
      { b with instrs := (foldInstrs s (body.block label).instrs).1 }).block other =
      middle.block other :=
    fun other hne => Body.block_modifyBlock_of_ne _ hne
  constructor
  case tracks =>
    have hOrder := hSingle.inOrder (Body.reached_of_mem_order hMem) hNew hAbove
    have hBefore : s.Tracks (body.WrittenBefore visited label) _ :=
      h.tracks.mono fun r hr => .inl hr
    -- What has been kept so far stands in the visited blocks, which this visit does not change.
    apply (hBefore.foldInstrs hOrder).congr
    · exact fun r => Body.writtenBy_cons.symm
    · intro k
      simp only [List.mem_cons, exists_eq_or_imp, hHere]
      rw [or_comm]
      apply or_congr_right
      constructor
      all_goals
        rintro ⟨other, hOther, hk⟩
        refine ⟨other, hOther, ?_⟩
        have hne : other ≠ label := fun hEq => hNew (hEq ▸ hOther)
        simpa only [hElse other hne] using hk
  case unvisited =>
    intro other hOther
    rw [List.mem_cons, not_or] at hOther
    rw [hElse other hOther.1]
    exact h.unvisited other hOther.2
  case entry => exact h.entry
  case length => simpa using h.length
  case params =>
    intro other
    rw [Body.block_modifyBlock]
    split <;> exact h.params other
  case terminator =>
    intro other
    rw [Body.block_modifyBlock]
    split <;> exact h.terminator other
  case dsts =>
    intro other
    by_cases hEq : other = label
    · rw [hEq, hHere, dsts_foldInstrs]
    · rw [hElse other hEq]
      exact h.dsts other

/-- The sweep over the whole body. -/
theorem visited_order (hSingle : body.SingleAssignment) :
    Visited body body.order.reverse (body.order.foldl foldBlock (body, Sweep.start)) := by
  apply Body.order_induction foldBlock (Visited body)
  · exact .start body
  · intro visited state label h hNew hMem hAbove
    exact h.next hSingle hNew hMem hAbove

end Visited

/-! ## Making the replacements -/

section Spent

variable {body middle after : Body} {s : Substitution} {label : Label} {i : Instr} {a r : Reg}

/-- Nothing reads a register whose replacement has been made. -/
theorem not_replaces_of_mem_uses (hLayered : Substitution.Layered s.entries)
    (h : r ∈ (s.apply middle).uses) : ¬ s.Replaces r := by
  obtain ⟨label, hr⟩ := Body.mem_uses_iff.mp h
  rw [Substitution.block_apply] at hr
  have hImage : ∃ a, r = s.representative a := by
    rcases List.mem_append.mp hr with hInstr | hEnd
    · obtain ⟨i, hi, hr⟩ := List.mem_flatMap.mp hInstr
      obtain ⟨k, -, rfl⟩ := List.mem_map.mp hi
      rw [Instr.uses_renameUses] at hr
      obtain ⟨a, -, rfl⟩ := List.mem_map.mp hr
      exact ⟨a, rfl⟩
    · rw [Block.terminator_renameUses, Terminator.uses_renameUses] at hEnd
      obtain ⟨a, -, rfl⟩ := List.mem_map.mp hEnd
      exact ⟨a, rfl⟩
  obtain ⟨a, rfl⟩ := hImage
  exact Substitution.not_replaces_representative hLayered a

theorem renameUses_of_not_replaces (h : ∀ a ∈ i.uses, ¬ s.Replaces a) :
    i.renameUses s.representative = i := by
  rw [Instr.renameUses_congr (fun a ha => Substitution.representative_of_not_replaces (h a ha))]
  exact i.renameUses_id

/-- A body after the sweep: an operation that could still be folded is an identity, which nothing
reads. -/
structure Spent (body after : Body) : Prop where
  entry : after.entry = body.entry
  graph : after.graph = body.graph
  defs : ∀ label, (after.block label).defs = (body.block label).defs
  operations : ∀ label ∈ body.order, ∀ i ∈ (after.block label).instrs,
    i.Reduced after.HoldsConst ∨ i.isPure = true ∧ ∃ r, i.dst = some r ∧ r ∉ after.uses
  written : ∀ label ∈ body.order, ∀ i ∈ (after.block label).instrs, ∀ a ∈ i.uses,
    ∃ home ∈ body.order, a ∈ (body.block home).defs

/-- When all blocks have been visited, making the replacements leaves a spent body. -/
theorem Visited.spent {sweep : Sweep} (h : Visited body body.order.reverse (middle, sweep))
    (hSingle : body.SingleAssignment) : Spent body (sweep.replaced.apply middle) := by
  have hBlock : ∀ label, (sweep.replaced.apply middle).block label =
      (middle.block label).renameUses sweep.replaced.representative :=
    fun label => Substitution.block_apply _ _ label
  obtain ⟨hEntry, hLength, -⟩ := sweep.replaced.apply_fields middle
  have hDefs : ∀ label,
      ((sweep.replaced.apply middle).block label).defs = (body.block label).defs := by
    intro label
    rw [hBlock, Block.defs_renameUses]
    exact congrArg₂ (· ++ ·) (h.params label) (h.dsts label)
  -- The replacements are of no concern to the instructions that the sweep has left behind.
  have hInstrs : ∀ label ∈ body.order,
      ((sweep.replaced.apply middle).block label).instrs = (middle.block label).instrs := by
    intro label hMem
    rw [hBlock, Block.instrs_renameUses]
    apply (List.map_congr_left fun i hi => ?_).trans (List.map_id _)
    have hUses := h.tracks.uses i ⟨label, List.mem_reverse.mpr hMem, hi⟩
    exact renameUses_of_not_replaces fun a ha => (hUses a ha).2
  have hKnows : ∀ a, body.WrittenBy body.order.reverse a → ∀ x,
      (sweep.replaced.apply middle).HoldsConst a x → sweep.Knows a x := by
    rintro a ⟨home, hHome, hDef⟩ x ⟨label, hConst⟩
    have hSame : label = home := by
      apply hSingle.defs_unique label home a _ hDef
      rw [← hDefs]
      exact Body.mem_defs.mpr (.inr (List.mem_filterMap.mpr ⟨_, hConst, rfl⟩))
    subst hSame
    rw [hInstrs label (List.mem_reverse.mp hHome)] at hConst
    exact (h.tracks.constants a x).mpr ⟨label, hHome, hConst⟩
  constructor
  case entry => exact hEntry.trans h.entry
  case graph =>
    apply Body.graph_congr (hLength.trans h.length)
    intro label
    rw [hBlock, Block.terminator_renameUses, Terminator.successors_renameUses]
    exact congrArg Terminator.successors (h.terminator label)
  case defs => exact hDefs
  case operations =>
    intro label hMem i hi
    rw [hInstrs label hMem] at hi
    have hSeen : ∃ label ∈ body.order.reverse, i ∈ (middle.block label).instrs :=
      ⟨label, List.mem_reverse.mpr hMem, hi⟩
    rcases h.tracks.settled i hSeen with hReduced | ⟨hPure, r, hDst, hReplaces⟩
    · exact .inl (hReduced.anti fun a ha x => hKnows a (h.tracks.uses i hSeen a ha).1 x)
    · refine .inr ⟨hPure, r, hDst, fun hUse => ?_⟩
      exact not_replaces_of_mem_uses h.tracks.within.layered hUse hReplaces
  case written =>
    intro label hMem i hi a ha
    rw [hInstrs label hMem] at hi
    obtain ⟨home, hHome, hDef⟩ :=
      (h.tracks.uses i ⟨label, List.mem_reverse.mpr hMem, hi⟩ a ha).1
    exact ⟨home, List.mem_reverse.mp hHome, hDef⟩

theorem spent_fold (hSingle : body.SingleAssignment) : Spent body (fold body).1 :=
  (visited_order hSingle).spent hSingle

end Spent

/-! ## What is left -/

section Left

variable {body : Body}

theorem order_congr {after : Body} (hGraph : after.graph = body.graph)
    (hEntry : after.entry = body.entry) : after.order = body.order := by
  unfold Body.order
  rw [hGraph, hEntry]

theorem entry_run (hSingle : body.SingleAssignment) : (run body).1.entry = body.entry :=
  (dropRounds_spec _ _ (Nat.le_refl _)).1.entry.trans (spent_fold hSingle).entry

/-- Folding leaves a reduced body, and putting its operands in order keeps it reduced. -/
theorem reduced_and_ordered (hSingle : body.SingleAssignment) :
    let folded := (run body).1
    Reduced folded ∧ Reduced (OperandOrder.run folded).1 := by
  intro folded
  have hSpent := spent_fold hSingle
  obtain ⟨hSifted, hAlive⟩ := dropRounds_spec (fold body).1.instrCount (fold body).1 (Nat.le_refl _)
  have hFolded : folded = (dropRounds (fold body).1.instrCount (fold body).1).1 := rfl
  rw [← hFolded] at hSifted hAlive
  have hOrder : folded.order = body.order :=
    order_congr (hSifted.graph.trans hSpent.graph) (hSifted.entry.trans hSpent.entry)
  have hMem : ∀ label, folded.Reached label → ∀ i ∈ (folded.block label).instrs,
      label ∈ body.order ∧ i ∈ ((fold body).1.block label).instrs := by
    intro label hReached i hi
    rw [← hOrder]
    exact ⟨Body.mem_order_of_mem_instrs hReached hi, (hSifted.instrs label).subset hi⟩
  have hResults : ∀ label, ∀ i ∈ (folded.block label).instrs, i.isPure = true →
      ∀ r, i.dst = some r → r ∈ folded.uses := by
    intro label i hi hPure r hDst
    by_contra hUnread
    have hDead := isDead_iff.mpr ⟨hPure, r, hDst, hUnread⟩
    rw [hAlive i (Body.mem_instrs_iff.mpr ⟨label, hi⟩)] at hDead
    cases hDead
  have hReduced : Reduced folded := by
    refine ⟨fun label hReached i hi => ?_, hResults⟩
    obtain ⟨hLabel, hOld⟩ := hMem label hReached i hi
    rcases hSpent.operations label hLabel i hOld with hReduced | ⟨hPure, r, hDst, hUnread⟩
    · apply hReduced.anti
      rintro a - x ⟨home, hConst⟩
      exact ⟨home, (hSifted.instrs home).subset hConst⟩
    · exact absurd (hSifted.mem_uses (hResults label i hi hPure r hDst)) hUnread
  have hOnce : folded.DefinesOnce := by
    apply hSingle.toDefinesOnce.of_sublist
    intro label
    rw [← hSpent.defs label]
    exact hSifted.defs_sublist label
  refine ⟨hReduced, hReduced.ordered hOnce fun label hReached i hi a ha => ?_⟩
  obtain ⟨hLabel, hOld⟩ := hMem label hReached i hi
  obtain ⟨home, hHome, hDef⟩ := hSpent.written label hLabel i hOld a ha
  rw [hOrder]
  refine ⟨home, hHome, ?_⟩
  apply hSifted.mem_defs
  · exact Body.mem_uses_iff.mpr ⟨label,
      List.mem_append_left _ (List.mem_flatMap.mpr ⟨i, hi, ha⟩)⟩
  · rwa [hSpent.defs]

/-- Folding a body in which every register is written in one place, before it is read, leaves
nothing to fold, neither for a second time nor when operands have been put in order. -/
theorem reduced_run (hSingle : body.SingleAssignment) :
    let folded := (run body).1
    let ordered := (OperandOrder.run folded).1
    (Reduced folded ∧ run folded = (folded, false)) ∧
      Reduced ordered ∧ run ordered = (ordered, false) := by
  obtain ⟨hFolded, hOrdered⟩ := reduced_and_ordered hSingle
  exact ⟨⟨hFolded, hFolded.run_eq⟩, hOrdered, hOrdered.run_eq⟩

/-- A loop in which one fold makes the next one possible, with constants on the left. -/
def chained : Body where
  name := "chained"
  arity := 1
  regCount := 12
  entry := 0
  slots := []
  blocks := [
    { params := []
      instrs := [.param 0 0, .const 1 2.0, .const 2 3.0, .arith .sub 3 2 1, .arith .mul 4 3 0,
        .arith .add 5 1 4]
      terminator := .jump ⟨1, [5]⟩ },
    { params := [6]
      instrs := [.arith .add 7 4 6, .less 8 1 2, .arith .mul 9 8 7, .call 10 0 [9]]
      terminator := .branch 10 ⟨1, [9]⟩ ⟨2, []⟩ },
    { params := []
      instrs := [.arith .sub 11 9 10]
      terminator := .ret 11 }]

theorem reduced_run_chained : chained.SingleAssignment ∧
    (run chained).1.instrCount + 5 = chained.instrCount ∧
    (OperandOrder.run (run chained).1).2 = true ∧
    (Reduced (run chained).1 ∧ run (run chained).1 = ((run chained).1, false)) ∧
    Reduced (OperandOrder.run (run chained).1).1 ∧
    run (OperandOrder.run (run chained).1).1 = ((OperandOrder.run (run chained).1).1, false) := by
  have hShaped : chained.Shaped :=
    Body.shaped_of_checks [[], [0, 1, 2, 3, 4, 5], [0, 1, 2, 3, 4, 5, 6, 7, 8, 9, 10]]
      (by decide +kernel)
  exact ⟨hShaped.singleAssignment, by decide +kernel, by decide +kernel,
    reduced_run hShaped.singleAssignment⟩

end Left

end Folding

end LiveCompiler
