import LiveCompiler.Pass.Folding
import LiveCompiler.Proofs.Binary64.Identities
import LiveCompiler.Proofs.Pass.Substitution

/-!
# Folding keeps what a body yields

The sweep collects two kinds of facts: registers that hold a constant as long as they are
known, and registers that stand for the left operand of an identity.  As every register is
written in one place these facts do not depend on where they are used, so the sweep needs no
more than that it visits each block once.

Taking out a pure instruction whose register is not read is a rewriting that keeps the
registers that are read (`dropOnce_rewrites`).
-/

namespace LiveCompiler

open Ir

namespace Folding

/-- A neutral operand gives back the left one. -/
theorem apply_of_isNeutralOnRight {op : ArithOp} {c : Float}
    (h : isNeutralOnRight op c = true) (x : Float) : op.apply x c = x := by
  cases op with
  | add =>
    obtain rfl := Binary64.toBits_inj (beq_iff_eq.mp h)
    exact Binary64.add_negZero x
  | sub =>
    obtain rfl := Binary64.toBits_inj (beq_iff_eq.mp h)
    exact Binary64.sub_zero x
  | mul =>
    obtain rfl := Binary64.eq_one_of_beq h
    exact Binary64.mul_one x

section Sweep

variable {callable : FuncId → Nat → Prop} {starts : Starts} {body : Body} {label : Label}
  {done : List Instr}
  {s : Sweep}

/-- A register holds a value as long as it is known. -/
def Holds (starts : Starts) (body : Body) (r : Reg) (x : Float) : Prop :=
  ∀ c label done store, body.Visits starts c label done store → body.Known label done r →
    store.regs r = x

/-- What the sweep has collected is true. -/
structure Sound (starts : Starts) (body : Body) (s : Sweep) : Prop where
  constants : ∀ r x, (r, x) ∈ s.constants → Holds starts body r x
  replaced : s.replaced.Sound body (body.Seen starts)

theorem Sound.constant? (h : Sound starts body s) {r : Reg} {x : Float}
    (hr : s.constant? r = some x) :
    Holds starts body r x :=
  h.constants r x (mem_of_lookup hr)

theorem Sound.note (h : Sound starts body s) {r : Reg} {x : Float} (hr : Holds starts body r x) :
    Sound starts body (s.note r x) where
  constants q y hMem := by
    rcases List.mem_cons.mp hMem with hHead | hTail
    · obtain ⟨rfl, rfl⟩ := Prod.mk.inj hHead
      exact hr
    · exact h.constants q y hTail
  replaced := h.replaced

/-- What folding one instruction at a point comes to. -/
structure Folded (starts : Starts) (body : Body) (label : Label) (done : List Instr) (i : Instr)
    (s : Sweep) (out : Instr × Sweep) : Prop where
  sound : Sound starts body out.2
  same : i.Replaces starts body label done out.1
  uses : ∀ a ∈ out.1.uses, body.Known label done a
  grows : ∀ r, s.replaced.Replaces r → out.2.replaced.Replaces r
  fresh : ∀ r, out.2.replaced.Replaces r → s.replaced.Replaces r ∨ i.dst = some r

/-- The instruction at a point, whose register has not been replaced yet. -/
structure Next (body : Body) (label : Label) (done : List Instr) (i : Instr) (s : Sweep) :
    Prop where
  reached : body.Reached label
  instrs : ∃ rest, (body.block label).instrs = done ++ i :: rest
  fresh : ∀ r, i.dst = some r → ¬ s.replaced.Replaces r

/-- An instruction with its operands replaced. -/
abbrev Sweep.renamed (s : Sweep) (i : Instr) : Instr :=
  i.renameUses s.replaced.representative

section Next

variable {i j : Instr} {r : Reg}

theorem Next.writtenAt (h : Next body label done i s) (hDst : i.dst = some r) :
    body.WrittenAt label done i r :=
  ⟨h.reached, h.instrs, hDst⟩

theorem Next.use_known (hShaped : body.Shaped) (h : Next body label done i s)
    (hSound : Sound starts body s) : ∀ a ∈ (s.renamed i).uses, body.Known label done a := by
  obtain ⟨rest, hInstrs⟩ := h.instrs
  exact hSound.replaced.uses_known hShaped h.reached hInstrs

theorem Next.replaces_renamed (hShaped : body.Shaped) (h : Next body label done i s)
    (hSound : Sound starts body s) : i.Replaces starts body label done (s.renamed i) := by
  obtain ⟨rest, hInstrs⟩ := h.instrs
  exact .rename hSound.replaced.stands (hShaped.uses_known label h.reached done i rest hInstrs)

/-- Leaving the instruction as it is. -/
theorem Next.keep (hShaped : body.Shaped) (h : Next body label done i s)
    (hSound : Sound starts body s) : Folded starts body label done i s (s.renamed i, s) :=
  ⟨hSound, h.replaces_renamed hShaped hSound, h.use_known hShaped hSound, fun _ h => h,
    fun _ h => .inl h⟩

/-- Putting a pure instruction with the same value in the place of a pure instruction. -/
theorem Next.replaces_pure (hShaped : body.Shaped) (h : Next body label done i s)
    (hSound : Sound starts body s) (hPure : i.isPure = true) (hPure' : j.isPure = true)
    (hDst : j.dst = i.dst) (hLegal : ∀ callable arity slots, j.Legal callable arity slots)
    (hValue : ∀ c store, body.Visits starts c label done store →
      j.value c store = (s.renamed i).value c store) :
    i.Replaces starts body label done j where
  dst_eq := hDst
  stored_eq := by
    rw [Instr.stored_of_isPure hPure, Instr.stored_of_isPure hPure']
  legal callable arity slots _ := hLegal callable arity slots
  value_eq c store hVisit :=
    (hValue c store hVisit).trans ((h.replaces_renamed hShaped hSound).value_eq c store hVisit)
  made_eq c store _ := by
    rw [Instr.made_of_isPure hPure, Instr.made_of_isPure hPure']

/-- Putting a constant in the place of a pure instruction. -/
theorem Next.compute (hShaped : body.Shaped) (h : Next body label done i s)
    (hSound : Sound starts body s) (hPure : i.isPure = true) (hDst : i.dst = some r) {x : Float}
    (hValue : ∀ c other more store, body.Visits starts c other more store →
      (∀ a ∈ (s.renamed i).uses, body.Known other more a) → (s.renamed i).value c store = x)
    (changed : Bool) :
    Folded starts body label done i s (.const r x, { s.note r x with changed := changed }) := by
  have hHolds : Holds starts body r x := by
    intro c other more store hVisit hr
    obtain ⟨hEq, hUses⟩ := hSound.replaced.pure_value hShaped (h.writtenAt hDst) hPure hVisit hr
    exact hEq.trans (hValue c other more store hVisit hUses)
  have hNoted := hSound.note hHolds
  refine ⟨⟨hNoted.constants, hNoted.replaced⟩, ?_, fun _ ha => (by cases ha), fun _ h => h,
    fun _ h => .inl h⟩
  refine h.replaces_pure hShaped hSound hPure rfl hDst.symm (fun _ _ _ => trivial) ?_
  intro c store hVisit
  exact (hValue c label done store hVisit (h.use_known hShaped hSound)).symm

/-- Putting a constant in the place of an instruction whose two operands hold constants. -/
theorem Next.computeBoth (hShaped : body.Shaped) (h : Next body label done i s)
    (hSound : Sound starts body s) (hPure : i.isPure = true) (hDst : i.dst = some r)
    {left right : Reg} (hUses : (s.renamed i).uses = [left, right]) {x y : Float}
    (hx : s.constant? left = some x) (hy : s.constant? right = some y)
    {f : Float → Float → Float} (hValue : ∀ c store,
      (s.renamed i).value c store = f (store.regs left) (store.regs right)) :
    Folded starts body label done i s
      (.const r (f x y), { s.note r (f x y) with changed := true }) := by
  refine h.compute hShaped hSound hPure hDst (fun c other more store hVisit hKnown => ?_) true
  rw [hUses] at hKnown
  rw [hValue, hSound.constant? hx c other more store hVisit (hKnown left List.mem_cons_self),
    hSound.constant? hy c other more store hVisit
      (hKnown right (List.mem_cons_of_mem _ List.mem_cons_self))]

/-- Letting the left operand stand for an identity. -/
theorem Next.dropIdentity (hShaped : body.Shaped) (h : Next body label done i s)
    (hSound : Sound starts body s) (hPure : i.isPure = true) (hDst : i.dst = some r) (op : ArithOp)
    (left right : Reg)
    (hUses : left ∈ (s.renamed i).uses ∧ right ∈ (s.renamed i).uses)
    (hValue : ∀ c store, (s.renamed i).value c store =
      op.apply (store.regs left) (store.regs right)) :
    Sound starts body (s.dropIdentity op r left right) ∧
      (∀ q, s.replaced.Replaces q → (s.dropIdentity op r left right).replaced.Replaces q) ∧
      ∀ q, (s.dropIdentity op r left right).replaced.Replaces q →
        s.replaced.Replaces q ∨ i.dst = some q := by
  have hAt := h.writtenAt hDst
  have hSame : Sound starts body s ∧ (∀ q, s.replaced.Replaces q → s.replaced.Replaces q) ∧
      ∀ q, s.replaced.Replaces q → s.replaced.Replaces q ∨ i.dst = some q :=
    ⟨hSound, fun _ hq => hq, fun _ hq => .inl hq⟩
  unfold Sweep.dropIdentity
  cases hConstant : s.constant? right with
  | none => exact hSame
  | some x =>
    dsimp only
    split
    · rename_i hNeutral
      have hStands : body.Stands (body.Seen starts) r left := by
        constructor
        · intro other more hPoint hr
          have hLeft := h.use_known hShaped hSound left hUses.1
          exact hAt.known_of_known hShaped hLeft hPoint hr
        · rintro other more store hPoint ⟨c, hVisit⟩ hr
          obtain ⟨hEq, hKnown⟩ := hSound.replaced.pure_value hShaped hAt hPure hVisit hr
          have hRight := hSound.constant? hConstant c other more store hVisit
            (hKnown right hUses.2)
          rw [hEq, hValue, hRight, apply_of_isNeutralOnRight hNeutral]
      refine ⟨⟨hSound.constants, hSound.replaced.insert (h.fresh r hDst) hStands⟩,
        fun q hq => Substitution.Replaces.insert hq,
        fun q hq => ?_⟩
      rcases Substitution.replaces_insert hq with rfl | hOld
      · exact .inr hDst
      · exact .inl hOld
    · exact hSame

/-- Folding one instruction. -/
theorem Next.fold (hShaped : body.Shaped) (h : Next body label done i s)
    (hSound : Sound starts body s) : Folded starts body label done i s (s.fold (s.renamed i)) := by
  cases i with
  | const dst value =>
    exact h.compute hShaped hSound rfl rfl (fun _ _ _ _ _ _ => rfl) s.changed
  | param dst index => exact h.keep hShaped hSound
  | load dst slot => exact h.keep hShaped hSound
  | store slot src => exact h.keep hShaped hSound
  | call dst callee args => exact h.keep hShaped hSound
  | less dst left right =>
    show Folded starts body label done _ s (s.fold (.less dst (s.replaced.representative left)
      (s.replaced.representative right)))
    unfold Sweep.fold
    dsimp only
    split
    · rename_i x y hx hy
      exact h.computeBoth hShaped hSound rfl rfl rfl hx hy (f := lessThan) fun _ _ => rfl
    · exact h.keep hShaped hSound
  | arith op dst left right =>
    show Folded starts body label done _ s (s.fold (.arith op dst (s.replaced.representative left)
      (s.replaced.representative right)))
    unfold Sweep.fold
    dsimp only
    split
    · rename_i x y hx hy
      exact h.computeBoth hShaped hSound rfl rfl rfl hx hy (f := op.apply) fun _ _ => rfl
    · unfold Sweep.simplify
      split
      · rename_i hSwap
        have hComm := (Bool.and_eq_true_iff.mp hSwap).1
        have h' : Next body label done (.arith op dst left right) { s with changed := true } :=
          ⟨h.reached, h.instrs, h.fresh⟩
        have hNoted : Sound starts body { s with changed := true } :=
          ⟨hSound.constants, hSound.replaced⟩
        obtain ⟨hSound', hGrows, hFresh⟩ := h'.dropIdentity hShaped hNoted rfl rfl op
          (s.replaced.representative right) (s.replaced.representative left)
          (by simp [Instr.renameUses, Instr.uses]) fun c store => ArithOp.apply_comm hComm _ _
        refine ⟨hSound', ?_, fun a ha => ?_, hGrows, hFresh⟩
        · exact h.replaces_pure hShaped hSound rfl rfl rfl (fun _ _ _ => trivial)
            fun c store _ => ArithOp.apply_comm hComm _ _
        · refine h.use_known hShaped hSound a ?_
          simp only [Instr.uses, Instr.renameUses, List.mem_cons, List.not_mem_nil,
            or_false] at ha ⊢
          exact ha.symm
      · obtain ⟨hSound', hGrows, hFresh⟩ := h.dropIdentity hShaped hSound rfl rfl op
          (s.replaced.representative left) (s.replaced.representative right)
          (by simp [Instr.renameUses, Instr.uses]) fun c store => rfl
        exact ⟨hSound', h.replaces_renamed hShaped hSound, h.use_known hShaped hSound, hGrows,
          hFresh⟩

end Next

/-- Folding the rest of a block. -/
theorem folded_instrs (hShaped : body.Shaped)
    (hReached : body.Reached label) (rest : List Instr) :
    ∀ (done : List Instr) (s : Sweep), (body.block label).instrs = done ++ rest →
      Sound starts body s → (∀ r ∈ rest.filterMap Instr.dst, ¬ s.replaced.Replaces r) →
      Sound starts body (foldInstrs s rest).2 ∧
      (∀ gone, body.Thins starts gone label done rest (foldInstrs s rest).1) ∧
      (∀ r, s.replaced.Replaces r → (foldInstrs s rest).2.replaced.Replaces r) ∧
      ∀ r, (foldInstrs s rest).2.replaced.Replaces r →
        s.replaced.Replaces r ∨ r ∈ rest.filterMap Instr.dst := by
  induction rest with
  | nil =>
    intro done s _ hSound _
    exact ⟨hSound, fun _ => .nil done, fun _ h => h, fun _ h => .inl h⟩
  | cons i rest ih =>
    intro done s hInstrs hSound hFresh
    have hInstrs' : (body.block label).instrs = (done ++ [i]) ++ rest := by
      rw [hInstrs, List.append_assoc, List.singleton_append]
    have hNext : Next body label done i s :=
      ⟨hReached, ⟨rest, hInstrs⟩, fun r hr =>
        hFresh r (mem_dsts_cons.mpr (.inl hr))⟩
    have hFolded := hNext.fold hShaped hSound
    have hFresh' : ∀ r ∈ rest.filterMap Instr.dst,
        ¬ (s.fold (s.renamed i)).2.replaced.Replaces r := by
      intro r hr hNew
      rcases hFolded.fresh r hNew with hOld | hDst
      · exact hFresh r (mem_dsts_cons.mpr (.inr hr)) hOld
      · exact hShaped.dst_notMem_rest hInstrs hDst hr
    obtain ⟨hSound', hThins, hGrows, hOnly⟩ := ih (done ++ [i]) (s.fold (s.renamed i)).2 hInstrs'
      hFolded.sound hFresh'
    refine ⟨hSound', fun gone => .keep hFolded.same hFolded.uses (hThins gone),
      fun r hr => hGrows r (hFolded.grows r hr), fun r hr => ?_⟩
    rcases hOnly r hr with hHere | hLater
    · exact (hFolded.fresh r hHere).imp_right fun hDst => mem_dsts_cons.mpr (.inl hDst)
    · exact .inr (mem_dsts_cons.mpr (.inr hLater))

/-- Folding block after block. -/
theorem swept_foldl (hShaped : body.Shaped)
    (todo : List Label) :
    ∀ (visited : List Label) (state : Body × Sweep),
      Substitution.Swept starts body visited state.1 state.2.replaced → Sound starts body state.2 →
      todo.Nodup → (∀ label ∈ todo, label ∉ visited ∧ body.Reached label) →
      ∃ all, (∀ label, label ∈ all ↔ label ∈ visited ∨ label ∈ todo) ∧
        Substitution.Swept starts body all (todo.foldl foldBlock state).1
          (todo.foldl foldBlock state).2.replaced := by
  induction todo with
  | nil =>
    intro visited state hSwept _ _ _
    exact ⟨visited, by simp, hSwept⟩
  | cons label todo ih =>
    intro visited state hSwept hSound hNodup hTodo
    obtain ⟨hNew, hReached⟩ := hTodo label List.mem_cons_self
    obtain ⟨hNotMem, hNodup⟩ := List.nodup_cons.mp hNodup
    have hBlock := hSwept.unvisited label hNew
    obtain ⟨hSound', hThins, hGrows, hOnly⟩ := folded_instrs hShaped hReached
      (body.block label).instrs [] state.2 (List.nil_append _).symm hSound
      (hSwept.not_replaces hShaped hNew)
    have hSwept' := hSwept.visit hShaped hReached hSound'.replaced (hThins _) hGrows hOnly
    have hStep : foldBlock state label =
        (state.1.modifyBlock label fun b =>
          { b with instrs := (foldInstrs state.2 (body.block label).instrs).1 },
          (foldInstrs state.2 (body.block label).instrs).2) := by
      unfold foldBlock
      dsimp only
      rw [hBlock]
    rw [List.foldl_cons, hStep]
    obtain ⟨all, hAll, hEnd⟩ := ih (label :: visited)
        (state.1.modifyBlock label fun b =>
          { b with instrs := (foldInstrs state.2 (body.block label).instrs).1 },
          (foldInstrs state.2 (body.block label).instrs).2)
        hSwept' hSound' hNodup fun other hOther => by
      obtain ⟨hOtherNew, hOtherReached⟩ := hTodo other (List.mem_cons_of_mem _ hOther)
      refine ⟨fun hMem => ?_, hOtherReached⟩
      rcases List.mem_cons.mp hMem with rfl | hOld
      · exact hNotMem hOther
      · exact hOtherNew hOld
    refine ⟨all, fun other => ?_, hEnd⟩
    rw [hAll, List.mem_cons, List.mem_cons, or_assoc, or_left_comm]

/-- The sweep is a rewriting. -/
theorem fold_rewrites (starts : Starts) (hShaped : body.Shaped) :
    (∃ rename keep, body.Rewrites starts (fold body).1 rename keep) ∧
      (fold body).1.slots = body.slots := by
  have hStart : Sound starts body Sweep.start :=
    ⟨fun _ _ hMem => absurd hMem List.not_mem_nil, .empty⟩
  obtain ⟨all, hAll, hSwept⟩ := swept_foldl hShaped body.order [] (body, Sweep.start)
    (.start starts body) hStart (Digraph.order_nodup _ _)
    fun label hMem => ⟨List.not_mem_nil, hShaped.mem_order_iff.mp hMem⟩
  refine ⟨⟨_, _, hSwept.rewrites hShaped (fun label hReached => ?_) fun label hMem => ?_⟩,
    hSwept.slots_apply⟩
  · exact (hAll label).mpr (.inr (hShaped.mem_order_iff.mpr hReached))
  · exact hShaped.mem_order_iff.mp (((hAll label).mp hMem).resolve_left List.not_mem_nil)

end Sweep

/-! ## Dead instructions -/

section Dead

variable {callable : FuncId → Nat → Prop} {starts : Starts} {body : Body}

theorem block_dropOnce (body : Body) (label : Label) : (dropOnce body).block label =
    { body.block label with
      instrs := (body.block label).instrs.filter fun i => !isDead body.uses i } :=
  Body.block_mapBlocks rfl

theorem isDead_iff {used : List Reg} {i : Instr} :
    isDead used i = true ↔ i.isPure = true ∧ ∃ r, i.dst = some r ∧ r ∉ used := by
  simp [isDead, Option.any_eq_true]

/-- A register is read, or a block takes it. -/
def isNeeded (body : Body) (r : Reg) : Bool :=
  body.uses.contains r || body.params.contains r

theorem isNeeded_of_param {label : Label} (hLt : label < body.blocks.length) {p : Reg}
    (hp : p ∈ (body.block label).params) : isNeeded body p = true := by
  rw [isNeeded, Bool.or_eq_true, List.contains_iff_mem, List.contains_iff_mem]
  exact .inr (Body.mem_params hLt hp)

theorem isNeeded_of_use {label : Label} (hLt : label < body.blocks.length) {a : Reg}
    (ha : a ∈ (body.block label).uses) : isNeeded body a = true := by
  rw [isNeeded, Bool.or_eq_true, List.contains_iff_mem]
  exact .inl (Body.mem_uses hLt ha)

/-- The register of a dead instruction is not needed: nothing reads it, and what an instruction
writes no block takes. -/
theorem not_isNeeded_of_isDead (hShaped : body.Shaped) {label : Label} {i : Instr}
    (hi : i ∈ (body.block label).instrs) (hDead : isDead body.uses i = true) {r : Reg}
    (hr : i.dst = some r) : isNeeded body r = false := by
  obtain ⟨-, q, hq, hUnread⟩ := isDead_iff.mp hDead
  obtain rfl := Option.some.inj (hr.symm.trans hq)
  rw [isNeeded, Bool.or_eq_false_iff, List.contains_eq_mem, List.contains_eq_mem,
    decide_eq_false_iff_not, decide_eq_false_iff_not]
  refine ⟨hUnread, fun hMem => ?_⟩
  obtain ⟨other, hOther⟩ := Body.exists_block_of_mem_params hMem
  exact hShaped.definesOnce.dst_notMem_params hi hr hOther

/-- The rest of a block without its dead instructions. -/
theorem rewritesInstrs_filter (hShaped : body.Shaped) {label : Label}
    (hReached : body.Reached label) {dead : Slot → Prop} (rest : List Instr) :
    ∀ done : List Instr, (body.block label).instrs = done ++ rest →
      body.RewritesInstrs starts id (isNeeded body) dead label done rest
        (rest.filter fun i => !isDead body.uses i) := by
  induction rest with
  | nil => exact fun done _ => .nil done
  | cons i rest ih =>
    intro done hInstrs
    have hi : i ∈ (body.block label).instrs := by simp [hInstrs]
    have hRest := ih (done ++ [i]) (by rw [hInstrs, List.append_assoc, List.singleton_append])
    rw [List.filter_cons]
    cases hDead : isDead body.uses i with
    | true =>
      have hPure := (isDead_iff.mp hDead).1
      refine .drop (Instr.made_of_isPure hPure)
        (fun r hr => not_isNeeded_of_isDead hShaped hi hDead hr) (fun slot hSlot => ?_) hRest
      rw [Instr.stored_of_isPure hPure] at hSlot
      cases hSlot
    | false =>
      have hKept : body.RewritesInstrs starts id (isNeeded body) dead label done (i :: rest)
          (i.renameUses id :: rest.filter fun i => !isDead body.uses i) := by
        refine .keep (.refl starts body label done i)
          (fun a ha => ⟨hShaped.uses_known label hReached done i rest hInstrs a ha, ?_⟩) hRest
        exact isNeeded_of_use (hShaped.lt_of_reached hReached)
          (List.mem_append_left _ (List.mem_flatMap.mpr ⟨i, hi, ha⟩))
      rwa [Instr.renameUses_id] at hKept

/-- Taking out pure instructions that nothing reads is a rewriting without replacements. -/
theorem dropOnce_rewrites (starts : Starts) (hShaped : body.Shaped) :
    body.Rewrites starts (dropOnce body) id (isNeeded body) := by
  have hParam : ∀ label, body.Reached label → ∀ p ∈ (body.block label).params,
      isNeeded body p = true :=
    fun label hReached p => isNeeded_of_param (hShaped.lt_of_reached hReached)
  have hKeepArgs : ∀ label, body.Reached label → ∀ e ∈ (body.block label).terminator.edges,
      body.keepArgs (isNeeded body) e = e :=
    fun label hReached e he => Body.keepArgs_of_forall (hShaped.edge_fits label hReached e he).2
      (hParam e.target (hReached.successor (List.mem_map_of_mem he)))
  constructor
  case entry => rfl
  case length => exact Body.length_mapBlocks _
  case arity => rfl
  case regCount => exact Nat.le_refl _
  case slotCount => exact Nat.le_refl _
  case stands => exact fun r => .refl r
  case defs =>
    intro label
    rw [block_dropOnce]
    exact (List.filter_sublist.filterMap _).append_left _
  case params =>
    intro label hReached
    rw [block_dropOnce]
    exact (List.filter_eq_self.mpr (hParam label hReached)).symm
  case terminator =>
    intro label hReached
    rw [block_dropOnce, Terminator.mapEdges_of_forall (hKeepArgs label hReached),
      Terminator.renameUses_id]
  case exits =>
    intro label hReached a ha
    rw [Terminator.mapEdges_of_forall (hKeepArgs label hReached)] at ha
    exact isNeeded_of_use (hShaped.lt_of_reached hReached) (List.mem_append_right _ ha)
  case instrs =>
    intro label hReached
    rw [block_dropOnce]
    exact rewritesInstrs_filter hShaped hReached _ [] (List.nil_append _).symm

theorem dropRounds_keeps (count : Nat) : ∀ {body : Body}, body.Shaped →
    body.Keeps starts (dropRounds count body).1 ∧ (dropRounds count body).1.slots = body.slots := by
  induction count with
  | zero => exact fun hShaped => ⟨.refl hShaped, rfl⟩
  | succ count ih =>
    intro body hShaped
    have hOnce := (dropOnce_rewrites starts hShaped).keeps hShaped
    unfold dropRounds
    dsimp only
    split
    · exact ⟨.refl hShaped, rfl⟩
    · obtain ⟨hRest, hRestSlots⟩ := ih hOnce.shaped
      exact ⟨hOnce.trans hRest, hRestSlots⟩

theorem dropRounds_connected (count : Nat) : ∀ {body : Body}, body.Shaped →
    body.Connected → (dropRounds count body).1.Connected := by
  induction count with
  | zero => exact fun _ hConnected => hConnected
  | succ count ih =>
    intro body hShaped hConnected
    have hOnce := dropOnce_rewrites .blank hShaped
    unfold dropRounds
    dsimp only
    split
    · exact hConnected
    · exact ih (hOnce.shaped hShaped) (hOnce.connected hConnected)

/-- Folding keeps what a body yields. -/
theorem keeps (hShaped : body.Shaped) :
    body.Keeps starts (run body).1 ∧ (run body).1.slots = body.slots := by
  obtain ⟨⟨rename, keep, hFold⟩, hSlots⟩ := fold_rewrites starts hShaped
  have hFold := hFold.keeps hShaped
  obtain ⟨hDrop, hDropSlots⟩ := dropRounds_keeps (fold body).1.instrCount hFold.shaped
  exact ⟨hFold.trans hDrop, hDropSlots.trans hSlots⟩

/-- Folding loses no way to a block. -/
theorem connected (hShaped : body.Shaped) (hConnected : body.Connected) :
    (run body).1.Connected := by
  obtain ⟨⟨rename, keep, hFold⟩, -⟩ := fold_rewrites .blank hShaped
  exact dropRounds_connected (fold body).1.instrCount (hFold.shaped hShaped)
    (hFold.connected hConnected)

end Dead

end Folding

end LiveCompiler
