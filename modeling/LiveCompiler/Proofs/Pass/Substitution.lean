import LiveCompiler.Pass.Substitution
import LiveCompiler.Proofs.Ir.Blocks
import LiveCompiler.Proofs.Ir.Rewriting

/-!
# What a substitution stands for

A substitution grows by registers that have not been replaced before.  Then chains of
replacements have no cycle and looking up a register follows its chain to the end, so the
effect of one more replacement can be stated without chains (`representative_insert`).

If every register stands for its replacement, then also for the end of its chain
(`Sound.insert`).  A pass that changes instructions, takes out some whose registers it
has replaced, and makes the replacements in the end is a rewriting
(`Substitution.rewrites`).
-/

namespace LiveCompiler

open Ir

theorem mem_of_lookup {α β : Type} [BEq α] [LawfulBEq α] {entries : List (α × β)} {key : α}
    {value : β} (h : entries.lookup key = some value) : (key, value) ∈ entries := by
  obtain ⟨front, back, rfl, -⟩ := List.lookup_eq_some_iff.mp h
  simp

namespace Substitution

/-- Every register was new when it was replaced, and its replacement had none itself. -/
def Layered : List (Reg × Reg) → Prop
  | [] => True
  | (source, target) :: rest =>
    rest.lookup source = none ∧ rest.lookup target = none ∧ source ≠ target ∧ Layered rest

/-- The end of the chain from a register, found layer by layer. -/
def resolve : List (Reg × Reg) → Reg → Reg
  | [], r => r
  | (source, target) :: rest, r =>
    if resolve rest r = source then target else resolve rest r

/-- The place of a register among the layers, the latest layer first. -/
def depth : List (Reg × Reg) → Reg → Nat
  | [], _ => 0
  | (source, _) :: rest, r => if r = source then 1 else if depth rest r = 0 then 0 else depth rest r + 1

theorem resolve_of_lookup_none {entries : List (Reg × Reg)} {r : Reg}
    (h : entries.lookup r = none) : resolve entries r = r := by
  induction entries with
  | nil => rfl
  | cons entry rest ih =>
    obtain ⟨source, target⟩ := entry
    rw [List.lookup_cons] at h
    split at h
    · simp at h
    · rename_i hne
      rw [resolve, ih h, if_neg]
      rintro rfl
      simp at hne

theorem resolve_of_lookup_some {entries : List (Reg × Reg)} (hLayered : Layered entries)
    {r next : Reg} (h : entries.lookup r = some next) :
    resolve entries r = resolve entries next := by
  induction entries with
  | nil => simp at h
  | cons entry rest ih =>
    obtain ⟨source, target⟩ := entry
    obtain ⟨hSource, hTarget, hne, hRest⟩ := hLayered
    rw [List.lookup_cons] at h
    split at h
    · rename_i hEq
      obtain rfl := Option.some.inj h
      obtain rfl := beq_iff_eq.mp hEq
      rw [resolve, resolve, resolve_of_lookup_none hSource, resolve_of_lookup_none hTarget,
        if_pos rfl, if_neg (Ne.symm hne)]
    · rw [resolve, resolve, ih hRest h]

theorem lookup_resolve {entries : List (Reg × Reg)} (hLayered : Layered entries) (r : Reg) :
    entries.lookup (resolve entries r) = none := by
  induction entries with
  | nil => rfl
  | cons entry rest ih =>
    obtain ⟨source, target⟩ := entry
    obtain ⟨-, hTarget, hne, hRest⟩ := hLayered
    rw [resolve]
    split
    · have hBeq : (target == source) = false := beq_false_of_ne (Ne.symm hne)
      rw [List.lookup_cons, hBeq]
      exact hTarget
    · rename_i hOther
      have hBeq : (resolve rest r == source) = false := beq_false_of_ne hOther
      rw [List.lookup_cons, hBeq]
      exact ih hRest

theorem depth_of_lookup_none {entries : List (Reg × Reg)} {r : Reg}
    (h : entries.lookup r = none) : depth entries r = 0 := by
  induction entries with
  | nil => rfl
  | cons entry rest ih =>
    obtain ⟨source, target⟩ := entry
    rw [List.lookup_cons] at h
    split at h
    · simp at h
    · rename_i hne
      rw [depth, ih h, if_pos rfl, if_neg]
      rintro rfl
      simp at hne

/-- A replacement lies in a later layer. -/
theorem depth_lt {entries : List (Reg × Reg)} (hLayered : Layered entries) {r next : Reg}
    (h : entries.lookup r = some next) : depth entries next < depth entries r := by
  induction entries with
  | nil => simp at h
  | cons entry rest ih =>
    obtain ⟨source, target⟩ := entry
    obtain ⟨-, hTarget, hne, hRest⟩ := hLayered
    rw [List.lookup_cons] at h
    split at h
    · rename_i hEq
      obtain rfl := Option.some.inj h
      rw [depth, depth, if_pos (beq_iff_eq.mp hEq), if_neg (Ne.symm hne),
        depth_of_lookup_none hTarget]
      exact Nat.one_pos
    · rename_i hEq
      have hOther : r ≠ source := by
        rintro rfl
        simp at hEq
      have hLess := ih hRest h
      have hPos : ¬ depth rest r = 0 := by omega
      rw [depth, depth, if_neg hOther, if_neg hPos]
      split
      · omega
      · split <;> omega

theorem depth_le_length (entries : List (Reg × Reg)) (r : Reg) :
    depth entries r ≤ entries.length := by
  induction entries with
  | nil => exact Nat.le_refl _
  | cons entry rest ih =>
    rw [depth, List.length_cons]
    split
    · omega
    · split <;> omega

theorem follow_eq_resolve {s : Substitution} (hLayered : Layered s.entries) (steps : Nat) :
    ∀ r, depth s.entries r ≤ steps → s.follow steps r = resolve s.entries r := by
  induction steps with
  | zero =>
    intro r hDepth
    cases hLookup : s.entries.lookup r with
    | none => rw [follow, resolve_of_lookup_none hLookup]
    | some next => exact absurd (depth_lt hLayered hLookup) (by omega)
  | succ steps ih =>
    intro r hDepth
    rw [follow]
    cases hLookup : s.entries.lookup r with
    | none => exact (resolve_of_lookup_none hLookup).symm
    | some next =>
      have hLess := depth_lt hLayered hLookup
      rw [resolve_of_lookup_some hLayered hLookup]
      exact ih next (by omega)

theorem representative_eq {s : Substitution} (hLayered : Layered s.entries) (r : Reg) :
    s.representative r = resolve s.entries r :=
  follow_eq_resolve hLayered _ r (depth_le_length _ r)

/-- Whether a register has a replacement. -/
def Replaces (s : Substitution) (r : Reg) : Prop :=
  s.entries.lookup r ≠ none

theorem not_replaces_empty (r : Reg) : ¬ empty.Replaces r :=
  fun h => h rfl

theorem entries_insert (s : Substitution) (source target : Reg) :
    (s.insert source target).entries =
      if source = s.representative target then s.entries
      else (source, s.representative target) :: s.entries := by
  unfold insert
  dsimp only
  split <;> rfl

theorem layered_insert {s : Substitution} (hLayered : Layered s.entries) {source target : Reg}
    (hSource : ¬ s.Replaces source) : Layered (s.insert source target).entries := by
  rw [entries_insert]
  split
  · exact hLayered
  · rename_i hne
    refine ⟨not_not.mp hSource, ?_, hne, hLayered⟩
    rw [representative_eq hLayered]
    exact lookup_resolve hLayered target

/-- What one more replacement does. -/
theorem representative_insert {s : Substitution} (hLayered : Layered s.entries)
    {source target : Reg} (hSource : ¬ s.Replaces source) (r : Reg) :
    (s.insert source target).representative r =
      if s.representative r = source then s.representative target else s.representative r := by
  rw [representative_eq (layered_insert hLayered hSource), entries_insert]
  split
  · rename_i hEq
    rw [representative_eq hLayered r]
    split
    · rename_i hr
      rw [hr, ← hEq]
    · rfl
  · rw [resolve, representative_eq hLayered r]

theorem replaces_insert {s : Substitution} {source target r : Reg}
    (h : (s.insert source target).Replaces r) : r = source ∨ s.Replaces r := by
  unfold Replaces at h
  rw [entries_insert] at h
  split at h
  · exact .inr h
  · rw [List.lookup_cons] at h
    split at h
    · rename_i hEq
      exact .inl (beq_iff_eq.mp hEq)
    · exact .inr h

theorem Replaces.insert {s : Substitution} {source target r : Reg} (h : s.Replaces r) :
    (s.insert source target).Replaces r := by
  unfold Replaces
  rw [entries_insert]
  split
  · exact h
  · rw [List.lookup_cons]
    split
    · simp
    · exact h

theorem representative_of_not_replaces {s : Substitution} {r : Reg} (h : ¬ s.Replaces r) :
    s.representative r = r := by
  have hNone : s.entries.lookup r = none := not_not.mp h
  unfold representative
  cases hLength : s.entries.length with
  | zero => rfl
  | succ steps => rw [follow, hNone]

/-! ## Replacements along a sweep -/

/-- Only registers that have been written are replaced, and a register that has been written is
replaced by another such one. -/
structure Within (s : Substitution) (written : Reg → Prop) : Prop where
  layered : Layered s.entries
  sources : ∀ r, s.Replaces r → written r
  targets : ∀ r, written r → written (s.representative r)

theorem not_replaces_representative {s : Substitution} (hLayered : Layered s.entries) (r : Reg) :
    ¬ s.Replaces (s.representative r) := by
  rw [Replaces, not_not, representative_eq hLayered]
  exact lookup_resolve hLayered r

namespace Within

variable {s : Substitution} {written more : Reg → Prop} {source target r : Reg}

theorem empty (written : Reg → Prop) : Substitution.empty.Within written where
  layered := trivial
  sources r hr := absurd hr (not_replaces_empty r)
  targets r hr := by rwa [representative_of_not_replaces (not_replaces_empty r)]

theorem representative_of_not_written (h : s.Within written) (hr : ¬ written r) :
    s.representative r = r :=
  representative_of_not_replaces fun hReplaces => hr (h.sources r hReplaces)

theorem mono (h : s.Within written) (hMore : ∀ r, written r → more r) : s.Within more where
  layered := h.layered
  sources r hr := hMore r (h.sources r hr)
  targets r hr := by
    by_cases hOld : written r
    · exact hMore _ (h.targets r hOld)
    · rwa [h.representative_of_not_written hOld]

/-- What stands for a register is final. -/
theorem representative_representative (h : s.Within written) (r : Reg) :
    s.representative (s.representative r) = s.representative r :=
  representative_of_not_replaces (not_replaces_representative h.layered r)

/-- The registers that have been written do not notice that a new one is replaced. -/
theorem representative_insert (h : s.Within written) (hSource : ¬ written source)
    (hr : written r) : (s.insert source target).representative r = s.representative r := by
  have hNew : ¬ s.Replaces source := fun hReplaces => hSource (h.sources source hReplaces)
  rw [Substitution.representative_insert h.layered hNew, if_neg]
  rintro rfl
  exact hSource (h.targets r hr)

theorem insert (h : s.Within written) (hSource : ¬ written source) (hTarget : written target)
    (hMore : ∀ r, written r → more r) (hNew : more source) :
    (s.insert source target).Within more where
  layered := layered_insert h.layered fun hReplaces => hSource (h.sources source hReplaces)
  sources r hr := by
    rcases replaces_insert hr with rfl | hOld
    · exact hNew
    · exact hMore r (h.sources r hOld)
  targets r hr := by
    have hFree : ¬ s.Replaces source := fun hReplaces => hSource (h.sources source hReplaces)
    rw [Substitution.representative_insert h.layered hFree]
    split
    · exact hMore _ (h.targets target hTarget)
    · exact (h.mono hMore).targets r hr

/-- A new register is replaced by one that has been written. -/
theorem replaces_insert_self (h : s.Within written) (hSource : ¬ written source)
    (hTarget : written target) : (s.insert source target).Replaces source := by
  unfold Replaces
  rw [entries_insert, if_neg]
  · simp
  · rintro rfl
    exact hSource (h.targets target hTarget)

end Within

/-! ## Making the replacements -/

theorem block_apply (s : Substitution) (body : Body) (label : Label) :
    (s.apply body).block label = (body.block label).renameUses s.representative := by
  unfold apply
  split
  · rename_i hEmpty
    have hId : s.representative = id := by
      funext r
      refine representative_of_not_replaces fun h => h ?_
      rw [List.isEmpty_iff.mp hEmpty]
      rfl
    rw [hId, Block.renameUses_id]
  · exact Body.block_renameUses _

theorem apply_fields (s : Substitution) (body : Body) :
    (s.apply body).entry = body.entry ∧ (s.apply body).blocks.length = body.blocks.length ∧
      (s.apply body).arity = body.arity ∧ (s.apply body).regCount = body.regCount ∧
      (s.apply body).slots = body.slots := by
  unfold apply
  split
  · exact ⟨rfl, rfl, rfl, rfl, rfl⟩
  · exact ⟨rfl, by simp [Body.renameUses], rfl, rfl, rfl⟩

/-- Every register stands for what the substitution puts in its place. -/
structure Sound (s : Substitution) (body : Body) (on : Label → List Instr → Store → Prop) :
    Prop where
  layered : Layered s.entries
  stands : ∀ r, body.Stands on r (s.representative r)

theorem Sound.empty {body : Body} {on : Label → List Instr → Store → Prop} :
    Sound empty body on :=
  ⟨trivial, fun r => .refl r⟩

/-- A replacement by a register that stands for the source may be added. -/
theorem Sound.insert {body : Body} {on : Label → List Instr → Store → Prop} {s : Substitution}
    (hSound : s.Sound body on) {source target : Reg} (hSource : ¬ s.Replaces source)
    (h : body.Stands on source target) : (s.insert source target).Sound body on where
  layered := layered_insert hSound.layered hSource
  stands r := by
    rw [representative_insert hSound.layered hSource]
    split
    · rename_i hEq
      have hStands : body.Stands on r source := hEq ▸ hSound.stands r
      exact (hStands.trans h).trans (hSound.stands target)
    · exact hSound.stands r

end Substitution

namespace Ir

section Thinning

variable {starts : Starts} {body : Body} {label : Label} {done : List Instr}

/-- Reading registers that stand for those read before. -/
theorem Instr.Replaces.rename {rename : Reg → Reg}
    (hStands : ∀ r, body.Stands (body.Seen starts) r (rename r)) {i : Instr}
    (hUses : ∀ a ∈ i.uses, body.Known label done a) :
    i.Replaces starts body label done (i.renameUses rename) where
  dst_eq := Instr.dst_renameUses rename i
  stored_eq := Instr.stored_renameUses rename i
  legal callable arity slots := (Instr.legal_renameUses rename i callable arity slots).mpr
  value_eq c s hVisit :=
    Instr.value_renameUses (fun _ _ => rfl) rfl fun a ha =>
      ((hStands a).equal label done s hVisit.point ⟨c, hVisit⟩ (hUses a ha)).symm
  made_eq c s hVisit :=
    Instr.made_renameUses fun a ha =>
      ((hStands a).equal label done s hVisit.point ⟨c, hVisit⟩ (hUses a ha)).symm

/-- How a sweep over a block may change its instructions, from a point on: an instruction is
kept, in a form that does the same, or taken out with a register that is gone. -/
inductive Body.Thins (starts : Starts) (body : Body) (gone : Reg → Prop) (label : Label) :
    List Instr → List Instr → List Instr → Prop
  | nil (done : List Instr) : Thins starts body gone label done [] []
  | keep {done rest rest' : List Instr} {i j : Instr} (same : i.Replaces starts body label done j)
      (uses : ∀ a ∈ j.uses, body.Known label done a)
      (tail : Thins starts body gone label (done ++ [i]) rest rest') :
      Thins starts body gone label done (i :: rest) (j :: rest')
  | drop {done rest rest' : List Instr} {i : Instr} (silent : ∀ regs, i.made regs = [])
      (useless : ∀ r, i.dst = some r → gone r) (unstored : i.stored = none)
      (tail : Thins starts body gone label (done ++ [i]) rest rest') :
      Thins starts body gone label done (i :: rest) rest'

namespace Body.Thins

variable {gone : Reg → Prop} {instrs instrs' : List Instr}

theorem mono {more : Reg → Prop} (h : body.Thins starts gone label done instrs instrs')
    (hMore : ∀ r, gone r → more r) : body.Thins starts more label done instrs instrs' := by
  induction h with
  | nil done => exact .nil done
  | keep same uses _ ih => exact .keep same uses ih
  | drop silent useless unstored _ ih =>
    exact .drop silent (fun r hr => hMore r (useless r hr)) unstored ih

theorem dsts_sublist (h : body.Thins starts gone label done instrs instrs') :
    (instrs'.filterMap Instr.dst).Sublist (instrs.filterMap Instr.dst) := by
  induction h with
  | nil done => exact List.Sublist.refl _
  | keep same _ _ ih =>
    rw [List.filterMap_cons, List.filterMap_cons, same.dst_eq]
    split
    · exact ih
    · exact ih.cons_cons _
  | drop _ _ _ _ ih =>
    rw [List.filterMap_cons (f := Instr.dst)]
    split
    · exact ih
    · exact ih.cons _

theorem rewritesInstrs {rename : Reg → Reg} {keep : Reg → Bool} {dead : Slot → Prop}
    (h : body.Thins starts gone label done instrs instrs') (hKeep : ∀ r, keep (rename r) = true)
    (hGone : ∀ r, gone r → keep r = false) :
    body.RewritesInstrs starts rename keep dead label done instrs
      (instrs'.map (Instr.renameUses rename)) := by
  induction h with
  | nil done => exact .nil done
  | keep same uses _ ih => exact .keep same (fun a ha => ⟨uses a ha, hKeep a⟩) ih
  | drop silent useless unstored _ ih =>
    refine .drop silent (fun r hr => hGone r (useless r hr)) (fun slot hSlot => ?_) ih
    rw [unstored] at hSlot
    cases hSlot

end Body.Thins

end Thinning

/-- An edge that fits passes a value to each parameter, so nothing is left out if all
parameters are kept. -/
theorem Body.keepArgs_of_forall {body : Body} {keep : Reg → Bool} {e : Edge}
    (hLength : e.args.length = (body.block e.target).params.length)
    (hKeep : ∀ p ∈ (body.block e.target).params, keep p = true) : body.keepArgs keep e = e := by
  unfold keepArgs
  have hAll : ((body.block e.target).params.zip e.args).filter (fun passed => keep passed.1) =
      (body.block e.target).params.zip e.args :=
    List.filter_eq_self.mpr fun passed hPassed => hKeep _ (List.of_mem_zip hPassed).1
  rw [hAll, List.map_snd_zip (Nat.le_of_eq hLength)]

theorem Terminator.mapEdges_of_forall {f : Edge → Edge} {t : Terminator}
    (h : ∀ e ∈ t.edges, f e = e) : t.mapEdges f = t := by
  have hSame : t.mapEdges f = t.mapEdges id := mapEdges_congr h
  rw [hSame]
  cases t <;> rfl

end Ir

namespace Substitution

section Sweep

variable {starts : Starts} {body middle : Body} {s s' : Substitution}
  {label : Label} {visited : List Label}

/-- A body in which a sweep has changed the instructions of some blocks, with the
replacements that are still to be made. -/
structure Swept (starts : Starts) (body : Body) (visited : List Label) (middle : Body)
    (s : Substitution) : Prop where
  sound : s.Sound body (body.Seen starts)
  entry : middle.entry = body.entry
  length : middle.blocks.length = body.blocks.length
  arity : middle.arity = body.arity
  regCount : middle.regCount = body.regCount
  slots : middle.slots = body.slots
  unvisited : ∀ label, label ∉ visited → middle.block label = body.block label
  params : ∀ label, (middle.block label).params = (body.block label).params
  terminator : ∀ label, (middle.block label).terminator = (body.block label).terminator
  thins : ∀ label ∈ visited,
    body.Thins starts s.Replaces label [] (body.block label).instrs (middle.block label).instrs
  fresh : ∀ r, s.Replaces r →
    ∃ label ∈ visited, r ∈ (body.block label).instrs.filterMap Instr.dst

theorem Swept.start (starts : Starts) (body : Body) :
    Swept starts body [] body empty := by
  constructor
  case sound => exact .empty
  case fresh => exact fun r hr => absurd hr (not_replaces_empty r)
  case thins => exact fun _ hMem => absurd hMem List.not_mem_nil
  all_goals intros; rfl

/-- The registers of a block that is still to be visited have not been replaced. -/
theorem Swept.not_replaces (hShaped : body.Shaped) (h : Swept starts body visited middle s)
    (hNew : label ∉ visited) : ∀ r ∈ (body.block label).instrs.filterMap Instr.dst,
      ¬ s.Replaces r := by
  intro r hr hOld
  obtain ⟨other, hOther, hr'⟩ := h.fresh r hOld
  obtain rfl := hShaped.defs_unique label other r (Body.mem_defs.mpr (.inr hr))
    (Body.mem_defs.mpr (.inr hr'))
  exact hNew hOther

theorem Swept.visit (hShaped : body.Shaped) (h : Swept starts body visited middle s)
    (hReached : body.Reached label) {kept : List Instr} (hSound : s'.Sound body (body.Seen starts))
    (hThins : body.Thins starts s'.Replaces label [] (body.block label).instrs kept)
    (hGrows : ∀ r, s.Replaces r → s'.Replaces r)
    (hFresh : ∀ r, s'.Replaces r →
      s.Replaces r ∨ r ∈ (body.block label).instrs.filterMap Instr.dst) :
    Swept starts body (label :: visited)
      (middle.modifyBlock label fun b => { b with instrs := kept }) s' := by
  have hLt : label < middle.blocks.length := h.length ▸ hShaped.lt_of_reached hReached
  constructor
  case sound => exact hSound
  case entry => exact h.entry
  case length => simpa using h.length
  case arity => exact h.arity
  case regCount => exact h.regCount
  case slots => exact h.slots
  case unvisited =>
    intro other hOther
    rw [List.mem_cons, not_or] at hOther
    rw [Body.block_modifyBlock_of_ne _ hOther.1]
    exact h.unvisited other hOther.2
  case params =>
    intro other
    rw [Body.block_modifyBlock]
    split <;> exact h.params other
  case terminator =>
    intro other
    rw [Body.block_modifyBlock]
    split <;> exact h.terminator other
  case thins =>
    intro other hOther
    rw [Body.block_modifyBlock]
    by_cases hEq : other = label
    · subst hEq
      rw [if_pos ⟨rfl, hLt⟩]
      exact hThins
    · rw [if_neg fun hBoth => hEq hBoth.1]
      exact (h.thins other ((List.mem_cons.mp hOther).resolve_left hEq)).mono hGrows
  case fresh =>
    intro r hr
    rcases hFresh r hr with hOld | hHere
    · obtain ⟨other, hOther, hr'⟩ := h.fresh r hOld
      exact ⟨other, List.mem_cons_of_mem _ hOther, hr'⟩
    · exact ⟨label, List.mem_cons_self, hHere⟩

/-- A sweep that replaces registers and makes the replacements in the end. -/
theorem rewrites (hShaped : body.Shaped) (hSound : s.Sound body (body.Seen starts))
    (hEntry : middle.entry = body.entry) (hLength : middle.blocks.length = body.blocks.length)
    (hArity : middle.arity = body.arity) (hCount : body.regCount ≤ middle.regCount)
    (hSlots : middle.slots = body.slots)
    (hOther : ∀ label, ¬ body.Reached label →
      (middle.block label).defs.Sublist (body.block label).defs)
    (hParams : ∀ label, body.Reached label →
      (middle.block label).params = (body.block label).params ∧
        ∀ p ∈ (body.block label).params, ¬ s.Replaces p)
    (hInstrs : ∀ label, body.Reached label →
      body.Thins starts s.Replaces label [] (body.block label).instrs (middle.block label).instrs)
    (hEnd : ∀ label, body.Reached label →
      (middle.block label).terminator = (body.block label).terminator) :
    body.Rewrites starts (s.apply middle) s.representative
      fun r => !(s.entries.lookup r).isSome := by
  obtain ⟨hEntry', hLength', hArity', hCount', hSlots'⟩ := s.apply_fields middle
  -- The end of a chain of replacements is not replaced itself.
  have hKeep : ∀ r, (!(s.entries.lookup (s.representative r)).isSome) = true := by
    intro r
    rw [representative_eq hSound.layered, lookup_resolve hSound.layered]
    rfl
  have hFixed : ∀ r, ¬ s.Replaces r → (!(s.entries.lookup r).isSome) = true := by
    intro r hr
    rw [not_not.mp hr]
    rfl
  refine ⟨hEntry'.trans hEntry, hLength'.trans hLength, hArity'.trans hArity, ?_, ?_, ?_, ?_, ?_, ?_,
    ?_, hSound.stands⟩
  · exact hCount' ▸ hCount
  · exact Nat.le_of_eq (congrArg List.length (hSlots'.trans hSlots)).symm
  · intro label
    rw [block_apply, Block.defs_renameUses]
    by_cases hReached : body.Reached label
    · unfold Block.defs
      rw [(hParams label hReached).1]
      exact (hInstrs label hReached).dsts_sublist.append_left _
    · exact hOther label hReached
  · intro label hReached
    obtain ⟨hSame, hNot⟩ := hParams label hReached
    rw [block_apply, Block.params_renameUses, hSame]
    exact (List.filter_eq_self.mpr fun p hp => hFixed p (hNot p hp)).symm
  · intro label hReached
    rw [block_apply, Block.instrs_renameUses]
    refine (hInstrs label hReached).rewritesInstrs hKeep fun r hr => ?_
    rw [Option.isSome_iff_ne_none.mpr hr]
    rfl
  · intro label hReached
    rw [block_apply, Block.terminator_renameUses, hEnd label hReached,
      Terminator.mapEdges_of_forall fun e he => ?_]
    refine Body.keepArgs_of_forall (hShaped.edge_fits label hReached e he).2 fun p hp => ?_
    exact hFixed p ((hParams e.target (hReached.successor (List.mem_map_of_mem he))).2 p hp)
  · exact fun _ _ a _ => hKeep a

/-- When all blocks that the entry leads to have been visited, making the replacements is a
rewriting. -/
theorem Swept.rewrites (hShaped : body.Shaped) (h : Swept starts body visited middle s)
    (hAll : ∀ label, body.Reached label → label ∈ visited)
    (hOnly : ∀ label ∈ visited, body.Reached label) :
    body.Rewrites starts (s.apply middle) s.representative
      fun r => !(s.entries.lookup r).isSome := by
  refine Substitution.rewrites hShaped h.sound h.entry h.length h.arity
    (Nat.le_of_eq h.regCount.symm) h.slots ?_ ?_ ?_ fun label _ => h.terminator label
  · intro label hNot
    rw [h.unvisited label fun hMem => hNot (hOnly label hMem)]
  · intro label _
    refine ⟨h.params label, fun p hp hReplaces => ?_⟩
    obtain ⟨other, -, hDst⟩ := h.fresh p hReplaces
    exact hShaped.definesOnce.notMem_params hDst hp
  · exact fun label hReached => h.thins label (hAll label hReached)

theorem Swept.slots_apply (h : Swept starts body visited middle s) :
    (s.apply middle).slots = body.slots :=
  (s.apply_fields middle).2.2.2.2.trans h.slots

/-- What stands for the operands of an instruction is known before it. -/
theorem Sound.uses_known (hSound : s.Sound body (body.Seen starts)) (hShaped : body.Shaped)
    (hReached : body.Reached label) {done rest : List Instr} {i : Instr}
    (hInstrs : (body.block label).instrs = done ++ i :: rest) :
    ∀ a ∈ (i.renameUses s.representative).uses, body.Known label done a := by
  intro a ha
  rw [Instr.uses_renameUses] at ha
  obtain ⟨b, hb, rfl⟩ := List.mem_map.mp ha
  exact (hSound.stands b).known label done (Body.Point.before hReached hInstrs)
    (hShaped.uses_known label hReached done i rest hInstrs b hb)

/-- As long as the register of a pure instruction is known, it holds what the renamed
instruction computes, and the registers which that reads are known. -/
theorem Sound.pure_value (hShaped : body.Shaped) (hSound : s.Sound body (body.Seen starts))
    {home : Label} {before done : List Instr} {i : Instr} {r : Reg} {c : Setting} {store : Store}
    (hAt : body.WrittenAt home before i r) (hPure : i.isPure = true)
    (hVisit : body.Visits starts c label done store) (hr : body.Known label done r) :
    store.regs r = (i.renameUses s.representative).value c store ∧
      ∀ a ∈ (i.renameUses s.representative).uses, body.Known label done a := by
  have hUses : ∀ a ∈ i.uses, body.Known label done a := fun a ha =>
    hAt.use_known hShaped ha hVisit.point hr
  constructor
  · rw [hVisit.pure_value hShaped hAt hPure hr]
    refine (Instr.value_renameUses (fun _ _ => rfl) rfl fun a ha => ?_).symm
    exact ((hSound.stands a).equal label done store hVisit.point ⟨c, hVisit⟩ (hUses a ha)).symm
  · intro a ha
    rw [Instr.uses_renameUses] at ha
    obtain ⟨b, hb, rfl⟩ := List.mem_map.mp ha
    exact (hSound.stands b).known label done hVisit.point (hUses b hb)

end Sweep

end Substitution

end LiveCompiler
