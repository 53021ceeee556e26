import LiveCompiler.Pass.FlowCleanup
import LiveCompiler.Proofs.Ir.Blocks
import LiveCompiler.Proofs.Ir.Rewriting

/-!
# Dropping unreached blocks keeps what a body yields

The blocks that stay get new labels (`Relabels`).  No two of them get the same one, so the
paths of the new body are those of the old one, and a run goes through the same blocks.

Every block of the new body is reached.
-/

namespace LiveCompiler

open Ir

namespace Ir

/-- Give an edge another target. -/
def Edge.retarget (place : Label → Label) (e : Edge) : Edge :=
  { e with target := place e.target }

theorem Terminator.uses_retarget (place : Label → Label) (t : Terminator) :
    (t.mapEdges (Edge.retarget place)).uses = t.uses := by
  cases t <;> rfl

theorem Terminator.successors_retarget (place : Label → Label) (t : Terminator) :
    (t.mapEdges (Edge.retarget place)).successors = t.successors.map place := by
  cases t <;> rfl

/-- A body with new labels for the blocks that are reached, and no other blocks. -/
structure Body.Relabels (body after : Body) (place : Label → Label) : Prop where
  arity : after.arity = body.arity
  regCount : after.regCount = body.regCount
  slots : after.slots = body.slots
  entry : after.entry = place body.entry
  block : ∀ label, body.Reached label → after.block (place label) =
    { body.block label with
      terminator := (body.block label).terminator.mapEdges (Edge.retarget place) }
  lt : ∀ label, body.Reached label → place label < after.blocks.length
  inj : ∀ label other, body.Reached label → body.Reached other → place label = place other →
    label = other
  onto : ∀ label, label < after.blocks.length → ∃ old, body.Reached old ∧ place old = label

namespace Body

namespace Relabels

variable {callable : FuncId → Nat → Prop} {starts : Starts} {body after : Body}
  {place : Label → Label}
variable {label : Label} {r : Reg}

theorem defs (h : body.Relabels after place) (hReached : body.Reached label) :
    (after.block (place label)).defs = (body.block label).defs := by
  rw [h.block label hReached]
  rfl

theorem exists_of_mem_defs (h : body.Relabels after place) (hr : r ∈ (after.block label).defs) :
    ∃ old, body.Reached old ∧ place old = label ∧ r ∈ (body.block old).defs := by
  obtain ⟨old, hReached, rfl⟩ := h.onto label (lt_of_mem_defs hr)
  exact ⟨old, hReached, rfl, h.defs hReached ▸ hr⟩

theorem leadsTo (h : body.Relabels after place) {via : Label → Prop}
    (hPath : body.graph.LeadsTo body.entry (fun p => via (place p)) label) :
    after.graph.LeadsTo after.entry via (place label) := by
  induction hPath with
  | root => exact h.entry ▸ .root
  | @step p q path ok edge ih =>
    refine .step ih ok ?_
    rw [succ_graph] at edge ⊢
    rw [h.block p path.reaches, Terminator.successors_retarget]
    exact List.mem_map_of_mem edge

theorem exists_leadsTo (h : body.Relabels after place) {via : Label → Prop}
    (hPath : after.graph.LeadsTo after.entry via label) :
    ∃ old, place old = label ∧ body.graph.LeadsTo body.entry (fun p => via (place p)) old := by
  induction hPath with
  | root => exact ⟨body.entry, h.entry.symm, .root⟩
  | step _ ok edge ih =>
    obtain ⟨old, rfl, hOld⟩ := ih
    rw [succ_graph, h.block old hOld.reaches, Terminator.successors_retarget] at edge
    obtain ⟨target, hTarget, rfl⟩ := List.mem_map.mp edge
    exact ⟨target, rfl, .step hOld ok (by rwa [succ_graph])⟩

theorem exists_reached (h : body.Relabels after place) (hReached : after.Reached label) :
    ∃ old, body.Reached old ∧ place old = label := by
  obtain ⟨old, hEq, hPath⟩ := h.exists_leadsTo hReached
  exact ⟨old, hPath, hEq⟩

theorem reached (h : body.Relabels after place) (hReached : body.Reached label) :
    after.Reached (place label) := by
  show after.graph.LeadsTo after.entry (fun _ => True) (place label)
  exact h.leadsTo hReached

/-- All blocks that are left are reached. -/
theorem reached_of_lt (h : body.Relabels after place) (hLt : label < after.blocks.length) :
    after.Reached label := by
  obtain ⟨old, hReached, rfl⟩ := h.onto label hLt
  exact h.reached hReached

theorem available (h : body.Relabels after place) (hReached : body.Reached label)
    (hr : body.Available label r) : after.Available (place label) r := by
  obtain ⟨d, hd, hDom⟩ := hr
  have hBefore := hDom.reaches hReached
  refine ⟨place d, (h.defs hBefore).symm ▸ hd, fun hPath => hDom ?_⟩
  obtain ⟨old, hEq, hOld⟩ := h.exists_leadsTo hPath
  obtain rfl := h.inj old label hOld.reaches hReached hEq
  exact hOld.weaken fun p hp hEq => hp (hEq ▸ rfl)

theorem known (h : body.Relabels after place) (hReached : body.Reached label)
    {done : List Instr} (hr : body.Known label done r) : after.Known (place label) done r := by
  rcases hr with hAvailable | hParam | hDone
  · exact .inl (h.available hReached hAvailable)
  · refine .inr (.inl ?_)
    rwa [h.block label hReached]
  · exact .inr (.inr hDone)

theorem shaped (hShaped : body.Shaped) (h : body.Relabels after place) :
    after.Shaped where
  entry_lt := h.entry ▸ h.lt _ (.entry body)
  entry_params := by
    rw [h.entry, h.block _ (.entry body)]
    exact hShaped.entry_params
  defs_nodup label := by
    by_cases hLt : label < after.blocks.length
    · obtain ⟨old, hOld, rfl⟩ := h.onto label hLt
      rw [h.defs hOld]
      exact hShaped.defs_nodup old
    · rw [block_of_le (Nat.le_of_not_lt hLt)]
      exact List.nodup_nil
  defs_unique label other r hr hr' := by
    obtain ⟨old, -, rfl, hOld⟩ := h.exists_of_mem_defs hr
    obtain ⟨old', -, rfl, hOld'⟩ := h.exists_of_mem_defs hr'
    rw [hShaped.defs_unique old old' r hOld hOld']
  defs_lt label r hr := by
    obtain ⟨old, -, -, hOld⟩ := h.exists_of_mem_defs hr
    rw [h.regCount]
    exact hShaped.defs_lt old r hOld
  uses_known label hReached done i rest hInstrs r hr := by
    obtain ⟨old, hOld, rfl⟩ := h.exists_reached hReached
    rw [h.block old hOld] at hInstrs
    exact h.known hOld (hShaped.uses_known old hOld done i rest hInstrs r hr)
  exit_known label hReached r hr := by
    obtain ⟨old, hOld, rfl⟩ := h.exists_reached hReached
    rw [h.block old hOld] at hr ⊢
    rw [Terminator.uses_retarget] at hr
    exact h.known hOld (hShaped.exit_known old hOld r hr)
  edge_fits label hReached e he := by
    obtain ⟨old, hOld, rfl⟩ := h.exists_reached hReached
    rw [h.block old hOld, Terminator.edges_mapEdges] at he
    obtain ⟨e, hEdge, rfl⟩ := List.mem_map.mp he
    have hTarget : body.Reached e.target := hOld.successor (List.mem_map_of_mem hEdge)
    refine ⟨h.lt _ hTarget, ?_⟩
    show e.args.length = (after.block (place e.target)).params.length
    rw [h.block _ hTarget]
    exact (hShaped.edge_fits old hOld e hEdge).2

theorem rooted (hRooted : body.Rooted) (h : body.Relabels after place) : after.Rooted where
  toShaped := h.shaped hRooted.toShaped
  entry_first label hReached hMem := by
    obtain ⟨old, hOld, rfl⟩ := h.exists_reached hReached
    rw [h.entry, h.block old hOld, Terminator.successors_retarget] at hMem
    obtain ⟨target, hTarget, hEq⟩ := List.mem_map.mp hMem
    obtain rfl := h.inj _ _ (hOld.successor hTarget) (.entry body) hEq
    exact hRooted.entry_first old hOld hTarget

theorem wellFormed (hWf : body.WellFormed callable) (h : body.Relabels after place) :
    after.WellFormed callable where
  toRooted := h.rooted hWf.toRooted
  ends label hReached := by
    obtain ⟨old, hOld, rfl⟩ := h.exists_reached hReached
    have hEnds := hWf.ends old hOld
    rw [h.block old hOld]
    cases hTerminator : (body.block old).terminator with
    | unreachable => exact absurd hTerminator hEnds
    | _ => simp [Terminator.mapEdges]
  legal label hReached i hi := by
    obtain ⟨old, hOld, rfl⟩ := h.exists_reached hReached
    rw [h.block old hOld] at hi
    rw [h.arity, h.slots]
    exact hWf.legal old hOld i hi

theorem exit_retarget (t : Terminator) (regs : Reg → Float) :
    (t.mapEdges (Edge.retarget place)).exit regs =
      match t.exit regs with
      | .goto target values => .goto (place target) values
      | other => other := by
  cases t with
  | branch condition onTrue onFalse =>
    simp only [Terminator.mapEdges, Terminator.exit]
    split <;> rfl
  | _ => rfl

/-- A block comes to the same outcome under its new label. -/
theorem outcome_match (h : body.Relabels after place) (c : Setting) (hReached : body.Reached label)
    (s : Store) : Outcome.Match
      (fun label s other s' => body.Reached label ∧ other = place label ∧ s' = s)
      (body.outcomeFrom c label s) (after.outcomeFrom c (place label) s) := by
  have hTarget : ∀ {target values}, (body.block label).terminator.exit
      (s.run c (body.block label).instrs).regs = .goto target values → body.Reached target :=
    fun hExit => by
      obtain ⟨e, he, rfl, -⟩ := Terminator.exists_edge hExit
      exact hReached.successor (List.mem_map_of_mem he)
  unfold outcomeFrom outcome
  rw [h.block label hReached]
  dsimp only
  rw [exit_retarget]
  cases hExit : (body.block label).terminator.exit (s.run c (body.block label).instrs).regs with
  | returned x => exact .returned _ _
  | goto target values =>
    have hReached' := hTarget hExit
    refine .entered ⟨hReached', rfl, ?_⟩
    rw [h.block target hReached']
  | stuck => exact .stuck

/-- New labels keep what a body yields. -/
theorem keeps (hShaped : body.Shaped) (h : body.Relabels after place) :
    body.Keeps starts after := by
  refine ⟨h.shaped hShaped, fun hRooted => h.rooted hRooted, fun _ hWf => h.wellFormed hWf, h.arity,
    fun contents _ c x calls => ?_⟩
  refine yieldsHolding_iff_of_step (fun label s other s' =>
    body.Reached label ∧ other = place label ∧ s' = s) ?_ ⟨.entry body, h.entry, rfl⟩ x calls
  rintro label s _ _ ⟨hReached, rfl, rfl⟩
  exact h.outcome_match c hReached _

end Relabels

end Body

end Ir

namespace FlowCleanup

variable {callable : FuncId → Nat → Prop} {starts : Starts} {body : Body}

section NewLabel

variable {reached : Label → Bool} {label other : Label}

theorem filter_range_split {count : Nat} (h : reached label = true) (hLt : label < count) :
    ∃ rest, (List.range count).filter reached =
      (List.range label).filter reached ++ label :: rest := by
  obtain ⟨gap, hGap⟩ := Nat.exists_eq_add_of_lt hLt
  have hCount : count = (label + 1) + gap := by rw [hGap, Nat.add_right_comm]
  rw [hCount, List.range_add, List.range_succ, List.filter_append, List.filter_append,
    List.filter_cons_of_pos h, List.append_assoc]
  exact ⟨_, rfl⟩

theorem newLabel_lt (h : reached label = true) (hLt : label < other) :
    newLabel reached label < newLabel reached other := by
  obtain ⟨rest, hSplit⟩ := filter_range_split h hLt
  unfold newLabel
  rw [hSplit, List.length_append]
  exact Nat.lt_add_of_pos_right (Nat.succ_pos _)

theorem newLabel_inj (h : reached label = true) (h' : reached other = true)
    (hEq : newLabel reached label = newLabel reached other) : label = other := by
  rcases Nat.lt_trichotomy label other with hLt | hSame | hLt
  · exact absurd hEq (Nat.ne_of_lt (newLabel_lt h hLt))
  · exact hSame
  · exact absurd hEq.symm (Nat.ne_of_lt (newLabel_lt h' hLt))

/-- A label stands at its new label among those that stay. -/
theorem getElem?_newLabel {count : Nat} (h : reached label = true) (hLt : label < count) :
    ((List.range count).filter reached)[newLabel reached label]? = some label := by
  obtain ⟨rest, hSplit⟩ := filter_range_split h hLt
  rw [hSplit, newLabel, List.getElem?_append_right (Nat.le_refl _), Nat.sub_self]
  rfl

end NewLabel

/-- Whether the search from the entry sees a block. -/
def isReached (body : Body) (label : Label) : Bool :=
  (body.graph.search body.entry).seen.getD label false

theorem isReached_iff (hShaped : body.Shaped) (label : Label) :
    isReached body label = true ↔ body.Reached label :=
  (body.graph.seen_search_iff body.entry label).trans hShaped.mem_order_iff

/-- If the search finishes as many blocks as there are, all of them are reached. -/
theorem reached_of_length_eq (hShaped : body.Shaped)
    (hAll : (body.graph.search body.entry).finished.length = body.blocks.length) {label : Label}
    (hLt : label < body.blocks.length) : body.Reached label := by
  -- The labels in the order are all below this number, and none of them is there twice.
  have hSub : body.order.Subperm (List.range body.blocks.length) :=
    List.subperm_of_subset (body.graph.order_nodup body.entry) fun l hl =>
      List.mem_range.mpr (body.size_graph ▸ Digraph.lt_size_of_mem_order hl)
  have hPerm := hSub.perm_of_length_le (by rw [List.length_range]; exact hAll.ge)
  exact hShaped.mem_order_iff.mp (hPerm.mem_iff.mpr (List.mem_range.mpr hLt))

/-- The blocks that are reached, in their old order and with their new labels. -/
def keepReached (body : Body) : Body :=
  { body with
    blocks := (((List.range body.blocks.length).filter (isReached body)).map body.block).map
      fun b => { b with terminator := b.terminator.mapEdges (relabel (isReached body)) }
    entry := newLabel (isReached body) body.entry }

/-- A block that is reached stands at its new label among those that stay. -/
theorem getElem?_filter_newLabel (hShaped : body.Shaped) {label : Label}
    (hReached : body.Reached label) :
    ((List.range body.blocks.length).filter (isReached body))[newLabel (isReached body) label]? =
      some label :=
  getElem?_newLabel ((isReached_iff hShaped label).mpr hReached) (hShaped.lt_of_reached hReached)

theorem relabels_keepReached (hShaped : body.Shaped) :
    body.Relabels (keepReached body) (newLabel (isReached body)) where
  arity := rfl
  regCount := rfl
  slots := rfl
  entry := rfl
  block label hReached := by
    simp only [keepReached, Body.block, List.getD_eq_getElem?_getD, List.getElem?_map,
      getElem?_filter_newLabel hShaped hReached, Option.map_some, Option.getD_some]
    congr 1
    refine Terminator.mapEdges_congr fun e he => ?_
    have hTarget : body.Reached e.target := hReached.successor (List.mem_map_of_mem he)
    exact if_pos ((isReached_iff hShaped e.target).mpr hTarget)
  lt label hReached := by
    simp only [keepReached, List.length_map]
    exact (List.getElem?_eq_some_iff.mp (getElem?_filter_newLabel hShaped hReached)).1
  inj label other hReached hReached' hEq :=
    newLabel_inj ((isReached_iff hShaped label).mpr hReached)
      ((isReached_iff hShaped other).mpr hReached') hEq
  onto label hLt := by
    simp only [keepReached, List.length_map] at hLt
    have hMem := List.mem_filter.mp (List.getElem_mem hLt)
    have hReached := (isReached_iff hShaped _).mp hMem.2
    obtain ⟨hLt', hEq⟩ := List.getElem?_eq_some_iff.mp (getElem?_filter_newLabel hShaped hReached)
    exact ⟨_, hReached, (List.nodup_range.filter _).getElem_inj_iff.mp hEq⟩

/-- Either all blocks are reached, or those that are not are dropped. -/
theorem dropUnreachable_cases (hShaped : body.Shaped) :
    ((dropUnreachable body).1 = body ∧ ∀ label, label < body.blocks.length → body.Reached label) ∨
      body.Relabels (dropUnreachable body).1 (newLabel (isReached body)) := by
  by_cases hAll : (body.graph.search body.entry).finished.length = body.blocks.length
  · refine .inl ⟨?_, fun label hLt => reached_of_length_eq hShaped hAll hLt⟩
    unfold dropUnreachable
    dsimp only
    rw [if_pos hAll]
  · have hAfter : (dropUnreachable body).1 = keepReached body := by
      have hEntry := (isReached_iff hShaped body.entry).mpr (.entry body)
      unfold isReached at hEntry
      unfold dropUnreachable
      dsimp only
      rw [if_neg hAll, if_pos hEntry]
      rfl
    exact .inr (hAfter ▸ relabels_keepReached hShaped)

/-- Dropping blocks keeps what a body yields and leaves no block that is not reached. -/
theorem keeps_dropUnreachable (hShaped : body.Shaped) :
    body.Keeps starts (dropUnreachable body).1 ∧
      (dropUnreachable body).1.slots = body.slots ∧
      ∀ label, label < (dropUnreachable body).1.blocks.length →
        (dropUnreachable body).1.Reached label := by
  rcases dropUnreachable_cases hShaped with ⟨hSame, hAll⟩ | hRelabels
  · rw [hSame]
    exact ⟨.refl hShaped, rfl, hAll⟩
  · exact ⟨hRelabels.keeps hShaped, hRelabels.slots, fun _ => hRelabels.reached_of_lt⟩

end FlowCleanup

end LiveCompiler
