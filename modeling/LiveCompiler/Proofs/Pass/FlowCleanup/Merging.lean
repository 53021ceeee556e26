import LiveCompiler.Pass.FlowCleanup
import LiveCompiler.Proofs.Pass.Forwarding

/-!
# Merging two blocks keeps what a body yields

When a jump without values is the only way into a block, the block that jumps can run on into
it (`merge`).  Two blocks of the old body are then one block of the new one, so a step of the
new body is one or two steps of the old one.
-/

namespace LiveCompiler

open Ir

namespace FlowCleanup

variable {callable : FuncId → Nat → Prop} {starts : Starts} {body : Body} {first second : Label}

/-- Let a block run on into another one, which is emptied. -/
def merge (body : Body) (first second : Label) : Body :=
  (body.modifyBlock second fun _ => Block.empty).modifyBlock first fun b =>
    { b with
      instrs := b.instrs ++ (body.block second).instrs
      terminator := (body.block second).terminator }

/-- A jump without values is the only way into another block, which is not the entry. -/
structure OnlyWay (body : Body) (first second : Label) : Prop where
  reached : body.Reached first
  jump : (body.block first).terminator = .jump { target := second, args := [] }
  params : (body.block second).params = []
  ne : second ≠ first
  ne_entry : second ≠ body.entry
  only : ∀ label, body.Reached label →
    second ∈ (body.block label).terminator.successors → label = first

namespace OnlyWay

/-- Only the jump leads to the second block. -/
theorem ne_second (h : OnlyWay body first second) {label target : Label}
    (hReached : body.Reached label) (hFirst : label ≠ first)
    (hTarget : target ∈ (body.block label).terminator.successors) : target ≠ second := by
  rintro rfl
  exact hFirst (h.only label hReached hTarget)

theorem block_first (hShaped : body.Shaped) (h : OnlyWay body first second) :
    (merge body first second).block first = { body.block first with
      instrs := (body.block first).instrs ++ (body.block second).instrs
      terminator := (body.block second).terminator } := by
  have hLt : first < (body.modifyBlock second fun _ => Block.empty).blocks.length := by
    rw [Body.length_modifyBlock]
    exact hShaped.lt_of_reached h.reached
  unfold merge
  rw [Body.block_modifyBlock_self _ hLt, Body.block_modifyBlock_of_ne _ h.ne.symm]

theorem block_second (h : OnlyWay body first second) :
    (merge body first second).block second = Block.empty := by
  unfold merge
  rw [Body.block_modifyBlock_of_ne _ h.ne, Body.block_modifyBlock]
  split
  · rfl
  · rename_i hNot
    exact Body.block_of_le (Nat.le_of_not_lt fun hLt => hNot ⟨rfl, hLt⟩)

theorem block_other {label : Label} (hFirst : label ≠ first) (hSecond : label ≠ second) :
    (merge body first second).block label = body.block label := by
  unfold merge
  rw [Body.block_modifyBlock_of_ne _ hFirst, Body.block_modifyBlock_of_ne _ hSecond]

theorem mem_successors_first (h : OnlyWay body first second) :
    second ∈ (body.block first).terminator.successors := by
  rw [h.jump]
  exact List.mem_singleton.mpr rfl

theorem reached_second (h : OnlyWay body first second) : body.Reached second :=
  h.reached.successor h.mem_successors_first

theorem edge_merge (hShaped : body.Shaped) (h : OnlyWay body first second) {p q : Label}
    (hEdge : q ∈ (merge body first second).graph.succ p) :
    (p = first ∧ q ∈ body.graph.succ second) ∨ (p ≠ first ∧ p ≠ second ∧ q ∈ body.graph.succ p) := by
  rw [Body.succ_graph] at hEdge
  rw [Body.succ_graph, Body.succ_graph]
  by_cases hFirst : p = first
  · subst hFirst
    rw [h.block_first hShaped] at hEdge
    exact .inl ⟨rfl, hEdge⟩
  · by_cases hSecond : p = second
    · subst hSecond
      rw [h.block_second] at hEdge
      simp [Block.empty, Terminator.successors, Terminator.edges] at hEdge
    · rw [block_other hFirst hSecond] at hEdge
      exact .inr ⟨hFirst, hSecond, hEdge⟩

/-- A path after the merge is a path before it, with a detour through the second block. -/
theorem leadsTo_of_merge (hShaped : body.Shaped) (h : OnlyWay body first second)
    {via via' : Label → Prop} (hFirst : via' first → via first ∧ via second)
    (hOther : ∀ p, p ≠ first → p ≠ second → via' p → via p) {label : Label}
    (hPath : (merge body first second).graph.LeadsTo body.entry via' label) :
    body.graph.LeadsTo body.entry via label := by
  induction hPath with
  | root => exact .root
  | @step p q _ ok edge ih =>
    rcases h.edge_merge hShaped edge with ⟨rfl, hEdge⟩ | ⟨hne, hne', hEdge⟩
    · obtain ⟨hVia, hVia'⟩ := hFirst ok
      have hJump : second ∈ body.graph.succ p := by
        rw [Body.succ_graph]
        exact h.mem_successors_first
      exact .step (.step ih hVia hJump) hVia' hEdge
    · exact .step ih (hOther p hne hne' ok) hEdge

theorem reached_of_merge (hShaped : body.Shaped) (h : OnlyWay body first second)
    {label : Label} (hReached : (merge body first second).Reached label) :
    body.Reached label ∧ label ≠ second := by
  have hBefore : ∀ {label}, (merge body first second).graph.LeadsTo body.entry (fun _ => True) label →
      body.Reached label := fun hPath =>
    h.leadsTo_of_merge hShaped (fun _ => ⟨trivial, trivial⟩) (fun _ _ _ _ => trivial) hPath
  refine ⟨hBefore hReached, fun hEq => ?_⟩
  have hPath : (merge body first second).graph.LeadsTo body.entry (fun _ => True) label := hReached
  cases hPath with
  | root => exact h.ne_entry hEq.symm
  | @step p _ path _ edge =>
    rcases h.edge_merge hShaped edge with ⟨rfl, hEdge⟩ | ⟨hne, -, hEdge⟩
    · rw [Body.succ_graph, hEq] at hEdge
      exact h.ne (h.only _ h.reached_second hEdge)
    · rw [Body.succ_graph, hEq] at hEdge
      exact hne (h.only p (hBefore path) hEdge)

/-- Blocks other than the second one are still reached. -/
theorem reached_merge (hShaped : body.Shaped) (h : OnlyWay body first second)
    {label : Label} (hReached : body.Reached label) :
    (merge body first second).Reached (if label = second then first else label) := by
  induction hReached with
  | root =>
    rw [if_neg (Ne.symm h.ne_entry)]
    exact .root
  | @step p q path _ edge ih =>
    have hp : body.Reached p := path
    rw [Body.succ_graph] at edge
    by_cases hq : q = second
    · obtain rfl := h.only p hp (hq ▸ edge)
      rw [if_pos hq]
      rwa [if_neg (Ne.symm h.ne)] at ih
    · rw [if_neg hq]
      refine ih.successor ?_
      by_cases hSecond : p = second
      · rw [if_pos hSecond, h.block_first hShaped]
        exact hSecond ▸ edge
      · rw [if_neg hSecond]
        by_cases hFirst : p = first
        · rw [hFirst, h.jump] at edge
          exact absurd (List.mem_singleton.mp edge) hq
        · rwa [block_other hFirst hSecond]

theorem mem_defs_merge (hShaped : body.Shaped) (h : OnlyWay body first second)
    {label : Label} {r : Reg} :
    r ∈ ((merge body first second).block label).defs ↔
      (label = first ∧ (r ∈ (body.block first).defs ∨ r ∈ (body.block second).defs)) ∨
      (label ≠ first ∧ label ≠ second ∧ r ∈ (body.block label).defs) := by
  by_cases hFirst : label = first
  · subst hFirst
    rw [h.block_first hShaped]
    simp only [Block.defs, h.params, List.filterMap_append, List.mem_append, List.nil_append,
      true_and, ne_eq, not_true_eq_false, false_and, or_false, or_assoc]
  · by_cases hSecond : label = second
    · subst hSecond
      rw [h.block_second]
      simp [hFirst]
    · rw [block_other hFirst hSecond]
      simp [hFirst, hSecond]

theorem available_merge (hShaped : body.Shaped) (h : OnlyWay body first second)
    {label : Label} {r : Reg} (hr : body.Available label r) :
    (merge body first second).Available label r := by
  obtain ⟨d, hd, hDom⟩ := hr
  by_cases hSecond : d = second
  · -- What the second block wrote is now written by the first one.
    subst hSecond
    refine ⟨first, (h.mem_defs_merge hShaped).mpr (.inl ⟨rfl, .inr hd⟩), fun hPath => hDom ?_⟩
    exact h.leadsTo_of_merge hShaped (fun hNot => absurd rfl hNot) (fun _ _ hne _ => hne) hPath
  · refine ⟨d, (h.mem_defs_merge hShaped).mpr ?_, fun hPath => hDom ?_⟩
    · by_cases hFirst : d = first
      · exact .inl ⟨hFirst, .inl (hFirst ▸ hd)⟩
      · exact .inr ⟨hFirst, hSecond, hd⟩
    · exact h.leadsTo_of_merge hShaped (fun hne => ⟨hne, fun hEq => hSecond hEq.symm⟩)
        (fun _ _ _ hne => hne) hPath

theorem known_merge (hShaped : body.Shaped) (h : OnlyWay body first second)
    {label : Label} {done : List Instr} {r : Reg} (hNot : label ≠ second)
    (hr : body.Known label done r) : (merge body first second).Known label done r := by
  rcases hr with hAvailable | hParam | hDone
  · exact .inl (h.available_merge hShaped hAvailable)
  · refine .inr (.inl ?_)
    by_cases hFirst : label = first
    · subst hFirst
      rwa [h.block_first hShaped]
    · rwa [block_other hFirst hNot]
  · exact .inr (.inr hDone)

theorem known_merge_second (hShaped : body.Shaped) (h : OnlyWay body first second)
    {done : List Instr} {r : Reg} (hr : body.Known second done r) :
    (merge body first second).Known first ((body.block first).instrs ++ done) r := by
  have hFront : (body.block first).instrs <+: (body.block first).instrs ++ done :=
    List.prefix_append _ _
  rcases hr with hAvailable | hParam | hDone
  · exact (h.known_merge hShaped (Ne.symm h.ne)
      (hAvailable.known_of_edge h.mem_successors_first)).mono hFront
  · rw [h.params] at hParam
    simp at hParam
  · refine .inr (.inr ?_)
    rw [List.filterMap_append]
    exact List.mem_append_right _ hDone

theorem params_merge (hShaped : body.Shaped) (h : OnlyWay body first second)
    {label : Label} (hne : label ≠ second) :
    ((merge body first second).block label).params = (body.block label).params := by
  by_cases hFirst : label = first
  · rw [hFirst, h.block_first hShaped]
  · rw [block_other hFirst hne]

/-- A block of the merged body ends as a block of the old one does, and not as the one that
jumped.  What was known there at the end is still known. -/
theorem exists_end (hShaped : body.Shaped) (h : OnlyWay body first second)
    {label : Label} (hReached : (merge body first second).Reached label) :
    ∃ last, body.Reached last ∧ last ≠ first ∧
      ((merge body first second).block label).terminator = (body.block last).terminator ∧
      ∀ r, body.Known last (body.block last).instrs r →
        (merge body first second).Known label ((merge body first second).block label).instrs r := by
  obtain ⟨hBefore, hSecond⟩ := h.reached_of_merge hShaped hReached
  by_cases hFirst : label = first
  · subst hFirst
    rw [h.block_first hShaped]
    exact ⟨second, h.reached_second, h.ne, rfl, fun r => h.known_merge_second hShaped⟩
  · rw [block_other hFirst hSecond]
    exact ⟨label, hBefore, hFirst, rfl, fun r => h.known_merge hShaped hSecond⟩

/-- An instruction of the merged body is one of the old body, and what was known before it is
still known. -/
theorem exists_source (hShaped : body.Shaped) (h : OnlyWay body first second)
    {label : Label} (hReached : (merge body first second).Reached label) {done rest : List Instr}
    {i : Instr} (hInstrs : ((merge body first second).block label).instrs = done ++ i :: rest) :
    ∃ source front back, body.Reached source ∧ (body.block source).instrs = front ++ i :: back ∧
      ∀ r, body.Known source front r → (merge body first second).Known label done r := by
  obtain ⟨hBefore, hSecond⟩ := h.reached_of_merge hShaped hReached
  by_cases hFirst : label = first
  · subst hFirst
    rw [h.block_first hShaped] at hInstrs
    rcases append_eq_append_cons_cases hInstrs with ⟨mid, rfl, hMid⟩ | ⟨mid, hMid⟩
    · exact ⟨second, mid, rest, h.reached_second, hMid, fun r => h.known_merge_second hShaped⟩
    · exact ⟨label, done, mid, hBefore, hMid, fun r => h.known_merge hShaped hSecond⟩
  · rw [block_other hFirst hSecond] at hInstrs
    exact ⟨label, done, rest, hBefore, hInstrs, fun r => h.known_merge hShaped hSecond⟩

theorem defs_nodup_merge (hShaped : body.Shaped) (h : OnlyWay body first second)
    (label : Label) : ((merge body first second).block label).defs.Nodup := by
  by_cases hFirst : label = first
  · subst hFirst
    rw [h.block_first hShaped]
    have hDefs : (body.block second).defs = (body.block second).instrs.filterMap Instr.dst := by
      simp [Block.defs, h.params]
    simp only [Block.defs, List.filterMap_append]
    rw [← List.append_assoc]
    refine List.nodup_append.mpr ⟨hShaped.defs_nodup label, hDefs ▸ hShaped.defs_nodup second, ?_⟩
    rintro r hr _ hr' rfl
    exact h.ne (hShaped.defs_unique second label r (hDefs ▸ hr') hr)
  · by_cases hSecond : label = second
    · subst hSecond
      rw [h.block_second]
      exact List.nodup_nil
    · rw [block_other hFirst hSecond]
      exact hShaped.defs_nodup label

theorem defs_unique_merge (hShaped : body.Shaped) (h : OnlyWay body first second)
    {label other : Label} {r : Reg} (hr : r ∈ ((merge body first second).block label).defs)
    (hr' : r ∈ ((merge body first second).block other).defs) : label = other := by
  rw [h.mem_defs_merge hShaped] at hr hr'
  rcases hr with ⟨rfl, hr⟩ | ⟨hFirst, hSecond, hr⟩
  · rcases hr' with ⟨rfl, -⟩ | ⟨hFirst', hSecond', hr'⟩
    · rfl
    · rcases hr with hr | hr
      · exact hShaped.defs_unique _ _ r hr hr'
      · exact absurd (hShaped.defs_unique _ _ r hr hr').symm hSecond'
  · rcases hr' with ⟨rfl, hr' | hr'⟩ | ⟨-, -, hr'⟩
    · exact hShaped.defs_unique _ _ r hr hr'
    · exact absurd (hShaped.defs_unique _ _ r hr hr') hSecond
    · exact hShaped.defs_unique _ _ r hr hr'

theorem shaped_merge (hShaped : body.Shaped) (h : OnlyWay body first second) :
    (merge body first second).Shaped where
  entry_lt := by
    show body.entry < _
    simpa [merge] using hShaped.entry_lt
  entry_params := (h.params_merge hShaped (Ne.symm h.ne_entry)).trans hShaped.entry_params
  defs_nodup := h.defs_nodup_merge hShaped
  defs_unique _ _ _ hr hr' := h.defs_unique_merge hShaped hr hr'
  defs_lt label r hr := by
    rcases (h.mem_defs_merge hShaped).mp hr with ⟨-, hr | hr⟩ | ⟨-, -, hr⟩ <;>
      exact hShaped.defs_lt _ r hr
  uses_known label hReached done i rest hInstrs r hr := by
    obtain ⟨source, front, back, hSource, hSplit, hKnown⟩ := h.exists_source hShaped hReached hInstrs
    exact hKnown r (hShaped.uses_known source hSource front i back hSplit r hr)
  exit_known label hReached r hr := by
    obtain ⟨last, hLast, -, hExit, hKnown⟩ := h.exists_end hShaped hReached
    exact hKnown r (hShaped.exit_known last hLast r (hExit ▸ hr))
  edge_fits label hReached e he := by
    obtain ⟨last, hLast, hNe, hExit, -⟩ := h.exists_end hShaped hReached
    rw [hExit] at he
    obtain ⟨hTarget, hLength⟩ := hShaped.edge_fits last hLast e he
    have hSecond := h.ne_second hLast hNe (List.mem_map_of_mem he)
    exact ⟨by simpa [merge] using hTarget, (h.params_merge hShaped hSecond).symm ▸ hLength⟩

theorem rooted_merge (hRooted : body.Rooted) (h : OnlyWay body first second) :
    (merge body first second).Rooted where
  toShaped := h.shaped_merge hRooted.toShaped
  entry_first label hReached hMem := by
    obtain ⟨last, hLast, -, hExit, -⟩ := h.exists_end hRooted.toShaped hReached
    exact hRooted.entry_first last hLast (hExit ▸ hMem)

theorem wellFormed_merge (hWf : body.WellFormed callable) (h : OnlyWay body first second) :
    (merge body first second).WellFormed callable where
  toRooted := h.rooted_merge hWf.toRooted
  ends label hReached := by
    obtain ⟨last, hLast, -, hExit, -⟩ := h.exists_end hWf.toShaped hReached
    exact hExit ▸ hWf.ends last hLast
  legal label hReached i hi := by
    obtain ⟨done, rest, hInstrs⟩ := List.append_of_mem hi
    obtain ⟨source, front, back, hSource, hSplit, -⟩ := h.exists_source hWf.toShaped hReached hInstrs
    exact hWf.legal source hSource i (by simp [hSplit])

/-! ### Two blocks as one -/

variable {c : Setting}

/-- After the merge a terminator other than the jump leads to the same places. -/
theorem outcome_merge (hShaped : body.Shaped) (h : OnlyWay body first second)
    {label : Label} (hReached : body.Reached label) (hFirst : label ≠ first)
    (instrs : List Instr) (s : Store) :
    (merge body first second).outcome c instrs (body.block label).terminator s =
      body.outcome c instrs (body.block label).terminator s := by
  unfold Body.outcome
  cases hExit : (body.block label).terminator.exit (s.run c instrs).regs with
  | goto target values =>
    obtain ⟨e, he, rfl, -⟩ := Terminator.exists_edge hExit
    have hTarget := h.ne_second hReached hFirst (List.mem_map_of_mem he)
    simp only [h.params_merge hShaped hTarget]
  | _ => rfl

theorem outcomeFrom_other (hShaped : body.Shaped) (h : OnlyWay body first second)
    {label : Label} (hReached : body.Reached label) (hFirst : label ≠ first)
    (hSecond : label ≠ second) (s : Store) :
    (merge body first second).outcomeFrom c label s = body.outcomeFrom c label s := by
  unfold Body.outcomeFrom
  rw [block_other hFirst hSecond]
  exact h.outcome_merge hShaped hReached hFirst _ s

theorem outcomeFrom_first (h : OnlyWay body first second) (s : Store) :
    body.outcomeFrom c first s = .entered second (s.run c (body.block first).instrs) := by
  unfold Body.outcomeFrom Body.outcome
  rw [h.jump]
  show Outcome.entered second ((s.run c (body.block first).instrs).bind
    (body.block second).params []) = _
  rw [h.params]
  rfl

theorem outcomeFrom_merged (hShaped : body.Shaped) (h : OnlyWay body first second)
    (s : Store) : (merge body first second).outcomeFrom c first s =
      body.outcomeFrom c second (s.run c (body.block first).instrs) := by
  unfold Body.outcomeFrom
  rw [h.block_first hShaped, ← h.outcome_merge hShaped h.reached_second h.ne]
  unfold Body.outcome
  rw [Store.run_append]

theorem exists_execFrom_merge (hShaped : body.Shaped) (h : OnlyWay body first second)
    (count : Nat) : ∀ {label : Label} {s : Store} {result : Float × List Call},
      body.Reached label → label ≠ second → body.execFrom c count label s = some result →
      ∃ more, (merge body first second).execFrom c more label s = some result := by
  -- The second block takes a step of its own before the merge, so it is left by one step less.
  induction count using Nat.strongRecOn with
  | ind count ih =>
    intro label s result hReached hSecond hExec
    cases count with
    | zero => cases hExec
    | succ count =>
      by_cases hFirst : label = first
      · subst hFirst
        rw [Body.execFrom_succ, h.outcomeFrom_first] at hExec
        cases count with
        | zero => cases hExec
        | succ count =>
          refine Body.exists_execFrom_of_outcomeFrom (h.outcomeFrom_merged hShaped s) hExec
            fun target t hTarget _ hNext => ?_
          exact ih count (by omega) (h.reached_second.successor hTarget)
            (h.ne_second h.reached_second h.ne hTarget) hNext
      · refine Body.exists_execFrom_of_outcomeFrom
          (h.outcomeFrom_other hShaped hReached hFirst hSecond s) hExec
          fun target t hTarget _ hNext => ?_
        exact ih count (Nat.lt_succ_self count) (hReached.successor hTarget)
          (h.ne_second hReached hFirst hTarget) hNext

theorem exists_execFrom (hShaped : body.Shaped) (h : OnlyWay body first second)
    (count : Nat) : ∀ {label : Label} {s : Store} {result : Float × List Call},
      body.Reached label → label ≠ second →
      (merge body first second).execFrom c count label s = some result →
      ∃ more, body.execFrom c more label s = some result := by
  induction count with
  | zero => exact fun _ _ hExec => nomatch hExec
  | succ count ih =>
    intro label s result hReached hSecond hExec
    by_cases hFirst : label = first
    · subst hFirst
      obtain ⟨more, hMore⟩ := Body.exists_execFrom_of_outcomeFrom
        (h.outcomeFrom_merged hShaped s).symm hExec fun target t _ hTarget hNext =>
          ih (h.reached_second.successor hTarget) (h.ne_second h.reached_second h.ne hTarget) hNext
      refine ⟨more + 1, ?_⟩
      rw [Body.execFrom_succ, h.outcomeFrom_first]
      exact hMore
    · exact Body.exists_execFrom_of_outcomeFrom
        (h.outcomeFrom_other hShaped hReached hFirst hSecond s).symm hExec
        fun target t _ hTarget hNext =>
          ih (hReached.successor hTarget) (h.ne_second hReached hFirst hTarget) hNext

/-- Merging two blocks keeps what a body yields. -/
theorem keeps_merge (hShaped : body.Shaped) (h : OnlyWay body first second) :
    body.Keeps starts (merge body first second) := by
  refine ⟨h.shaped_merge hShaped, fun hRooted => h.rooted_merge hRooted,
    fun _ hWf => h.wellFormed_merge hWf, rfl, fun _ _ c x calls => ?_⟩
  constructor
  · rintro ⟨count, hExec⟩
    exact h.exists_execFrom_merge hShaped count (.entry body) (Ne.symm h.ne_entry) hExec
  · rintro ⟨count, hExec⟩
    exact h.exists_execFrom hShaped count (.entry body) (Ne.symm h.ne_entry) hExec

end OnlyWay

end FlowCleanup

end LiveCompiler
