import LiveCompiler.Proofs.Pass.FlowCleanup.Merging

/-!
# Joining blocks keeps what a body yields

A join is done here in two steps.  First the values that the only edge passes take the place
of the parameters, which is a rewriting as in forwarding.  Then the two blocks are merged.

The count of entering edges is kept exact over a round of joins (`Counted`), so a block that
is entered once by the count is entered once in the body.
-/

namespace LiveCompiler

open Ir

namespace FlowCleanup

variable {callable : FuncId → Nat → Prop} {starts : Starts} {body : Body} {first second : Label}

/-! ## Passing the values -/

/-- A jump is the only way into another block, which is not the entry. -/
structure Entered (body : Body) (first second : Label) (args : List Reg) : Prop where
  reached : body.Reached first
  jump : (body.block first).terminator = .jump { target := second, args := args }
  ne : second ≠ first
  ne_entry : second ≠ body.entry
  only : ∀ label, body.Reached label →
    second ∈ (body.block label).terminator.successors → label = first

/-- What takes the place of a register when values take the place of parameters. -/
def passed (params args : List Reg) (r : Reg) : Reg :=
  ((params.zip args).reverse.lookup r).getD r

/-- Put the values that a jump passes in the place of the parameters. -/
def passValues (body : Body) (first second : Label) (args : List Reg) : Body :=
  ((body.modifyBlock second fun b => { b with params := [] }).modifyBlock first fun b =>
    { b with terminator := .jump { target := second, args := [] } }).renameUses
      (passed (body.block second).params args)

theorem passed_of_mem {params args : List Reg} (hNodup : params.Nodup) {p a : Reg}
    (h : (p, a) ∈ params.zip args) : passed params args p = a := by
  unfold passed
  cases hLookup : (params.zip args).reverse.lookup p with
  | none =>
    have hNot := List.lookup_eq_none_iff.mp hLookup (p, a) (List.mem_reverse.mpr h)
    exact absurd rfl (bne_iff_ne.mp hNot)
  | some b =>
    -- A parameter stands at one index only.
    have hMem := List.mem_reverse.mp (mem_of_lookup hLookup)
    obtain ⟨n, hn, hPair⟩ := List.mem_iff_getElem.mp h
    obtain ⟨m, hm, hPair'⟩ := List.mem_iff_getElem.mp hMem
    rw [List.getElem_zip] at hPair hPair'
    obtain ⟨hKey, rfl⟩ := Prod.mk.inj hPair
    obtain ⟨hKey', rfl⟩ := Prod.mk.inj hPair'
    obtain rfl := hNodup.getElem_inj_iff.mp (hKey.trans hKey'.symm)
    rfl

theorem passed_of_notMem {params args : List Reg} {r : Reg} (h : r ∉ params) :
    passed params args r = r := by
  unfold passed
  have hNone : (params.zip args).reverse.lookup r = none :=
    List.lookup_eq_none_iff.mpr fun pair hPair => by
      have hKey := (List.of_mem_zip (List.mem_reverse.mp hPair)).1
      exact bne_iff_ne.mpr fun hEq => h (hEq ▸ hKey)
  rw [hNone, Option.getD_none]

namespace Entered

variable {args : List Reg}

theorem lt_first (hShaped : body.Shaped) (h : Entered body first second args) :
    first < body.blocks.length :=
  hShaped.lt_of_reached h.reached

theorem reached_second (h : Entered body first second args) : body.Reached second :=
  h.reached.successor (by simp [h.jump, Terminator.successors, Terminator.edges])

theorem length_args (hShaped : body.Shaped) (h : Entered body first second args) :
    args.length = (body.block second).params.length :=
  (hShaped.edge_fits first h.reached { target := second, args := args }
    (by simp [h.jump, Terminator.edges])).2

theorem block_passValues (hShaped : body.Shaped) (h : Entered body first second args)
    (label : Label) : (passValues body first second args).block label =
      Block.renameUses (passed (body.block second).params args)
        { params := if label = second then [] else (body.block label).params
          instrs := (body.block label).instrs
          terminator := if label = first then .jump { target := second, args := [] }
            else (body.block label).terminator } := by
  have hFirst : first < (body.modifyBlock second fun b => { b with params := [] }).blocks.length := by
    rw [Body.length_modifyBlock]
    exact h.lt_first hShaped
  have hSecond : second < body.blocks.length := hShaped.lt_of_reached h.reached_second
  unfold passValues
  rw [Body.block_renameUses, Body.block_modifyBlock, Body.block_modifyBlock]
  by_cases hEq : label = first
  · subst hEq
    rw [if_pos ⟨rfl, hFirst⟩, if_neg fun hBoth => h.ne hBoth.1.symm, if_pos rfl,
      if_neg (Ne.symm h.ne)]
  · rw [if_neg fun hBoth => hEq hBoth.1, if_neg hEq]
    by_cases hEq' : label = second
    · rw [if_pos ⟨hEq', hSecond⟩, if_pos hEq']
    · rw [if_neg fun hBoth => hEq' hBoth.1, if_neg hEq']

/-- The jump passes a value that is known before it, so no parameter of the block. -/
theorem notMem_params (hShaped : body.Shaped) (h : Entered body first second args)
    {a : Reg} (ha : a ∈ args) : a ∉ (body.block second).params := by
  intro hParam
  have hKnown : body.Known first (body.block first).instrs a :=
    hShaped.exit_known first h.reached a
      (by simpa [h.jump, Terminator.uses, Terminator.operands, Terminator.edges] using ha)
  rcases Forwarding.known_param hShaped hParam (Body.Point.all h.reached) hKnown with hDom | hEq
  · -- The block is first come to from the one that jumps.
    have hFirst := h.reached_second.first
    cases hFirst with
    | root => exact h.ne_entry rfl
    | @step p _ path _ edge =>
      rw [Body.succ_graph] at edge
      obtain rfl := h.only p path.reaches edge
      exact hDom path
  · exact h.ne hEq.symm

theorem onlyPasses (hShaped : body.Shaped) (h : Entered body first second args)
    (p : Reg) : Forwarding.OnlyPasses body second p (passed (body.block second).params args p) := by
  intro label hReached e he hTarget a ha
  obtain rfl := h.only label hReached (hTarget ▸ List.mem_map_of_mem he)
  rw [h.jump] at he
  obtain rfl := List.mem_singleton.mp he
  exact .inl (passed_of_mem (hShaped.definesOnce.params_nodup second) ha).symm

/-- The registers that are left when the second block takes no parameters. -/
def outside (body : Body) (second : Label) (r : Reg) : Bool :=
  !(body.block second).params.contains r

theorem outside_iff {r : Reg} :
    outside body second r = true ↔ r ∉ (body.block second).params := by
  rw [outside, Bool.not_eq_true', Bool.eq_false_iff, Ne, List.contains_iff_mem]

/-- No other block has a parameter of the second one. -/
theorem outside_param (hShaped : body.Shaped) {label : Label} (hne : label ≠ second) {p : Reg}
    (hp : p ∈ (body.block label).params) : outside body second p = true :=
  outside_iff.mpr fun hp' => hne (hShaped.definesOnce.params_unique hp hp')

theorem params_passValues (hShaped : body.Shaped) (h : Entered body first second args)
    (label : Label) : ((passValues body first second args).block label).params =
      (body.block label).params.filter (outside body second) := by
  rw [h.block_passValues hShaped, Block.params_renameUses]
  dsimp only
  split
  · rename_i hEq
    rw [hEq]
    exact (List.filter_eq_nil_iff.mpr fun p hp hOut => outside_iff.mp hOut hp).symm
  · rename_i hne
    exact (List.filter_eq_self.mpr fun p => outside_param hShaped hne).symm

theorem terminator_passValues (hShaped : body.Shaped) (h : Entered body first second args)
    {label : Label} (hReached : body.Reached label) :
    ((passValues body first second args).block label).terminator =
      ((body.block label).terminator.mapEdges (body.keepArgs (outside body second))).renameUses
        (passed (body.block second).params args) := by
  rw [h.block_passValues hShaped, Block.terminator_renameUses]
  congr 1
  dsimp only
  split
  · -- The jump passes values to parameters of the second block only.
    rename_i hEq
    have hNone : ((body.block second).params.zip args).filter
        (fun pair => outside body second pair.1) = [] :=
      List.filter_eq_nil_iff.mpr fun pair hPair hOut =>
        outside_iff.mp hOut (List.of_mem_zip hPair).1
    rw [hEq, h.jump, Terminator.mapEdges]
    unfold Body.keepArgs
    rw [hNone]
    rfl
  · rename_i hne
    refine (Terminator.mapEdges_of_forall fun e he => ?_).symm
    refine Body.keepArgs_of_forall (hShaped.edge_fits label hReached e he).2 fun p => ?_
    refine outside_param hShaped fun hEq => hne ?_
    exact h.only label hReached (hEq ▸ List.mem_map_of_mem he)

theorem outside_passed (hShaped : body.Shaped) (h : Entered body first second args) (r : Reg) :
    outside body second (passed (body.block second).params args r) = true := by
  rw [outside_iff]
  by_cases hr : r ∈ (body.block second).params
  · obtain ⟨a, ha⟩ := exists_zip_of_mem (h.length_args hShaped) hr
    rw [passed_of_mem (hShaped.definesOnce.params_nodup second) ha]
    exact h.notMem_params hShaped (List.of_mem_zip ha).2
  · rwa [passed_of_notMem hr]

theorem stands_passed (starts : Starts) (hShaped : body.Shaped)
    (h : Entered body first second args) (r : Reg) :
    body.Stands (body.Seen starts) r (passed (body.block second).params args r) := by
  by_cases hr : r ∈ (body.block second).params
  · exact Forwarding.stands_of_onlyPasses hShaped hr h.reached_second (h.onlyPasses hShaped r)
  · rw [passed_of_notMem hr]
    exact .refl r

/-- Passing the values is a rewriting. -/
theorem rewrites (starts : Starts) (hShaped : body.Shaped)
    (h : Entered body first second args) :
    body.Rewrites starts (passValues body first second args)
      (passed (body.block second).params args) (outside body second) := by
  refine Forwarding.rewrites_of_stands hShaped rfl ?_ rfl (Nat.le_refl _) rfl (fun label => ?_)
    (fun label hReached => ?_) (h.outside_passed hShaped) (h.stands_passed starts hShaped)
  · simp [passValues, Body.renameUses]
  · rw [h.block_passValues hShaped, Block.defs_renameUses]
    refine List.Sublist.append_right ?_ _
    dsimp only
    split
    · exact List.nil_sublist _
    · exact List.Sublist.refl _
  · refine ⟨h.params_passValues hShaped label, ?_, h.terminator_passValues hShaped hReached⟩
    rw [h.block_passValues hShaped]
    rfl

theorem onlyWay (hShaped : body.Shaped)
    (h : Entered body first second args) :
    OnlyWay (passValues body first second args) first second where
  reached := (h.rewrites .blank hShaped).reached_iff.mpr h.reached
  jump := by
    rw [h.block_passValues hShaped, Block.terminator_renameUses, if_pos rfl]
    rfl
  params := by
    rw [h.block_passValues hShaped, Block.params_renameUses, if_pos rfl]
  ne := h.ne
  ne_entry := h.ne_entry
  only label hReached hMem := by
    have hReached := (h.rewrites .blank hShaped).reached_iff.mp hReached
    rw [(h.rewrites .blank hShaped).successors hReached] at hMem
    exact h.only label hReached hMem

theorem successors_passValues (hShaped : body.Shaped)
    (h : Entered body first second args) (label : Label) :
    ((passValues body first second args).block label).terminator.successors =
      (body.block label).terminator.successors := by
  rw [h.block_passValues hShaped, Block.terminator_renameUses, Terminator.successors_renameUses]
  dsimp only
  split
  · rename_i hEq
    rw [hEq, h.jump]
    rfl
  · rfl

end Entered

/-! ## A round of joins -/

/-- A join passes the values and then merges the blocks. -/
theorem body_join {s : Joining} {label : Label} {edge : Edge}
    (hShaped : s.body.Shaped) (h : Entered s.body label edge.target edge.args) :
    (join s label edge).body =
      merge (passValues s.body label edge.target edge.args) label edge.target := by
  have hId : (s.body.block edge.target).params.zip edge.args = [] →
      passed (s.body.block edge.target).params edge.args = id := fun hNone => by
    funext r
    rw [passed, hNone]
    rfl
  have hBody : (join s label edge).body =
      (Body.modifyBlock (s.body.modifyBlock edge.target fun _ => Block.empty) label fun b =>
        { b with
          instrs := b.instrs ++ (s.body.block edge.target).instrs
          terminator := (s.body.block edge.target).terminator }).renameUses
        (passed (s.body.block edge.target).params edge.args) := by
    unfold join
    dsimp only
    split
    · rename_i hNone
      rw [List.isEmpty_iff, List.reverse_eq_nil_iff] at hNone
      rw [hId hNone]
      refine (Body.ext_block rfl rfl rfl rfl rfl (by simp [Body.renameUses]) fun other => ?_)
      rw [Body.block_renameUses, Block.renameUses_id]
    · rfl
  have hLength : (passValues s.body label edge.target edge.args).blocks.length =
      s.body.blocks.length := by
    simp [passValues, Body.renameUses]
  rw [hBody]
  refine Body.ext_block rfl rfl rfl rfl rfl (by simp [merge, Body.renameUses, hLength])
    fun other => ?_
  have hLt : label < s.body.blocks.length := h.lt_first hShaped
  rw [Body.block_renameUses, merge, Body.block_modifyBlock, Body.block_modifyBlock,
    Body.block_modifyBlock, Body.block_modifyBlock, Body.length_modifyBlock,
    Body.length_modifyBlock, hLength, h.block_passValues hShaped, h.block_passValues hShaped]
  by_cases hFirst : other = label
  · subst hFirst
    simp [hLt, Ne.symm h.ne, h.ne, Block.renameUses]
  · have hNot : ¬(other = label ∧ label < s.body.blocks.length) := fun hBoth => hFirst hBoth.1
    rw [if_neg hNot, if_neg hNot]
    split
    · rfl
    · rename_i hSecond
      have hSecond : other ≠ edge.target := fun hEq =>
        hSecond ⟨hEq, hShaped.lt_of_reached h.reached_second⟩
      rw [if_neg hSecond]

/-- What the edges of the blocks in a list enter. -/
def targets (body : Body) (order : List Label) : List Label :=
  order.flatMap fun label => (body.block label).terminator.successors

theorem exists_perm_pair {order : List Label} {a b : Label} (ha : a ∈ order) (hb : b ∈ order)
    (hne : a ≠ b) : ∃ rest, order.Perm (a :: b :: rest) :=
  ⟨(order.erase a).erase b, (List.perm_cons_erase ha).trans
    ((List.perm_cons_erase ((List.mem_erase_of_ne (Ne.symm hne)).mpr hb)).cons a)⟩

theorem count_targets_of_perm {order : List Label} {a b : Label} {rest : List Label}
    (hPerm : order.Perm (a :: b :: rest)) (label : Label) :
    (targets body order).count label =
      (body.block a).terminator.successors.count label +
        ((body.block b).terminator.successors.count label + (targets body rest).count label) := by
  rw [targets, (hPerm.flatMap_right _).count_eq, List.flatMap_cons, List.flatMap_cons,
    List.count_append, List.count_append]
  rfl

/-- The state of a round: the count of entering edges is exact, also for blocks that were
emptied. -/
structure Counted (order : List Label) (s : Joining) : Prop where
  shaped : s.body.Shaped
  nodup : order.Nodup
  reached : ∀ label, s.body.Reached label → label ∈ order
  entering : ∀ label, label < s.body.blocks.length →
    s.entering[label]? = some ((targets s.body order).count label)
  emptied : ∀ label ∈ order, ¬ s.body.Reached label →
    (s.body.block label).terminator.successors = []

theorem onlyJump?_spec {s : Joining} {label : Label} {edge : Edge}
    (h : onlyJump? s label = some edge) :
    (s.body.block label).terminator = .jump edge ∧ edge.target ≠ label ∧
      edge.target ≠ s.body.entry ∧ s.entering[edge.target]? = some 1 := by
  unfold onlyJump? at h
  split at h
  · rename_i other hJump
    split at h
    · rename_i hGuard
      obtain rfl := Option.some.inj h
      exact ⟨hJump, hGuard⟩
    · cases h
  · cases h

/-- A block that jumps is in the list. -/
theorem lt_of_onlyJump? {s : Joining} {label : Label} {edge : Edge}
    (h : onlyJump? s label = some edge) : label < s.body.blocks.length :=
  Body.lt_of_terminator_ne (by rw [(onlyJump?_spec h).1]; nofun)

namespace Counted

variable {order : List Label} {s : Joining} {label : Label} {edge : Edge}

theorem entered (h : Counted order s) (hLabel : label ∈ order)
    (hOnly : onlyJump? s label = some edge) : Entered s.body label edge.target edge.args := by
  obtain ⟨hJump, hne, hEntry, hOne⟩ := onlyJump?_spec hOnly
  have hEdge : edge.target ∈ (s.body.block label).terminator.successors := by
    simp [hJump, Terminator.successors, Terminator.edges]
  have hReached : s.body.Reached label := by
    by_contra hNot
    rw [h.emptied label hLabel hNot] at hEdge
    cases hEdge
  have hTarget := h.shaped.lt_of_reached (hReached.successor hEdge)
  refine ⟨hReached, hJump, hne, hEntry, fun other hOther hMem => ?_⟩
  -- Two blocks that enter the target would make the count at least two.
  by_contra hDistinct
  have hCount := Option.some.inj ((h.entering _ hTarget).symm.trans hOne)
  obtain ⟨rest, hPerm⟩ := exists_perm_pair hLabel (h.reached other hOther) (Ne.symm hDistinct)
  rw [count_targets_of_perm hPerm] at hCount
  have hOnce := List.count_pos_iff.mpr hEdge
  have hAgain := List.count_pos_iff.mpr hMem
  omega

theorem keeps_join (starts : Starts) (h : Counted order s)
    (hEntered : Entered s.body label edge.target edge.args) :
    s.body.Keeps starts (join s label edge).body ∧
      (join s label edge).body.slots = s.body.slots := by
  have hPassed := (hEntered.rewrites starts h.shaped).keeps h.shaped
  rw [body_join h.shaped hEntered]
  exact ⟨hPassed.trans ((hEntered.onlyWay h.shaped).keeps_merge hPassed.shaped), rfl⟩

theorem successors_join (h : Counted order s)
    (hEntered : Entered s.body label edge.target edge.args) (other : Label) :
    ((join s label edge).body.block other).terminator.successors =
      if other = label then (s.body.block edge.target).terminator.successors
      else if other = edge.target then []
      else (s.body.block other).terminator.successors := by
  have hPassed := (hEntered.rewrites .blank h.shaped).shaped h.shaped
  have hOnlyWay := hEntered.onlyWay h.shaped
  rw [body_join h.shaped hEntered]
  split
  · rename_i hFirst
    rw [hFirst, hOnlyWay.block_first hPassed]
    exact hEntered.successors_passValues h.shaped edge.target
  · rename_i hFirst
    split
    · rename_i hSecond
      rw [hSecond, hOnlyWay.block_second]
      rfl
    · rename_i hSecond
      rw [OnlyWay.block_other hFirst hSecond]
      exact hEntered.successors_passValues h.shaped other

theorem length_join (h : Counted order s)
    (hEntered : Entered s.body label edge.target edge.args) :
    (join s label edge).body.blocks.length = s.body.blocks.length := by
  rw [body_join h.shaped hEntered]
  simp [merge, passValues, Body.renameUses]

/-- The edges of the second block now start at the first one, and the edge between them is
gone. -/
theorem count_join (h : Counted order s) (hLabel : label ∈ order)
    (hEntered : Entered s.body label edge.target edge.args) (other : Label) :
    (targets s.body order).count other =
      [edge.target].count other + (targets (join s label edge).body order).count other := by
  obtain ⟨rest, hPerm⟩ := exists_perm_pair hLabel (h.reached _ hEntered.reached_second)
    (Ne.symm hEntered.ne)
  have hNodup := hPerm.nodup_iff.mp h.nodup
  rw [List.nodup_cons, List.nodup_cons, List.mem_cons, not_or] at hNodup
  have hRest : targets (join s label edge).body rest = targets s.body rest := by
    refine List.flatMap_congr fun l hl => ?_
    have hFirst : l ≠ label := fun hEq => hNodup.1.2 (hEq ▸ hl)
    have hSecond : l ≠ edge.target := fun hEq => hNodup.2.1 (hEq ▸ hl)
    rw [h.successors_join hEntered, if_neg hFirst, if_neg hSecond]
  rw [count_targets_of_perm hPerm, count_targets_of_perm hPerm, hRest,
    h.successors_join hEntered, h.successors_join hEntered, if_pos rfl, if_neg hEntered.ne,
    if_pos rfl, hEntered.jump, List.count_nil, Nat.zero_add]
  rfl

theorem reached_of_join (h : Counted order s)
    (hEntered : Entered s.body label edge.target edge.args) {other : Label}
    (hReached : (join s label edge).body.Reached other) : s.body.Reached other := by
  have hPassed := hEntered.rewrites .blank h.shaped
  rw [body_join h.shaped hEntered] at hReached
  exact hPassed.reached_iff.mp ((hEntered.onlyWay h.shaped).reached_of_merge
    (hPassed.shaped h.shaped) hReached).1

theorem reached_join (h : Counted order s)
    (hEntered : Entered s.body label edge.target edge.args) {other : Label}
    (hReached : s.body.Reached other) (hne : other ≠ edge.target) :
    (join s label edge).body.Reached other := by
  have hPassed := hEntered.rewrites .blank h.shaped
  have hMerged := (hEntered.onlyWay h.shaped).reached_merge
    (hPassed.shaped h.shaped) (hPassed.reached_iff.mpr hReached)
  rw [if_neg hne] at hMerged
  rwa [body_join h.shaped hEntered]

/-- One join keeps the count exact. -/
theorem join (h : Counted order s) (hLabel : label ∈ order)
    (hOnly : onlyJump? s label = some edge) : Counted order (join s label edge) := by
  have hEntered := h.entered hLabel hOnly
  refine ⟨(h.keeps_join .blank hEntered).1.shaped, h.nodup,
    fun other hReached => h.reached other (h.reached_of_join hEntered hReached),
    fun other hLt => ?_, fun other hOther hNot => ?_⟩
  · rw [h.length_join hEntered] at hLt
    have hBefore := h.entering other hLt
    have hCount := h.count_join hLabel hEntered other
    show (s.entering.set edge.target 0)[other]? = _
    by_cases hEq : other = edge.target
    · subst hEq
      obtain ⟨-, -, -, hOne⟩ := onlyJump?_spec hOnly
      have hBound := (List.getElem?_eq_some_iff.mp hOne).1
      rw [List.getElem?_set_self hBound]
      have hAll := Option.some.inj (hBefore.symm.trans hOne)
      rw [List.count_singleton_self] at hCount
      congr 1
      omega
    · rw [List.getElem?_set_ne (Ne.symm hEq), hBefore, hCount,
        List.count_eq_zero_of_not_mem (by simpa using hEq), Nat.zero_add]
  · rw [h.successors_join hEntered]
    split
    · rename_i hEq
      exact absurd (h.reached_join hEntered hEntered.reached (Ne.symm hEntered.ne)) (hEq ▸ hNot)
    · split
      · rfl
      · rename_i hSecond
        exact h.emptied other hOther fun hReached => hNot (h.reached_join hEntered hReached hSecond)

/-- The joins of one block keep the count and what the body yields. -/
theorem joinFrom (hLabel : label ∈ order) (count : Nat) : ∀ {s : Joining}, Counted order s →
    Counted order (joinFrom label count s) ∧
      s.body.Keeps starts (FlowCleanup.joinFrom label count s).body ∧
      (FlowCleanup.joinFrom label count s).body.slots = s.body.slots := by
  induction count with
  | zero => exact fun h => ⟨h, .refl h.shaped, rfl⟩
  | succ count ih =>
    intro s h
    unfold FlowCleanup.joinFrom
    split
    · rename_i edge hOnly
      obtain ⟨hCounted, hRest, hRestSlots⟩ := ih (h.join hLabel hOnly)
      obtain ⟨hJoin, hSlots⟩ := h.keeps_join starts (h.entered hLabel hOnly)
      exact ⟨hCounted, hJoin.trans hRest, hRestSlots.trans hSlots⟩
    · exact ⟨h, .refl h.shaped, rfl⟩

theorem foldl (labels : List Label) (count : Nat) : ∀ {s : Joining},
    (∀ label ∈ labels, label ∈ order) → Counted order s →
      Counted order (labels.foldl (fun s l => FlowCleanup.joinFrom l count s) s) ∧
        s.body.Keeps starts (labels.foldl (fun s l => FlowCleanup.joinFrom l count s) s).body ∧
        (labels.foldl (fun s l => FlowCleanup.joinFrom l count s) s).body.slots = s.body.slots := by
  induction labels with
  | nil => exact fun _ h => ⟨h, .refl h.shaped, rfl⟩
  | cons label labels ih =>
    intro s hLabels h
    obtain ⟨hFirst, hKeeps, hSlots⟩ := h.joinFrom (hLabels label List.mem_cons_self) count
    obtain ⟨hRest, hKeeps', hSlots'⟩ := ih (fun l hl => hLabels l (List.mem_cons_of_mem _ hl)) hFirst
    exact ⟨hRest, hKeeps.trans hKeeps', hSlots'.trans hSlots⟩

theorem start (hShaped : body.Shaped) :
    Counted body.order
      { body := body, entering := enteringEdges body body.order, changed := false } where
  shaped := hShaped
  nodup := body.graph.order_nodup body.entry
  reached _ hReached := hShaped.mem_order_iff.mpr hReached
  entering label hLt := by
    simp [enteringEdges, targets, hLt]
  emptied label hLabel hNot := absurd (hShaped.mem_order_iff.mp hLabel) hNot

end Counted

/-- Joining blocks keeps what a body yields. -/
theorem keeps_joinBlocks (hShaped : body.Shaped) :
    body.Keeps starts (joinBlocks body).1 ∧ (joinBlocks body).1.slots = body.slots :=
  ((Counted.start hShaped).foldl body.order body.blocks.length fun _ h => h).2

end FlowCleanup

end LiveCompiler
