import LiveCompiler.Pass.Forwarding
import LiveCompiler.Proofs.Pass.Substitution
import LiveCompiler.Proofs.Repeats

/-!
# Forwarding of block parameters keeps what a body yields

If every edge into a block passes for a parameter either one value or the parameter itself,
the value is known wherever the parameter is and always equals it (`stands_of_onlyPasses`): the
edge on which a path first comes to the block cannot pass the parameter, so it passes the
value, and no later edge changes either.

Dropping such a parameter is a rewriting of the body (`drop_rewrites`).
-/

namespace LiveCompiler

open Ir

namespace Forwarding

variable {callable : FuncId → Nat → Prop} {starts : Starts} {body : Body} {home : Label}
  {param value : Reg}

/-- Every edge from a block that the entry leads to passes the value for the parameter, or
the parameter itself. -/
def OnlyPasses (body : Body) (home : Label) (param value : Reg) : Prop :=
  ∀ label, body.Reached label → ∀ e ∈ (body.block label).terminator.edges, e.target = home →
    ∀ a, (param, a) ∈ (body.block home).params.zip e.args → a = value ∨ a = param

section Stands

theorem exists_edge {label target : Label}
    (h : target ∈ body.graph.succ label) : ∃ e ∈ (body.block label).terminator.edges,
      e.target = target := by
  rw [Body.succ_graph] at h
  exact List.mem_map.mp h

/-- An edge passes a known value for the parameter. -/
theorem exists_passed (hShaped : body.Shaped) (hParam : param ∈ (body.block home).params)
    {label : Label} (hReached : body.Reached label) {e : Edge}
    (he : e ∈ (body.block label).terminator.edges) (hTarget : e.target = home) :
    ∃ a, (param, a) ∈ (body.block home).params.zip e.args ∧
      body.Known label (body.block label).instrs a := by
  have hLength := (hShaped.edge_fits label hReached e he).2
  rw [hTarget] at hLength
  obtain ⟨a, ha⟩ := exists_zip_of_mem hLength hParam
  refine ⟨a, ha, hShaped.exit_known label hReached a (List.mem_append_right _ ?_)⟩
  exact List.mem_flatMap.mpr ⟨e, he, (List.of_mem_zip ha).2⟩

/-- An edge that comes to the block for the first time passes the value. -/
theorem known_of_first (hShaped : body.Shaped)
    (hParam : param ∈ (body.block home).params) (hOnly : OnlyPasses body home param value)
    {label : Label} (hPath : body.graph.LeadsTo body.entry (· ≠ home) label) (hne : label ≠ home)
    (hEdge : home ∈ body.graph.succ label) :
    body.Known label (body.block label).instrs value := by
  have hReached : body.Reached label := hPath.reaches
  obtain ⟨e, he, hTarget⟩ := exists_edge hEdge
  obtain ⟨a, ha, hKnown⟩ := exists_passed hShaped hParam hReached he hTarget
  rcases hOnly label hReached e he hTarget a ha with rfl | rfl
  · exact hKnown
  · have hDef : a ∈ (body.block home).defs := Body.mem_defs.mpr (.inl hParam)
    rcases hKnown.mem_defs (List.prefix_refl _) with ⟨d, hd, hDom⟩ | hHere
    · obtain rfl := hShaped.defs_unique d home a hd hDef
      exact absurd hPath hDom
    · exact absurd (hShaped.defs_unique label home a hHere hDef) hne

theorem home_ne_entry (hShaped : body.Shaped)
    (hParam : param ∈ (body.block home).params) : home ≠ body.entry := by
  rintro rfl
  rw [hShaped.entry_params] at hParam
  simp at hParam

/-- The value is known before the block is entered. -/
theorem available_of_onlyPasses (hShaped : body.Shaped)
    (hParam : param ∈ (body.block home).params) (hReached : body.Reached home)
    (hOnly : OnlyPasses body home param value) : body.Available home value := by
  have hEntry := home_ne_entry hShaped hParam
  have hFirst : ∀ {via : Label → Prop}, (∀ q, via q → q ≠ home) →
      body.graph.LeadsTo body.entry via home →
      ∃ label, via label ∧ body.graph.LeadsTo body.entry via label ∧
        body.Known label (body.block label).instrs value := by
    intro via hVia hPath
    cases hPath with
    | root => exact absurd rfl hEntry
    | @step label _ path ok edge =>
      exact ⟨label, ok, path, known_of_first hShaped hParam hOnly (path.weaken hVia) (hVia _ ok) edge⟩
  obtain ⟨label, -, hPath, hKnown⟩ := hFirst (fun _ h => h) hReached.first
  have hLabel : body.Reached label := hPath.reaches
  obtain ⟨d, hd, hDef⟩ := hKnown.exists_def (Body.Point.all hLabel)
  refine ⟨d, hDef, fun hAvoid => ?_⟩
  -- A path that avoids `d` is cut off where it first comes to the block.
  have hCut : body.graph.LeadsTo body.entry (fun q => q ≠ d ∧ q ≠ home) home := by
    rcases hAvoid.avoid_or_first home with h | h <;> exact h
  obtain ⟨last, hLast, hPath', hKnown'⟩ := hFirst (fun _ h => h.2) hCut
  rcases hKnown'.mem_defs (List.prefix_refl _) with ⟨d', hd', hDom⟩ | hHere
  · obtain rfl := hShaped.defs_unique d' d value hd' hDef
    exact hDom (hPath'.weaken fun _ h => h.1)
  · exact hLast.1 (hShaped.defs_unique last d value hHere hDef)

/-- A parameter that is known has been bound in its block. -/
theorem known_param (hShaped : body.Shaped) (hParam : param ∈ (body.block home).params)
    {label : Label} {done : List Instr} (hPoint : body.Point label done)
    (hKnown : body.Known label done param) :
    body.graph.SDom body.entry home label ∨ label = home := by
  have hDef : param ∈ (body.block home).defs := Body.mem_defs.mpr (.inl hParam)
  rcases hKnown.mem_defs hPoint.front with ⟨d, hd, hDom⟩ | hHere
  · obtain rfl := hShaped.defs_unique d home param hd hDef
    exact .inl hDom
  · exact .inr (hShaped.defs_unique label home param hHere hDef)

/-- The value stands for the parameter. -/
theorem stands_of_onlyPasses (hShaped : body.Shaped)
    (hParam : param ∈ (body.block home).params) (hReached : body.Reached home)
    (hOnly : OnlyPasses body home param value) : body.Stands (body.Seen starts) param value := by
  obtain ⟨d, hd, hDom⟩ := available_of_onlyPasses hShaped hParam hReached hOnly
  have hAvailable : ∀ {label done}, body.Point label done → body.Known label done param →
      body.Available label value := by
    intro label done hPoint hKnown
    rcases known_param hShaped hParam hPoint hKnown with hBefore | rfl
    · exact ⟨d, hd, hDom.trans hBefore⟩
    · exact ⟨d, hd, hDom⟩
  -- Where the parameter is known the value does not change any more, and the parameter changes only
  -- at the edges into `home`, which pass it either the value or itself.
  refine ⟨fun label done hPoint hKnown => .inl (hAvailable hPoint hKnown), ?_⟩
  rintro label done s - ⟨c, hVisit⟩ hKnown
  induction hVisit with
  | start _ =>
    exact absurd .root (hAvailable (Body.Point.start (.entry body)) hKnown).choose_spec.2
  | @instr label done i rest s visit hInstrs ih =>
    have hReached := visit.point.reached
    have hi : i ∈ (body.block label).instrs := by simp [hInstrs]
    have hBefore : body.Known label done param :=
      (Body.known_snoc.mp hKnown).resolve_right fun hDst =>
        hShaped.definesOnce.dst_notMem_params hi hDst hParam
    rw [hShaped.regs_effect hReached hInstrs hBefore,
      hShaped.regs_effect hReached hInstrs (.inl (hAvailable visit.point hBefore))]
    exact ih hBefore
  | @edge label target s values visit hExit ih =>
    have hLabel := visit.point.reached
    obtain ⟨e, he, rfl, rfl⟩ := Terminator.exists_edge hExit
    have hTarget := List.mem_map_of_mem (f := Edge.target) he
    have hPoint : body.Point e.target [] := Body.Point.start (hLabel.successor hTarget)
    rw [hShaped.regs_bind hPoint.reached (hAvailable hPoint hKnown)]
    rcases hKnown with hBefore | hHere | hNone
    · rw [hShaped.regs_bind hPoint.reached hBefore]
      exact ih (hBefore.known_of_edge hTarget)
    · obtain rfl : e.target = home := hShaped.defs_unique e.target home param
        (Body.mem_defs.mpr (.inl hHere)) (Body.mem_defs.mpr (.inl hParam))
      obtain ⟨a, ha, hKnownArg⟩ := exists_passed hShaped hParam hLabel he rfl
      have hBound : (s.bind (body.block e.target).params (e.args.map s.regs)).regs param =
          s.regs a := by
        refine bindAll_of_mem (hShaped.definesOnce.params_nodup e.target) ?_
        rw [List.zip_map_right]
        exact List.mem_map.mpr ⟨(param, a), ha, rfl⟩
      rw [hBound]
      rcases hOnly label hLabel e he rfl a ha with rfl | rfl
      · rfl
      · exact ih hKnownArg
    · simp at hNone

/-- What is written in a block that the entry does not lead to is known nowhere. -/
theorem stands_of_not_reached (hShaped : body.Shaped)
    (hParam : param ∈ (body.block home).params) (hNot : ¬ body.Reached home) :
    body.Stands (body.Seen starts) param value := by
  have hNowhere : ∀ {label done}, body.Point label done → ¬ body.Known label done param := by
    intro label done hPoint hKnown
    obtain ⟨d, hd, hDef⟩ := hKnown.exists_def hPoint
    obtain rfl := hShaped.defs_unique d home param hDef (Body.mem_defs.mpr (.inl hParam))
    exact hNot hd
  exact ⟨fun _ _ hPoint hKnown => absurd hKnown (hNowhere hPoint),
    fun _ _ _ hPoint _ hKnown => absurd hKnown (hNowhere hPoint)⟩

end Stands

/-! ## Dropping parameters -/

/-- Dropping parameters for which other registers stand. -/
theorem rewrites_of_stands {after : Body} {rename : Reg → Reg} {keep : Reg → Bool}
    (hShaped : body.Shaped)
    (hEntry : after.entry = body.entry) (hLength : after.blocks.length = body.blocks.length)
    (hArity : after.arity = body.arity) (hCount : body.regCount ≤ after.regCount)
    (hSlots : after.slots = body.slots)
    (hDefs : ∀ label, (after.block label).defs.Sublist (body.block label).defs)
    (hBlock : ∀ label, body.Reached label →
      (after.block label).params = (body.block label).params.filter keep ∧
      (after.block label).instrs = (body.block label).instrs.map (Instr.renameUses rename) ∧
      (after.block label).terminator =
        ((body.block label).terminator.mapEdges (body.keepArgs keep)).renameUses rename)
    (hKeep : ∀ r, keep (rename r) = true)
    (hStands : ∀ r, body.Stands (body.Seen starts) r (rename r)) :
    body.Rewrites starts after rename keep := by
  refine ⟨hEntry, hLength, hArity, hCount, Nat.le_of_eq (congrArg List.length hSlots).symm, hDefs,
    fun label hReached => (hBlock label hReached).1, fun label hReached => ?_,
    fun label hReached => (hBlock label hReached).2.2, fun _ _ a _ => hKeep a, hStands⟩
  rw [(hBlock label hReached).2.1]
  have hRun : ∀ (rest done : List Instr), (body.block label).instrs = done ++ rest →
      body.RewritesInstrs starts rename keep (fun slot => ¬ after.Loads slot) label done rest
        (rest.map (Instr.renameUses rename)) := by
    intro rest
    induction rest with
    | nil => exact fun done _ => .nil done
    | cons i rest ih =>
      intro done hInstrs
      refine .keep (.refl starts body label done i)
        (fun a ha => ⟨hShaped.uses_known label hReached done i rest hInstrs a ha, hKeep a⟩)
        (ih (done ++ [i]) (by rw [hInstrs, List.append_assoc, List.singleton_append]))
  exact hRun _ [] (List.nil_append _).symm

theorem eraseIdx_eq_filter {keys : List Reg} (hNodup : keys.Nodup) {index : Nat} {key : Reg}
    (hAt : keys[index]? = some key) : keys.eraseIdx index = keys.filter (· != key) := by
  induction keys generalizing index with
  | nil => simp at hAt
  | cons k keys ih =>
    obtain ⟨hNot, hNodup⟩ := List.nodup_cons.mp hNodup
    cases index with
    | zero =>
      obtain rfl := Option.some.inj hAt
      rw [List.eraseIdx_cons_zero, List.filter_cons_of_neg (by simp)]
      refine (List.filter_eq_self.mpr fun a ha => ?_).symm
      exact bne_iff_ne.mpr fun hEq => hNot (hEq ▸ ha)
    | succ index =>
      have hRest : keys[index]? = some key := by simpa using hAt
      have hne : k ≠ key := fun hEq => hNot (hEq ▸ List.mem_of_getElem? hRest)
      rw [List.eraseIdx_cons_succ, ih hNodup hRest,
        List.filter_cons_of_pos (by simpa using hne)]

theorem eraseIdx_args {keys : List Reg} (hNodup : keys.Nodup) {index : Nat} {key : Reg}
    (hAt : keys[index]? = some key) {args : List Reg} (hLength : args.length = keys.length) :
    args.eraseIdx index =
      ((keys.zip args).filter fun passed => passed.1 != key).map Prod.snd := by
  induction keys generalizing index args with
  | nil => simp at hAt
  | cons k keys ih =>
    obtain ⟨hNot, hNodup⟩ := List.nodup_cons.mp hNodup
    cases args with
    | nil => simp at hLength
    | cons a args =>
      have hLength' : args.length = keys.length := by simpa using hLength
      cases index with
      | zero =>
        obtain rfl := Option.some.inj hAt
        have hAll : (keys.zip args).filter (fun passed => passed.1 != k) = keys.zip args :=
          List.filter_eq_self.mpr fun passed hPassed =>
            bne_iff_ne.mpr fun hEq => hNot (hEq ▸ (List.of_mem_zip hPassed).1)
        rw [List.eraseIdx_cons_zero, List.zip_cons_cons, List.filter_cons_of_neg (by simp), hAll,
          List.map_snd_zip (Nat.le_of_eq hLength')]
      | succ index =>
        have hRest : keys[index]? = some key := by simpa using hAt
        have hne : k ≠ key := fun hEq => hNot (hEq ▸ List.mem_of_getElem? hRest)
        rw [List.eraseIdx_cons_succ, ih hNodup hRest hLength', List.zip_cons_cons,
          List.filter_cons_of_pos (by simpa using hne), List.map_cons]

/-! ## The parameter that is found -/

theorem single?_spec {values : List Reg} (h : single? values = some value) :
    value ∈ values ∧ ∀ other ∈ values, other = value := by
  cases values with
  | nil => cases h
  | cons first rest =>
    simp only [single?] at h
    split at h
    · rename_i hAll
      obtain rfl := Option.some.inj h
      refine ⟨List.mem_cons_self, fun other hOther => ?_⟩
      rcases List.mem_cons.mp hOther with rfl | hRest
      · rfl
      · exact beq_iff_eq.mp (List.all_eq_true.mp hAll other hRest)
    · cases h

/-- What the search for a parameter finds. -/
structure Found (body : Body) (forward : Forward) : Prop where
  ne_entry : forward.label ≠ body.entry
  at_index : (body.block forward.label).params[forward.index]? = some forward.param
  single : single? (incoming body forward.label forward.index forward.param) = some forward.value

theorem found_of_findParam? {label : Label} (hne : label ≠ body.entry) {forward : Forward}
    (rest : List Reg) : ∀ index, (body.block label).params.drop index = rest →
      findParam? body label index rest = some forward → Found body forward := by
  induction rest with
  | nil => exact fun _ _ h => nomatch h
  | cons param rest ih =>
    intro index hDrop h
    obtain ⟨hAt, hNext⟩ := getElem?_of_drop_eq_cons hDrop
    unfold findParam? at h
    split at h
    · rename_i value hSingle
      obtain rfl := Option.some.inj h
      exact ⟨hne, hAt, hSingle⟩
    · exact ih (index + 1) hNext h

theorem found_of_findFrom? {forward : Forward} (rest : List Block) :
    ∀ label, body.blocks.drop label = rest → findFrom? body label rest = some forward →
      Found body forward := by
  induction rest with
  | nil => exact fun _ _ h => nomatch h
  | cons b rest ih =>
    intro label hDrop h
    obtain ⟨hAt, hNext⟩ := getElem?_of_drop_eq_cons hDrop
    have hBlock : body.block label = b := by
      rw [Body.block, List.getD_eq_getElem?_getD, hAt, Option.getD_some]
    unfold findFrom? at h
    split at h
    · exact ih (label + 1) hNext h
    · rename_i hne
      split at h
      · rename_i found hFound
        obtain rfl := Option.some.inj h
        exact found_of_findParam? hne b.params 0 (by rw [hBlock, List.drop_zero]) hFound
      · exact ih (label + 1) hNext h

theorem Found.onlyPasses {forward : Forward} (hShaped : body.Shaped)
    (h : Found body forward) :
    OnlyPasses body forward.label forward.param forward.value := by
  intro label hReached e he hTarget a ha
  by_cases hEq : a = forward.param
  · exact .inr hEq
  · refine .inl ((single?_spec h.single).2 a (List.mem_filterMap.mpr ⟨e, ?_, ?_⟩))
    · exact List.mem_flatMap.mpr ⟨_, Body.block_mem (hShaped.lt_of_reached hReached), he⟩
    · -- The value stands at the index of the parameter.
      have hNodup := hShaped.definesOnce.params_nodup forward.label
      obtain ⟨n, hn, hPair⟩ := List.mem_iff_getElem.mp ha
      rw [List.getElem_zip] at hPair
      obtain ⟨hKey, hArg⟩ := Prod.mk.inj hPair
      have hIndex : n = forward.index := by
        obtain ⟨hLt, hAt⟩ := List.getElem?_eq_some_iff.mp h.at_index
        exact (hNodup.getElem_inj_iff).mp (hKey.trans hAt.symm)
      have hLt : n < e.args.length := by
        rw [List.length_zip] at hn
        exact Nat.lt_of_lt_of_le hn (Nat.min_le_right _ _)
      rw [if_pos hTarget, ← hIndex, List.getElem?_eq_getElem hLt, hArg]
      simpa using hEq

theorem Found.value_ne {forward : Forward} (h : Found body forward) :
    forward.value ≠ forward.param := by
  obtain ⟨e, -, hSome⟩ := List.mem_filterMap.mp (single?_spec h.single).1
  split at hSome
  · exact bne_iff_ne.mp (Option.filter_eq_some_iff.mp hSome).2
  · cases hSome

/-- The blocks after a parameter is dropped. -/
theorem block_drop (forward : Forward) (label : Label) :
    (drop body forward).block label = Block.renameUses
      (fun r => if r = forward.param then forward.value else r)
      { params := if label = forward.label then (body.block label).params.eraseIdx forward.index
          else (body.block label).params
        instrs := (body.block label).instrs
        terminator := (body.block label).terminator.mapEdges (dropArg forward) } := by
  unfold drop
  dsimp only
  rw [Body.block_renameUses, Body.block_mapBlocks rfl, Body.block_modifyBlock]
  by_cases hHere : label = forward.label
  · by_cases hLt : forward.label < body.blocks.length
    · rw [if_pos ⟨hHere, hLt⟩, if_pos hHere]
    · -- A label beyond the list names the empty block, which has no parameters.
      rw [if_neg fun h => hLt h.2, if_pos hHere, Body.block_of_le (hHere ▸ Nat.le_of_not_lt hLt)]
      rfl
  · rw [if_neg fun h => hHere h.1, if_neg hHere]

@[simp] theorem length_drop (forward : Forward) :
    (drop body forward).blocks.length = body.blocks.length := by
  simp [drop, Body.renameUses]

section Drop

variable {forward : Forward} {label : Label}

theorem Found.param_mem (h : Found body forward) :
    forward.param ∈ (body.block forward.label).params :=
  List.mem_of_getElem? h.at_index

/-- The parameter that is dropped belongs to one block only. -/
theorem Found.params_ne (h : Found body forward) (hOnce : body.DefinesOnce)
    (hne : label ≠ forward.label) :
    ∀ p ∈ (body.block label).params, (p != forward.param) = true := by
  intro p hp
  rw [bne_iff_ne]
  rintro rfl
  exact hne (hOnce.params_unique hp h.param_mem)

theorem Found.params_drop (h : Found body forward) (hOnce : body.DefinesOnce) (label : Label) :
    (if label = forward.label then (body.block label).params.eraseIdx forward.index
      else (body.block label).params) = (body.block label).params.filter (· != forward.param) := by
  split
  · rename_i hHere
    rw [hHere]
    exact eraseIdx_eq_filter (hOnce.params_nodup _) h.at_index
  · rename_i hne
    exact (List.filter_eq_self.mpr (h.params_ne hOnce hne)).symm

/-- An edge that fits its target loses the argument of the parameter and no other. -/
theorem Found.dropArg_eq (h : Found body forward) (hOnce : body.DefinesOnce) {e : Edge}
    (hLength : e.args.length = (body.block e.target).params.length) :
    dropArg forward e = body.keepArgs (· != forward.param) e := by
  unfold dropArg
  split
  · rename_i hTarget
    rw [hTarget] at hLength
    unfold Body.keepArgs
    rw [eraseIdx_args (hOnce.params_nodup _) h.at_index hLength, hTarget]
  · rename_i hTarget
    exact (Body.keepArgs_of_forall hLength (h.params_ne hOnce hTarget)).symm

/-- The parameter stands for the value that all edges pass, as for itself. -/
theorem Found.stands (h : Found body forward) (hShaped : body.Shaped) :
    body.Stands (body.Seen starts) forward.param forward.value := by
  by_cases hReached : body.Reached forward.label
  · exact stands_of_onlyPasses hShaped h.param_mem hReached (h.onlyPasses hShaped)
  · exact stands_of_not_reached hShaped h.param_mem hReached

/-- Dropping a parameter that was found is a rewriting. -/
theorem drop_rewrites (starts : Starts) (hShaped : body.Shaped) (h : Found body forward) :
    body.Rewrites starts (drop body forward)
      (fun r => if r = forward.param then forward.value else r) (· != forward.param) := by
  have hOnce := hShaped.definesOnce
  refine rewrites_of_stands hShaped rfl (length_drop _) rfl (Nat.le_refl _) rfl (fun label => ?_)
    (fun label hReached => ?_) (fun r => ?_) (fun r => ?_)
  · rw [block_drop, h.params_drop hOnce, Block.defs_renameUses]
    exact (List.filter_sublist).append_right _
  · rw [block_drop, h.params_drop hOnce]
    refine ⟨rfl, rfl, ?_⟩
    rw [Block.terminator_renameUses]
    refine congrArg _ (Terminator.mapEdges_congr fun e he => ?_)
    exact h.dropArg_eq hOnce (hShaped.edge_fits label hReached e he).2
  · split
    · exact bne_iff_ne.mpr h.value_ne
    · rename_i hne
      exact bne_iff_ne.mpr hne
  · split
    · rename_i hEq
      exact hEq ▸ h.stands hShaped
    · exact .refl r

end Drop

theorem rounds_keeps (count : Nat) : ∀ {body : Body}, body.Shaped →
    body.Keeps starts (rounds count body).1 ∧ (rounds count body).1.slots = body.slots := by
  induction count with
  | zero => exact fun hShaped => ⟨.refl hShaped, rfl⟩
  | succ count ih =>
    intro body hShaped
    unfold rounds
    split
    · exact ⟨.refl hShaped, rfl⟩
    · rename_i forward hFind
      have hFound := found_of_findFrom? body.blocks 0 List.drop_zero hFind
      have hDrop := (drop_rewrites starts hShaped hFound).keeps hShaped
      obtain ⟨hRest, hRestSlots⟩ := ih hDrop.shaped
      exact ⟨hDrop.trans hRest, hRestSlots⟩

theorem rounds_connected (count : Nat) : ∀ {body : Body}, body.Shaped →
    body.Connected → (rounds count body).1.Connected := by
  induction count with
  | zero => exact fun _ hConnected => hConnected
  | succ count ih =>
    intro body hShaped hConnected
    unfold rounds
    split
    · exact hConnected
    · rename_i forward hFind
      have hFound := found_of_findFrom? body.blocks 0 List.drop_zero hFind
      have hDrop := drop_rewrites .blank hShaped hFound
      exact ih (hDrop.shaped hShaped) (hDrop.connected hConnected)

/-- Forwarding parameters keeps what a body yields. -/
theorem keeps (hShaped : body.Shaped) :
    body.Keeps starts (forwardParams body).1 ∧ (forwardParams body).1.slots = body.slots :=
  rounds_keeps _ hShaped

/-- Forwarding parameters loses no way to a block. -/
theorem connected (hShaped : body.Shaped) (hConnected : body.Connected) :
    (forwardParams body).1.Connected :=
  rounds_connected _ hShaped hConnected

end Forwarding

end LiveCompiler
