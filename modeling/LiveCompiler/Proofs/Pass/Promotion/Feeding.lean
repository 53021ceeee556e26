import LiveCompiler.Proofs.Ir.Rewriting
import LiveCompiler.Proofs.Pass.Promotion.Placement

/-!
# Bodies with parameters for slots

Between a body and its promoted form stand bodies that have the new parameters, but still load
and store (`fed`).  What the edges pass to the new parameters is left open: it has no effect on
what such a body yields, so one body of the family is as good as another.

A register for zero is written at the start of the entry.
-/

namespace LiveCompiler

open Ir

namespace Promotion

/-- The register for zero comes after those of the parameters. -/
def zeroReg (body : Body) (params : List SlotParam) : Reg :=
  body.regCount + params.length

/-- What stands in front of the instructions of a block. -/
def heading (body : Body) (params : List SlotParam) (label : Label) : List Instr :=
  if label = body.entry then [.const (zeroReg body params) 0.0] else []

/-- Pass registers to the parameters for slots. -/
def feed (params : List SlotParam) (arg : Slot → Reg) (e : Edge) : Edge :=
  { e with args := e.args ++ (paramsOf params e.target).map fun p => arg p.slot }

/-- A body with the parameters for slots and with registers passed to them. -/
def fed (body : Body) (params : List SlotParam) (arg : Label → Slot → Reg) : Body :=
  { body with
    regCount := zeroReg body params + 1
    blocks := body.blocks.mapIdx fun label b =>
      if body.dominance.isReachable label then
        { params := b.params ++ (paramsOf params label).map SlotParam.reg
          instrs := heading body params label ++ b.instrs
          terminator := b.terminator.mapEdges (feed params (arg label)) }
      else Block.empty }

variable {callable : FuncId → Nat → Prop} {body : Body} {slots : List Slot}
  {params : List SlotParam} {arg : Label → Slot → Reg} {label : Label} {done : List Instr} {r : Reg}

theorem mem_paramsOf {p : SlotParam} : p ∈ paramsOf params label ↔ p ∈ params ∧ p.label = label := by
  unfold paramsOf
  rw [List.mem_filter, beq_iff_eq]

theorem mem_regsOf :
    r ∈ (paramsOf params label).map SlotParam.reg ↔ ∃ p ∈ params, p.label = label ∧ p.reg = r := by
  rw [List.mem_map]
  constructor
  · rintro ⟨p, hp, rfl⟩
    exact ⟨p, (mem_paramsOf.mp hp).1, (mem_paramsOf.mp hp).2, rfl⟩
  · rintro ⟨p, hp, hLabel, rfl⟩
    exact ⟨p, mem_paramsOf.mpr ⟨hp, hLabel⟩, rfl⟩

theorem successors_feed (arg : Slot → Reg) (t : Terminator) :
    (t.mapEdges (feed params arg)).successors = t.successors := by
  cases t <;> rfl

theorem length_fed : (fed body params arg).blocks.length = body.blocks.length := by
  simp [fed]

theorem isReachable_iff (hShaped : body.Shaped) (label : Label) :
    body.dominance.isReachable label = true ↔ body.Reached label :=
  (Dominance.isReachable_iff label).trans hShaped.mem_order_iff

theorem block_fed (hShaped : body.Shaped) (hReached : body.Reached label) :
    (fed body params arg).block label =
      { params := (body.block label).params ++ (paramsOf params label).map SlotParam.reg
        instrs := heading body params label ++ (body.block label).instrs
        terminator := (body.block label).terminator.mapEdges (feed params (arg label)) } := by
  have hLt := hShaped.lt_of_reached hReached
  have hMark := (isReachable_iff hShaped label).mpr hReached
  simp [Body.block, fed, hLt, hMark]

theorem block_fed_of_not_reached (hShaped : body.Shaped) (h : ¬ body.Reached label) :
    (fed body params arg).block label = Block.empty := by
  have hMark : body.dominance.isReachable label = false :=
    Bool.eq_false_iff.mpr fun hMark => h ((isReachable_iff hShaped label).mp hMark)
  by_cases hLt : label < body.blocks.length
  · simp [Body.block, fed, hLt, hMark]
  · exact Body.block_of_le (by rw [length_fed]; exact Nat.le_of_not_lt hLt)

theorem leadsTo_fed_iff (hShaped : body.Shaped) {via : Label → Prop} :
    (fed body params arg).graph.LeadsTo body.entry via label ↔
      body.graph.LeadsTo body.entry via label := by
  refine Digraph.LeadsTo.congr fun p hp => ?_
  rw [Body.succ_graph, Body.succ_graph, block_fed hShaped hp]
  exact successors_feed _ _

theorem reached_fed_iff (hShaped : body.Shaped) :
    (fed body params arg).Reached label ↔ body.Reached label :=
  leadsTo_fed_iff hShaped

theorem sdom_fed_iff (hShaped : body.Shaped) {a : Label} :
    (fed body params arg).graph.SDom body.entry a label ↔ body.graph.SDom body.entry a label :=
  not_congr (leadsTo_fed_iff hShaped)

theorem mem_dsts_heading :
    r ∈ (heading body params label).filterMap Instr.dst ↔
      label = body.entry ∧ r = zeroReg body params := by
  unfold heading
  split
  · rename_i hEntry
    simp [Instr.dst, hEntry, eq_comm]
  · rename_i hEntry
    simp [hEntry]

theorem mem_defs_fed (hShaped : body.Shaped) (hReached : body.Reached label) :
    r ∈ ((fed body params arg).block label).defs ↔ r ∈ (body.block label).defs ∨
      (∃ p ∈ params, p.label = label ∧ p.reg = r) ∨
      (label = body.entry ∧ r = zeroReg body params) := by
  rw [block_fed hShaped hReached]
  simp only [Block.defs, List.filterMap_append, List.mem_append, mem_regsOf, mem_dsts_heading]
  grind

/-- The registers that are known do not depend on what is passed. -/
theorem known_fed_congr (hShaped : body.Shaped) {arg' : Label → Slot → Reg}
    (hReached : body.Reached label) (h : (fed body params arg).Known label done r) :
    (fed body params arg').Known label done r := by
  rcases h with ⟨d, hd, hDom⟩ | hParam | hDone
  · have hDom : body.graph.SDom body.entry d label := (sdom_fed_iff hShaped).mp hDom
    have hBefore := hDom.reaches hReached
    exact .inl ⟨d, (mem_defs_fed hShaped hBefore).mpr ((mem_defs_fed hShaped hBefore).mp hd),
      (sdom_fed_iff hShaped).mpr hDom⟩
  · refine .inr (.inl ?_)
    rw [block_fed hShaped hReached] at hParam ⊢
    exact hParam
  · exact .inr (.inr hDone)

/-- What was known stays known. -/
theorem known_fed (hShaped : body.Shaped) (hReached : body.Reached label)
    (h : body.Known label done r) :
    (fed body params arg).Known label (heading body params label ++ done) r := by
  rcases h with ⟨d, hd, hDom⟩ | hParam | hDone
  · exact .inl ⟨d, (mem_defs_fed hShaped (hDom.reaches hReached)).mpr (.inl hd),
      (sdom_fed_iff hShaped).mpr hDom⟩
  · refine .inr (.inl ?_)
    rw [block_fed hShaped hReached]
    exact List.mem_append_left _ hParam
  · refine .inr (.inr ?_)
    rw [List.filterMap_append]
    exact List.mem_append_right _ hDone

/-! ## The shape is kept -/

theorem lt_zeroReg_of_mem_params (hParams : SlotParams body slots params) {p : SlotParam}
    (hp : p ∈ params) : p.reg < zeroReg body params :=
  (hParams.regs p hp).2

theorem regCount_le_zeroReg : body.regCount ≤ zeroReg body params :=
  Nat.le_add_right _ _

/-- A register is written by the old body, by a parameter for a slot, or it is that for zero. -/
theorem defs_fed_cases (hShaped : body.Shaped)
    (hr : r ∈ ((fed body params arg).block label).defs) :
    body.Reached label ∧ (r ∈ (body.block label).defs ∨
      (∃ p ∈ params, p.label = label ∧ p.reg = r) ∨
      (label = body.entry ∧ r = zeroReg body params)) := by
  by_cases hReached : body.Reached label
  · exact ⟨hReached, (mem_defs_fed hShaped hReached).mp hr⟩
  · rw [block_fed_of_not_reached hShaped hReached] at hr
    simp at hr

theorem defs_unique_fed (hShaped : body.Shaped) (hParams : SlotParams body slots params)
    {other : Label} (hr : r ∈ ((fed body params arg).block label).defs)
    (hr' : r ∈ ((fed body params arg).block other).defs) : label = other := by
  have hOld : ∀ {l}, r ∈ (body.block l).defs → r < body.regCount := fun h =>
    hShaped.defs_lt _ r h
  rcases (defs_fed_cases hShaped hr).2 with h | ⟨p, hp, rfl, rfl⟩ | ⟨rfl, hZero⟩
  · have hLt := hOld h
    rcases (defs_fed_cases hShaped hr').2 with h' | ⟨q, hq, rfl, rfl⟩ | ⟨rfl, hZero⟩
    · exact hShaped.defs_unique _ _ r h h'
    · exact absurd (hParams.regs q hq).1 (Nat.not_le_of_lt hLt)
    · exact absurd regCount_le_zeroReg (Nat.not_le_of_lt (hZero ▸ hLt))
  · rcases (defs_fed_cases hShaped hr').2 with h' | ⟨q, hq, rfl, hEq⟩ | ⟨rfl, hZero⟩
    · exact absurd (hParams.regs p hp).1 (Nat.not_le_of_lt (hOld h'))
    · rw [hParams.inj q hq p hp hEq]
    · exact absurd hZero (Nat.ne_of_lt (lt_zeroReg_of_mem_params hParams hp))
  · rcases (defs_fed_cases hShaped hr').2 with h' | ⟨q, hq, rfl, rfl⟩ | ⟨rfl, -⟩
    · exact absurd regCount_le_zeroReg (Nat.not_le_of_lt (hZero ▸ hOld h'))
    · exact absurd hZero (Nat.ne_of_lt (lt_zeroReg_of_mem_params hParams hq))
    · rfl

theorem defs_nodup_fed (hShaped : body.Shaped) (hParams : SlotParams body slots params)
    (label : Label) : ((fed body params arg).block label).defs.Nodup := by
  by_cases hReached : body.Reached label
  · have hOld : ∀ a ∈ (body.block label).defs, a < body.regCount := hShaped.defs_lt label
    have hNew : ∀ a ∈ (paramsOf params label).map SlotParam.reg,
        body.regCount ≤ a ∧ a < zeroReg body params := by
      intro a ha
      obtain ⟨p, hp, -, rfl⟩ := mem_regsOf.mp ha
      exact hParams.regs p hp
    have hNodup := List.nodup_append.mp (hShaped.defs_nodup label)
    have hRegs : ((paramsOf params label).map SlotParam.reg).Nodup := by
      refine List.Nodup.map_on ?_ (hParams.nodup.filter _)
      intro p hp q hq hEq
      exact hParams.inj p (mem_paramsOf.mp hp).1 q (mem_paramsOf.mp hq).1 hEq
    have hHead : ((heading body params label).filterMap Instr.dst).Nodup := by
      unfold heading
      split <;> simp [Instr.dst]
    have hZero : ∀ a ∈ (heading body params label).filterMap Instr.dst,
        a = zeroReg body params := fun a ha => (mem_dsts_heading.mp ha).2
    rw [block_fed hShaped hReached, Block.defs, List.filterMap_append]
    refine List.nodup_append.mpr ⟨List.nodup_append.mpr ⟨hNodup.1, hRegs, ?_⟩,
      List.nodup_append.mpr ⟨hHead, hNodup.2.1, ?_⟩, ?_⟩
    · rintro a ha _ ha' rfl
      exact absurd (hOld a (Body.mem_defs.mpr (.inl ha))) (Nat.not_lt_of_le (hNew a ha').1)
    · rintro a ha _ ha' rfl
      have hLt := hOld a (Body.mem_defs.mpr (.inr ha'))
      exact absurd regCount_le_zeroReg (Nat.not_le_of_lt (hZero a ha ▸ hLt))
    · rintro a ha _ ha' rfl
      rcases List.mem_append.mp ha with hParam | hSlot
      · have hLt := hOld a (Body.mem_defs.mpr (.inl hParam))
        rcases List.mem_append.mp ha' with hHeading | hInstr
        · exact absurd regCount_le_zeroReg (Nat.not_le_of_lt (hZero a hHeading ▸ hLt))
        · exact hNodup.2.2 a hParam a hInstr rfl
      · rcases List.mem_append.mp ha' with hHeading | hInstr
        · exact absurd (hZero a hHeading) (Nat.ne_of_lt (hNew a hSlot).2)
        · have hLt := hOld a (Body.mem_defs.mpr (.inr hInstr))
          exact absurd hLt (Nat.not_lt_of_le (hNew a hSlot).1)
  · rw [block_fed_of_not_reached hShaped hReached]
    exact List.nodup_nil

/-- What a fed terminator reads was read before or is passed to a parameter for a slot. -/
theorem mem_uses_feed {arg : Slot → Reg} {t : Terminator}
    (hr : r ∈ (t.mapEdges (feed params arg)).uses) :
    r ∈ t.uses ∨ ∃ p ∈ params, p.label ∈ t.successors ∧ r = arg p.slot := by
  have hOperands : (t.mapEdges (feed params arg)).operands = t.operands := by
    cases t <;> rfl
  rw [Terminator.uses, Terminator.edges_mapEdges, hOperands] at hr
  rcases List.mem_append.mp hr with hOperand | hArg
  · exact .inl (List.mem_append_left _ hOperand)
  · obtain ⟨e', he', hIn⟩ := List.mem_flatMap.mp hArg
    obtain ⟨e, he, rfl⟩ := List.mem_map.mp he'
    rcases List.mem_append.mp hIn with hOld | hNew
    · exact .inl (List.mem_append_right _ (List.mem_flatMap.mpr ⟨e, he, hOld⟩))
    · obtain ⟨p, hp, rfl⟩ := List.mem_map.mp hNew
      obtain ⟨hMem, hLabel⟩ := mem_paramsOf.mp hp
      exact .inr ⟨p, hMem, hLabel ▸ List.mem_map_of_mem he, rfl⟩

/-- If what is passed is known, the body is shaped. -/
theorem shaped_fed (hShaped : body.Shaped) (hParams : SlotParams body slots params)
    (hArg : ∀ label, body.Reached label → ∀ slot ∈ slots,
      (fed body params arg).Known label
        (heading body params label ++ (body.block label).instrs) (arg label slot)) :
    (fed body params arg).Shaped where
  entry_lt := by
    rw [length_fed]
    exact hShaped.entry_lt
  entry_params := by
    show ((fed body params arg).block body.entry).params = []
    rw [block_fed hShaped (.entry body)]
    have hNone : paramsOf params body.entry = [] :=
      List.filter_eq_nil_iff.mpr fun p hp => by simpa using hParams.ne_entry p hp
    rw [hNone, hShaped.entry_params]
    rfl
  defs_nodup := defs_nodup_fed hShaped hParams
  defs_unique _ _ _ hr hr' := defs_unique_fed hShaped hParams hr hr'
  defs_lt label r hr := by
    rcases (defs_fed_cases hShaped hr).2 with h | ⟨p, hp, rfl, rfl⟩ | ⟨rfl, hZero⟩
    · exact Nat.lt_succ_of_le (Nat.le_trans (Nat.le_of_lt (hShaped.defs_lt label r h)) regCount_le_zeroReg)
    · exact Nat.lt_succ_of_lt (lt_zeroReg_of_mem_params hParams hp)
    · exact hZero ▸ Nat.lt_succ_self _
  uses_known label hReached done i rest hInstrs r hr := by
    have hReached := (reached_fed_iff hShaped).mp hReached
    rw [block_fed hShaped hReached] at hInstrs
    rcases append_eq_append_cons_cases hInstrs with ⟨mid, rfl, hMid⟩ | ⟨mid, hHead⟩
    · exact known_fed hShaped hReached (hShaped.uses_known label hReached mid i rest hMid r hr)
    · -- The heading reads nothing.
      have hIn : i ∈ heading body params label := by simp [hHead]
      unfold heading at hIn
      split at hIn
      · rw [List.mem_singleton.mp hIn] at hr
        simp [Instr.uses] at hr
      · simp at hIn
  exit_known label hReached r hr := by
    have hReached := (reached_fed_iff hShaped).mp hReached
    rw [block_fed hShaped hReached] at hr ⊢
    rcases mem_uses_feed hr with hOld | ⟨p, hp, -, rfl⟩
    · exact known_fed hShaped hReached (hShaped.exit_known label hReached r hOld)
    · exact hArg label hReached p.slot (hParams.slot_mem p hp)
  edge_fits label hReached e he := by
    have hReached := (reached_fed_iff hShaped).mp hReached
    rw [block_fed hShaped hReached, Terminator.edges_mapEdges] at he
    obtain ⟨old, hOld, rfl⟩ := List.mem_map.mp he
    obtain ⟨hTarget, hLength⟩ := hShaped.edge_fits label hReached old hOld
    refine ⟨by rw [length_fed]; exact hTarget, ?_⟩
    show (old.args ++ (paramsOf params old.target).map _).length =
      ((fed body params arg).block old.target).params.length
    rw [block_fed hShaped (hReached.successor (List.mem_map_of_mem hOld))]
    simp [hLength]

theorem rooted_fed (hRooted : body.Rooted) (hShaped : (fed body params arg).Shaped) :
    (fed body params arg).Rooted where
  toShaped := hShaped
  entry_first label hReached := by
    have hReached := (reached_fed_iff hRooted.toShaped).mp hReached
    rw [block_fed hRooted.toShaped hReached, successors_feed]
    exact hRooted.entry_first label hReached

theorem wellFormed_fed (hWf : body.WellFormed callable) (hRooted : (fed body params arg).Rooted) :
    (fed body params arg).WellFormed callable where
  toRooted := hRooted
  ends label hReached := by
    have hReached := (reached_fed_iff hWf.toShaped).mp hReached
    have hEnds := hWf.ends label hReached
    rw [block_fed hWf.toShaped hReached]
    cases hTerminator : (body.block label).terminator with
    | unreachable => exact absurd hTerminator hEnds
    | _ => simp [Terminator.mapEdges]
  legal label hReached i hi := by
    have hReached := (reached_fed_iff hWf.toShaped).mp hReached
    rw [block_fed hWf.toShaped hReached] at hi
    rcases List.mem_append.mp hi with hHead | hOld
    · unfold heading at hHead
      split at hHead
      · rw [List.mem_singleton.mp hHead]
        trivial
      · simp at hHead
    · exact hWf.legal label hReached i hOld

/-! ## What is yielded is kept -/

/-- Two stores differ in registers from a bound on only. -/
structure AgreeBelow (bound : Reg) (s s' : Store) : Prop where
  regs : ∀ r, r < bound → s'.regs r = s.regs r
  slots : s'.slots = s.slots
  calls : s'.calls = s.calls

variable {c : Setting} {bound : Reg} {s s' : Store}

theorem AgreeBelow.effect (h : AgreeBelow bound s s') {i : Instr}
    (hUses : ∀ a ∈ i.uses, a < bound) :
    AgreeBelow bound (i.effect c s) (i.effect c s') := by
  have hRegs : ∀ a ∈ i.uses, s'.regs (id a) = s.regs a := fun a ha => h.regs a (hUses a ha)
  have hMade : i.made s'.regs = i.made s.regs := by
    simpa using Instr.made_renameUses (f := id) hRegs
  have hValue : i.value c s' = i.value c s := by
    have hEq := Instr.value_renameUses (c := c) (f := id) (fun slot _ => congrFun h.slots slot)
      h.calls hRegs
    rwa [Instr.renameUses_id] at hEq
  refine ⟨fun r hr => ?_, funext fun slot => ?_, ?_⟩
  · show (if i.dst = some r then i.value c s' else s'.regs r) = _
    rw [hValue, h.regs r hr]
    rfl
  · show (if i.stored = some slot then i.value c s' else s'.slots slot) = _
    rw [hValue, h.slots]
    rfl
  · show s'.calls ++ i.made s'.regs = _
    rw [hMade, h.calls]
    rfl

theorem AgreeBelow.run {instrs : List Instr} (h : AgreeBelow bound s s')
    (hUses : ∀ i ∈ instrs, ∀ a ∈ i.uses, a < bound) :
    AgreeBelow bound (s.run c instrs) (s'.run c instrs) := by
  induction instrs generalizing s s' with
  | nil => exact h
  | cons i rest ih =>
    exact ih (h.effect (hUses i List.mem_cons_self))
      fun j hj => hUses j (List.mem_cons_of_mem _ hj)

theorem bindAll_append {regs : Reg → Float} {params more : List Reg} {values others : List Float}
    (hLength : values.length = params.length) (hMore : r ∉ more) :
    bindAll regs (params ++ more) (values ++ others) r = bindAll regs params values r := by
  induction params generalizing regs values with
  | nil =>
    rw [List.length_eq_zero_iff.mp hLength]
    exact bindAll_of_notMem hMore others
  | cons p params ih =>
    cases values with
    | nil => simp at hLength
    | cons x values => exact ih (Nat.succ.inj hLength)

theorem bindAll_congr {regs regs' : Reg → Float} (params : List Reg) (values : List Float)
    (h : regs' r = regs r) : bindAll regs' params values r = bindAll regs params values r := by
  induction params generalizing regs regs' values with
  | nil => exact h
  | cons p params ih =>
    cases values with
    | nil => exact h
    | cons x values =>
      refine ih values ?_
      rw [h]

theorem run_heading (h : AgreeBelow body.regCount s s') (label : Label) :
    AgreeBelow body.regCount s (s'.run c (heading body params label)) := by
  unfold heading
  split
  · refine ⟨fun r hr => ?_, h.slots, (List.append_nil _).trans h.calls⟩
    refine (Instr.regs_effect_of_ne fun hEq => ?_).trans (h.regs r hr)
    have hZero : zeroReg body params = r := Option.some.inj hEq
    exact absurd hr (Nat.not_lt_of_le (hZero ▸ regCount_le_zeroReg))
  · exact h

theorem exit_feed (params : List SlotParam) {regs regs' : Reg → Float} (arg : Slot → Reg)
    {t : Terminator}
    (h : ∀ r ∈ t.uses, regs' r = regs r) :
    (t.mapEdges (feed params arg)).exit regs' =
      match t.exit regs with
      | .goto target values =>
        .goto target (values ++ (paramsOf params target).map fun p => regs' (arg p.slot))
      | other => other := by
  have hEdge : ∀ e ∈ t.edges, (feed params arg e).args.map regs' =
      e.args.map regs ++ (paramsOf params e.target).map fun p => regs' (arg p.slot) := by
    intro e he
    rw [feed, List.map_append, List.map_map]
    refine congrArg (· ++ _) (List.map_congr_left fun r hr => h r ?_)
    exact List.mem_append_right _ (List.mem_flatMap.mpr ⟨e, he, hr⟩)
  cases t with
  | ret value =>
    rw [Terminator.mapEdges, Terminator.exit, h value (by simp [Terminator.uses, Terminator.operands])]
    rfl
  | jump e =>
    rw [Terminator.mapEdges, Terminator.exit, hEdge e (by simp [Terminator.edges])]
    rfl
  | branch condition onTrue onFalse =>
    rw [Terminator.mapEdges, Terminator.exit, hEdge onTrue (by simp [Terminator.edges]),
      hEdge onFalse (by simp [Terminator.edges]),
      h condition (by simp [Terminator.uses, Terminator.operands]), Terminator.exit]
    split <;> rfl
  | unreachable => rfl

/-- What is passed to the parameters for slots has no effect on what is yielded. -/
theorem yields_fed (hShaped : body.Shaped) (hParams : SlotParams body slots params)
    (contents : Slot → Float) (c : Setting) (x : Float) (calls : List Call) :
    body.YieldsHolding c contents x calls ↔
      (fed body params arg).YieldsHolding c contents x calls := by
  have hBounded := hShaped.regsBounded
  refine @Body.yieldsHolding_iff_of_step c contents contents body (fed body params arg)
    (fun label s other s' => other = label ∧ body.Reached label ∧ AgreeBelow body.regCount s s') ?_
    ⟨rfl, .entry body, fun _ _ => rfl, rfl, rfl⟩ x calls
  rintro _ s label s' ⟨rfl, hReached, hAgree⟩
  have hEnd : AgreeBelow body.regCount (s.run c (body.block label).instrs)
      (s'.run c ((fed body params arg).block label).instrs) := by
    rw [block_fed hShaped hReached, Store.run_append]
    refine (run_heading hAgree label).run fun i hi a ha => ?_
    exact (hBounded.instr hReached hi).2 a ha
  unfold Body.outcomeFrom Body.outcome
  generalize s.run c (body.block label).instrs = t at hEnd
  generalize s'.run c ((fed body params arg).block label).instrs = t' at hEnd
  have hExit := exit_feed params (arg label)
    fun r (hr : r ∈ (body.block label).terminator.uses) =>
      hEnd.regs r (hBounded.uses label hReached r (List.mem_append_right _ hr))
  have hTerminator : ((fed body params arg).block label).terminator =
      (body.block label).terminator.mapEdges (feed params (arg label)) := by
    rw [block_fed hShaped hReached]
  rw [hTerminator, hExit]
  cases hOld : (body.block label).terminator.exit t.regs with
  | returned y =>
    dsimp only
    rw [hEnd.calls]
    exact .returned _ _
  | goto target values =>
    obtain ⟨e, he, rfl, rfl⟩ := Terminator.exists_edge hOld
    have hTarget := hReached.successor (List.mem_map_of_mem he)
    refine .entered ⟨rfl, hTarget, fun r hr => ?_, hEnd.slots, hEnd.calls⟩
    show bindAll t'.regs _ _ r = bindAll t.regs _ _ r
    rw [block_fed hShaped hTarget, bindAll_append ?_ ?_]
    · exact bindAll_congr _ _ (hEnd.regs r hr)
    · rw [List.length_map]
      exact (hShaped.edge_fits label hReached e he).2
    · intro hIn
      obtain ⟨p, hp, -, rfl⟩ := mem_regsOf.mp hIn
      exact absurd hr (Nat.not_lt_of_le (hParams.regs p hp).1)
  | stuck => exact .stuck

end Promotion

end LiveCompiler
