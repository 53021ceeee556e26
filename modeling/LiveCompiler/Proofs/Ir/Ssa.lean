import LiveCompiler.Proofs.Graph.Search
import LiveCompiler.Proofs.Ir.Blocks
import LiveCompiler.Proofs.Ir.Run
import Mathlib.Data.List.Nodup

/-!
# Registers that are written in one place

In a shaped body every register is written in one place, and is read only where every
path has passed that place before.  `Body.Known` says that a register has been written at a
point of a block; `Body.Shaped` collects what this takes.  Promotion also needs that no edge
leads back to the entry (`Body.Rooted`), and `Body.WellFormed` collects all that the passes keep.

Two consequences carry the passes.  What an instruction reads is known wherever its own
register is known (`WrittenAt.known_of_known`).  And what holds of a register when it is
written, in terms of registers known there, holds as long as it is known
(`Visits.persists`); so a pure instruction can be read as an equation (`Visits.pure_value`).
-/

namespace LiveCompiler

namespace Ir

namespace Body

/-- A block that every path to a label passes before writes a register. -/
def Available (body : Body) (label : Label) (r : Reg) : Prop :=
  ∃ d, r ∈ (body.block d).defs ∧ body.graph.SDom body.entry d label

/-- A register has been written when the given instructions of a block are done. -/
def Known (body : Body) (label : Label) (done : List Instr) (r : Reg) : Prop :=
  body.Available label r ∨ r ∈ (body.block label).params ∨ r ∈ done.filterMap Instr.dst

/-- A point of a body: a block that the entry leads to, and the instructions done in it. -/
structure Point (body : Body) (label : Label) (done : List Instr) : Prop where
  reached : body.Reached label
  front : done <+: (body.block label).instrs

end Body

/-- What an instruction may name: parameters, slots, and functions with so many values. -/
def Instr.Legal (callable : FuncId → Nat → Prop) (arity slotCount : Nat) : Instr → Prop
  | param _ index => index.toNat < arity
  | load _ slot => slot < slotCount
  | store slot _ => slot < slotCount
  | call _ callee args => callable callee args.length
  | _ => True

theorem Instr.Legal.mono {callable : FuncId → Nat → Prop} {arity slotCount more : Nat} {i : Instr}
    (h : i.Legal callable arity slotCount) (hLe : slotCount ≤ more) :
    i.Legal callable arity more := by
  cases i with
  | load dst slot => exact Nat.lt_of_lt_of_le h hLe
  | store slot src => exact Nat.lt_of_lt_of_le h hLe
  | _ => exact h

/-- Every register is written in one place. -/
structure Body.DefinesOnce (body : Body) : Prop where
  defs_nodup : ∀ label, (body.block label).defs.Nodup
  defs_unique : ∀ label other r, r ∈ (body.block label).defs → r ∈ (body.block other).defs →
    label = other

/-- Every register is written in one place and read only where it has been written, and every
edge passes one value to each parameter of its target. -/
structure Body.Shaped (body : Body) : Prop where
  entry_lt : body.entry < body.blocks.length
  entry_params : (body.block body.entry).params = []
  defs_nodup : ∀ label, (body.block label).defs.Nodup
  defs_unique : ∀ label other r, r ∈ (body.block label).defs → r ∈ (body.block other).defs →
    label = other
  defs_lt : ∀ label, ∀ r ∈ (body.block label).defs, r < body.regCount
  uses_known : ∀ label, body.Reached label → ∀ done i rest,
    (body.block label).instrs = done ++ i :: rest → ∀ r ∈ i.uses, body.Known label done r
  exit_known : ∀ label, body.Reached label → ∀ r ∈ (body.block label).terminator.uses,
    body.Known label (body.block label).instrs r
  edge_fits : ∀ label, body.Reached label → ∀ e ∈ (body.block label).terminator.edges,
    e.target < body.blocks.length ∧ e.args.length = (body.block e.target).params.length

/-- A shaped body in which no edge leads back to the entry. -/
structure Body.Rooted (body : Body) : Prop extends body.Shaped where
  entry_first : ∀ label, body.Reached label →
    body.entry ∉ (body.block label).terminator.successors

/-- A rooted body in which blocks have an end and instructions name what there is. -/
structure Body.WellFormed (callable : FuncId → Nat → Prop) (body : Body) : Prop
    extends body.Rooted where
  ends : ∀ label, body.Reached label → (body.block label).terminator ≠ .unreachable
  legal : ∀ label, body.Reached label → ∀ i ∈ (body.block label).instrs,
    i.Legal callable body.arity body.slots.length

/-- The entry leads to every block. -/
def Body.Connected (body : Body) : Prop :=
  ∀ label, label < body.blocks.length → body.Reached label

namespace Body

theorem mem_defs {body : Body} {label : Label} {r : Reg} :
    r ∈ (body.block label).defs ↔
      r ∈ (body.block label).params ∨ r ∈ (body.block label).instrs.filterMap Instr.dst :=
  List.mem_append

theorem Shaped.definesOnce {body : Body} (h : body.Shaped) : body.DefinesOnce :=
  ⟨h.defs_nodup, h.defs_unique⟩

/-! ## Definitions -/

namespace DefinesOnce

variable {body : Body} {label other : Label} {i : Instr} {r : Reg}

theorem params_nodup (h : body.DefinesOnce) (label : Label) : (body.block label).params.Nodup :=
  (List.nodup_append.mp (h.defs_nodup label)).1

theorem dsts_nodup (h : body.DefinesOnce) (label : Label) :
    ((body.block label).instrs.filterMap Instr.dst).Nodup :=
  (List.nodup_append.mp (h.defs_nodup label)).2.1

/-- No two blocks have a parameter in common. -/
theorem params_unique (h : body.DefinesOnce) (hr : r ∈ (body.block label).params)
    (hr' : r ∈ (body.block other).params) : label = other :=
  h.defs_unique label other r (mem_defs.mpr (.inl hr)) (mem_defs.mpr (.inl hr'))

/-- A register that is written in a block is no parameter. -/
theorem notMem_params (h : body.DefinesOnce)
    (hr : r ∈ (body.block label).instrs.filterMap Instr.dst) : r ∉ (body.block other).params := by
  intro hParam
  obtain rfl := h.defs_unique label other r (mem_defs.mpr (.inr hr)) (mem_defs.mpr (.inl hParam))
  exact (List.nodup_append.mp (h.defs_nodup label)).2.2 r hParam r hr rfl

theorem dst_notMem_params (h : body.DefinesOnce) (hi : i ∈ (body.block label).instrs)
    (hDst : i.dst = some r) : r ∉ (body.block other).params :=
  h.notMem_params (List.mem_filterMap.mpr ⟨i, hi, hDst⟩)

end DefinesOnce

/-! ## What is known where -/

theorem Point.start {body : Body} {label : Label} (h : body.Reached label) :
    body.Point label [] :=
  ⟨h, List.nil_prefix⟩

theorem Point.all {body : Body} {label : Label} (h : body.Reached label) :
    body.Point label (body.block label).instrs :=
  ⟨h, List.prefix_refl _⟩

theorem Point.before {body : Body} {label : Label} (h : body.Reached label) {done : List Instr}
    {i : Instr} {rest : List Instr} (hInstrs : (body.block label).instrs = done ++ i :: rest) :
    body.Point label done :=
  ⟨h, _, hInstrs.symm⟩

theorem Point.after {body : Body} {label : Label} (h : body.Reached label) {done : List Instr}
    {i : Instr} {rest : List Instr} (hInstrs : (body.block label).instrs = done ++ i :: rest) :
    body.Point label (done ++ [i]) :=
  ⟨h, rest, by rw [hInstrs, List.append_assoc, List.singleton_append]⟩

variable {body : Body} {label : Label} {done : List Instr} {r : Reg}

theorem Known.mono {more : List Instr} (h : body.Known label done r) (hMore : done <+: more) :
    body.Known label more r :=
  h.imp_right fun h => h.imp_right fun h => (hMore.filterMap Instr.dst).subset h

theorem known_snoc {i : Instr} :
    body.Known label (done ++ [i]) r ↔ body.Known label done r ∨ i.dst = some r := by
  unfold Known
  rw [List.filterMap_append, List.mem_append, or_assoc, or_assoc]
  simp only [List.mem_filterMap, List.mem_singleton, exists_eq_left]

/-- What is known in a block, and not available there, is written by the block. -/
theorem Known.mem_defs (h : body.Known label done r)
    (hFront : done <+: (body.block label).instrs) :
    body.Available label r ∨ r ∈ (body.block label).defs := by
  rcases h with hAvailable | hParam | hDone
  · exact .inl hAvailable
  · exact .inr (Body.mem_defs.mpr (.inl hParam))
  · exact .inr (Body.mem_defs.mpr (.inr ((hFront.filterMap Instr.dst).subset hDone)))

theorem known_of_mem_defs (h : r ∈ (body.block label).defs) :
    body.Known label (body.block label).instrs r :=
  .inr (Body.mem_defs.mp h)

/-- What is known is written in a block that the entry leads to. -/
theorem Known.exists_def (h : body.Known label done r) (hPoint : body.Point label done) :
    ∃ d, body.Reached d ∧ r ∈ (body.block d).defs := by
  rcases h.mem_defs hPoint.front with ⟨d, hd, hDom⟩ | hMem
  · exact ⟨d, hDom.reaches hPoint.reached, hd⟩
  · exact ⟨label, hPoint.reached, hMem⟩

/-- What is available at the end of an edge is known before the edge. -/
theorem Available.known_of_edge {target : Label} (h : body.Available target r)
    (hTarget : target ∈ (body.block label).terminator.successors) :
    body.Known label (body.block label).instrs r := by
  obtain ⟨d, hd, hDom⟩ := h
  rcases hDom.dom_of_edge (body.succ_graph label ▸ hTarget) with rfl | hDom
  · exact known_of_mem_defs hd
  · exact .inl ⟨d, hd, hDom⟩

/-- What is known in a block is available wherever the block has been passed. -/
theorem Known.available_of_sdom {target : Label} (h : body.Known label done r)
    (hFront : done <+: (body.block label).instrs)
    (hDom : body.graph.SDom body.entry label target) : body.Available target r := by
  rcases h.mem_defs hFront with ⟨d, hd, hBefore⟩ | hMem
  · exact ⟨d, hd, hBefore.trans hDom⟩
  · exact ⟨label, hMem, hDom⟩

end Body

/-- A register is written by an instruction at a point of a body. -/
structure Body.WrittenAt (body : Body) (label : Label) (done : List Instr) (i : Instr)
    (r : Reg) : Prop where
  reached : body.Reached label
  instrs : ∃ rest, (body.block label).instrs = done ++ i :: rest
  dst : i.dst = some r

namespace Body

variable {callable : FuncId → Nat → Prop} {body : Body} {label target : Label}
  {done : List Instr} {i : Instr} {r a : Reg}

theorem WrittenAt.point (h : body.WrittenAt label done i r) : body.Point label done :=
  ⟨h.reached, h.instrs.elim fun _ hInstrs => ⟨_, hInstrs.symm⟩⟩

theorem WrittenAt.mem_dsts (h : body.WrittenAt label done i r) :
    r ∈ (body.block label).instrs.filterMap Instr.dst := by
  obtain ⟨rest, hInstrs⟩ := h.instrs
  rw [hInstrs]
  exact List.mem_filterMap.mpr ⟨i, by simp, h.dst⟩

theorem WrittenAt.mem_defs (h : body.WrittenAt label done i r) :
    r ∈ (body.block label).defs :=
  Body.mem_defs.mpr (.inr h.mem_dsts)

theorem exists_writtenAt (hReached : body.Reached label) (hi : i ∈ (body.block label).instrs)
    (hDst : i.dst = some r) : ∃ done, body.WrittenAt label done i r := by
  obtain ⟨done, rest, hInstrs⟩ := List.append_of_mem hi
  exact ⟨done, hReached, ⟨rest, hInstrs⟩, hDst⟩

theorem Shaped.notAvailable (hShaped : body.Shaped) (hReached : body.Reached label)
    (hr : r ∈ (body.block label).defs) : ¬ body.Available label r := by
  rintro ⟨d, hd, hDom⟩
  obtain rfl := hShaped.defs_unique d label r hd hr
  exact hDom.ne hReached rfl

/-- A register is not known before it is written. -/
theorem Shaped.notKnown (hShaped : body.Shaped)
    (h : body.WrittenAt label done i r) : ¬ body.Known label done r := by
  have hNodup := hShaped.defs_nodup label
  obtain ⟨rest, hInstrs⟩ := h.instrs
  have hDefs : (body.block label).defs =
      (body.block label).params ++ (done.filterMap Instr.dst ++ r :: rest.filterMap Instr.dst) := by
    unfold Block.defs
    rw [hInstrs, List.filterMap_append, List.filterMap_cons, h.dst]
  rintro (hAvailable | hParam | hDone)
  · exact hShaped.notAvailable h.reached h.mem_defs hAvailable
  · rw [hDefs] at hNodup
    exact (List.nodup_append.mp hNodup).2.2 r hParam r (by simp) rfl
  · rw [hDefs] at hNodup
    have hInner := (List.nodup_append.mp hNodup).2.1
    exact (List.nodup_append.mp hInner).2.2 r hDone r (by simp) rfl

/-- What an instruction writes is not written again later in its block. -/
theorem Shaped.dst_notMem_rest (hShaped : body.Shaped) {rest : List Instr}
    (hInstrs : (body.block label).instrs = done ++ i :: rest) (hDst : i.dst = some r) :
    r ∉ rest.filterMap Instr.dst := by
  have hNodup := hShaped.definesOnce.dsts_nodup label
  rw [hInstrs, List.filterMap_append, List.filterMap_cons, hDst] at hNodup
  exact (List.nodup_cons.mp (List.nodup_append.mp hNodup).2.1).1

/-- A register is written at one point. -/
theorem WrittenAt.unique (hShaped : body.Shaped) {other : Label}
    {before : List Instr} {j : Instr} (h : body.WrittenAt label done i r)
    (h' : body.WrittenAt other before j r) : label = other ∧ done = before ∧ i = j := by
  obtain rfl := hShaped.defs_unique label other r h.mem_defs h'.mem_defs
  obtain ⟨rest, hInstrs⟩ := h.instrs
  obtain ⟨rest', hInstrs'⟩ := h'.instrs
  refine ⟨rfl, ?_⟩
  have hNot : ∀ (before : List Instr) {after : List Instr} {j k : Instr}, body.WrittenAt label after k r →
      j.dst = some r → ¬ before ++ [j] <+: after := by
    intro before after j k hk hj hFront
    refine hShaped.notKnown hk (.inr (.inr ?_))
    exact (hFront.filterMap Instr.dst).subset (List.mem_filterMap.mpr ⟨j, by simp, hj⟩)
  have hSplit : done ++ i :: rest = before ++ j :: rest' := hInstrs.symm.trans hInstrs'
  rcases append_eq_append_cons_cases hSplit with ⟨mid, hMid, hRest⟩ | ⟨mid, hMid⟩
  · cases mid with
    | nil =>
      rw [List.append_nil] at hMid
      exact ⟨hMid.symm, (List.cons.inj hRest).1⟩
    | cons k mid =>
      obtain rfl := (List.cons.inj hRest).1
      exact absurd ⟨mid, by rw [hMid]; simp⟩ (hNot done h' h.dst)
  · exact absurd ⟨mid, by rw [hMid]; simp⟩ (hNot before h h'.dst)

/-- What is known where a register is written is known wherever the register is. -/
theorem WrittenAt.known_of_known (hShaped : body.Shaped)
    (h : body.WrittenAt label done i r) (ha : body.Known label done a)
    {other : Label} {more : List Instr} (hPoint : body.Point other more)
    (hr : body.Known other more r) : body.Known other more a := by
  rcases hr with ⟨d, hd, hDom⟩ | hParam | hDone
  · obtain rfl := hShaped.defs_unique d label r hd h.mem_defs
    exact .inl (ha.available_of_sdom h.point.front hDom)
  · exact absurd hParam (hShaped.definesOnce.notMem_params h.mem_dsts)
  · obtain ⟨j, hj, hDst⟩ := List.mem_filterMap.mp hDone
    obtain ⟨before, after, hMore⟩ := List.append_of_mem hj
    obtain ⟨tail, hTail⟩ := hPoint.front
    have hWritten : body.WrittenAt other before j r :=
      ⟨hPoint.reached, ⟨after ++ tail, by rw [← hTail, hMore]; simp⟩, hDst⟩
    obtain ⟨rfl, rfl, rfl⟩ := h.unique hShaped hWritten
    exact ha.mono ⟨i :: after, hMore.symm⟩

/-- What an instruction reads is known wherever its register is. -/
theorem WrittenAt.use_known (hShaped : body.Shaped)
    (h : body.WrittenAt label done i r) (ha : a ∈ i.uses)
    {other : Label} {more : List Instr} (hPoint : body.Point other more)
    (hr : body.Known other more r) : body.Known other more a := by
  obtain ⟨rest, hInstrs⟩ := h.instrs
  exact h.known_of_known hShaped (hShaped.uses_known label h.reached done i rest hInstrs a ha) hPoint hr

/-- An instruction leaves the registers known before it as they are. -/
theorem Shaped.regs_effect (hShaped : body.Shaped) {c : Setting} {s : Store}
    {rest : List Instr} (hReached : body.Reached label)
    (hInstrs : (body.block label).instrs = done ++ i :: rest)
    (ha : body.Known label done a) : (i.effect c s).regs a = s.regs a :=
  Instr.regs_effect_of_ne fun hDst => hShaped.notKnown ⟨hReached, ⟨rest, hInstrs⟩, hDst⟩ ha

/-- The parameters of a block leave the registers available there as they are. -/
theorem Shaped.regs_bind (hShaped : body.Shaped) {s : Store} {values : List Float}
    (hReached : body.Reached label) (ha : body.Available label a) :
    (s.bind (body.block label).params values).regs a = s.regs a :=
  bindAll_of_notMem
    (fun hParam => hShaped.notAvailable hReached (Body.mem_defs.mpr (.inl hParam)) ha) values

theorem size_graph (body : Body) : body.graph.size = body.blocks.length := by
  simp [graph, Digraph.size]

theorem Shaped.lt_of_reached (hShaped : body.Shaped) (hReached : body.Reached label) :
    label < body.blocks.length := by
  cases hReached with
  | root => exact hShaped.entry_lt
  | @step p _ path _ edge =>
    have hBefore : body.Reached p := path
    rw [succ_graph] at edge
    obtain ⟨e, he, rfl⟩ := List.mem_map.mp edge
    exact (hShaped.edge_fits p hBefore e he).1

/-- The search lists the blocks that the entry leads to. -/
theorem Shaped.mem_order_iff (hShaped : body.Shaped) :
    label ∈ body.order ↔ body.Reached label := by
  unfold order
  rw [Digraph.mem_order_iff, size_graph]
  exact ⟨And.left, fun hReached => ⟨hReached, hShaped.lt_of_reached hReached⟩⟩

/-- Without slots there are no loads and stores. -/
theorem WellFormed.slotless (hWf : body.WellFormed callable) (hSlots : body.slots = [])
    (hReached : body.Reached label) (hi : i ∈ (body.block label).instrs) :
    (∀ dst slot, i ≠ .load dst slot) ∧ ∀ slot src, i ≠ .store slot src := by
  have hLegal := hWf.legal label hReached i hi
  rw [hSlots] at hLegal
  constructor
  · rintro dst slot rfl
    exact Nat.not_lt_zero slot hLegal
  · rintro slot src rfl
    exact Nat.not_lt_zero slot hLegal

theorem Shaped.regsBounded (hShaped : body.Shaped) : body.RegsBounded where
  defs label _ := hShaped.defs_lt label
  uses label hReached r hr := by
    have hKnown : ∃ done, body.Point label done ∧ body.Known label done r := by
      rcases List.mem_append.mp hr with hInstr | hExit
      · obtain ⟨i, hi, hUse⟩ := List.mem_flatMap.mp hInstr
        obtain ⟨done, rest, hInstrs⟩ := List.append_of_mem hi
        exact ⟨done, Point.before hReached hInstrs,
          hShaped.uses_known label hReached done i rest hInstrs r hUse⟩
      · exact ⟨_, Point.all hReached, hShaped.exit_known label hReached r hExit⟩
    obtain ⟨done, hPoint, hKnown⟩ := hKnown
    obtain ⟨d, -, hd⟩ := hKnown.exists_def hPoint
    exact hShaped.defs_lt d r hd

/-! ## The stores of a run -/

/-- A run that starts with some of the allowed contents in its slots comes to a point with a
store. -/
inductive Visits (starts : Starts) (c : Setting) (body : Body) :
    Label → List Instr → Store → Prop
  | start {contents : Slot → Float} (allowed : starts contents) :
      Visits starts c body body.entry [] (Store.holding contents)
  | instr {label : Label} {done : List Instr} {i : Instr} {rest : List Instr} {s : Store}
      (visit : Visits starts c body label done s)
      (instrs : (body.block label).instrs = done ++ i :: rest) :
      Visits starts c body label (done ++ [i]) (i.effect c s)
  | edge {label target : Label} {s : Store} {values : List Float}
      (visit : Visits starts c body label (body.block label).instrs s)
      (exit : (body.block label).terminator.exit s.regs = .goto target values) :
      Visits starts c body target [] (s.bind (body.block target).params values)

end Body

/-- A terminator goes along one of its edges and passes the values of its registers. -/
theorem Terminator.exists_edge {t : Terminator} {regs : Reg → Float} {target : Label}
    {values : List Float} (h : t.exit regs = .goto target values) :
    ∃ e ∈ t.edges, e.target = target ∧ values = e.args.map regs := by
  cases t with
  | ret value => simp [exit] at h
  | jump e =>
    obtain ⟨rfl, rfl⟩ := Exit.goto.inj h
    exact ⟨e, by simp [edges], rfl, rfl⟩
  | branch condition onTrue onFalse =>
    simp only [exit] at h
    split at h
    · obtain ⟨rfl, rfl⟩ := Exit.goto.inj h
      exact ⟨onTrue, by simp [edges], rfl, rfl⟩
    · obtain ⟨rfl, rfl⟩ := Exit.goto.inj h
      exact ⟨onFalse, by simp [edges], rfl, rfl⟩
  | unreachable => simp [exit] at h

/-- A pure instruction writes a register. -/
theorem Instr.exists_dst {i : Instr} (hPure : i.isPure = true) : ∃ r, i.dst = some r := by
  cases i with
  | store slot src => simp [isPure] at hPure
  | _ => exact ⟨_, rfl⟩

/-- A pure instruction makes no call. -/
theorem Instr.made_of_isPure {i : Instr} (hPure : i.isPure = true) (regs : Reg → Float) :
    i.made regs = [] := by
  cases i with
  | call dst callee args => simp [isPure] at hPure
  | _ => rfl

/-- A pure instruction writes no slot. -/
theorem Instr.stored_of_isPure {i : Instr} (hPure : i.isPure = true) : i.stored = none := by
  cases i with
  | store slot src => simp [isPure] at hPure
  | _ => rfl

/-- A pure instruction computes from the registers that it reads. -/
theorem Instr.value_congr {c : Setting} {i : Instr} (hPure : i.isPure = true) {s t : Store}
    (h : ∀ r ∈ i.uses, s.regs r = t.regs r) : i.value c s = i.value c t := by
  cases i with
  | const dst value => rfl
  | param dst index => rfl
  | load dst slot => simp [isPure] at hPure
  | store slot src => simp [isPure] at hPure
  | arith op dst left right =>
    simp only [value, h left (by simp [uses]), h right (by simp [uses])]
  | less dst left right =>
    simp only [value, h left (by simp [uses]), h right (by simp [uses])]
  | call dst callee args => simp [isPure] at hPure

namespace Body

variable {starts : Starts} {c : Setting} {body : Body} {label target : Label}
  {done : List Instr} {i : Instr} {r a : Reg} {s : Store}

theorem Visits.point (h : body.Visits starts c label done s) : body.Point label done := by
  induction h with
  | start => exact Point.start (Reached.entry body)
  | instr _ hInstrs ih => exact Point.after ih.reached hInstrs
  | edge _ hExit ih =>
    obtain ⟨e, he, rfl, -⟩ := Terminator.exists_edge hExit
    exact Point.start (ih.reached.successor (List.mem_map_of_mem he))

theorem Visits.run {rest : List Instr} (h : body.Visits starts c label done s)
    (hInstrs : (body.block label).instrs = done ++ rest) :
    body.Visits starts c label (body.block label).instrs (s.run c rest) := by
  induction rest generalizing done s with
  | nil =>
    rw [List.append_nil] at hInstrs
    rw [hInstrs]
    exact h
  | cons i rest ih =>
    refine ih (h.instr hInstrs) ?_
    rw [hInstrs, List.append_assoc, List.singleton_append]

/-- A function of the registers that looks at some of them only. -/
def DependsOn (f : (Reg → Float) → Float) (support : List Reg) : Prop :=
  ∀ regs regs' : Reg → Float, (∀ a ∈ support, regs a = regs' a) → f regs = f regs'

section Persists

variable {f : (Reg → Float) → Float} {support : List Reg} {home : Label}
  {before : List Instr} {j : Instr}

/-- An equation for a register, in terms of registers known where it is written, is kept by
an instruction. -/
theorem WrittenAt.persists_instr (hShaped : body.Shaped)
    (hAt : body.WrittenAt home before j r) (hDepends : DependsOn f support)
    (hSupport : ∀ a ∈ support, body.Known home before a) {rest : List Instr}
    (hReached : body.Reached label) (hInstrs : (body.block label).instrs = done ++ i :: rest)
    (hBefore : body.Known label done r → s.regs r = f s.regs)
    (hHere : i.dst = some r → i.value c s = f s.regs)
    (hr : body.Known label (done ++ [i]) r) :
    (i.effect c s).regs r = f (i.effect c s).regs := by
  have hUnchanged : (∀ a ∈ support, body.Known label done a) →
      f (i.effect c s).regs = f s.regs := fun hKnown =>
    hDepends _ _ fun a ha => hShaped.regs_effect hReached hInstrs (hKnown a ha)
  rcases known_snoc.mp hr with hKnown | hDst
  · rw [hShaped.regs_effect hReached hInstrs hKnown, hBefore hKnown]
    refine (hUnchanged fun a ha => ?_).symm
    exact hAt.known_of_known hShaped (hSupport a ha) (Point.before hReached hInstrs) hKnown
  · rw [Instr.regs_effect_of_eq hDst, hHere hDst]
    obtain ⟨rfl, rfl, rfl⟩ := hAt.unique hShaped ⟨hReached, ⟨rest, hInstrs⟩, hDst⟩
    exact (hUnchanged hSupport).symm

/-- Such an equation is kept by an edge. -/
theorem WrittenAt.persists_edge (hShaped : body.Shaped)
    (hAt : body.WrittenAt home before j r) (hDepends : DependsOn f support)
    (hSupport : ∀ a ∈ support, body.Known home before a) (hReached : body.Reached label)
    (hTarget : target ∈ (body.block label).terminator.successors) {values : List Float}
    (hBefore : body.Known label (body.block label).instrs r → s.regs r = f s.regs)
    (hr : body.Known target [] r) :
    (s.bind (body.block target).params values).regs r =
      f (s.bind (body.block target).params values).regs := by
  have hReached' := hReached.successor hTarget
  rcases hr with hAvailable | hParam | hNone
  · rw [hShaped.regs_bind hReached' hAvailable, hBefore (hAvailable.known_of_edge hTarget)]
    refine hDepends _ _ fun a ha => (hShaped.regs_bind hReached' ?_).symm
    obtain ⟨d, hd, hDom⟩ := hAvailable
    obtain rfl := hShaped.defs_unique d home r hd hAt.mem_defs
    exact (hSupport a ha).available_of_sdom hAt.point.front hDom
  · exact absurd hParam (hShaped.definesOnce.notMem_params hAt.mem_dsts)
  · simp at hNone

/-- What holds of a register when it is written, in terms of registers known there, holds
as long as the register is known. -/
theorem Visits.persists (hShaped : body.Shaped)
    (hAt : body.WrittenAt home before j r) (hDepends : DependsOn f support)
    (hSupport : ∀ a ∈ support, body.Known home before a)
    (hHere : ∀ s, body.Visits starts c home before s → j.value c s = f s.regs)
    (hVisit : body.Visits starts c label done s) (hr : body.Known label done r) :
    s.regs r = f s.regs := by
  induction hVisit with
  | start =>
    obtain ⟨d, hd, hDom⟩ | hParam | hNone := hr
    · exact absurd .root hDom
    · rw [hShaped.entry_params] at hParam
      simp at hParam
    · simp at hNone
  | instr visit hInstrs ih =>
    refine hAt.persists_instr hShaped hDepends hSupport visit.point.reached hInstrs ih ?_ hr
    intro hDst
    obtain ⟨rfl, rfl, rfl⟩ := hAt.unique hShaped ⟨visit.point.reached, ⟨_, hInstrs⟩, hDst⟩
    exact hHere _ visit
  | edge visit hExit ih =>
    obtain ⟨e, he, rfl, -⟩ := Terminator.exists_edge hExit
    exact hAt.persists_edge hShaped hDepends hSupport visit.point.reached (List.mem_map_of_mem he)
      ih hr

/-- As long as the register of a pure instruction is known, it holds what the instruction
computes. -/
theorem Visits.pure_value (hShaped : body.Shaped)
    (hAt : body.WrittenAt home before j r) (hPure : j.isPure = true)
    (hVisit : body.Visits starts c label done s) (hr : body.Known label done r) :
    s.regs r = j.value c s := by
  obtain ⟨rest, hInstrs⟩ := hAt.instrs
  have hEq : s.regs r = j.value c { Store.initial with regs := s.regs } :=
    hVisit.persists (f := fun regs => j.value c { Store.initial with regs := regs }) hShaped hAt
      (fun _ _ h => Instr.value_congr hPure h)
      (hShaped.uses_known home hAt.reached before j rest hInstrs)
      (fun _ _ => Instr.value_congr hPure fun _ _ => rfl) hr
  exact hEq.trans (Instr.value_congr hPure fun _ _ => rfl)

end Persists

/-! ## Registers that stand for one another -/

/-- Wherever `a` is known so is `b`, and in the given stores they hold the same value. -/
structure Stands (body : Body) (on : Label → List Instr → Store → Prop) (a b : Reg) : Prop where
  known : ∀ label done, body.Point label done → body.Known label done a →
    body.Known label done b
  equal : ∀ label done s, body.Point label done → on label done s → body.Known label done a →
    s.regs a = s.regs b

variable {on : Label → List Instr → Store → Prop}

theorem Stands.refl (r : Reg) : body.Stands on r r :=
  ⟨fun _ _ _ h => h, fun _ _ _ _ _ _ => rfl⟩

theorem Stands.trans {a b r : Reg} (h : body.Stands on a b) (h' : body.Stands on b r) :
    body.Stands on a r where
  known label done hPoint ha := h'.known label done hPoint (h.known label done hPoint ha)
  equal label done s hPoint hs ha :=
    (h.equal label done s hPoint hs ha).trans
      (h'.equal label done s hPoint hs (h.known label done hPoint ha))

end Body

end Ir

end LiveCompiler
