import LiveCompiler.Proofs.Graph.Dominance
import LiveCompiler.Proofs.Ir.Ssa

/-!
# Visiting blocks behind their dominators

A sweep that comes to a block only after all blocks that strictly dominate it meets every register
first where it is written and then where it is read.  The search order is such a sweep
(`order_induction`), and so is the walk down the dominator tree (`preorder_induction`).

`SingleAssignment` is what this asks of a body: less than `Shaped`, as nothing is said of the entry,
of the number of registers and of what edges pass.  `InOrder` is what comes out for the instructions
of one block (`SingleAssignment.inOrder`), and it is all that a proof about a sweep needs to know of
dominance.
-/

namespace LiveCompiler

namespace Ir

/-- Some instruction puts a constant into a register. -/
def Body.HoldsConst (body : Body) (r : Reg) (x : Float) : Prop :=
  ∃ label, .const r x ∈ (body.block label).instrs

/-- Every register is written in one place, and is read only where every path has passed that
place before. -/
structure Body.SingleAssignment (body : Body) : Prop extends body.DefinesOnce where
  uses_known : ∀ label, body.Reached label → ∀ done i rest,
    (body.block label).instrs = done ++ i :: rest → ∀ r ∈ i.uses, body.Known label done r
  exit_known : ∀ label, body.Reached label → ∀ r ∈ (body.block label).terminator.uses,
    body.Known label (body.block label).instrs r

theorem Body.Shaped.singleAssignment {body : Body} (h : body.Shaped) : body.SingleAssignment :=
  ⟨h.definesOnce, h.uses_known, h.exit_known⟩

namespace Body.DefinesOnce

variable {body after : Body} {label other : Label} {i j : Instr} {r : Reg}

/-- Taking out definitions leaves every register with one place at most. -/
theorem of_sublist (h : body.DefinesOnce)
    (hDefs : ∀ label, (after.block label).defs.Sublist (body.block label).defs) :
    after.DefinesOnce where
  defs_nodup label := (h.defs_nodup label).sublist (hDefs label)
  defs_unique label other r hr hr' :=
    h.defs_unique label other r ((hDefs label).subset hr) ((hDefs other).subset hr')

/-- No two instructions write one register. -/
theorem instr_eq (h : body.DefinesOnce) (hi : i ∈ (body.block label).instrs)
    (hj : j ∈ (body.block other).instrs) (hDst : i.dst = some r) (hDst' : j.dst = some r) :
    i = j := by
  have hMem : r ∈ (body.block label).instrs.filterMap Instr.dst :=
    List.mem_filterMap.mpr ⟨i, hi, hDst⟩
  have hMem' : r ∈ (body.block other).instrs.filterMap Instr.dst :=
    List.mem_filterMap.mpr ⟨j, hj, hDst'⟩
  obtain rfl := h.defs_unique label other r (mem_defs.mpr (.inr hMem)) (mem_defs.mpr (.inr hMem'))
  have hNodup := h.dsts_nodup label
  rw [List.Nodup, List.pairwise_filterMap, List.pairwise_iff_getElem] at hNodup
  obtain ⟨m, hm, rfl⟩ := List.mem_iff_getElem.mp hi
  obtain ⟨n, hn, rfl⟩ := List.mem_iff_getElem.mp hj
  rcases Nat.lt_trichotomy m n with hBelow | rfl | hAbove
  · exact absurd rfl (hNodup m n hm hn hBelow r hDst r hDst')
  · rfl
  · exact absurd rfl (hNodup n m hn hm hAbove r hDst' r hDst)

end Body.DefinesOnce

/-- Instructions that read what has been written and write new registers, one after another. -/
def InOrder (written : Reg → Prop) : List Instr → Prop
  | [] => True
  | i :: rest =>
    (∀ a ∈ i.uses, written a) ∧ (∀ r, i.dst = some r → ¬ written r) ∧
      InOrder (fun r => written r ∨ i.dst = some r) rest

/-- Such instructions read nothing but what they find written and what they write. -/
theorem InOrder.written_of_mem {instrs : List Instr} :
    ∀ {written : Reg → Prop}, InOrder written instrs → ∀ i ∈ instrs, ∀ a ∈ i.uses,
      written a ∨ a ∈ instrs.filterMap Instr.dst := by
  induction instrs with
  | nil => exact fun _ _ hi => absurd hi List.not_mem_nil
  | cons j rest ih =>
    rintro written ⟨hUses, -, hRest⟩ i hi a ha
    rw [mem_dsts_cons, ← or_assoc]
    rcases List.mem_cons.mp hi with rfl | hLater
    · exact .inl (.inl (hUses a ha))
    · exact ih hRest i hLater a ha

namespace Body

variable {body after : Body} {label : Label} {visited : List Label} {r : Reg}

/-- Some of the given blocks writes a register. -/
def WrittenBy (body : Body) (labels : List Label) (r : Reg) : Prop :=
  ∃ label ∈ labels, r ∈ (body.block label).defs

/-- What has been written before the instructions of a block, when some blocks have been
visited. -/
def WrittenBefore (body : Body) (visited : List Label) (label : Label) (r : Reg) : Prop :=
  body.WrittenBy visited r ∨ r ∈ (body.block label).params

theorem writtenBy_cons :
    body.WrittenBy (label :: visited) r ↔
      body.WrittenBefore visited label r ∨ r ∈ (body.block label).instrs.filterMap Instr.dst := by
  simp only [WrittenBy, WrittenBefore, List.mem_cons, exists_eq_or_imp, mem_defs]
  rw [or_comm, or_assoc]

namespace SingleAssignment

/-- A register that a block writes has not been written by other blocks. -/
theorem not_writtenBy (h : body.SingleAssignment) (hNew : label ∉ visited)
    (hr : r ∈ (body.block label).defs) : ¬ body.WrittenBy visited r := by
  rintro ⟨other, hOther, hr'⟩
  exact hNew (h.defs_unique label other r hr hr' ▸ hOther)

/-- What is known in a block is written by the block or by one that strictly dominates it. -/
theorem writtenBefore_of_known {done : List Instr} (hKnown : body.Known label done r)
    (hAbove : ∀ d, body.graph.SDom body.entry d label → d ∈ visited) :
    body.WrittenBefore visited label r ∨ r ∈ done.filterMap Instr.dst := by
  rcases hKnown with ⟨d, hd, hDom⟩ | hParam | hDone
  · exact .inl (.inl ⟨d, hAbove d hDom, hd⟩)
  · exact .inl (.inr hParam)
  · exact .inr hDone

/-- A block that is visited behind its strict dominators reads what has been written. -/
theorem inOrder (h : body.SingleAssignment) (hReached : body.Reached label)
    (hNew : label ∉ visited)
    (hAbove : ∀ d, body.graph.SDom body.entry d label → d ∈ visited) :
    InOrder (body.WrittenBefore visited label) (body.block label).instrs := by
  suffices hFrom : ∀ (rest done : List Instr) (written : Reg → Prop),
      (body.block label).instrs = done ++ rest →
      (∀ r, written r ↔ body.WrittenBefore visited label r ∨ r ∈ done.filterMap Instr.dst) →
      InOrder written rest by
    exact hFrom _ [] _ (List.nil_append _).symm fun r => by simp
  intro rest
  induction rest with
  | nil => exact fun _ _ _ _ => trivial
  | cons i rest ih =>
    intro done written hInstrs hWritten
    have hDefs : (body.block label).defs = (body.block label).params ++
        (done.filterMap Instr.dst ++ (i :: rest).filterMap Instr.dst) := by
      rw [Block.defs, hInstrs, List.filterMap_append]
    refine ⟨fun a ha => ?_, fun r hDst hOld => ?_, ?_⟩
    · rw [hWritten]
      exact writtenBefore_of_known (h.uses_known label hReached done i rest hInstrs a ha) hAbove
    · have hHere : r ∈ (i :: rest).filterMap Instr.dst := mem_dsts_cons.mpr (.inl hDst)
      have hNodup := h.defs_nodup label
      rw [hDefs, List.nodup_append, List.nodup_append] at hNodup
      rcases (hWritten r).mp hOld with (hEarlier | hParam) | hDone
      · apply h.not_writtenBy hNew _ hEarlier
        rw [hDefs]
        exact List.mem_append_right _ (List.mem_append_right _ hHere)
      · exact hNodup.2.2 r hParam r (List.mem_append_right _ hHere) rfl
      · exact hNodup.2.1.2.2 r hDone r hHere rfl
    · apply ih (done ++ [i])
      · rw [hInstrs, List.append_assoc, List.singleton_append]
      · intro r
        rw [hWritten, List.filterMap_append, List.mem_append, mem_dsts_cons]
        simp [or_assoc]

end SingleAssignment

/-! ## Orders that bring dominators first -/

theorem mem_order_of_reached (hReached : body.Reached label) (hLt : label < body.blocks.length) :
    label ∈ body.order := by
  apply (Digraph.mem_order_iff _ _ _).mpr
  rw [size_graph]
  exact ⟨hReached, hLt⟩

theorem reached_of_mem_order (h : label ∈ body.order) : body.Reached label :=
  ((Digraph.mem_order_iff _ _ _).mp h).1

theorem lt_of_mem_order (h : label ∈ body.order) : label < body.blocks.length := by
  rw [← size_graph]
  exact ((Digraph.mem_order_iff _ _ _).mp h).2

/-- A block that is reached and holds an instruction is in the order. -/
theorem mem_order_of_mem_instrs (hReached : body.Reached label) {i : Instr}
    (hi : i ∈ (body.block label).instrs) : label ∈ body.order :=
  mem_order_of_reached hReached (lt_of_mem_instrs hi)

/-- Induction along the search order: what is kept by the visit of a block, if all its strict
dominators have been visited, holds when all blocks have been. -/
theorem order_induction {σ : Type} (visit : σ → Label → σ) (motive : List Label → σ → Prop)
    {start : σ} (first : motive [] start)
    (next : ∀ visited s label, motive visited s → label ∉ visited → label ∈ body.order →
      (∀ d, body.graph.SDom body.entry d label → d ∈ visited) →
      motive (label :: visited) (visit s label)) :
    motive body.order.reverse (body.order.foldl visit start) := by
  suffices hFrom : ∀ (todo visited : List Label) (s : σ),
      body.order = visited.reverse ++ todo → motive visited s →
      motive body.order.reverse (todo.foldl visit s) by
    exact hFrom body.order [] start rfl first
  intro todo
  induction todo with
  | nil =>
    intro visited s hOrder hs
    rw [hOrder]
    simpa using hs
  | cons label todo ih =>
    intro visited s hOrder hs
    have hMem : label ∈ body.order := by simp [hOrder]
    have hNodup : body.order.Nodup := Digraph.order_nodup _ _
    have hPairwise : body.order.Pairwise fun w x => ¬ body.graph.SDom body.entry x w :=
      Digraph.order_pairwise _ _
    rw [hOrder] at hNodup hPairwise
    apply ih (label :: visited)
    · rw [hOrder, List.reverse_cons, List.append_assoc, List.singleton_append]
    · apply next visited s label hs
      · intro hVisited
        exact (List.nodup_append.mp hNodup).2.2 label (List.mem_reverse.mpr hVisited) label
          List.mem_cons_self rfl
      · exact hMem
      · intro d hDom
        have hd : d ∈ body.order := hDom.mem_order hMem
        rw [hOrder, List.mem_append, List.mem_reverse, List.mem_cons] at hd
        rcases hd with hVisited | rfl | hLater
        · exact hVisited
        · exact absurd rfl (hDom.ne (reached_of_mem_order hMem))
        · -- No strict dominator comes later in the order.
          have hBack := (List.pairwise_append.mp hPairwise).2.1
          exact absurd hDom ((List.pairwise_cons.mp hBack).1 d hLater)

/-- Induction along the walk down the dominator tree, in which a block is visited behind all its
strict dominators, and comes with the nearest of them. -/
theorem preorder_induction {σ : Type} (visit : σ → Label × Option Label → σ)
    (motive : List Label → σ → Prop) {start : σ} (first : motive [] start)
    (next : ∀ visited s label parent, motive visited s → label ∉ visited → label ∈ body.order →
      (∀ p, parent = some p → p ∈ visited) →
      (∀ d, body.graph.SDom body.entry d label →
        d ∈ visited ∧ ∃ p, parent = some p ∧ body.graph.Dom body.entry d p) →
      motive (label :: visited) (visit s (label, parent))) :
    ∃ visited, (∀ label, label ∈ visited ↔ label ∈ body.order) ∧
      motive visited (body.dominance.preorder.foldl visit start) := by
  by_cases hRoot : body.entry < body.graph.size
  · have hEntry : body.entry ∈ body.order :=
      (Digraph.mem_order_iff _ _ _).mpr ⟨.root, hRoot⟩
    -- The walk tells only that the nearest dominator has been visited. That the visited blocks are
    -- closed under dominators is carried along, and gives the others.
    obtain ⟨visited, hVisited, hEnd, -⟩ := Dominance.walk_induction hRoot visit start
      (fun visited s => motive visited s ∧
        ∀ v ∈ visited, ∀ d, body.graph.SDom body.entry d v → d ∈ visited)
      ⟨next [] start body.entry none first List.not_mem_nil hEntry nofun
          fun d hDom => absurd .root hDom, by
        intro v hv d hDom
        rw [List.mem_singleton.mp hv] at hDom
        exact absurd .root hDom⟩
      (by
        rintro visited s v u ⟨hs, hClosed⟩ hNew hv hne hIdom hu
        obtain ⟨hParent, hNearest⟩ := Dominance.idom_spec hv hne hIdom
        have hAbove : ∀ d, body.graph.SDom body.entry d v → d ∈ visited := by
          intro d hDom
          rcases hNearest d hDom with rfl | hBefore
          · exact hu
          · exact hClosed u hu d hBefore
        refine ⟨next visited s v (some u) hs hNew hv (fun p hp => Option.some.inj hp ▸ hu)
          (fun d hDom => ⟨hAbove d hDom, u, rfl, hNearest d hDom⟩), ?_⟩
        intro w hw d hDom
        rcases List.mem_cons.mp hw with rfl | hOld
        · exact List.mem_cons_of_mem _ (hAbove d hDom)
        · exact List.mem_cons_of_mem _ (hClosed w hOld d hDom))
    exact ⟨visited, hVisited, hEnd⟩
  · -- Without an entry no block is in the order, and the walk is empty.
    have hOrder : body.order = [] := by
      apply List.eq_nil_iff_forall_not_mem.mpr
      exact fun label hMem => hRoot (Digraph.root_lt_size hMem)
    have hPreorder : body.dominance.preorder = [] := by
      unfold Dominance.preorder
      rw [show body.dominance.order = [] from hOrder]
      rfl
    refine ⟨[], by simp [hOrder], ?_⟩
    rw [hPreorder]
    exact first

/-- Bodies with the same successors everywhere have the same graph. -/
theorem graph_congr (hLength : after.blocks.length = body.blocks.length)
    (hSucc : ∀ label, (after.block label).terminator.successors =
      (body.block label).terminator.successors) : after.graph = body.graph := by
  have hLists : after.blocks.map (fun b => b.terminator.successors) =
      body.blocks.map fun b => b.terminator.successors := by
    apply List.ext_getElem
    · simp [hLength]
    · intro label hLt hLt'
      rw [List.length_map] at hLt hLt'
      simp only [List.getElem_map]
      rw [← block_of_lt hLt, ← block_of_lt hLt']
      exact hSucc label
  unfold graph
  rw [hLists]

end Body

end Ir

end LiveCompiler
