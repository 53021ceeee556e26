import LiveCompiler.Proofs.Graph.Finishing
import LiveCompiler.Proofs.Ir.Dominators

/-!
# The order of the blocks of a body

For a body whose entry and edges are in range the walk over its blocks comes to an end, and the
order it gives is what folding, ranking and the iteration for the dominators take it for
(`order_correct`): it starts with the entry, lists what the entry leads to, brings the dominators of
a block before the block, and an edge against it closes a cycle.
-/

namespace LiveCompiler

open Ir

namespace Ir

namespace Body

variable {body : Body}

theorem InRange.head?_order (h : body.InRange) : body.order.head? = some body.entry := by
  obtain ⟨rest, hOrder⟩ := Digraph.order_eq_cons h.root_lt
  rw [order, hOrder, List.head?_cons]

/-- The predecessors of a block are the reached blocks with an edge to it. -/
theorem InRange.mem_preds_iff (h : body.InRange) {label other : Label} :
    other ∈ body.dominance.preds label ↔
      body.Reached other ∧ label ∈ (body.block other).terminator.successors := by
  rw [dominance, Digraph.preds_ofGraph]
  split
  · rw [List.mem_filter, List.contains_iff_mem, h.mem_order_iff, succ_graph]
  · rename_i hOut
    refine iff_of_false List.not_mem_nil fun ⟨hReached, edge⟩ => hOut ?_
    have hOther := Digraph.lt_size_of_mem_order (h.mem_order_iff.mpr hReached)
    rw [size_graph] at hOther ⊢
    exact h.target_lt other hOther label edge

/-- The walk over the blocks comes to an end.  Its order lists each block that the entry leads to
once and no other, the entry first and each block behind its strict dominators.  The predecessors
of a block are the reached blocks with an edge to it, each of them once.  Where an edge does not go
forward in the order, a path leads from its end to its start. -/
theorem order_correct (h : body.InRange) :
    (∀ out, Digraph.Walk.Takes body.graph (Digraph.Walk.start body.graph body.entry) out ↔
      out = (⟨[], body.graph.search body.entry⟩, true)) ∧
    (body.graph.search body.entry).finished = body.order ∧
    (body.order.Nodup ∧ ∀ label, label ∈ body.order ↔
      ∃ path, body.graph.Path body.entry path label) ∧
    body.order.head? = some body.entry ∧
    (∀ a b, a ≠ b → b ∈ body.order → (∀ path, body.graph.Path body.entry path b → a ∈ path) →
      body.order.idxOf a < body.order.idxOf b) ∧
    (∀ b, (body.dominance.preds b).Nodup ∧ ∀ u, u ∈ body.dominance.preds b ↔
      u ∈ body.order ∧ b ∈ (body.block u).terminator.successors) ∧
    ∀ u v, u ∈ body.order → v ∈ (body.block u).terminator.successors →
      body.order.idxOf v ≤ body.order.idxOf u → ∃ path, body.graph.Path v path u := by
  refine ⟨fun _ => Digraph.walk_iff h.root_lt, rfl,
    ⟨Digraph.order_nodup _ _, fun label => ?_⟩, h.head?_order, fun a b hne hb hAll => ?_,
    fun b => ⟨Digraph.nodup_preds b, fun u => ?_⟩, fun u v hu edge hLe => ?_⟩
  · rw [order, h.mem_order_iff, Reached, Digraph.reaches_iff_exists_path]
  · exact ((Digraph.dom_iff_forall_path.mpr hAll).resolve_left hne).place_lt hb
  · rw [h.mem_preds_iff, order, h.mem_order_iff]
  · have hReached := h.mem_order_iff.mp hu
    rw [← succ_graph] at edge
    have hv := h.mem_order_iff.mpr (hReached.step edge)
    exact Digraph.reaches_iff_exists_path.mp (Digraph.reaches_of_place_le hu edge hv hLe)

/-- A loop that is entered in two places, a block with an edge to itself, a branch with the same
target twice, and a block that nothing leads to. -/
def winding : Body where
  name := "winding"
  arity := 1
  regCount := 1
  entry := 0
  slots := []
  blocks := [
    { params := [], instrs := [.param 0 0], terminator := .branch 0 ⟨2, []⟩ ⟨1, []⟩ },
    { params := [], instrs := [], terminator := .branch 0 ⟨2, []⟩ ⟨2, []⟩ },
    { params := [], instrs := [], terminator := .branch 0 ⟨1, []⟩ ⟨3, []⟩ },
    { params := [], instrs := [], terminator := .branch 0 ⟨3, []⟩ ⟨4, []⟩ },
    { params := [], instrs := [], terminator := .ret 0 },
    { params := [], instrs := [], terminator := .jump ⟨3, []⟩ }]

/-- The blocks of the two loops lead back to where their edges start.  The branch counts once among
the predecessors, and the block that is not reached does not count. -/
theorem order_correct_winding : winding.InRange ∧ winding.order = [0, 2, 3, 4, 1] ∧
    (∃ path, winding.graph.Path 2 path 1) ∧ (∃ path, winding.graph.Path 3 path 3) ∧
    ((winding.dominance.preds 2).Nodup ∧ 1 ∈ winding.dominance.preds 2) ∧
    5 ∉ winding.dominance.preds 3 ∧ ¬ ∃ path, winding.graph.Path winding.entry path 5 := by
  have hInRange : winding.InRange := ⟨by decide, by decide⟩
  have hOrder : winding.order = [0, 2, 3, 4, 1] := by decide +kernel
  have hOut : 5 ∉ winding.order := by
    rw [hOrder]
    decide
  obtain ⟨-, -, ⟨-, hListed⟩, -, -, hPreds, hBack⟩ := order_correct hInRange
  refine ⟨hInRange, hOrder, hBack 1 2 ?_ (by decide) ?_, hBack 3 3 ?_ (by decide) (Nat.le_refl _),
    ⟨(hPreds 2).1, ((hPreds 2).2 1).mpr ⟨?_, by decide⟩⟩,
    fun hMem => hOut (((hPreds 3).2 5).mp hMem).1, fun hPath => hOut ((hListed 5).mpr hPath)⟩
  all_goals
    rw [hOrder]
    decide

end Body

end Ir

end LiveCompiler
