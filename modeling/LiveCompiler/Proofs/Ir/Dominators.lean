import LiveCompiler.Proofs.Graph.Dominance
import LiveCompiler.Proofs.Ir.Ssa

/-!
# The dominators of the blocks of a body

For a body whose entry and edges are in range the analysis comes to an end with no bound on its
loops, and its answers are those that the paths from the entry give (`dominance_correct`): whether a
block dominates another one, the immediate dominator, and the children in the dominator tree.
-/

namespace LiveCompiler

open Ir

namespace Ir

namespace Body

/-- The entry and the targets of all edges are blocks. -/
structure InRange (body : Body) : Prop where
  entry_lt : body.entry < body.blocks.length
  target_lt : ∀ label < body.blocks.length, ∀ target ∈ (body.block label).terminator.successors,
    target < body.blocks.length

variable {body : Body}

theorem InRange.root_lt (h : body.InRange) : body.entry < body.graph.size := by
  rw [size_graph]
  exact h.entry_lt

theorem InRange.mem_order_iff (h : body.InRange) {label : Label} :
    label ∈ body.graph.order body.entry ↔ body.Reached label := by
  rw [Digraph.mem_order_iff, size_graph]
  refine ⟨And.left, fun hReached => ⟨hReached, ?_⟩⟩
  cases hReached with
  | root => exact h.entry_lt
  | step _ _ edge =>
    have hFrom := Digraph.lt_size_of_mem_succ edge
    rw [size_graph] at hFrom
    rw [succ_graph] at edge
    exact h.target_lt _ hFrom _ edge

theorem InRange.dominates_iff (h : body.InRange) {a b : Label} :
    body.dominance.dominates a b = true ↔ body.Reached b ∧ body.graph.Dom body.entry a b :=
  (Dominance.dominates_iff a b).trans (and_congr_left' h.mem_order_iff)

/-- The immediate dominator of a block is the one strict dominator that the others dominate. -/
theorem InRange.idom_iff (h : body.InRange) {b u : Label} (hReached : body.Reached b)
    (hne : b ≠ body.entry) :
    body.dominance.idom b = some u ↔ u ≠ b ∧ body.dominance.dominates u b = true ∧
      ∀ a, a ≠ b → a ≠ u → body.dominance.dominates a b = true →
        body.dominance.dominates a u = true := by
  obtain ⟨w, hIdom, hStrict, hNearest⟩ :=
    Dominance.exists_idom (h.mem_order_iff.mpr hReached) hne
  have hw : body.Reached w := hStrict.reaches hReached
  have hFound : ∀ a, a ≠ b → body.dominance.dominates a b = true →
      body.graph.Dom body.entry a w := fun a ha hDom =>
    hNearest a ((h.dominates_iff.mp hDom).2.resolve_left ha)
  constructor
  · intro hEq
    obtain rfl : w = u := Option.some.inj (hIdom.symm.trans hEq)
    exact ⟨hStrict.ne hReached, h.dominates_iff.mpr ⟨hReached, .inr hStrict⟩,
      fun a ha _ hDom => h.dominates_iff.mpr ⟨hw, hFound a ha hDom⟩⟩
  · rintro ⟨hu, hDom, hOthers⟩
    by_cases hEq : w = u
    · rw [← hEq]
      exact hIdom
    · have hAbove := hOthers w (hStrict.ne hReached) hEq
        (h.dominates_iff.mpr ⟨hReached, .inr hStrict⟩)
      exact absurd ((h.dominates_iff.mp hAbove).2.antisymm
        (h.dominates_iff.mp hAbove).1 (hFound u hu hDom)) hEq

/-! ## Frontiers -/

/-- The frontier that the analysis finds for a block. -/
def frontier (body : Body) (label : Label) : List Label :=
  body.dominance.frontiers.toArray.getD label []

/-- Where no edge leads back to the entry, the frontier of a block holds the blocks just outside of
what it dominates. -/
theorem InRange.mem_frontier_iff (h : body.InRange)
    (hFirst : ∀ label, body.Reached label →
      body.entry ∉ (body.block label).terminator.successors) {a b : Label} :
    b ∈ body.frontier a ↔ body.Reached b ∧
      (∃ p, body.Reached p ∧ b ∈ (body.block p).terminator.successors ∧
        body.dominance.dominates a p = true) ∧
      ¬ (a ≠ b ∧ body.dominance.dominates a b = true) := by
  have hRooted : ∀ p ∈ body.graph.order body.entry, body.entry ∉ body.graph.succ p := by
    intro p hp
    rw [succ_graph]
    exact hFirst p (h.mem_order_iff.mp hp)
  refine (Dominance.mem_frontiers_iff_of_rooted hRooted).trans ?_
  rw [h.mem_order_iff]
  refine and_congr_right fun hb => and_congr (exists_congr fun p => ?_) (not_congr ?_)
  · rw [h.mem_order_iff, succ_graph, h.dominates_iff]
    exact ⟨fun ⟨hp, edge, hDom⟩ => ⟨hp, edge, hp, hDom⟩, fun ⟨hp, edge, _, hDom⟩ =>
      ⟨hp, edge, hDom⟩⟩
  · rw [h.dominates_iff]
    exact ⟨fun hDom => ⟨hDom.ne hb, hb, .inr hDom⟩, fun ⟨hne, _, hDom⟩ => hDom.resolve_left hne⟩

/-! ## Correctness -/

/-- The analysis comes to an end without the bounds on its loops, and what it answers of any two
blocks is what the paths from the entry say. -/
theorem dominance_correct (h : body.InRange) :
    ((∀ d, Dominance.Analyses body.graph body.entry d ↔ d = body.dominance) ∧
      ∀ label way, body.dominance.Climbs label way ↔ way = body.dominance.above label) ∧
    (∀ a b, body.dominance.dominates a b = true ↔
      (∃ path, body.graph.Path body.entry path b) ∧
        ∀ path, body.graph.Path body.entry path b → a ∈ path) ∧
    (∀ b, body.Reached b → b ≠ body.entry → (body.dominance.idom b).isSome ∧
      ∀ u, body.dominance.idom b = some u ↔ u ≠ b ∧ body.dominance.dominates u b = true ∧
        ∀ a, a ≠ b → a ≠ u → body.dominance.dominates a b = true →
          body.dominance.dominates a u = true) ∧
    ∀ u, (body.dominance.children.getD u []).Nodup ∧
      ∀ b, b ∈ body.dominance.children.getD u [] ↔
        body.Reached b ∧ b ≠ body.entry ∧ body.dominance.idom b = some u := by
  refine ⟨⟨fun d => Dominance.analyses_iff h.root_lt,
    fun label way => Dominance.climbs_iff h.root_lt⟩, fun a b => ?_,
    fun b hReached hne => ⟨?_, fun u => h.idom_iff hReached hne⟩,
    fun u => ⟨Dominance.nodup_children u, fun b => ?_⟩⟩
  · rw [h.dominates_iff, Digraph.dom_iff_forall_path, Reached, Digraph.reaches_iff_exists_path]
  · obtain ⟨u, hIdom, -⟩ := Dominance.exists_idom (h.mem_order_iff.mpr hReached) hne
    exact Option.isSome_iff_exists.mpr ⟨u, hIdom⟩
  · exact Dominance.mem_children_iff.trans (and_congr_left' h.mem_order_iff)

/-- Loops that are entered in two places, so that three sweeps change something, and a block that
nothing leads to. -/
def crossing : Body where
  name := "crossing"
  arity := 1
  regCount := 1
  entry := 0
  slots := []
  blocks := [
    { params := [], instrs := [.param 0 0], terminator := .branch 0 ⟨4, []⟩ ⟨1, []⟩ },
    { params := [], instrs := [], terminator := .jump ⟨2, []⟩ },
    { params := [], instrs := [], terminator := .branch 0 ⟨1, []⟩ ⟨3, []⟩ },
    { params := [], instrs := [], terminator := .branch 0 ⟨2, []⟩ ⟨5, []⟩ },
    { params := [], instrs := [], terminator := .jump ⟨3, []⟩ },
    { params := [], instrs := [], terminator := .ret 0 },
    { params := [], instrs := [], terminator := .jump ⟨5, []⟩ }]

/-- The block before the end is on every path to it, none of the blocks of the loops is on every
path to another one, and the last block is no child. -/
theorem dominance_correct_crossing : crossing.InRange ∧
    (∀ path, crossing.graph.Path crossing.entry path 5 → 3 ∈ path) ∧
    crossing.dominance.idom 3 = some 0 ∧ crossing.dominance.idom 2 = some 0 ∧
    crossing.dominance.dominates 4 3 = false ∧
    5 ∈ crossing.dominance.children.getD 3 [] ∧
    ¬ ∃ path, crossing.graph.Path crossing.entry path 6 := by
  have hInRange : crossing.InRange := ⟨by decide, by decide⟩
  obtain ⟨-, hDominates, -, hChildren⟩ := dominance_correct hInRange
  obtain ⟨hReached, hOnAll⟩ := (hDominates 3 5).mp (by decide +kernel)
  refine ⟨hInRange, hOnAll, by decide +kernel, by decide +kernel, by decide +kernel, ?_, ?_⟩
  · exact ((hChildren 3).2 5).mpr
      ⟨Digraph.reaches_iff_exists_path.mpr hReached, by decide, by decide +kernel⟩
  · intro hPath
    have hSelf := (hDominates 6 6).mpr ⟨hPath, fun _ path => path.end_mem⟩
    exact absurd hSelf (by decide +kernel)

end Body

end Ir

end LiveCompiler
