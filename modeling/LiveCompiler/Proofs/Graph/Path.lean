import LiveCompiler.Graph.Search
import Mathlib.Tactic.ByContra

/-!
# Paths from the root of a graph

`LeadsTo g root via v` says that some path from the root ends in `v` and that all its nodes,
the last one left out, satisfy `via`.  Reaching a node and passing through a node on every
path are both said with it: the first puts no condition on the nodes, the second is the
absence of a path that avoids a node.

No two nodes that are reached dominate each other (`Dom.antisymm`), so a node has at most one
nearest dominator.  A path can also be given node by node (`Path`), and to pass through a node on
every path is to be on each of these (`dom_iff_forall_path`).
-/

namespace LiveCompiler

namespace Digraph

/-- A path from the root ends in a node, and its other nodes satisfy `via`. -/
inductive LeadsTo (g : Digraph) (root : Nat) (via : Nat → Prop) : Nat → Prop
  | root : LeadsTo g root via root
  | step {p q : Nat} (path : LeadsTo g root via p) (ok : via p) (edge : q ∈ g.succ p) :
      LeadsTo g root via q

/-- Some path from the root ends in a node. -/
def Reaches (g : Digraph) (root v : Nat) : Prop :=
  g.LeadsTo root (fun _ => True) v

/-- Every path from the root to `b` passes through `a` before it ends. -/
def SDom (g : Digraph) (root a b : Nat) : Prop :=
  ¬ g.LeadsTo root (· ≠ a) b

/-- Every path from the root to `b` passes through `a`. -/
def Dom (g : Digraph) (root a b : Nat) : Prop :=
  a = b ∨ g.SDom root a b

section Paths

variable {g : Digraph} {root : Nat} {via : Nat → Prop}

/-- A path stays a path in a graph with more edges and under a weaker condition. -/
theorem LeadsTo.mono {h : Digraph} {other : Nat → Prop} {v : Nat}
    (hPath : g.LeadsTo root via v) (hVia : ∀ p, via p → other p)
    (hEdge : ∀ p q, via p → q ∈ g.succ p → q ∈ h.succ p) : h.LeadsTo root other v := by
  induction hPath with
  | root => exact .root
  | step _ ok edge ih => exact .step ih (hVia _ ok) (hEdge _ _ ok edge)

theorem LeadsTo.weaken {other : Nat → Prop} {v : Nat} (hPath : g.LeadsTo root via v)
    (hVia : ∀ p, via p → other p) : g.LeadsTo root other v :=
  hPath.mono hVia fun _ _ _ edge => edge

/-- Graphs that agree on the nodes that are reached have the same paths. -/
theorem LeadsTo.congr {h : Digraph} (hSame : ∀ p, g.Reaches root p → h.succ p = g.succ p)
    {v : Nat} : h.LeadsTo root via v ↔ g.LeadsTo root via v := by
  constructor
  · intro hPath
    induction hPath with
    | root => exact .root
    | step _ ok edge ih =>
      refine .step ih ok ?_
      rw [← hSame _ (ih.weaken fun _ _ => trivial)]
      exact edge
  · intro hPath
    induction hPath with
    | root => exact .root
    | step path ok edge ih =>
      refine .step ih ok ?_
      rw [hSame _ (path.weaken fun _ _ => trivial)]
      exact edge

theorem LeadsTo.reaches {v : Nat} (hPath : g.LeadsTo root via v) : g.Reaches root v :=
  hPath.weaken fun _ _ => trivial

theorem Reaches.step {p q : Nat} (hReach : g.Reaches root p) (edge : q ∈ g.succ p) :
    g.Reaches root q :=
  LeadsTo.step hReach trivial edge

/-- A path either avoids a node before its end, or there is a path to that node which is
cut off at its first visit. -/
theorem LeadsTo.avoid_or_first {v : Nat} (b : Nat) (hPath : g.LeadsTo root via v) :
    g.LeadsTo root (fun p => via p ∧ p ≠ b) v ∨ g.LeadsTo root (fun p => via p ∧ p ≠ b) b := by
  induction hPath with
  | root => exact .inl .root
  | @step p q _ ok edge ih =>
    rcases ih with hAvoid | hFirst
    · by_cases hEq : p = b
      · exact .inr (hEq ▸ hAvoid)
      · exact .inl (.step hAvoid ⟨ok, hEq⟩ edge)
    · exact .inr hFirst

/-- A node that is reached is reached by a path that ends at its first visit. -/
theorem Reaches.first {b : Nat} (hReach : g.Reaches root b) : g.LeadsTo root (· ≠ b) b := by
  rcases LeadsTo.avoid_or_first b hReach with h | h <;> exact h.weaken fun _ hp => hp.2

theorem SDom.ne {a b : Nat} (hReach : g.Reaches root b) (hDom : g.SDom root a b) : a ≠ b := by
  rintro rfl
  exact hDom hReach.first

theorem SDom.trans {a b c : Nat} (hab : g.SDom root a b) (hbc : g.SDom root b c) :
    g.SDom root a c := by
  intro hPath
  rcases hPath.avoid_or_first b with h | h
  · exact hbc (h.weaken fun _ hp => hp.2)
  · exact hab (h.weaken fun _ hp => hp.1)

theorem SDom.asymm {a b : Nat} (hReach : g.Reaches root a) (hab : g.SDom root a b) :
    ¬ g.SDom root b a :=
  fun hba => (hab.trans hba).ne hReach rfl

/-- A strict dominator of a node is reached if the node is. -/
theorem SDom.reaches {a b : Nat} (hReach : g.Reaches root b) (hDom : g.SDom root a b) :
    g.Reaches root a := by
  rcases LeadsTo.avoid_or_first a hReach with h | h
  · exact absurd (h.weaken fun _ hp => hp.2) hDom
  · exact h.reaches

/-- What all paths to the end of an edge pass through, they pass before the edge. -/
theorem SDom.dom_of_edge {a p q : Nat} (hDom : g.SDom root a q) (edge : q ∈ g.succ p) :
    g.Dom root a p := by
  by_cases hEq : a = p
  · exact .inl hEq
  · refine .inr fun hPath => hDom (.step hPath ?_ edge)
    exact fun h => hEq h.symm

theorem Dom.sdom_of_sdom {a b c : Nat} (hab : g.Dom root a b) (hbc : g.SDom root b c) :
    g.SDom root a c := by
  rcases hab with rfl | hab
  · exact hbc
  · exact hab.trans hbc

theorem SDom.sdom_of_dom {a b c : Nat} (hab : g.SDom root a b) (hbc : g.Dom root b c) :
    g.SDom root a c := by
  rcases hbc with rfl | hbc
  · exact hab
  · exact hab.trans hbc

theorem Dom.reaches {a b : Nat} (hReach : g.Reaches root b) (hDom : g.Dom root a b) :
    g.Reaches root a := by
  rcases hDom with rfl | hDom
  · exact hReach
  · exact hDom.reaches hReach

theorem Dom.antisymm {a b : Nat} (hReach : g.Reaches root b) (hab : g.Dom root a b)
    (hba : g.Dom root b a) : a = b := by
  rcases hab with hEq | hab
  · exact hEq
  · exact absurd rfl ((hab.sdom_of_dom hba).ne (Dom.reaches hReach (.inr hab)))

/-- The root is before every other node. -/
theorem sdom_root {v : Nat} (hne : v ≠ root) : g.SDom root root v := by
  intro hPath
  cases hPath with
  | root => exact hne rfl
  | step path ok _ =>
    -- A path that avoids the root has no first node.
    have hNone : ∀ {p : Nat}, g.LeadsTo root (· ≠ root) p → p = root := by
      intro p hp
      induction hp with
      | root => rfl
      | step _ ok _ ih => exact absurd ih ok
    exact ok (hNone path)

/-! ## Paths node by node -/

/-- A path from the root to a node, with all nodes on it. -/
inductive Path (g : Digraph) (root : Nat) : List Nat → Nat → Prop
  | root : Path g root [root] root
  | step {nodes : List Nat} {p q : Nat} (path : Path g root nodes p) (edge : q ∈ g.succ p) :
      Path g root (nodes ++ [q]) q

theorem Path.end_mem {nodes : List Nat} {v : Nat} (h : g.Path root nodes v) : v ∈ nodes := by
  cases h <;> simp

theorem Path.leadsTo {nodes : List Nat} {v : Nat} (h : g.Path root nodes v)
    (hVia : ∀ p ∈ nodes, via p) : g.LeadsTo root via v := by
  induction h with
  | root => exact .root
  | step path edge ih =>
    have hFront := fun p hp => hVia p (List.mem_append_left _ hp)
    exact .step (ih hFront) (hFront _ path.end_mem) edge

theorem LeadsTo.exists_path {v : Nat} (h : g.LeadsTo root via v) :
    ∃ nodes, g.Path root nodes v ∧ ∀ p ∈ nodes, p = v ∨ via p := by
  induction h with
  | root => exact ⟨[root], .root, by simp⟩
  | @step p q _ ok edge ih =>
    obtain ⟨nodes, path, hVia⟩ := ih
    refine ⟨nodes ++ [q], .step path edge, fun x hx => ?_⟩
    rcases List.mem_append.mp hx with hFront | hLast
    · exact .inr ((hVia x hFront).elim (fun hEq => hEq ▸ ok) id)
    · exact .inl (List.mem_singleton.mp hLast)

theorem reaches_iff_exists_path {v : Nat} : g.Reaches root v ↔ ∃ nodes, g.Path root nodes v := by
  constructor
  · intro hReach
    obtain ⟨nodes, path, -⟩ := LeadsTo.exists_path hReach
    exact ⟨nodes, path⟩
  · rintro ⟨nodes, path⟩
    exact path.leadsTo fun _ _ => trivial

theorem dom_iff_forall_path {a v : Nat} :
    g.Dom root a v ↔ ∀ nodes, g.Path root nodes v → a ∈ nodes := by
  constructor
  · rintro (rfl | hDom) nodes path
    · exact path.end_mem
    · by_contra hNot
      exact hDom (path.leadsTo fun p hp hEq => hNot (hEq ▸ hp))
  · intro hAll
    by_contra hNot
    obtain ⟨hne, hPath⟩ := not_or.mp hNot
    obtain ⟨nodes, path, hAvoid⟩ := (not_not.mp hPath).exists_path
    rcases hAvoid a (hAll nodes path) with hEq | hEq
    · exact hne hEq
    · exact hEq rfl

end Paths

end Digraph

end LiveCompiler
