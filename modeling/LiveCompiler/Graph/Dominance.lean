import LiveCompiler.Graph.Search

/-!
# Dominance

A node dominates another if every path from the root to the other passes through it.  The
dominators of a node form a chain, so it is enough to know the nearest of them that is
another node: the immediate dominator.

Immediate dominators are found by iteration.  A node is put below the place where the ways
up from its predecessors meet, as far as these are known, and the nodes are gone through in
the order of the search until nothing changes.  Dominance, the tree and the frontiers are
read off the ways up; all lists keep the reverse postorder of the search.
-/

namespace LiveCompiler

/-- A graph with a root, its search order, and for each node the next node on its way up. -/
structure Dominance where
  graph : Digraph
  root : Nat
  /-- The nodes that the root leads to, in reverse postorder. -/
  order : List Nat
  /-- Which nodes the root leads to. -/
  reached : Array Bool
  /-- The place of each node in the order. -/
  ranks : Array Nat
  /-- For each node the nodes of the order that lead to it in one step. -/
  entering : Array (List Nat)
  /-- The immediate dominator of each node, as far as it is known.  The root has itself. -/
  idoms : Array (Option Nat)

namespace Dominance

/-- Whether the root leads to a node. -/
def isReachable (d : Dominance) (v : Nat) : Bool :=
  d.reached.getD v false

/-- The place of a node in the order. -/
def rank (d : Dominance) (v : Nat) : Nat :=
  d.ranks.getD v d.graph.size

/-- The nodes that lead to a node in one step and are reached themselves. -/
def preds (d : Dominance) (v : Nat) : List Nat :=
  d.entering.getD v []

/-- The strict dominator nearest to a node.  The root counts as its own. -/
def idom (d : Dominance) (v : Nat) : Option Nat :=
  d.idoms.getD v none

/-! ## Iteration -/

/-- What a search tells of a graph before the iteration: the root is its own dominator. -/
def survey (g : Digraph) (root : Nat) (search : Digraph.Search) : Dominance :=
  let order := search.finished
  { graph := g
    root := root
    order := order
    reached := search.seen
    ranks := (Array.range g.size).map order.idxOf
    entering := (Array.range g.size).map fun v => order.filter fun u => (g.succ u).contains v
    idoms := (Array.replicate g.size none).setIfInBounds root (some root) }

/-- The node where two ways up meet, found in at most so many steps: the node that comes
later in the order is left for the next one on its way. -/
def meet (d : Dominance) : Nat → Nat → Nat → Nat
  | 0, a, _ => a
  | steps + 1, a, b =>
    if a = b then a
    else if d.rank b < d.rank a then
      match d.idom a with
      | some up => d.meet steps up b
      | none => b
    else
      match d.idom b with
      | some up => d.meet steps a up
      | none => a

/-- Ways up that are no longer than the order need no more steps to meet. -/
def meetSteps (d : Dominance) : Nat :=
  d.order.length + d.order.length

/-- The predecessors of a node whose way up is known. -/
def knownPreds (d : Dominance) (v : Nat) : List Nat :=
  (d.preds v).filter fun p => (d.idom p).isSome

/-- The node where the ways up meet from all predecessors whose way is known. -/
def meetOfPreds (d : Dominance) (v : Nat) : Option Nat :=
  match d.knownPreds v with
  | [] => none
  | first :: rest => some (rest.foldl (fun found p => d.meet d.meetSteps p found) first)

/-- Put a node below another one. -/
def put (d : Dominance) (v u : Nat) : Dominance :=
  { d with idoms := d.idoms.setIfInBounds v (some u) }

/-- Put a node below the place where the ways up from its predecessors meet. -/
def improve (d : Dominance) (v : Nat) : Dominance × Bool :=
  match d.meetOfPreds v with
  | none => (d, false)
  | some found =>
    if d.idom v = some found then (d, false) else (d.put v found, true)

/-- Go through some nodes; the flag tells whether anything changed. -/
def sweep : List Nat → Dominance → Dominance × Bool
  | [], d => (d, false)
  | v :: rest, d =>
    let (after, changed) := d.improve v
    let (last, changedLater) := sweep rest after
    (last, changed || changedLater)

/-- Go through all nodes but the root until nothing changes, at most so many times. -/
def settle : Nat → Dominance → Dominance
  | 0, d => d
  | count + 1, d =>
    let (after, changed) := sweep (d.order.drop 1) d
    if changed then settle count after else after

/-- Analyse a graph.  Each change moves a node up in the order, so the square of the size
bounds their number. -/
def ofGraph (g : Digraph) (root : Nat) : Dominance :=
  let start := survey g root (g.search root)
  { start with idoms := (settle (g.size * g.size + 1) start).idoms }

/-! ## Queries -/

/-- The nodes on the way up from a node, itself first, for at most so many. -/
def wayUp (d : Dominance) : Nat → Nat → List Nat
  | 0, _ => []
  | steps + 1, v =>
    match d.idom v with
    | some up => if up = v then [v] else v :: d.wayUp steps up
    | none => [v]

/-- The nodes on the way up from a node, itself first. -/
def above (d : Dominance) (v : Nat) : List Nat :=
  d.wayUp d.graph.size v

/-- Whether every path from the root to `b`, of which there is one, passes through
`a`. -/
def dominates (d : Dominance) (a b : Nat) : Bool :=
  d.isReachable b && (d.above b).contains a

/-- The reached nodes with their immediate dominators, the root left out. -/
def parents (d : Dominance) : List (Nat × Nat) :=
  d.order.filterMap fun v =>
    if v = d.root then none else (d.idom v).map fun parent => (v, parent)

/-- The nodes that have a given node as immediate dominator, for all nodes. -/
def children (d : Dominance) : List (List Nat) :=
  let parents := d.parents
  (List.range d.graph.size).map fun v =>
    (parents.filter fun child => child.2 == v).map Prod.fst

/-- A node where paths meet, with the nodes that lie on the ways up from its predecessors
below its immediate dominator. -/
structure Join where
  node : Nat
  passed : List Nat

/-- The reached nodes with at least two predecessors. -/
def joins (d : Dominance) : List Join :=
  d.order.filterMap fun v =>
    let preds := d.preds v
    if 2 ≤ preds.length then
      (d.idom v).map fun parent =>
        { node := v, passed := preds.flatMap fun p => (d.above p).takeWhile (· != parent) }
    else none

/-- The frontier of a node among given joins: those just outside of what it dominates. -/
def frontierAmong (joins : List Join) (a : Nat) : List Nat :=
  (joins.filter fun join => join.passed.contains a).map Join.node

/-- The frontiers of all nodes. -/
def frontiers (d : Dominance) : List (List Nat) :=
  let joins := d.joins
  (List.range d.graph.size).map (frontierAmong joins)

/-- The nodes of the dominator tree, each before its children, with the parent of
each.  Children come later in the search order than their parent, so a pass from the
back of the order finds the subtrees of the children complete. -/
def preorder (d : Dominance) : List (Nat × Option Nat) :=
  let subtree (v : Nat) (below : List (Nat × List (Nat × Option Nat))) :
      List (Nat × Option Nat) :=
    ((below.filter fun child => child.1 == v).map Prod.snd).flatten
  -- Each finished subtree is filed under the parent of its top, so that the parent finds
  -- its children in search order when its turn comes.
  let complete := d.order.foldr
    (fun v below =>
      let parent := if v = d.root then none else d.idom v
      let tree := (v, parent) :: subtree v below
      match parent with
      | some p => (p, tree) :: below
      | none => (v, tree) :: below)
    []
  (complete.head?.map Prod.snd).getD []

end Dominance

end LiveCompiler
