/-!
# Depth-first search in a directed graph

Nodes are numbers below the size of the graph.  A search visits successors in their
order and lists the nodes it finishes, the last one first.  Numbers that are no node
count as visited.
-/

namespace LiveCompiler

/-- A directed graph: the successors of each node, in order. -/
structure Digraph where
  succs : Array (List Nat)
deriving Repr

namespace Digraph

/-- The number of nodes. -/
def size (g : Digraph) : Nat :=
  g.succs.size

/-- The successors of a node. -/
def succ (g : Digraph) (v : Nat) : List Nat :=
  g.succs.getD v []

/-- The state of a search: the nodes seen, and those finished, the last one first. -/
structure Search where
  seen : Array Bool
  finished : List Nat
deriving Repr

namespace Search

/-- Nothing seen yet in a graph of a given size. -/
def start (size : Nat) : Search where
  seen := Array.replicate size false
  finished := []

/-- Whether a node has been seen. -/
def sees (s : Search) (v : Nat) : Bool :=
  s.seen.getD v true

/-- Mark a node as seen. -/
def mark (s : Search) (v : Nat) : Search :=
  { s with seen := s.seen.setIfInBounds v true }

/-- List a node as finished. -/
def finish (s : Search) (v : Nat) : Search :=
  { s with finished := v :: s.finished }

end Search

/-- Visit a node and all that it leads to.  Each level of recursion sees a new node, so
the size of the graph is depth enough. -/
def visit (g : Digraph) : Nat → Search → Nat → Search
  | 0, s, _ => s
  | depth + 1, s, v =>
    if s.sees v then s
    else ((g.succ v).foldl (visit g depth) (s.mark v)).finish v

/-- The search from a root. -/
def search (g : Digraph) (root : Nat) : Search :=
  g.visit g.size (Search.start g.size) root

/-- The nodes that the root leads to, in reverse postorder. -/
def order (g : Digraph) (root : Nat) : List Nat :=
  (g.search root).finished

end Digraph

end LiveCompiler
