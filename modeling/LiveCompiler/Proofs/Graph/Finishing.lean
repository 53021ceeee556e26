import LiveCompiler.Proofs.Graph.Dominance
import Mathlib.Data.List.Infix

/-!
# How a search finishes its nodes

A search can be made without recursion, by a walk that keeps the nodes being visited on a stack,
each with the successor that is next.  Such a walk comes to an end with what the search gives
(`walk_iff`).

A node is finished when all its successors have been seen.  Those that are not finished by then are
being visited, and what is being visited leads to the node (`Orderly.finish`).  So an edge that goes
against the order of the search ends in a node that leads back to where the edge starts
(`reaches_of_place_le`).  An edge along a path of dominators goes with the order
(`SDom.place_lt`).
-/

namespace LiveCompiler

namespace Digraph

open Dominance (Explores explores_search ofGraph)

variable {g : Digraph} {root : Nat}

/-! ## Walks with a stack -/

/-- A walk: the nodes that are being visited, the latest first, each with the place of its next
successor, and the search so far. -/
structure Walk where
  stack : List (Nat × Nat)
  search : Search

namespace Walk

/-- A walk that is about to look at the successors of a root. -/
def start (g : Digraph) (root : Nat) : Walk where
  stack := [(root, 0)]
  search := (Search.start g.size).mark root

/-- One turn of a walk: the latest node has its next successor looked at, or it is finished if it
has none left.  The flag tells whether there was a node. -/
def turn (g : Digraph) (w : Walk) : Walk × Bool :=
  match w.stack with
  | [] => (w, false)
  | (v, next) :: rest =>
    match (g.succ v)[next]? with
    | some q =>
      if w.search.sees q then ({ w with stack := (v, next + 1) :: rest }, true)
      else ({ stack := (q, 0) :: (v, next + 1) :: rest, search := w.search.mark q }, true)
    | none => ({ stack := rest, search := w.search.finish v }, true)

/-- A walk, with no bound on the number of its turns. -/
def Takes (g : Digraph) : Walk → Walk × Bool → Prop :=
  Repeats fun w out => w.turn g = out

theorem Takes.step {w next last : Walk} {flag : Bool} (hTurn : w.turn g = (next, true))
    (hRest : Takes g next (last, flag)) : Takes g w (last, true) := by
  have hAgain : Takes g w ((last, flag).1, true) := .again hTurn hRest
  exact hAgain

end Walk

/-- A walk makes the search of the successors that are left, and finishes the node. -/
theorem takes_of_explores {targets : List Nat} {s t : Search} (h : Explores g targets s t) :
    ∀ {v next : Nat} {rest : List (Nat × Nat)} {last : Walk} {flag : Bool},
      (g.succ v).drop next = targets → Walk.Takes g ⟨rest, t.finish v⟩ (last, flag) →
        Walk.Takes g ⟨(v, next) :: rest, s⟩ (last, true) := by
  induction h with
  | nil s =>
    intro v next rest last flag hTargets hRest
    refine .step ?_ hRest
    simp only [Walk.turn, List.getElem?_eq_none (List.drop_eq_nil_iff.mp hTargets)]
  | seen sees _ ih =>
    intro v next rest last flag hTargets hRest
    obtain ⟨hNext, hLater⟩ := getElem?_of_drop_eq_cons hTargets
    refine .step ?_ (ih hLater hRest)
    simp only [Walk.turn, hNext, sees, if_true]
  | visit fresh _ _ ihInside ihLater =>
    intro v next rest last flag hTargets hRest
    obtain ⟨hNext, hLater⟩ := getElem?_of_drop_eq_cons hTargets
    refine .step ?_ (ihInside List.drop_zero (ihLater hLater hRest))
    simp only [Walk.turn, hNext, fresh, Bool.false_eq_true, if_false]

/-- The walk from a root comes to an end, with what the search from the root gives. -/
theorem walk_iff (hRoot : root < g.size) {out : Walk × Bool} :
    Walk.Takes g (Walk.start g root) out ↔ out = (⟨[], g.search root⟩, true) := by
  have hFresh : (Search.start g.size).sees root = false := by
    rw [← Bool.not_eq_true, sees_start]
    exact Nat.not_le_of_lt hRoot
  have hTakes : Walk.Takes g (Walk.start g root) (⟨[], g.search root⟩, true) := by
    have hSearch := explores_search g root
    generalize g.search root = t at hSearch ⊢
    cases hSearch with
    | seen sees _ => exact absurd (hFresh.symm.trans sees) Bool.false_ne_true
    | visit _ inside later =>
      cases later
      exact takes_of_explores inside List.drop_zero (.last rfl)
  exact ⟨fun h => h.unique_of_eq hTakes, fun h => h ▸ hTakes⟩

/-! ## Nodes that are being visited -/

namespace Search

variable {s t : Search} {v p : Nat}

/-- A node is being visited: it has been seen and is not finished. -/
structure Visiting (s : Search) (p : Nat) : Prop where
  lt : p < s.seen.size
  sees : s.sees p = true
  unfinished : p ∉ s.finished

theorem Visiting.of_mark (h : (s.mark v).Visiting p) : s.Visiting p ∨ p = v := by
  have hLt := h.lt
  rw [size_mark] at hLt
  exact ((s.sees_mark v p).mp h.sees).imp_left fun hSees => ⟨hLt, hSees, h.unfinished⟩

theorem Visiting.of_finish (h : (s.finish v).Visiting p) : s.Visiting p ∧ p ≠ v := by
  obtain ⟨hne, hNot⟩ := not_or.mp (mt List.mem_cons.mpr h.unfinished)
  exact ⟨⟨h.lt, h.sees, hNot⟩, hne⟩

/-- Whatever is visited in between, no other nodes are left unfinished by it. -/
theorem Visits.visiting {new targets : List Nat} (h : Visits g root s t new targets)
    (hp : t.Visiting p) : s.Visiting p := by
  have hNot := hp.unfinished
  rw [h.finished, List.mem_append, not_or] at hNot
  exact ⟨h.size ▸ hp.lt, ((h.sees_iff p).mp hp.sees).resolve_right hNot.1, hNot.2⟩

/-- What is finished has been seen, and an edge from a finished node ends in a node that was
finished before or in one that leads to it. -/
structure Orderly (g : Digraph) (s : Search) : Prop where
  size : s.seen.size = g.size
  sees : ∀ p ∈ s.finished, s.sees p = true
  returns : ∀ u back, u :: back <:+ s.finished →
    ∀ q ∈ g.succ u, q < g.size → q ∈ back ∨ g.Reaches q u

theorem orderly_start (g : Digraph) : Orderly g (start g.size) where
  size := Array.size_replicate
  sees _ hp := absurd hp List.not_mem_nil
  returns _ _ hSuffix := by simpa [start] using hSuffix.length_le

theorem Orderly.mark (h : Orderly g s) (v : Nat) : Orderly g (s.mark v) where
  size := (s.size_mark v).trans h.size
  sees p hp := (s.sees_mark v p).mpr (.inl (h.sees p hp))
  returns := h.returns

/-- A node is finished when its successors have been seen and what is being visited leads to it. -/
theorem Orderly.finish (h : Orderly g s) (hv : s.sees v = true)
    (hSucc : ∀ q ∈ g.succ v, s.sees q = true) (hLeads : ∀ p, s.Visiting p → g.Reaches p v) :
    Orderly g (s.finish v) where
  size := h.size
  sees p hp := by
    rcases List.mem_cons.mp hp with rfl | hOld
    · exact hv
    · exact h.sees p hOld
  returns u back hSuffix q edge hLt := by
    rcases List.suffix_cons_iff.mp hSuffix with hHere | hBefore
    · obtain ⟨rfl, rfl⟩ := List.cons.inj hHere
      by_cases hq : q ∈ s.finished
      · exact .inl hq
      · exact .inr (hLeads q ⟨h.size ▸ hLt, hSucc q edge, hq⟩)
    · exact h.returns u back hBefore q edge hLt

end Search

open Search

/-- Any search of some nodes is a visit of them. -/
theorem exists_visits_of_explores {targets : List Nat} {s t : Search} (root : Nat)
    (h : Explores g targets s t) : ∃ new, Visits g root s t new targets := by
  induction h with
  | nil s => exact ⟨[], .nothing s (by simp)⟩
  | seen sees _ ih =>
    obtain ⟨new, hLater⟩ := ih
    have hFirst : Visits g root _ _ [] [_] := .nothing _ (by simpa using sees)
    exact ⟨_, hFirst.trans hLater⟩
  | visit fresh _ _ ihInside ihLater =>
    obtain ⟨new, hInside⟩ := ihInside
    obtain ⟨more, hLater⟩ := ihLater
    exact ⟨_, (hInside.finish fresh).trans hLater⟩

/-- A search stays orderly if the nodes that are being visited lead to those that are searched. -/
theorem orderly_of_explores {targets : List Nat} {s t : Search} (h : Explores g targets s t) :
    Orderly g s → (∀ p, s.Visiting p → ∀ q ∈ targets, g.Reaches p q) → Orderly g t := by
  induction h with
  | nil s => exact fun hOrderly _ => hOrderly
  | seen _ _ ih =>
    exact fun hOrderly hLeads => ih hOrderly fun p hp q hq =>
      hLeads p hp q (List.mem_cons_of_mem _ hq)
  | @visit v rest s m t fresh inside _ ihInside ihLater =>
    intro hOrderly hLeads
    obtain ⟨new, hVisits⟩ := exists_visits_of_explores v inside
    -- On the way through `v` the node itself is being visited as well.
    have hToNode : ∀ p, (s.mark v).Visiting p → g.Reaches p v := by
      intro p hp
      rcases hp.of_mark with hBefore | rfl
      · exact hLeads p hBefore v List.mem_cons_self
      · exact .root
    have hInside : Orderly g m :=
      ihInside (hOrderly.mark v) fun p hp q edge => (hToNode p hp).step edge
    have hSeen : m.sees v = true :=
      hVisits.sees_of_sees ((s.sees_mark v v).mpr (.inr rfl))
    have hFinished : Orderly g (m.finish v) :=
      hInside.finish hSeen hVisits.sees_target fun p hp => hToNode p (hVisits.visiting hp)
    refine ihLater hFinished fun p hp q hq => ?_
    obtain ⟨hInner, hne⟩ := hp.of_finish
    have hBefore := (hVisits.visiting hInner).of_mark.resolve_right hne
    exact hLeads p hBefore q (List.mem_cons_of_mem _ hq)

theorem orderly_search (g : Digraph) (root : Nat) : Orderly g (g.search root) := by
  refine orderly_of_explores (explores_search g root) (orderly_start g) fun p hp => ?_
  have hLe := (sees_start g.size p).mp hp.sees
  have hLt : p < g.size := (orderly_start g).size ▸ hp.lt
  exact absurd hLt (Nat.not_lt_of_le hLe)

/-! ## Edges and the order -/

/-- A node that strictly dominates another one has its place before. -/
theorem SDom.place_lt {a b : Nat} (hb : b ∈ g.order root) (hDom : g.SDom root a b) :
    g.place root a < g.place root b := by
  have ha := hDom.mem_order hb
  have hReach := ((mem_order_iff g root b).mp hb).1
  by_contra hNot
  have hne : g.place root b ≠ g.place root a := fun hEq =>
    hDom.ne hReach (place_inj hb hEq).symm
  have hLt : g.place root b < g.place root a := by omega
  have hApart := List.pairwise_iff_getElem.mp (order_pairwise g root) _ _
    (Digraph.place_lt hb) (Digraph.place_lt ha) hLt
  simp only [place, List.getElem_idxOf] at hApart
  exact hApart hDom

/-- An edge that does not go forward in the order ends in a node that leads back. -/
theorem reaches_of_place_le {u v : Nat} (hu : u ∈ g.order root) (edge : v ∈ g.succ u)
    (hv : v ∈ g.order root) (hLe : g.place root v ≤ g.place root u) : g.Reaches v u := by
  obtain ⟨front, back, hSplit⟩ := List.append_of_mem hu
  have hNodup := order_nodup g root
  rw [hSplit, List.nodup_append, List.nodup_cons] at hNodup
  obtain ⟨-, ⟨hNotBack, -⟩, hApart⟩ := hNodup
  refine ((orderly_search g root).returns u back ⟨front, hSplit.symm⟩ v edge
    (lt_size_of_mem_order hv)).resolve_left fun hBack => ?_
  -- A node behind `u` has its place behind.
  have hu' : u ∉ front := fun hMem => hApart u hMem u List.mem_cons_self rfl
  have hv' : v ∉ front := fun hMem => hApart v hMem v (List.mem_cons_of_mem _ hBack) rfl
  have hne : u ≠ v := fun hEq => hNotBack (hEq ▸ hBack)
  rw [place, place, hSplit, List.idxOf_append_of_notMem hu', List.idxOf_append_of_notMem hv',
    List.idxOf_cons_self, List.idxOf_cons_ne _ hne] at hLe
  omega

/-! ## Predecessors -/

theorem preds_ofGraph (v : Nat) : (ofGraph g root).preds v =
    if v < g.size then (g.order root).filter fun u => (g.succ u).contains v else [] := by
  split
  · rename_i hLt
    simp [Dominance.preds, ofGraph, Dominance.survey, order, hLt]
  · rename_i hNot
    simp [Dominance.preds, ofGraph, Dominance.survey, hNot]

/-- No node is listed twice among the predecessors of another one. -/
theorem nodup_preds (v : Nat) : ((ofGraph g root).preds v).Nodup := by
  rw [preds_ofGraph]
  split
  · exact (order_nodup g root).filter _
  · exact List.nodup_nil

end Digraph

end LiveCompiler
