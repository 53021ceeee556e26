import LiveCompiler.Graph.Dominance
import LiveCompiler.Proofs.Graph.Iteration
import Mathlib.Data.List.Perm.Basic

/-!
# What the dominance analysis computes

The ways up on which the iteration settles are the chains of dominators (`above_iff_dom`).  So the
test of the analysis agrees with the statement about paths (`dominates_iff`), and the immediate
dominator of a node is its nearest strict dominator (`exists_idom`), under which the node is listed
once (`mem_children_iff`, `nodup_children`).

A node at which dominance of `a` ends lies in the computed frontier of `a` (`mem_frontiers`), and
where no edge leads back to the root nothing else does (`mem_frontiers_iff_of_rooted`).  The walk
over the dominator tree visits every reached node once and
after its immediate dominator; `walk_induction` is the induction along it.
-/

namespace LiveCompiler

namespace Dominance

open LiveCompiler.Digraph

section Analysis

variable {g : Digraph} {root : Nat}

@[simp] theorem order_ofGraph : (ofGraph g root).order = g.order root := rfl

@[simp] theorem root_ofGraph : (ofGraph g root).root = root := rfl

@[simp] theorem graph_ofGraph : (ofGraph g root).graph = g := rfl

theorem isReachable_iff (v : Nat) :
    (ofGraph g root).isReachable v = true ↔ v ∈ g.order root :=
  seen_search_iff g root v

theorem settled_ofGraph (hRoot : root < g.size) : Settled g root (ofGraph g root) :=
  (analyses_ofGraph hRoot).2

theorem rising_ofGraph (hRoot : root < g.size) : Rising g root (ofGraph g root).idom :=
  (settled_ofGraph hRoot).settling.toRising

/-- The ways up are the chains of dominators. -/
theorem above_iff_dom {a v : Nat} (hv : v ∈ g.order root) :
    Above root (ofGraph g root).idom a v ↔ g.Dom root a v := by
  have hSettled := settled_ofGraph (root_lt_size hv)
  exact hSettled.settling.above_iff (Nat.le_refl _) hSettled.stands hv

theorem mem_above_iff {a v : Nat} (hv : v ∈ g.order root) :
    a ∈ (ofGraph g root).above v ↔ g.Dom root a v := by
  rw [above, graph_ofGraph,
    (climbs_wayUp (rising_ofGraph (root_lt_size hv)) _ hv (place_lt_size hv)).2 a,
    above_iff_dom hv]

/-- With no bound on their length the walks up come to an end, with what they give with the
bound. -/
theorem climbs_iff (hRoot : root < g.size) {v : Nat} {way : List Nat} :
    Climbs (ofGraph g root) v way ↔ way = (ofGraph g root).above v := by
  have hClimbs : Climbs (ofGraph g root) v ((ofGraph g root).above v) := by
    by_cases hv : v ∈ g.order root
    · exact (climbs_wayUp (rising_ofGraph hRoot) _ hv (place_lt_size hv)).1
    · -- Nothing is known of a node that is not reached.
      have hNone : (ofGraph g root).idom v = none := by
        by_contra hSome
        exact hv ((rising_ofGraph hRoot).mem_order (Option.isSome_iff_ne_none.mpr hSome))
      obtain ⟨size, hSize⟩ := Nat.exists_eq_succ_of_ne_zero (Nat.ne_zero_of_lt hRoot)
      rw [above, graph_ofGraph, hSize, wayUp, hNone]
      exact .last hNone
  exact ⟨fun h => h.unique hClimbs, fun h => h ▸ hClimbs⟩

/-- The test for dominance is exact. -/
theorem dominates_iff (a b : Nat) :
    (ofGraph g root).dominates a b = true ↔ b ∈ g.order root ∧ g.Dom root a b := by
  rw [dominates, Bool.and_eq_true, isReachable_iff, List.contains_iff_mem]
  exact and_congr_right fun hb => mem_above_iff hb

theorem idom_root (hRoot : root < g.size) : (ofGraph g root).idom root = some root :=
  (rising_ofGraph hRoot).up_root

/-- Every reached node but the root has a nearest strict dominator, which is the immediate
dominator that the analysis finds. -/
theorem exists_idom {v : Nat} (hv : v ∈ g.order root)
    (hne : v ≠ root) :
    ∃ u, (ofGraph g root).idom v = some u ∧ g.SDom root u v ∧
      ∀ a, g.SDom root a v → g.Dom root a u := by
  have hRoot := root_lt_size hv
  have hRising := rising_ofGraph hRoot
  have hReach := ((mem_order_iff g root v).mp hv).1
  obtain ⟨u, next, -⟩ := (settled_ofGraph hRoot).stands v hv hne
  have hu : u ∈ g.order root := hRising.mem_order (hRising.goes_on next)
  have hBefore := hRising.place_up hne next
  refine ⟨u, next, ?_, fun a ha => ?_⟩
  · refine ((above_iff_dom hv).mp (.climb hne next .here)).resolve_left ?_
    rintro rfl
    exact Nat.lt_irrefl _ hBefore
  · have hAbove := (above_iff_dom hv).mpr (.inr ha)
    exact (above_iff_dom hu).mp ((hAbove.eq_or_next next).resolve_left (ha.ne hReach))

/-- What the analysis finds as immediate dominator is a strict dominator, below which no
strict dominator lies. -/
theorem idom_spec {u v : Nat} (hv : v ∈ g.order root)
    (hne : v ≠ root) (hIdom : (ofGraph g root).idom v = some u) :
    g.SDom root u v ∧ ∀ a, g.SDom root a v → g.Dom root a u := by
  obtain ⟨w, hw, hDom, hNearest⟩ := exists_idom hv hne
  rw [hw] at hIdom
  obtain rfl := Option.some.inj hIdom
  exact ⟨hDom, hNearest⟩

/-! ## Frontiers -/

theorem mem_preds_iff {u v : Nat} (hv : v ∈ g.order root) :
    u ∈ (ofGraph g root).preds v ↔ u ∈ g.order root ∧ v ∈ g.succ u := by
  rw [(settled_ofGraph (root_lt_size hv)).surveys.preds_eq v hv, List.mem_filter,
    List.contains_iff_mem]

/-- The nodes that a walk up passes before it comes to a node above. -/
theorem mem_takeWhile_iff {d : Dominance} (hRising : Rising g root d.idom) {p u : Nat}
    {way : List Nat} (h : Climbs d p way) (hu : Above root d.idom u p) (a : Nat) :
    a ∈ way.takeWhile (· != u) ↔ Above root d.idom a p ∧ ¬ Above root d.idom a u := by
  induction h with
  | @last v next =>
    cases hu with
    | here => simp
    | climb _ next' _ => simp [next] at next'
  | @root v next =>
    cases hu with
    | here => simp
    | climb hne _ _ => exact absurd (hRising.place_up hne next) (Nat.lt_irrefl _)
  | @up v w way next ne _ ih =>
    by_cases hEq : v = u
    · simp [hEq]
    · have hne : v ≠ root := by
        rintro rfl
        exact ne (Option.some.inj (next.symm.trans hRising.up_root))
      have hw := (hu.eq_or_next next).resolve_left (Ne.symm hEq)
      rw [List.takeWhile_cons, if_pos (bne_iff_ne.mpr hEq), List.mem_cons, ih hw]
      constructor
      · rintro (rfl | ⟨ha, hNot⟩)
        · refine ⟨.here, fun hau => ?_⟩
          have hLe := hRising.place_le hau
          have hLt := hRising.place_lt hu (Ne.symm hEq)
          omega
        · exact ⟨.climb hne next ha, hNot⟩
      · rintro ⟨ha, hNot⟩
        exact (ha.eq_or_next next).imp_right fun ha => ⟨ha, hNot⟩

theorem mem_frontierAmong {d : Dominance} {a v : Nat} :
    v ∈ frontierAmong d.joins a ↔ v ∈ d.order ∧ 2 ≤ (d.preds v).length ∧
      ∃ u, d.idom v = some u ∧ ∃ p ∈ d.preds v, a ∈ (d.above p).takeWhile (· != u) := by
  unfold frontierAmong joins
  rw [List.mem_map]
  constructor
  · rintro ⟨join, hJoin, rfl⟩
    obtain ⟨hJoin, hPassed⟩ := List.mem_filter.mp hJoin
    obtain ⟨w, hw, hSome⟩ := List.mem_filterMap.mp hJoin
    dsimp only at hSome
    split at hSome
    · rename_i hTwo
      obtain ⟨u, hIdom, rfl⟩ := Option.map_eq_some_iff.mp hSome
      exact ⟨hw, hTwo, u, hIdom, List.mem_flatMap.mp (List.contains_iff_mem.mp hPassed)⟩
    · simp at hSome
  · rintro ⟨hv, hTwo, u, hIdom, hPassed⟩
    refine ⟨⟨v, (d.preds v).flatMap fun p => (d.above p).takeWhile (· != u)⟩, ?_, rfl⟩
    refine List.mem_filter.mpr ⟨List.mem_filterMap.mpr ⟨v, hv, ?_⟩, ?_⟩
    · simp [hTwo, hIdom]
    · exact List.contains_iff_mem.mpr (List.mem_flatMap.mpr hPassed)

theorem getD_frontiers (d : Dominance) (a : Nat) :
    d.frontiers.toArray.getD a [] = if a < d.graph.size then frontierAmong d.joins a else [] := by
  unfold frontiers
  by_cases ha : a < d.graph.size
  · simp [Array.getD_eq_getD_getElem?, ha]
  · simp [Array.getD_eq_getD_getElem?, ha]

/-- A node is in the frontier of `a` if paths meet in it, and `a` dominates a predecessor but not
the immediate dominator. -/
theorem mem_frontiers_iff {a v : Nat} :
    v ∈ (ofGraph g root).frontiers.toArray.getD a [] ↔
      v ∈ g.order root ∧ 2 ≤ ((ofGraph g root).preds v).length ∧
        ∃ u, (ofGraph g root).idom v = some u ∧
          ∃ p ∈ (ofGraph g root).preds v, g.Dom root a p ∧ ¬ g.Dom root a u := by
  rw [getD_frontiers]
  split
  · rw [mem_frontierAmong]
    refine and_congr_right fun hv => and_congr_right fun _ => ?_
    refine exists_congr fun u => and_congr_right fun hIdom => ?_
    refine exists_congr fun p => and_congr_right fun hp => ?_
    have hRoot := root_lt_size hv
    have hRising := rising_ofGraph hRoot
    obtain ⟨hpOrder, edge⟩ := (mem_preds_iff hv).mp hp
    have huOrder : u ∈ g.order root := hRising.mem_order (hRising.goes_on hIdom)
    -- The immediate dominator of the meeting point dominates the predecessor.
    have hu : g.Dom root u p := by
      by_cases hne : v = root
      · obtain rfl := Option.some.inj ((hne ▸ hIdom).symm.trans (idom_root hRoot))
        by_cases hEq : p = u
        · exact .inl hEq.symm
        · exact .inr (sdom_root hEq)
      · exact (idom_spec hv hne hIdom).1.dom_of_edge edge
    rw [mem_takeWhile_iff hRising ((climbs_iff hRoot).mpr rfl) ((above_iff_dom hpOrder).mpr hu),
      above_iff_dom hpOrder, above_iff_dom huOrder]
  · rename_i ha
    refine iff_of_false List.not_mem_nil ?_
    rintro ⟨hv, -, u, -, p, hp, hDom, -⟩
    have hpOrder := ((mem_preds_iff hv).mp hp).1
    rcases hDom with rfl | hDom
    · exact ha (lt_size_of_mem_order hpOrder)
    · exact ha (lt_size_of_mem_order (hDom.mem_order hpOrder))

/-- A node that is dominated no longer has another predecessor besides the dominated one. -/
theorem two_le_preds {a p v : Nat} (hv : v ∈ g.order root) (hne : v ≠ root)
    (hp : p ∈ (ofGraph g root).preds v) (hDom : g.Dom root a p) (hNot : ¬ g.SDom root a v) :
    2 ≤ ((ofGraph g root).preds v).length := by
  have hPath := not_not.mp hNot
  cases hPath with
  | root => exact absurd rfl hne
  | @step other _ path ok edge =>
    have hOther : other ∈ (ofGraph g root).preds v := (mem_preds_iff hv).mpr
      ⟨(mem_order_iff g root other).mpr ⟨path.reaches, lt_size_of_mem_succ edge⟩, edge⟩
    have hDistinct : p ≠ other := by
      rintro rfl
      exact hDom.elim (Ne.symm ok) fun hStrict => hStrict path
    have hBoth : [p, other].Subperm ((ofGraph g root).preds v) := by
      refine List.subperm_of_subset (by simpa using hDistinct) fun l hl => ?_
      rcases List.mem_pair.mp hl with rfl | rfl
      · exact hp
      · exact hOther
    exact hBoth.length_le

/-- A node whose dominance ends at another node has that node in its frontier. -/
theorem mem_frontiers {a p v : Nat} (hv : v ∈ g.order root) (hne : v ≠ root)
    (hp : p ∈ (ofGraph g root).preds v) (hDom : g.Dom root a p) (hNot : ¬ g.SDom root a v) :
    v ∈ (ofGraph g root).frontiers.toArray.getD a [] := by
  obtain ⟨u, hIdom, hu, -⟩ := exists_idom hv hne
  exact mem_frontiers_iff.mpr ⟨hv, two_le_preds hv hne hp hDom hNot, u, hIdom, p, hp, hDom,
    fun h => hNot (h.sdom_of_sdom hu)⟩

/-- Where no edge leads back to the root, frontiers are where dominance ends. -/
theorem mem_frontiers_iff_of_rooted (hRooted : ∀ p ∈ g.order root, root ∉ g.succ p) {a v : Nat} :
    v ∈ (ofGraph g root).frontiers.toArray.getD a [] ↔
      v ∈ g.order root ∧ (∃ p ∈ g.order root, v ∈ g.succ p ∧ g.Dom root a p) ∧
        ¬ g.SDom root a v := by
  constructor
  · intro h
    obtain ⟨hv, -, u, hIdom, p, hp, hDom, hNot⟩ := mem_frontiers_iff.mp h
    obtain ⟨hpOrder, edge⟩ := (mem_preds_iff hv).mp hp
    have hne : v ≠ root := fun hEq => hRooted p hpOrder (hEq ▸ edge)
    exact ⟨hv, ⟨p, hpOrder, edge, hDom⟩, fun hStrict => hNot ((idom_spec hv hne hIdom).2 a hStrict)⟩
  · rintro ⟨hv, ⟨p, hpOrder, edge, hDom⟩, hNot⟩
    have hne : v ≠ root := fun hEq => hRooted p hpOrder (hEq ▸ edge)
    exact mem_frontiers hv hne ((mem_preds_iff hv).mpr ⟨hpOrder, edge⟩) hDom hNot

/-- Frontiers hold reached nodes in which paths meet. -/
theorem join_of_mem_frontiers {a v : Nat}
    (h : v ∈ (ofGraph g root).frontiers.toArray.getD a []) :
    v ∈ g.order root ∧ 2 ≤ ((ofGraph g root).preds v).length := by
  obtain ⟨hv, hJoin, -⟩ := mem_frontiers_iff.mp h
  exact ⟨hv, hJoin⟩

/-- What is found for some members of a list, each to its own, names members in their order. -/
theorem map_filterMap_sublist {α β : Type} {f : α → Option β} {key : β → α}
    (hKey : ∀ x y, f x = some y → key y = x) (l : List α) :
    ((l.filterMap f).map key).Sublist l := by
  induction l with
  | nil => exact .slnil
  | cons x l ih =>
    rw [List.filterMap_cons]
    cases hFound : f x with
    | none => exact ih.cons x
    | some y =>
      dsimp only
      rw [List.map_cons, hKey x y hFound]
      exact ih.cons_cons x

/-- A frontier lists no node twice. -/
theorem nodup_frontiers (a : Nat) : ((ofGraph g root).frontiers.toArray.getD a []).Nodup := by
  rw [getD_frontiers]
  split
  · have hSub : ((ofGraph g root).joins.map Join.node).Sublist (g.order root) := by
      refine map_filterMap_sublist (fun v join hSome => ?_) _
      dsimp only at hSome
      split at hSome
      · obtain ⟨u, -, rfl⟩ := Option.map_eq_some_iff.mp hSome
        rfl
      · simp at hSome
    exact (order_nodup g root).sublist ((List.filter_sublist.map _).trans hSub)
  · exact List.nodup_nil

/-! ## The dominator tree -/

theorem getD_children (d : Dominance) (u : Nat) :
    d.children.getD u [] =
      if u < d.graph.size then (d.parents.filter fun child => child.2 == u).map Prod.fst
      else [] := by
  unfold children
  by_cases hu : u < d.graph.size
  · simp [hu]
  · simp [hu]

/-- The children of a node are the reached nodes whose immediate dominator it is. -/
theorem mem_children_iff {u v : Nat} :
    v ∈ (ofGraph g root).children.getD u [] ↔
      v ∈ g.order root ∧ v ≠ root ∧ (ofGraph g root).idom v = some u := by
  rw [getD_children]
  split
  · simp only [parents, List.mem_map, List.mem_filter, List.mem_filterMap, order_ofGraph,
      beq_iff_eq]
    constructor
    · rintro ⟨child, ⟨⟨w, hw, hSome⟩, rfl⟩, rfl⟩
      by_cases hne : w = (ofGraph g root).root
      · simp [hne] at hSome
      · rw [if_neg hne] at hSome
        obtain ⟨u, hIdom, rfl⟩ := Option.map_eq_some_iff.mp hSome
        exact ⟨hw, hne, hIdom⟩
    · rintro ⟨hv, hne, hIdom⟩
      exact ⟨(v, u), ⟨⟨v, hv, by rw [root_ofGraph, if_neg hne, hIdom, Option.map_some]⟩, rfl⟩, rfl⟩
  · rename_i hu
    refine iff_of_false List.not_mem_nil ?_
    rintro ⟨hv, -, hIdom⟩
    have hRising := rising_ofGraph (root_lt_size hv)
    exact hu (lt_size_of_mem_order (hRising.mem_order (hRising.goes_on hIdom)))

/-- A node lists no child twice. -/
theorem nodup_children (u : Nat) : ((ofGraph g root).children.getD u []).Nodup := by
  rw [getD_children]
  split
  · have hSub : ((ofGraph g root).parents.map Prod.fst).Sublist (g.order root) := by
      refine map_filterMap_sublist (fun v child hSome => ?_) _
      by_cases hne : v = (ofGraph g root).root
      · simp [hne] at hSome
      · rw [if_neg hne] at hSome
        obtain ⟨u, -, rfl⟩ := Option.map_eq_some_iff.mp hSome
        rfl
    exact (order_nodup g root).sublist ((List.filter_sublist.map _).trans hSub)
  · exact List.nodup_nil

/-! ## The walk over the dominator tree -/

/-- The nodes of a part of a walk. -/
def nodes (walk : List (Nat × Option Nat)) : List Nat :=
  walk.map Prod.fst

/-- Every node of a part of a walk comes with its immediate dominator, which is among `seen`
or stands earlier in the walk. -/
def ParentsFirst (d : Dominance) : List Nat → List (Nat × Option Nat) → Prop
  | _, [] => True
  | seen, (v, parent) :: rest =>
    (∃ u, parent = some u ∧ d.idom v = some u ∧ u ∈ seen) ∧ d.ParentsFirst (v :: seen) rest

theorem ParentsFirst.mono {d : Dominance} {seen more : List Nat}
    {walk : List (Nat × Option Nat)} (h : d.ParentsFirst seen walk)
    (hSub : ∀ v ∈ seen, v ∈ more) : d.ParentsFirst more walk := by
  induction walk generalizing seen more with
  | nil => trivial
  | cons visit rest ih =>
    obtain ⟨⟨u, hParent, hIdom, hu⟩, hRest⟩ := h
    refine ⟨⟨u, hParent, hIdom, hSub u hu⟩, ih hRest fun v hv => ?_⟩
    rcases List.mem_cons.mp hv with rfl | hSeen
    · exact List.mem_cons_self
    · exact List.mem_cons_of_mem _ (hSub v hSeen)

theorem ParentsFirst.append {d : Dominance} {seen : List Nat}
    {walk more : List (Nat × Option Nat)} (h : d.ParentsFirst seen walk)
    (hMore : d.ParentsFirst seen more) : d.ParentsFirst seen (walk ++ more) := by
  induction walk generalizing seen with
  | nil => exact hMore
  | cons visit rest ih =>
    obtain ⟨hHead, hRest⟩ := h
    exact ⟨hHead, ih hRest (hMore.mono fun v hv => List.mem_cons_of_mem _ hv)⟩

theorem ParentsFirst.flatten {d : Dominance} {seen : List Nat}
    {walks : List (List (Nat × Option Nat))} (h : ∀ walk ∈ walks, d.ParentsFirst seen walk) :
    d.ParentsFirst seen walks.flatten := by
  induction walks with
  | nil => trivial
  | cons walk rest ih =>
    rw [List.flatten_cons]
    refine (h walk List.mem_cons_self).append (ih fun w hw => h w ?_)
    exact List.mem_cons_of_mem _ hw

/-- A finished subtree, filed under the parent of its top. -/
abbrev Filed := Nat × List (Nat × Option Nat)

/-- The subtrees filed under a node, one after another. -/
def subtree (v : Nat) (below : List Filed) : List (Nat × Option Nat) :=
  ((below.filter fun child => child.1 == v).map Prod.snd).flatten

/-- File the subtree of a node when its turn comes. -/
def file (d : Dominance) (v : Nat) (below : List Filed) : List Filed :=
  let parent := if v = d.root then none else d.idom v
  let tree := (v, parent) :: subtree v below
  match parent with
  | some u => (u, tree) :: below
  | none => (v, tree) :: below

theorem preorder_eq (d : Dominance) :
    d.preorder = ((d.order.foldr d.file []).head?.map Prod.snd).getD [] := rfl

/-- The state after the nodes `post` of the back of the order: the subtrees filed under
nodes still to come hold just `post`. -/
structure FiledFrom (d : Dominance) (post : List Nat) (below : List Filed) : Prop where
  keys : ∀ f ∈ below, f.1 ∈ d.order
  perm : ((below.filter fun f => f.1 ∉ post).flatMap fun f => nodes f.2).Perm post
  parents : ∀ f ∈ below, ∀ seen, f.1 ∈ seen → d.ParentsFirst seen f.2

theorem nodes_subtree (v : Nat) (below : List Filed) :
    nodes (subtree v below) =
      (below.filter fun f => f.1 == v).flatMap fun f => nodes f.2 := by
  simp [nodes, subtree, List.map_flatten, List.flatMap, Function.comp_def]

/-- The trees filed under `v` move into its own tree, the others stay. -/
theorem perm_filed {u v : Nat} {parent : Option Nat} {post : List Nat} {below : List Filed}
    (hvPost : v ∉ post) (huPost : u ∉ v :: post)
    (h : ((below.filter fun f => f.1 ∉ post).flatMap fun f => nodes f.2).Perm post) :
    ((((u, (v, parent) :: subtree v below) :: below).filter fun f => f.1 ∉ v :: post).flatMap
      fun f => nodes f.2).Perm (v :: post) := by
  have hMine : (below.filter fun f => f.1 == v) =
      (below.filter fun f => f.1 ∉ post).filter fun f => f.1 == v := by
    rw [List.filter_filter]
    refine List.filter_congr fun f _ => ?_
    by_cases hEq : f.1 = v
    · simp [hEq, hvPost]
    · simp [hEq]
  have hOthers : (below.filter fun f => f.1 ∉ v :: post) =
      (below.filter fun f => f.1 ∉ post).filter fun f => !(f.1 == v) := by
    rw [List.filter_filter]
    refine List.filter_congr fun f _ => ?_
    by_cases hEq : f.1 = v
    · simp [hEq]
    · simp [hEq]
  have hKeep : decide (u ∉ v :: post) = true := by simpa using huPost
  rw [List.filter_cons, if_pos hKeep, List.flatMap_cons]
  show (v :: nodes (subtree v below) ++ _).Perm _
  rw [nodes_subtree, hMine, hOthers, List.cons_append, ← List.flatMap_append]
  refine List.Perm.cons v (List.Perm.trans ?_ h)
  exact (List.filter_append_perm (fun f : Filed => f.1 == v) _).flatMap_right _

theorem filedFrom_file {v : Nat} {post : List Nat} {below : List Filed} {front : List Nat}
    (hSplit : g.order root = front ++ v :: post) (hne : v ≠ root)
    (h : FiledFrom (ofGraph g root) post below) :
    FiledFrom (ofGraph g root) (v :: post) ((ofGraph g root).file v below) := by
  have hv : v ∈ g.order root := by simp [hSplit]
  obtain ⟨u, hIdom, hu, -⟩ := exists_idom hv hne
  have hPairwise := order_pairwise g root
  have hNodup := order_nodup g root
  rw [hSplit] at hPairwise hNodup
  have hvPost : v ∉ post := (List.nodup_cons.mp (List.nodup_append.mp hNodup).2.1).1
  have huPost : u ∉ v :: post := by
    intro hMem
    rcases List.mem_cons.mp hMem with rfl | hMem
    · exact hu.ne ((mem_order_iff g root u).mp hv).1 rfl
    · exact (List.pairwise_cons.mp (List.pairwise_append.mp hPairwise).2.1).1 u hMem hu
  have hFile : (ofGraph g root).file v below =
      (u, (v, some u) :: subtree v below) :: below := by
    simp [file, hne, hIdom]
  rw [hFile]
  refine ⟨?_, perm_filed hvPost huPost h.perm, ?_⟩
  · intro f hf
    rcases List.mem_cons.mp hf with rfl | hBelow
    · exact hu.mem_order hv
    · exact h.keys f hBelow
  · intro f hf seen hSeen
    rcases List.mem_cons.mp hf with rfl | hBelow
    · refine ⟨⟨u, rfl, hIdom, hSeen⟩, ParentsFirst.flatten fun walk hWalk => ?_⟩
      obtain ⟨child, hChild, rfl⟩ := List.mem_map.mp hWalk
      obtain ⟨hMem, hKey⟩ := List.mem_filter.mp hChild
      refine h.parents child hMem _ ?_
      rw [beq_iff_eq.mp hKey]
      exact List.mem_cons_self
    · exact h.parents f hBelow seen hSeen

theorem filedFrom_foldr (post : List Nat) : ∀ front : List Nat,
    g.order root = front ++ post → root ∉ post →
      FiledFrom (ofGraph g root) post (post.foldr (ofGraph g root).file []) := by
  induction post with
  | nil =>
    intro _ _ _
    exact ⟨by simp, by simp, by simp⟩
  | cons v post ih =>
    intro front hSplit hRootPost
    rw [List.mem_cons, not_or] at hRootPost
    refine filedFrom_file hSplit (Ne.symm hRootPost.1) (ih (front ++ [v]) ?_ hRootPost.2)
    simpa using hSplit

/-- The walk starts at the root and visits each other reached node once, after its immediate
dominator. -/
theorem preorder_spec (hRoot : root < g.size) :
    ∃ rest, (ofGraph g root).preorder = (root, none) :: rest ∧
      (root :: nodes rest).Perm (g.order root) ∧
      (ofGraph g root).ParentsFirst [root] rest := by
  obtain ⟨post, hOrder⟩ := order_eq_cons hRoot
  have hNodup := order_nodup g root
  rw [hOrder] at hNodup
  have hRootPost := (List.nodup_cons.mp hNodup).1
  have hFiled := filedFrom_foldr post [root] (by simpa using hOrder) hRootPost
  generalize hBelow : post.foldr (ofGraph g root).file [] = below at hFiled
  refine ⟨subtree root below, ?_, ?_, ?_⟩
  · rw [preorder_eq, order_ofGraph, hOrder, List.foldr_cons, hBelow]
    simp [file]
  · rw [hOrder, nodes_subtree]
    refine List.Perm.cons root (List.Perm.trans (List.Perm.of_eq ?_) hFiled.perm)
    congr 1
    refine List.filter_congr fun f hf => ?_
    -- All that is left open is filed under the root.
    have hKey : f.1 ∈ root :: post := hOrder ▸ hFiled.keys f hf
    rcases List.mem_cons.mp hKey with hEq | hPost
    · simp [hEq, hRootPost]
    · have hne : f.1 ≠ root := fun hEq => hRootPost (hEq ▸ hPost)
      simp [hPost, hne]
  · refine ParentsFirst.flatten fun walk hWalk => ?_
    obtain ⟨child, hChild, rfl⟩ := List.mem_map.mp hWalk
    obtain ⟨hMem, hKey⟩ := List.mem_filter.mp hChild
    refine hFiled.parents child hMem _ ?_
    rw [beq_iff_eq.mp hKey]
    exact List.mem_cons_self

section Walk

variable {σ : Type} {visit : σ → Nat × Option Nat → σ} {motive : List Nat → σ → Prop}

/-- The rest of a walk keeps what every visit of a reached node keeps, if its immediate dominator
has been visited. -/
theorem foldl_visit
    (next : ∀ visited s v u, motive visited s → v ∉ visited → v ∈ g.order root → v ≠ root →
      (ofGraph g root).idom v = some u → u ∈ visited → motive (v :: visited) (visit s (v, some u)))
    (walk : List (Nat × Option Nat)) : ∀ {visited : List Nat} {s : σ}, motive visited s →
      root ∈ visited → (∀ v ∈ nodes walk, v ∉ visited ∧ v ∈ g.order root) → (nodes walk).Nodup →
      (ofGraph g root).ParentsFirst visited walk →
      ∃ all, (∀ v, v ∈ all ↔ v ∈ visited ∨ v ∈ nodes walk) ∧ motive all (walk.foldl visit s) := by
  induction walk with
  | nil =>
    intro visited s hs _ _ _ _
    exact ⟨visited, by simp [nodes], hs⟩
  | cons head walk ih =>
    intro visited s hs hIn hNew hNodup hFirst
    obtain ⟨v, parent⟩ := head
    obtain ⟨⟨u, rfl, hIdom, hu⟩, hFirst⟩ := hFirst
    obtain ⟨hNotLater, hNodup⟩ : v ∉ nodes walk ∧ (nodes walk).Nodup := List.nodup_cons.mp hNodup
    obtain ⟨hFresh, hReached⟩ := hNew v List.mem_cons_self
    have hne : v ≠ root := fun hEq => hFresh (hEq ▸ hIn)
    have hNewRest : ∀ w ∈ nodes walk, w ∉ v :: visited ∧ w ∈ g.order root := by
      intro w hw
      obtain ⟨hFreshW, hReachedW⟩ := hNew w (List.mem_cons_of_mem _ hw)
      refine ⟨fun hMem => ?_, hReachedW⟩
      rcases List.mem_cons.mp hMem with rfl | hVisited
      · exact hNotLater hw
      · exact hFreshW hVisited
    obtain ⟨all, hAll, hEnd⟩ := ih (next visited s v u hs hFresh hReached hne hIdom hu)
      (List.mem_cons_of_mem _ hIn) hNewRest hNodup hFirst
    refine ⟨all, fun w => ?_, hEnd⟩
    rw [hAll, List.mem_cons]
    show _ ↔ w ∈ visited ∨ w ∈ v :: nodes walk
    rw [List.mem_cons, or_assoc, or_left_comm]

/-- Induction along the walk.  What holds of the state after the root, and is kept by the
visit of a reached node whose immediate dominator has been visited, holds at the end, when
all reached nodes have been visited. -/
theorem walk_induction (hRoot : root < g.size) (visit : σ → Nat × Option Nat → σ) (start : σ)
    (motive : List Nat → σ → Prop) (first : motive [root] (visit start (root, none)))
    (next : ∀ visited s v u, motive visited s → v ∉ visited → v ∈ g.order root → v ≠ root →
      (ofGraph g root).idom v = some u → u ∈ visited → motive (v :: visited) (visit s (v, some u))) :
    ∃ visited, (∀ v, v ∈ visited ↔ v ∈ g.order root) ∧
      motive visited ((ofGraph g root).preorder.foldl visit start) := by
  obtain ⟨rest, hPreorder, hPerm, hParents⟩ := @preorder_spec g root hRoot
  have hNodup : (root :: nodes rest).Nodup := hPerm.nodup_iff.mpr (order_nodup g root)
  obtain ⟨hNotLater, hNodupRest⟩ := List.nodup_cons.mp hNodup
  have hMem : ∀ v, v ∈ root :: nodes rest ↔ v ∈ g.order root := fun v => hPerm.mem_iff
  have hNew : ∀ v ∈ nodes rest, v ∉ [root] ∧ v ∈ g.order root := by
    intro v hv
    refine ⟨fun hIn => hNotLater ?_, (hMem v).mp (List.mem_cons_of_mem _ hv)⟩
    rwa [← List.mem_singleton.mp hIn]
  obtain ⟨all, hAll, hEnd⟩ :=
    foldl_visit next rest first List.mem_cons_self hNew hNodupRest hParents
  refine ⟨all, fun v => ?_, ?_⟩
  · rw [hAll, List.mem_singleton, ← hMem, List.mem_cons]
  · rw [hPreorder, List.foldl_cons]
    exact hEnd

end Walk

end Analysis

end Dominance

end LiveCompiler
