import LiveCompiler.Graph.Dominance
import LiveCompiler.Proofs.Graph.Ascent
import LiveCompiler.Proofs.Repeats
import Mathlib.Algebra.Order.BigOperators.Group.List
import Mathlib.Algebra.Order.Ring.Nat

/-!
# The iteration comes to an end

The analysis of a graph has four loops: the search, the walk to the place where two ways up meet,
the sweeps, and the walk up from a node.  Each is made at most so many times.  `Analyses` and
`Climbs` take the loops with no bound, and `analyses_iff` and `climbs_iff` say that they come to an
end with what the bounded loops give.

Ways up meet because at each step the one of the two nodes that has the later place is left.  The
sweeps end because each change puts a node below one with an earlier place than before
(`slack_put`): what is above all predecessors of a node is above the node already.
-/

namespace LiveCompiler

namespace Dominance

open LiveCompiler.Digraph

/-! ## Loops without a bound -/

/-- A search that visits some nodes, one after another. -/
inductive Explores (g : Digraph) : List Nat → Search → Search → Prop
  | nil (s : Search) : Explores g [] s s
  | seen {v : Nat} {rest : List Nat} {s t : Search} (sees : s.sees v = true)
      (later : Explores g rest s t) : Explores g (v :: rest) s t
  | visit {v : Nat} {rest : List Nat} {s m t : Search} (fresh : s.sees v = false)
      (inside : Explores g (g.succ v) (s.mark v) m) (later : Explores g rest (m.finish v) t) :
      Explores g (v :: rest) s t

/-- Two ways up meet in a node. -/
inductive Meets (d : Dominance) : Nat → Nat → Nat → Prop
  | here (a : Nat) : Meets d a a a
  | left {a b u c : Nat} (ne : a ≠ b) (later : d.rank b < d.rank a) (next : d.idom a = some u)
      (rest : Meets d u b c) : Meets d a b c
  | leftEnds {a b : Nat} (ne : a ≠ b) (later : d.rank b < d.rank a) (next : d.idom a = none) :
      Meets d a b b
  | right {a b u c : Nat} (ne : a ≠ b) (later : ¬ d.rank b < d.rank a) (next : d.idom b = some u)
      (rest : Meets d a u c) : Meets d a b c
  | rightEnds {a b : Nat} (ne : a ≠ b) (later : ¬ d.rank b < d.rank a)
      (next : d.idom b = none) : Meets d a b a

/-- The ways up from some nodes meet, one after another, with what was found so far. -/
inductive MeetsAll (d : Dominance) : List Nat → Nat → Nat → Prop
  | nil (found : Nat) : MeetsAll d [] found found
  | cons {p found next c : Nat} {rest : List Nat} (first : Meets d p found next)
      (later : MeetsAll d rest next c) : MeetsAll d (p :: rest) found c

/-- What becomes of one node in a sweep. -/
inductive Improves (d : Dominance) (v : Nat) : Dominance × Bool → Prop
  | unknown (preds : d.knownPreds v = []) : Improves d v (d, false)
  | same {first c : Nat} {rest : List Nat} (preds : d.knownPreds v = first :: rest)
      (meets : MeetsAll d rest first c) (old : d.idom v = some c) : Improves d v (d, false)
  | moved {first c : Nat} {rest : List Nat} (preds : d.knownPreds v = first :: rest)
      (meets : MeetsAll d rest first c) (new : d.idom v ≠ some c) :
      Improves d v (d.put v c, true)

/-- A sweep over some nodes. -/
inductive Sweeps : List Nat → Dominance → Dominance × Bool → Prop
  | nil (d : Dominance) : Sweeps [] d (d, false)
  | cons {v : Nat} {rest : List Nat} {d : Dominance} {out last : Dominance × Bool}
      (first : Improves d v out) (later : Sweeps rest out.1 last) :
      Sweeps (v :: rest) d (last.1, out.2 || last.2)

/-- The analysis of a graph with no bound on its loops. -/
inductive Analyses (g : Digraph) (root : Nat) : Dominance → Prop
  | mk {s : Search} {settled : Dominance × Bool}
      (explores : Explores g [root] (Search.start g.size) s)
      (settles : Repeats (Sweeps (s.finished.drop 1)) (survey g root s) settled) :
      Analyses g root { survey g root s with idoms := settled.1.idoms }

/-- The walk up from a node with no bound on its length. -/
inductive Climbs (d : Dominance) : Nat → List Nat → Prop
  | last {v : Nat} (next : d.idom v = none) : Climbs d v [v]
  | root {v : Nat} (next : d.idom v = some v) : Climbs d v [v]
  | up {v u : Nat} {way : List Nat} (next : d.idom v = some u) (ne : u ≠ v)
      (rest : Climbs d u way) : Climbs d v (v :: way)

/-! ## The results are unique -/

variable {g : Digraph} {root : Nat} {d : Dominance}

theorem Explores.unique {targets : List Nat} {s t t' : Search} (h : Explores g targets s t)
    (h' : Explores g targets s t') : t = t' := by
  induction h generalizing t' with
  | nil =>
    cases h'
    rfl
  | seen sees _ ih =>
    cases h' with
    | seen _ later' => exact ih later'
    | visit fresh' _ _ => simp [sees] at fresh'
  | visit fresh _ _ ihInside ihLater =>
    cases h' with
    | seen sees' _ => simp [fresh] at sees'
    | visit _ inside' later' =>
      obtain rfl := ihInside inside'
      exact ihLater later'

/-- From some number of steps on the bounded walk gives where the ways meet. -/
theorem Meets.eq_meet {a b c : Nat} (h : Meets d a b c) :
    ∃ enough, ∀ steps, enough ≤ steps → d.meet steps a b = c := by
  induction h with
  | here a =>
    refine ⟨0, fun steps _ => ?_⟩
    cases steps <;> simp [meet]
  | left ne later next _ ih =>
    obtain ⟨enough, ih⟩ := ih
    refine ⟨enough + 1, fun steps hSteps => ?_⟩
    obtain ⟨steps, rfl⟩ := Nat.exists_eq_add_of_le' (Nat.le_of_add_left_le hSteps)
    simp only [meet, if_neg ne, if_pos later, next]
    exact ih steps (by omega)
  | leftEnds ne later next =>
    refine ⟨1, fun steps hSteps => ?_⟩
    obtain ⟨steps, rfl⟩ := Nat.exists_eq_add_of_le' hSteps
    simp only [meet, if_neg ne, if_pos later, next]
  | right ne later next _ ih =>
    obtain ⟨enough, ih⟩ := ih
    refine ⟨enough + 1, fun steps hSteps => ?_⟩
    obtain ⟨steps, rfl⟩ := Nat.exists_eq_add_of_le' (Nat.le_of_add_left_le hSteps)
    simp only [meet, if_neg ne, if_neg later, next]
    exact ih steps (by omega)
  | rightEnds ne later next =>
    refine ⟨1, fun steps hSteps => ?_⟩
    obtain ⟨steps, rfl⟩ := Nat.exists_eq_add_of_le' hSteps
    simp only [meet, if_neg ne, if_neg later, next]

theorem Meets.unique {a b c c' : Nat} (h : Meets d a b c) (h' : Meets d a b c') : c = c' := by
  obtain ⟨enough, hEnough⟩ := h.eq_meet
  obtain ⟨enough', hEnough'⟩ := h'.eq_meet
  rw [← hEnough _ (Nat.le_max_left enough enough'), hEnough' _ (Nat.le_max_right _ _)]

theorem MeetsAll.unique {ps : List Nat} {found c c' : Nat} (h : MeetsAll d ps found c)
    (h' : MeetsAll d ps found c') : c = c' := by
  induction h with
  | nil =>
    cases h'
    rfl
  | cons first _ ih =>
    cases h' with
    | cons first' later' =>
      obtain rfl := first.unique first'
      exact ih later'

theorem Improves.unique {v : Nat} {out out' : Dominance × Bool} (h : Improves d v out)
    (h' : Improves d v out') : out = out' := by
  have hMeet : ∀ {first first' c c' : Nat} {rest rest' : List Nat},
      d.knownPreds v = first :: rest → MeetsAll d rest first c →
      d.knownPreds v = first' :: rest' → MeetsAll d rest' first' c' → c = c' := by
    intro first first' c c' rest rest' preds meets preds' meets'
    obtain ⟨rfl, rfl⟩ := List.cons.inj (preds.symm.trans preds')
    exact meets.unique meets'
  cases h with
  | unknown preds => cases h' <;> simp_all
  | same preds meets old =>
    cases h' with
    | unknown | same => rfl
    | moved preds' meets' new' => exact absurd (hMeet preds meets preds' meets' ▸ old) new'
  | moved preds meets new =>
    cases h' with
    | unknown preds' => simp [preds] at preds'
    | same preds' meets' old' => exact absurd (hMeet preds' meets' preds meets ▸ old') new
    | moved preds' meets' _ => rw [hMeet preds meets preds' meets']

theorem Sweeps.unique {nodes : List Nat} {out out' : Dominance × Bool} (h : Sweeps nodes d out)
    (h' : Sweeps nodes d out') : out = out' := by
  induction h generalizing out' with
  | nil =>
    cases h'
    rfl
  | cons first _ ih =>
    cases h' with
    | cons first' later' =>
      obtain rfl := first.unique first'
      rw [ih later']

theorem Analyses.unique {d' : Dominance} (h : Analyses g root d) (h' : Analyses g root d') :
    d = d' := by
  obtain ⟨explores, settles⟩ := h
  obtain ⟨explores', settles'⟩ := h'
  obtain rfl := explores.unique explores'
  rw [settles.unique (fun _ _ _ hOut hOut' => hOut.unique hOut') settles']

theorem Climbs.unique {v : Nat} {way way' : List Nat} (h : Climbs d v way)
    (h' : Climbs d v way') : way = way' := by
  induction h generalizing way' with
  | last | root => cases h' <;> simp_all
  | up next ne _ ih =>
    cases h' with
    | last | root => simp_all
    | up next' _ rest' =>
      obtain rfl := Option.some.inj (next.symm.trans next')
      rw [ih rest']

/-! ## The search -/

theorem Explores.cons {v : Nat} {rest : List Nat} {s m t : Search} (h : Explores g [v] s m)
    (later : Explores g rest m t) : Explores g (v :: rest) s t := by
  cases h with
  | seen sees h =>
    cases h
    exact .seen sees later
  | visit fresh inside h =>
    cases h
    exact .visit fresh inside later

theorem explores_foldl {depth : Nat}
    (ih : ∀ (s : Search) (v : Nat), s.unseen ≤ depth → Explores g [v] s (g.visit depth s v))
    (targets : List Nat) : ∀ s : Search, s.unseen ≤ depth →
      Explores g targets s (targets.foldl (g.visit depth) s) := by
  induction targets with
  | nil => exact fun s _ => .nil s
  | cons v rest ihRest =>
    intro s hDepth
    obtain ⟨new, hVisits⟩ := visits_visit g v depth s v hDepth
    exact (ih s v hDepth).cons (ihRest _ (Nat.le_trans hVisits.unseen_le hDepth))

theorem explores_visit (depth : Nat) : ∀ (s : Search) (v : Nat), s.unseen ≤ depth →
    Explores g [v] s (g.visit depth s v) := by
  induction depth with
  | zero =>
    intro s v hDepth
    refine .seen ?_ (.nil s)
    by_contra hNot
    have hPos := Search.unseen_pos (Bool.eq_false_of_not_eq_true hNot)
    omega
  | succ depth ih =>
    intro s v hDepth
    unfold visit
    by_cases hSeen : s.sees v = true
    · rw [if_pos hSeen]
      exact .seen hSeen (.nil s)
    · rw [if_neg hSeen]
      have hFresh := Bool.eq_false_of_not_eq_true hSeen
      have hLess := Search.unseen_mark_lt hFresh
      exact .visit hFresh (explores_foldl ih (g.succ v) (s.mark v) (by omega)) (.nil _)

theorem explores_search (g : Digraph) (root : Nat) :
    Explores g [root] (Search.start g.size) (g.search root) := by
  refine explores_visit g.size _ root ?_
  have h := unseen_le_size (Search.start g.size)
  simpa [Search.start] using h

/-! ## What the state of the iteration holds besides the ways up -/

/-- The order, the places and the predecessors are those of the graph. -/
structure Surveys (g : Digraph) (root : Nat) (d : Dominance) : Prop where
  order_eq : d.order = g.order root
  rank_eq : ∀ v ∈ g.order root, d.rank v = g.place root v
  preds_eq : ∀ v ∈ g.order root,
    d.preds v = (g.order root).filter fun p => (g.succ p).contains v
  size_idoms : d.idoms.size = g.size

theorem surveys_survey (g : Digraph) (root : Nat) :
    Surveys g root (survey g root (g.search root)) where
  order_eq := rfl
  rank_eq v hv := by
    have hlt := lt_size_of_mem_order hv
    simp [rank, survey, hlt, place, Digraph.order]
  preds_eq v hv := by
    have hlt := lt_size_of_mem_order hv
    simp [preds, survey, hlt, Digraph.order]
  size_idoms := by simp [survey]

theorem Surveys.put (h : Surveys g root d) (v u : Nat) : Surveys g root (d.put v u) where
  order_eq := h.order_eq
  rank_eq := h.rank_eq
  preds_eq := h.preds_eq
  size_idoms := by simp [Dominance.put, h.size_idoms]

theorem Surveys.knownPreds_eq (h : Surveys g root d) {v : Nat} (hv : v ∈ g.order root) :
    d.knownPreds v = risingPreds g root d.idom v := by
  rw [knownPreds, h.preds_eq v hv, risingPreds]

theorem Surveys.idom_put (h : Surveys g root d) {v u : Nat} (hv : v ∈ g.order root) :
    (d.put v u).idom = Function.update d.idom v (some u) := by
  funext w
  have hlt : v < d.idoms.size := h.size_idoms ▸ lt_size_of_mem_order hv
  unfold idom Dominance.put
  by_cases hEq : w = v
  · simp [hEq, hlt]
  · simp [hEq, Array.getD_eq_getD_getElem?, Ne.symm hEq]

/-! ## Where ways up meet -/

/-- Enough steps find where two ways up meet: what is above both is above that node. -/
theorem meets_meet (h : Surveys g root d) (hRising : Rising g root d.idom) (steps : Nat) :
    ∀ {a b : Nat}, (d.idom a).isSome → (d.idom b).isSome →
      g.place root a + g.place root b ≤ steps →
      Meets d a b (d.meet steps a b) ∧ ∀ x, Above root d.idom x (d.meet steps a b) ↔
        Above root d.idom x a ∧ Above root d.idom x b := by
  induction steps with
  | zero =>
    intro a b ha hb hSteps
    obtain rfl : a = b := place_inj (hRising.mem_order ha) (by omega)
    simpa [meet] using Meets.here a
  | succ steps ih =>
    intro a b ha hb hSteps
    have hRankA := h.rank_eq a (hRising.mem_order ha)
    have hRankB := h.rank_eq b (hRising.mem_order hb)
    by_cases hEq : a = b
    · subst hEq
      simpa [meet] using Meets.here a
    · have hPlaces : g.place root a ≠ g.place root b := fun hSame =>
        hEq (place_inj (hRising.mem_order ha) hSame)
      by_cases hLater : d.rank b < d.rank a
      · have hlt : g.place root b < g.place root a := by omega
        obtain ⟨u, next⟩ := Option.isSome_iff_exists.mp ha
        have hUp := hRising.place_up (hRising.ne_root hb hlt) next
        obtain ⟨hMeets, hAbove⟩ := ih (hRising.goes_on next) hb (by omega)
        simp only [meet, if_neg hEq, if_pos hLater, next]
        refine ⟨.left hEq hLater next hMeets, fun x => ?_⟩
        rw [hAbove]
        exact and_congr_left (hRising.above_next_iff hb hlt next)
      · have hlt : g.place root a < g.place root b := by omega
        obtain ⟨u, next⟩ := Option.isSome_iff_exists.mp hb
        have hUp := hRising.place_up (hRising.ne_root ha hlt) next
        obtain ⟨hMeets, hAbove⟩ := ih ha (hRising.goes_on next) (by omega)
        simp only [meet, if_neg hEq, if_neg hLater, next]
        refine ⟨.right hEq hLater next hMeets, fun x => ?_⟩
        rw [hAbove]
        exact and_congr_right (hRising.above_next_iff ha hlt next)

theorem meetsAll_foldl (h : Surveys g root d) (hRising : Rising g root d.idom) (rest : List Nat) :
    ∀ {first : Nat}, (d.idom first).isSome → (∀ p ∈ rest, (d.idom p).isSome) →
      ∃ c, rest.foldl (fun found p => d.meet d.meetSteps p found) first = c ∧
        MeetsAll d rest first c ∧ IsMeet root d.idom (first :: rest) c := by
  induction rest with
  | nil =>
    intro first _ _
    exact ⟨first, rfl, .nil first, by simpa using Above.here, fun x hx => hx first (by simp)⟩
  | cons p rest ih =>
    intro first hFirst hRest
    have hp := hRest p List.mem_cons_self
    have hSteps : g.place root p + g.place root first ≤ d.meetSteps := by
      have hpLt := place_lt (hRising.mem_order hp)
      have hFirstLt := place_lt (hRising.mem_order hFirst)
      rw [meetSteps, h.order_eq]
      omega
    obtain ⟨hMeets, hAbove⟩ := meets_meet h hRising d.meetSteps hp hFirst hSteps
    have hBoth := (hAbove _).mp .here
    obtain ⟨c, hc, hAll, hMeet⟩ := ih (hRising.known hBoth.1 hp) fun q hq =>
      hRest q (List.mem_cons_of_mem _ hq)
    have hcFound := hMeet.above _ List.mem_cons_self
    refine ⟨c, by rw [List.foldl_cons, hc], .cons hMeets hAll, ?_, ?_⟩
    · intro q hq
      rcases List.mem_cons.mp hq with rfl | hq
      · exact hcFound.trans hBoth.2
      · rcases List.mem_cons.mp hq with rfl | hq
        · exact hcFound.trans hBoth.1
        · exact hMeet.above q (List.mem_cons_of_mem _ hq)
    · intro x hx
      refine hMeet.lowest x fun q hq => ?_
      rcases List.mem_cons.mp hq with rfl | hq
      · exact (hAbove x).mpr ⟨hx p (by simp), hx first (by simp)⟩
      · exact hx q (by simp [hq])

/-! ## Sweeps -/

/-- A node stands where the ways up from its predecessors meet. -/
def Stands (g : Digraph) (root : Nat) (d : Dominance) (v : Nat) : Prop :=
  ∃ c, d.idom v = some c ∧ IsMeet root d.idom (risingPreds g root d.idom v) c

/-- How far a node can still move up. -/
def room (g : Digraph) (root : Nat) (up : Nat → Option Nat) (v : Nat) : Nat :=
  (up v).elim g.size (g.place root)

/-- How far all nodes together can still move up. -/
def slack (g : Digraph) (root : Nat) (d : Dominance) : Nat :=
  ((g.order root).map (room g root d.idom)).sum

theorem length_order_le (g : Digraph) (root : Nat) : (g.order root).length ≤ g.size := by
  have hSub : g.order root ⊆ List.range g.size := fun v hv =>
    List.mem_range.mpr (lt_size_of_mem_order hv)
  simpa using ((order_nodup g root).subperm hSub).length_le

theorem place_lt_size {v : Nat} (hv : v ∈ g.order root) : g.place root v < g.size :=
  Nat.lt_of_lt_of_le (place_lt hv) (length_order_le g root)

/-- At the start the room of each node is at most the size. -/
theorem slack_le (hKnown : ∀ v u, d.idom v = some u → u ∈ g.order root) :
    slack g root d ≤ g.size * g.size := by
  have hEach : ∀ x ∈ (g.order root).map (room g root d.idom), x ≤ g.size := by
    intro x hx
    obtain ⟨v, -, rfl⟩ := List.mem_map.mp hx
    unfold room
    cases hUp : d.idom v with
    | none => exact Nat.le_refl _
    | some u => exact Nat.le_of_lt (place_lt_size (hKnown v u hUp))
  calc slack g root d ≤ ((g.order root).map (room g root d.idom)).length * g.size := by
        simpa [slack] using List.sum_le_card_nsmul _ _ hEach
    _ ≤ g.size * g.size := by
        rw [List.length_map]
        exact Nat.mul_le_mul_right _ (length_order_le g root)

variable {k v c : Nat}

/-- A node that is moved gets less room: what is above all its predecessors is above it. -/
theorem slack_put (h : Surveys g root d) (hSettling : Settling g root d.idom k)
    (hv : v ∈ g.order root) (hne : v ≠ root) (hPlace : g.place root v = k)
    (hMeet : IsMeet root d.idom (risingPreds g root d.idom v) c) (hNew : d.idom v ≠ some c) :
    slack g root (d.put v c) < slack g root d := by
  have hRoom : room g root (d.put v c).idom v < room g root d.idom v := by
    rw [h.idom_put hv, room, room, Function.update_self, Option.elim_some]
    cases hUp : d.idom v with
    | none =>
      exact place_lt_size (hSettling.mem_order (hSettling.known_meet hv hne hPlace hMeet))
    | some u =>
      refine hSettling.place_lt (hSettling.common hne hUp hMeet.above) ?_
      rintro rfl
      exact hNew hUp
  refine List.sum_lt_sum _ _ (fun w _ => ?_) ⟨v, hv, hRoom⟩
  by_cases hEq : w = v
  · subst hEq
    exact Nat.le_of_lt hRoom
  · simp [h.idom_put hv, room, Function.update_of_ne hEq]

/-- What a sweep over some nodes comes to: the node at place `k` is the next one. -/
structure SweepsTo (g : Digraph) (root : Nat) (nodes : List Nat) (d : Dominance)
    (out : Dominance × Bool) (k : Nat) : Prop where
  sweeps : Sweeps nodes d out
  surveys : Surveys g root out.1
  settling : Settling g root out.1.idom k
  slack_le : slack g root out.1 + out.2.toNat ≤ slack g root d
  stands : out.2 = false → out.1 = d ∧ ∀ v ∈ nodes, Stands g root d v

/-- The step of a sweep. -/
theorem improve_spec (h : Surveys g root d) (hSettling : Settling g root d.idom k)
    (hv : v ∈ g.order root) (hne : v ≠ root) (hPlace : g.place root v = k) :
    Improves d v (d.improve v) ∧ SweepsTo g root [v] d (d.improve v) (k + 1) := by
  have hPreds := h.knownPreds_eq hv
  obtain ⟨p, hp, -⟩ := hSettling.exists_pred hv hne (.inr (Nat.le_of_eq hPlace))
  obtain ⟨first, rest, hSplit⟩ := List.exists_cons_of_ne_nil (List.ne_nil_of_mem hp)
  have hKnown : ∀ q ∈ first :: rest, (d.idom q).isSome := fun q hq =>
    (mem_risingPreds.mp (hSplit ▸ hq)).2.2
  obtain ⟨c, hc, hMeets, hMeet⟩ := meetsAll_foldl h hSettling.toRising rest
    (hKnown first List.mem_cons_self) fun q hq => hKnown q (List.mem_cons_of_mem _ hq)
  rw [← hSplit] at hMeet
  have hOfPreds : d.meetOfPreds v = some c := by
    simp [meetOfPreds, hPreds, hSplit, hc]
  have hPut := hSettling.put hv hne hPlace hMeet
  rw [improve, hOfPreds]
  dsimp only
  by_cases hSame : d.idom v = some c
  · rw [if_pos hSame]
    have hImproves := Improves.same (hPreds.trans hSplit) hMeets hSame
    rw [← hSame, Function.update_eq_self] at hPut
    refine ⟨hImproves, .cons hImproves (.nil d), h, hPut, Nat.le_refl _, fun _ => ⟨rfl, ?_⟩⟩
    simpa using ⟨c, hSame, hMeet⟩
  · rw [if_neg hSame]
    have hImproves := Improves.moved (hPreds.trans hSplit) hMeets hSame
    refine ⟨hImproves, .cons hImproves (.nil _), h.put v c, h.idom_put hv ▸ hPut, ?_, ?_⟩
    · exact slack_put h hSettling hv hne hPlace hMeet hSame
    · simp

theorem place_of_split {front rest : List Nat} (hSplit : g.order root = front ++ v :: rest) :
    g.place root v = front.length := by
  have hNodup := order_nodup g root
  rw [hSplit] at hNodup
  have hNotFront : v ∉ front := fun hMem =>
    (List.nodup_append.mp hNodup).2.2 v hMem v List.mem_cons_self rfl
  rw [place, hSplit, List.idxOf_append_of_notMem hNotFront, List.idxOf_cons_self, Nat.add_zero]

theorem sweep_spec (nodes : List Nat) : ∀ {front : List Nat} {d : Dominance},
    g.order root = front ++ nodes → root ∉ nodes → Surveys g root d →
      Settling g root d.idom front.length →
        SweepsTo g root nodes d (sweep nodes d) (g.order root).length := by
  induction nodes with
  | nil =>
    intro front d hSplit _ h hSettling
    rw [hSplit, List.append_nil]
    exact ⟨.nil d, h, hSettling, Nat.le_refl _, by simp [sweep]⟩
  | cons v rest ih =>
    intro front d hSplit hRoot h hSettling
    rw [List.mem_cons, not_or] at hRoot
    have hv : v ∈ g.order root := by simp [hSplit]
    obtain ⟨hImproves, hFirst⟩ :=
      improve_spec h hSettling hv (Ne.symm hRoot.1) (place_of_split hSplit)
    have hSettling' := hFirst.settling
    rw [← List.length_concat] at hSettling'
    have hRest := ih (by simpa using hSplit) hRoot.2 hFirst.surveys hSettling'
    have hSum := toNat_or_le (d.improve v).2 (sweep rest (d.improve v).1).2
    have hFirstLe := hFirst.slack_le
    have hRestLe := hRest.slack_le
    refine ⟨.cons hImproves hRest.sweeps, hRest.surveys, hRest.settling, ?_, fun hStill => ?_⟩
    · simp only [sweep]
      omega
    · obtain ⟨hStillFirst, hStillRest⟩ := Bool.or_eq_false_iff.mp hStill
      obtain ⟨hSame, hStands⟩ := hFirst.stands hStillFirst
      obtain ⟨hSameRest, hStandsRest⟩ := hRest.stands hStillRest
      rw [hSame] at hStandsRest
      refine ⟨hSameRest.trans hSame, fun w hw => ?_⟩
      rcases List.mem_cons.mp hw with rfl | hw
      · exact hStands w (by simp)
      · exact hStandsRest w hw

/-! ## The end of the iteration -/

/-- The iteration is over: every node stands where the ways up from its predecessors meet. -/
structure Settled (g : Digraph) (root : Nat) (d : Dominance) : Prop where
  surveys : Surveys g root d
  settling : Settling g root d.idom (g.order root).length
  stands : ∀ v ∈ g.order root, v ≠ root → Stands g root d v

/-- Sweeps with no bound on how many there are.  Each that changes something leaves less slack. -/
theorem repeats_settle {rest : List Nat} (hOrder : g.order root = root :: rest) (count : Nat) :
    ∀ {d : Dominance}, slack g root d < count → Surveys g root d → Settling g root d.idom 1 →
      ∃ changed, Repeats (Sweeps rest) d (settle count d, changed) ∧
        Settled g root (settle count d) := by
  induction count with
  | zero => exact fun h => absurd h (Nat.not_lt_zero _)
  | succ count ih =>
    intro d hSlack h hSettling
    have hNodup := order_nodup g root
    rw [hOrder] at hNodup
    have hSplit : g.order root = [root] ++ rest := hOrder
    have hSweep := sweep_spec rest hSplit (List.nodup_cons.mp hNodup).1 h hSettling
    have hRest : d.order.drop 1 = rest := by simp [h.order_eq, hOrder]
    have hLess := hSweep.slack_le
    simp only [settle, hRest]
    split
    · rename_i hChanged
      rw [hChanged, Bool.toNat_true] at hLess
      obtain ⟨changed, hRepeats, hSettled⟩ :=
        ih (by omega) hSweep.surveys (hSweep.settling.restart (Nat.le_refl _) 1)
      exact ⟨true, .again (hChanged ▸ hSweep.sweeps) hRepeats, hSettled⟩
    · rename_i hChanged
      have hStill := Bool.eq_false_of_not_eq_true hChanged
      obtain ⟨hSame, hStands⟩ := hSweep.stands hStill
      refine ⟨false, .last (hStill ▸ hSweep.sweeps), hSweep.surveys, hSweep.settling, ?_⟩
      intro v hv hne
      rw [hSame]
      rw [hOrder] at hv
      exact hStands v ((List.mem_cons.mp hv).resolve_left hne)

theorem idom_survey (hRoot : root < g.size) (v : Nat) :
    (survey g root (g.search root)).idom v = if v = root then some root else none := by
  by_cases hEq : v = root
  · simp [idom, survey, hEq, hRoot]
  · by_cases hlt : v < g.size
    · simp [idom, survey, hEq, Array.getD_eq_getD_getElem?, Ne.symm hEq, hlt]
    · simp [idom, survey, hEq, Array.getD_eq_getD_getElem?, hlt]

/-- At the start only the way of the root is known, and nothing else lies before the first node of
the sweep. -/
theorem settling_survey {rest : List Nat} (hOrder : g.order root = root :: rest) :
    Settling g root (survey g root (g.search root)).idom 1 := by
  have hMem : root ∈ g.order root := by simp [hOrder]
  have hRoot := lt_size_of_mem_order hMem
  have hKnown : ∀ {v}, ((survey g root (g.search root)).idom v).isSome → v = root := by
    intro v hv
    by_contra hne
    simp [idom_survey hRoot, hne] at hv
  have hUp : ∀ {v u}, (survey g root (g.search root)).idom v = some u → v = root := fun next =>
    hKnown (Option.isSome_iff_exists.mpr ⟨_, next⟩)
  have hAtRoot : (survey g root (g.search root)).idom root = some root := by
    simp [idom_survey hRoot]
  have hPlace : g.place root root = 0 := by simp [place, hOrder]
  exact {
    up_root := hAtRoot
    mem_order := fun hv => hKnown hv ▸ hMem
    place_up := fun hne next => absurd (hUp next) hne
    goes_on := fun {v u} next => by
      obtain rfl := hUp next
      obtain rfl := Option.some.inj (hAtRoot.symm.trans next)
      simp [hAtRoot]
    swept := fun {w} hw hlt => by
      have hEq : w = root := place_inj hw (by omega)
      simp [hEq, hAtRoot]
    initial := fun hw _ hlt => by
      rw [hKnown hw, hPlace] at hlt
      exact absurd hlt (Nat.not_lt_zero _)
    sdom_above := fun hw hDom => by
      rw [hKnown hw] at hDom
      exact absurd .root hDom
    common := fun hne next _ => absurd (hUp next) hne
    entered := fun hne next _ _ _ _ _ => absurd (hUp next) hne }

/-- With no bound on its loops the analysis comes to the end of the iteration, with what it gives
with the bounds. -/
theorem analyses_ofGraph (hRoot : root < g.size) :
    Analyses g root (ofGraph g root) ∧ Settled g root (ofGraph g root) := by
  obtain ⟨rest, hOrder⟩ := order_eq_cons hRoot
  have hSettling := settling_survey hOrder
  have hSlack : slack g root (survey g root (g.search root)) < g.size * g.size + 1 := by
    refine Nat.lt_succ_of_le (slack_le fun v u next => ?_)
    exact hSettling.mem_order (hSettling.goes_on next)
  obtain ⟨changed, hRepeats, hSettled⟩ :=
    repeats_settle hOrder _ hSlack (surveys_survey g root) hSettling
  have hRest : (g.search root).finished.drop 1 = rest := by
    rw [← Digraph.order, hOrder, List.drop_one, List.tail_cons]
  rw [← hRest] at hRepeats
  have hAnalyses := Analyses.mk (explores_search g root) hRepeats
  exact ⟨hAnalyses, ⟨rfl, (surveys_survey g root).rank_eq, (surveys_survey g root).preds_eq,
    hSettled.surveys.size_idoms⟩, hSettled.settling, hSettled.stands⟩

theorem analyses_iff (hRoot : root < g.size) : Analyses g root d ↔ d = ofGraph g root :=
  ⟨fun h => h.unique (analyses_ofGraph hRoot).1, fun h => h ▸ (analyses_ofGraph hRoot).1⟩

/-! ## Walks up -/

/-- The walk up from a node takes no more steps than the node has places before it. -/
theorem climbs_wayUp (hRising : Rising g root d.idom) (steps : Nat) : ∀ {v : Nat},
    v ∈ g.order root → g.place root v < steps →
      Climbs d v (d.wayUp steps v) ∧
        ∀ a, a ∈ d.wayUp steps v ↔ Above root d.idom a v := by
  induction steps with
  | zero => exact fun _ h => absurd h (Nat.not_lt_zero _)
  | succ steps ih =>
    intro v hv hSteps
    unfold wayUp
    cases next : d.idom v with
    | none =>
      refine ⟨.last next, fun a => ?_⟩
      dsimp only
      rw [List.mem_singleton]
      refine ⟨fun hEq => hEq ▸ .here, fun ha => ?_⟩
      cases ha with
      | here => rfl
      | climb _ next' _ => simp [next] at next'
    | some u =>
      dsimp only
      by_cases hEq : u = v
      · subst hEq
        rw [if_pos rfl]
        refine ⟨.root next, fun a => ?_⟩
        rw [List.mem_singleton]
        refine ⟨fun hEq => hEq ▸ .here, fun ha => ?_⟩
        cases ha with
        | here => rfl
        | climb hne _ _ => exact absurd (hRising.place_up hne next) (Nat.lt_irrefl _)
      · rw [if_neg hEq]
        have hne : v ≠ root := by
          rintro rfl
          exact hEq (Option.some.inj (next.symm.trans hRising.up_root))
        have hlt := hRising.place_up hne next
        obtain ⟨hClimbs, hAbove⟩ :=
          ih (hRising.mem_order (hRising.goes_on next)) (by omega)
        refine ⟨.up next hEq hClimbs, fun a => ?_⟩
        rw [List.mem_cons, hAbove]
        constructor
        · rintro (rfl | ha)
          · exact .here
          · exact .climb hne next ha
        · exact fun ha => ha.eq_or_next next

end Dominance

end LiveCompiler
