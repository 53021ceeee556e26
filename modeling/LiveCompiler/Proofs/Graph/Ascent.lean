import LiveCompiler.Proofs.Graph.Search
import Mathlib.Logic.Function.Basic

/-!
# Ways up

An assignment `up` gives some nodes a next node on their way up to the root.  `Above root up a v`
says that `a` lies on the way up from `v`, which itself counts.

While the analysis of a graph is under way the assignment is only partly known and partly out of
date.  `Settling` says what holds in the middle of a sweep whose first `k` nodes are done: what is
strictly above every path stands on the way up (`sdom_above`), a node is put as low as its
predecessors allow (`common`), and what is above the next node of a way is above the predecessors
too, as far as the sweep has come (`entered`).  `Settling.put` is one step of a sweep.  Once each
node stands where the ways up from its predecessors meet, the ways up are the chains of dominators
(`Settling.above_iff`).
-/

namespace LiveCompiler

namespace Digraph

/-- The place of a node in the order of the search. -/
def place (g : Digraph) (root v : Nat) : Nat :=
  (g.order root).idxOf v

/-- A node lies on the way up from another one. -/
inductive Above (root : Nat) (up : Nat → Option Nat) (a : Nat) : Nat → Prop
  | here : Above root up a a
  | climb {v u : Nat} (ne : v ≠ root) (next : up v = some u) (rest : Above root up a u) :
      Above root up a v

variable {g : Digraph} {root : Nat} {up : Nat → Option Nat}

theorem place_inj {v w : Nat} (hv : v ∈ g.order root)
    (h : g.place root v = g.place root w) : v = w :=
  (List.idxOf_inj hv).mp h

theorem place_lt {v : Nat} (hv : v ∈ g.order root) :
    g.place root v < (g.order root).length :=
  List.idxOf_lt_length_of_mem hv

theorem Above.trans {a b c : Nat} (hab : Above root up a b) (hbc : Above root up b c) :
    Above root up a c := by
  induction hbc with
  | here => exact hab
  | climb ne next _ ih => exact .climb ne next ih

/-- Nothing else is above the root. -/
theorem Above.eq_root {a : Nat} (h : Above root up a root) : a = root := by
  cases h with
  | here => rfl
  | climb ne _ _ => exact absurd rfl ne

/-- What is above a node is the node itself, or above the next one on its way. -/
theorem Above.eq_or_next {a v u : Nat} (h : Above root up a v) (next : up v = some u) :
    a = v ∨ Above root up a u := by
  cases h with
  | here => exact .inl rfl
  | climb _ next' rest =>
    obtain rfl := Option.some.inj (next.symm.trans next')
    exact .inr rest

/-- Of two nodes on one way up one is above the other. -/
theorem Above.total {a b v : Nat} (ha : Above root up a v) (hb : Above root up b v) :
    Above root up a b ∨ Above root up b a := by
  induction ha with
  | here => exact .inr hb
  | climb ne next rest ih =>
    rcases hb.eq_or_next next with rfl | hb
    · exact .inl (.climb ne next rest)
    · exact ih hb

/-- The next node on a way up has its place before, and the way goes on from it. -/
structure Rising (g : Digraph) (root : Nat) (up : Nat → Option Nat) : Prop where
  up_root : up root = some root
  mem_order : ∀ {v}, (up v).isSome → v ∈ g.order root
  place_up : ∀ {v u}, v ≠ root → up v = some u → g.place root u < g.place root v
  goes_on : ∀ {v u}, up v = some u → (up u).isSome

namespace Rising

theorem place_le (h : Rising g root up) {a v : Nat} (ha : Above root up a v) :
    g.place root a ≤ g.place root v := by
  induction ha with
  | here => exact Nat.le_refl _
  | climb ne next _ ih => exact Nat.le_trans ih (Nat.le_of_lt (h.place_up ne next))

theorem place_lt (h : Rising g root up) {a v : Nat} (ha : Above root up a v) (hne : a ≠ v) :
    g.place root a < g.place root v := by
  cases ha with
  | here => exact absurd rfl hne
  | climb ne next rest => exact Nat.lt_of_le_of_lt (h.place_le rest) (h.place_up ne next)

theorem known (h : Rising g root up) {a v : Nat} (ha : Above root up a v)
    (hv : (up v).isSome) : (up a).isSome := by
  induction ha with
  | here => exact hv
  | climb _ next _ ih => exact ih (h.goes_on next)

/-- Of two nodes on one way up the one with the earlier place is above the other. -/
theorem above_of_lt (h : Rising g root up) {a b v : Nat} (ha : Above root up a v)
    (hb : Above root up b v) (hlt : g.place root a < g.place root b) : Above root up a b := by
  refine (ha.total hb).resolve_right fun hba => ?_
  have hle := h.place_le hba
  omega

/-- All ways go up to the root. -/
theorem root_above (h : Rising g root up) {v : Nat} (hv : (up v).isSome) :
    Above root up root v := by
  induction hPlace : g.place root v using Nat.strong_induction_on generalizing v with
  | _ n ih =>
    by_cases hne : v = root
    · exact hne ▸ .here
    · obtain ⟨u, next⟩ := Option.isSome_iff_exists.mp hv
      have hlt := h.place_up hne next
      exact .climb hne next (ih _ (hPlace ▸ hlt) (h.goes_on next) rfl)

/-- A node with a place behind another one is not the root. -/
theorem ne_root (h : Rising g root up) {a b : Nat} (hb : (up b).isSome)
    (hlt : g.place root b < g.place root a) : a ≠ root := by
  rintro rfl
  have hle := h.place_le (h.root_above hb)
  omega

/-- What is above a node is above another one with a later place if it is above the next one on the
way of that node. -/
theorem above_next_iff (h : Rising g root up) {a b u x : Nat} (hb : (up b).isSome)
    (hlt : g.place root b < g.place root a) (next : up a = some u) (hx : Above root up x b) :
    Above root up x u ↔ Above root up x a := by
  refine ⟨.climb (h.ne_root hb hlt) next, fun ha => (ha.eq_or_next next).resolve_left ?_⟩
  rintro rfl
  have hle := h.place_le hx
  omega

end Rising

/-! ## Moving a node up -/

section Put

open Function (update)

variable {v c : Nat}

theorem update_eq_some_iff {w u : Nat} :
    update up v (some c) w = some u ↔ w = v ∧ c = u ∨ w ≠ v ∧ up w = some u := by
  by_cases hEq : w = v
  · simp [hEq]
  · simp [hEq]

/-- A way that does not come to the node stays as it is. -/
theorem above_put_of_not {x y : Nat} (hNot : ¬ Above root up v x) :
    Above root (update up v (some c)) y x ↔ Above root up y x := by
  constructor
  · intro h
    induction h with
    | here => exact .here
    | @climb w u ne next _ ih =>
      have hne : w ≠ v := fun hEq => hNot (hEq ▸ .here)
      rw [Function.update_of_ne hne] at next
      exact .climb ne next (ih fun h => hNot (.climb ne next h))
  · intro h
    induction h with
    | here => exact .here
    | @climb w u ne next _ ih =>
      have hne : w ≠ v := fun hEq => hNot (hEq ▸ .here)
      refine .climb ne ?_ (ih fun h => hNot (.climb ne next h))
      rwa [Function.update_of_ne hne]

theorem Rising.above_put_of_lt (h : Rising g root up) {x y : Nat}
    (hlt : g.place root x < g.place root v) :
    Above root (update up v (some c)) y x ↔ Above root up y x := by
  refine above_put_of_not fun hv => ?_
  have hle := h.place_le hv
  omega

/-- The part of a way that comes after the node stays as it is. -/
theorem Rising.above_put_of_le (h : Rising g root up)
    (h' : Rising g root (update up v (some c))) {x y : Nat}
    (hle : g.place root v ≤ g.place root y) :
    Above root (update up v (some c)) y x ↔ Above root up y x := by
  constructor
  · intro hy
    induction hy with
    | here => exact .here
    | @climb w u ne next rest ih =>
      have hlt := Nat.lt_of_le_of_lt (h'.place_le rest) (h'.place_up ne next)
      have hne : w ≠ v := by
        rintro rfl
        omega
      rw [Function.update_of_ne hne] at next
      exact .climb ne next ih
  · intro hy
    induction hy with
    | here => exact .here
    | @climb w u ne next rest ih =>
      have hlt := Nat.lt_of_le_of_lt (h.place_le rest) (h.place_up ne next)
      have hne : w ≠ v := by
        rintro rfl
        omega
      refine .climb ne ?_ ih
      rwa [Function.update_of_ne hne]

end Put

/-! ## Sweeps -/

/-- A node is the lowest one that is above all of some nodes. -/
structure IsMeet (root : Nat) (up : Nat → Option Nat) (targets : List Nat) (c : Nat) : Prop where
  above : ∀ p ∈ targets, Above root up c p
  lowest : ∀ x, (∀ p ∈ targets, Above root up x p) → Above root up x c

/-- The predecessors of a node whose way up is known. -/
def risingPreds (g : Digraph) (root : Nat) (up : Nat → Option Nat) (v : Nat) : List Nat :=
  ((g.order root).filter fun p => (g.succ p).contains v).filter fun p => (up p).isSome

@[simp] theorem mem_risingPreds {p v : Nat} :
    p ∈ risingPreds g root up v ↔ p ∈ g.order root ∧ v ∈ g.succ p ∧ (up p).isSome := by
  rw [risingPreds, List.mem_filter, List.mem_filter, List.contains_iff_mem, and_assoc]

/-- What holds of the ways up in a sweep whose first `k` nodes are done. -/
structure Settling (g : Digraph) (root : Nat) (up : Nat → Option Nat) (k : Nat) : Prop
    extends Rising g root up where
  swept : ∀ {w}, w ∈ g.order root → g.place root w < k → (up w).isSome
  /-- The nodes whose way is known are the first ones of the order. -/
  initial : ∀ {w p}, (up w).isSome → p ∈ g.order root →
    g.place root p < g.place root w → (up p).isSome
  /-- What all paths to a node pass through is on its way up. -/
  sdom_above : ∀ {w a}, (up w).isSome → g.SDom root a w → Above root up a w
  /-- What is above all predecessors of a node is above the node. -/
  common : ∀ {w u x}, w ≠ root → up w = some u →
    (∀ p ∈ risingPreds g root up w, Above root up x p) → Above root up x u
  /-- What is above a node is above the predecessors that come before it.  Where the sweep has not
  come yet, this holds only of the nodes above that the sweep has not come to either. -/
  entered : ∀ {w u p y}, w ≠ root → up w = some u → p ∈ g.order root → w ∈ g.succ p →
    g.place root p < g.place root w → g.place root w < k ∨ k ≤ g.place root y →
    Above root up y u → Above root up y p

namespace Settling

variable {k v c : Nat}

open Function (update)

/-- A node but the root has a predecessor with a known way that comes before it. -/
theorem exists_pred (h : Settling g root up k) (hv : v ∈ g.order root) (hne : v ≠ root)
    (hKnown : (up v).isSome ∨ g.place root v ≤ k) :
    ∃ p ∈ risingPreds g root up v, g.place root p < g.place root v := by
  obtain ⟨p, hp, hlt, edge⟩ := exists_earlier hv hne
  refine ⟨p, mem_risingPreds.mpr ⟨hp, edge, ?_⟩, hlt⟩
  rcases hKnown with hKnown | hle
  · exact h.initial hKnown hp hlt
  · exact h.swept hp (Nat.lt_of_lt_of_le hlt hle)

/-- What is above a known node does not change to something that was not above it before:
the node is put below a node that was above it. -/
theorem above_of_put (h : Settling g root up k) (hne : v ≠ root)
    (hMeet : IsMeet root up (risingPreds g root up v) c) {x y : Nat} (hx : (up x).isSome)
    (hy : Above root (update up v (some c)) y x) : Above root up y x := by
  induction hy with
  | here => exact .here
  | @climb w u ne next rest ih =>
    rcases update_eq_some_iff.mp next with ⟨rfl, rfl⟩ | ⟨-, next⟩
    · obtain ⟨u, hu⟩ := Option.isSome_iff_exists.mp hx
      have hc := h.common hne hu hMeet.above
      exact (ih (h.known hc (h.goes_on hu))).trans (.climb ne hu hc)
    · exact .climb ne next (ih (h.goes_on next))

/-- A node that is passed by on the way to `v` is passed by on the way to all nodes below `v`. -/
theorem leadsTo_below (h : Settling g root up k) (hPlace : g.place root v = k) {a : Nat}
    (ha : g.place root a < g.place root v) (hPath : g.LeadsTo root (· ≠ a) v) {x : Nat}
    (hKnown : (up x).isSome) (hx : Above root up v x) : g.LeadsTo root (· ≠ a) x := by
  induction hAt : g.place root x using Nat.strong_induction_on generalizing x with
  | _ n ih =>
    by_cases hEq : x = v
    · exact hEq ▸ hPath
    · by_cases hne : x = root
      · exact hne ▸ .root
      · obtain ⟨u, next⟩ := Option.isSome_iff_exists.mp hKnown
        have hu := (hx.eq_or_next next).resolve_left (Ne.symm hEq)
        obtain ⟨p, hp, hlt⟩ := h.exists_pred (h.mem_order hKnown) hne (.inl hKnown)
        obtain ⟨hpOrder, edge, hpKnown⟩ := mem_risingPreds.mp hp
        have hvp := h.entered hne next hpOrder edge hlt (.inr (Nat.le_of_eq hPlace.symm)) hu
        refine .step (ih _ (hAt ▸ hlt) hpKnown hvp rfl) ?_ edge
        have hle := h.place_le hvp
        rintro rfl
        omega

section Step

variable (h : Settling g root up k) (hv : v ∈ g.order root) (hne : v ≠ root)
  (hPlace : g.place root v = k) (hMeet : IsMeet root up (risingPreds g root up v) c)

include h hv hne hPlace hMeet

/-- The node to which the sweep has come is put below a node with an earlier place. -/
theorem place_meet_lt : g.place root c < g.place root v := by
  obtain ⟨p, hp, hlt⟩ := h.exists_pred hv hne (.inr (Nat.le_of_eq hPlace))
  exact Nat.lt_of_le_of_lt (h.place_le (hMeet.above p hp)) hlt

theorem known_meet : (up c).isSome := by
  obtain ⟨p, hp, -⟩ := h.exists_pred hv hne (.inr (Nat.le_of_eq hPlace))
  exact h.known (hMeet.above p hp) (mem_risingPreds.mp hp).2.2

theorem rising_put : Rising g root (update up v (some c)) where
  up_root := by rw [Function.update_of_ne hne.symm, h.up_root]
  mem_order {w} hw := by
    by_cases hEq : w = v
    · exact hEq ▸ hv
    · rw [Function.update_of_ne hEq] at hw
      exact h.mem_order hw
  place_up {w u} ne next := by
    rcases update_eq_some_iff.mp next with ⟨rfl, rfl⟩ | ⟨-, next⟩
    · exact h.place_meet_lt hv hne hPlace hMeet
    · exact h.place_up ne next
  goes_on {w u} next := by
    by_cases hEq : u = v
    · simp [hEq]
    · rw [Function.update_of_ne hEq]
      rcases update_eq_some_iff.mp next with ⟨rfl, rfl⟩ | ⟨-, next⟩
      · exact h.known_meet hv hne hPlace hMeet
      · exact h.goes_on next

/-- What strictly dominates the node is above all its predecessors, hence above where they meet. -/
theorem above_put_of_sdom {a : Nat} (hDom : g.SDom root a v) :
    Above root (update up v (some c)) a v := by
  have hLower := h.place_meet_lt hv hne hPlace hMeet
  refine .climb hne (Function.update_self v (some c) up) ((h.above_put_of_lt hLower).mpr ?_)
  refine hMeet.lowest a fun p hp => ?_
  obtain ⟨-, edge, hKnown⟩ := mem_risingPreds.mp hp
  rcases hDom.dom_of_edge edge with rfl | hDom
  · exact .here
  · exact h.sdom_above hKnown hDom

/-- The strict dominators of the other nodes stay above them. -/
theorem sdom_above_put {w a : Nat} (hKnown : (up w).isSome) (hDom : g.SDom root a w) :
    Above root (update up v (some c)) a w := by
  have hRising := h.rising_put hv hne hPlace hMeet
  have ha := h.sdom_above hKnown hDom
  by_cases hBelow : Above root up v w
  · by_cases hle : g.place root v ≤ g.place root a
    · exact (h.above_put_of_le hRising hle).mpr ha
    · -- If `a` did not dominate `v`, there would be a path by `v` to `w` without it.
      have hvDom : g.SDom root a v := fun hPath =>
        hDom (h.leadsTo_below hPlace (by omega) hPath hKnown hBelow)
      exact (h.above_put_of_sdom hv hne hPlace hMeet hvDom).trans
        ((h.above_put_of_le hRising (Nat.le_refl _)).mpr hBelow)
  · exact (above_put_of_not hBelow).mpr ha

/-- What is still above all predecessors of another node is still above the node. -/
theorem common_put {w u x : Nat} (hwRoot : w ≠ root) (next : up w = some u)
    (hOld : ∀ p ∈ risingPreds g root up w, Above root up x p)
    (hNew : ∀ p ∈ risingPreds g root up w, Above root (update up v (some c)) x p) :
    Above root (update up v (some c)) x u := by
  have hRising := h.rising_put hv hne hPlace hMeet
  have hxu := h.common hwRoot next hOld
  by_cases hBelow : Above root up v u
  · by_cases hle : g.place root v ≤ g.place root x
    · exact (h.above_put_of_le hRising hle).mpr hxu
    · -- Some predecessor of `w` is below `v`, and `x` is still above that one.
      have hKnown : (up w).isSome := Option.isSome_iff_exists.mpr ⟨u, next⟩
      obtain ⟨p, hp, hlt⟩ := h.exists_pred (h.mem_order hKnown) hwRoot (.inl hKnown)
      obtain ⟨hpOrder, edge, -⟩ := mem_risingPreds.mp hp
      have hvp := h.entered hwRoot next hpOrder edge hlt
        (.inr (Nat.le_of_eq hPlace.symm)) hBelow
      have hvp' := (h.above_put_of_le hRising (Nat.le_refl _)).mpr hvp
      exact (hRising.above_of_lt (hNew p hp) hvp' (by omega)).trans
        ((h.above_put_of_le hRising (Nat.le_refl _)).mpr hBelow)
  · exact (above_put_of_not hBelow).mpr hxu

/-- One more node of the sweep is done. -/
theorem entered_put {w u p y : Nat} (hwRoot : w ≠ root) (hEq : w ≠ v) (next : up w = some u)
    (hp : p ∈ g.order root) (edge : w ∈ g.succ p) (hlt : g.place root p < g.place root w)
    (hWhere : g.place root w < k + 1 ∨ k + 1 ≤ g.place root y)
    (hy : Above root (update up v (some c)) y u) : Above root (update up v (some c)) y p := by
  have hRising := h.rising_put hv hne hPlace hMeet
  have hPlaces : g.place root w ≠ g.place root v := fun hSame =>
    hEq (place_inj (h.mem_order (Option.isSome_iff_exists.mpr ⟨u, next⟩)) hSame)
  rcases hWhere with hDone | hAfter
  · have hu := h.place_up hwRoot next
    rw [h.above_put_of_lt (by omega)] at hy ⊢
    exact h.entered hwRoot next hp edge hlt (.inl (by omega)) hy
  · rw [h.above_put_of_le hRising (by omega)] at hy ⊢
    exact h.entered hwRoot next hp edge hlt (.inr (by omega)) hy

/-- One step of a sweep: the node to which it has come is put below the node where the ways up from
its predecessors meet. -/
theorem put : Settling g root (update up v (some c)) (k + 1) := by
  -- Each part tells `v`, whose parent is now `c`, from the other nodes, which keep theirs.
  have hLower := h.place_meet_lt hv hne hPlace hMeet
  have hKnown : ∀ {w}, (up w).isSome → (update up v (some c) w).isSome := by
    intro w hw
    by_cases hEq : w = v
    · simp [hEq]
    · rwa [Function.update_of_ne hEq]
  have hOther : ∀ {w}, (update up v (some c) w).isSome → w ≠ v → (up w).isSome := by
    intro w hw hEq
    rwa [Function.update_of_ne hEq] at hw
  refine { toRising := h.rising_put hv hne hPlace hMeet, swept := ?_, initial := ?_,
           sdom_above := ?_, common := ?_, entered := ?_ }
  · intro w hw hlt
    by_cases hEq : w = v
    · simp [hEq]
    · have hPlaces : g.place root w ≠ g.place root v := fun hSame => hEq (place_inj hw hSame)
      exact hKnown (h.swept hw (by omega))
  · intro w p hw hp hlt
    by_cases hEq : w = v
    · exact hKnown (h.swept hp (by rw [← hPlace, ← hEq]; exact hlt))
    · exact hKnown (h.initial (hOther hw hEq) hp hlt)
  · intro w a hw hDom
    by_cases hEq : w = v
    · subst hEq
      exact h.above_put_of_sdom hv hne hPlace hMeet hDom
    · exact h.sdom_above_put hv hne hPlace hMeet (hOther hw hEq) hDom
  · intro w u x hwRoot next hx
    have hNew : ∀ p ∈ risingPreds g root up w, Above root (update up v (some c)) x p := by
      intro p hp
      obtain ⟨hpOrder, edge, hpKnown⟩ := mem_risingPreds.mp hp
      exact hx p (mem_risingPreds.mpr ⟨hpOrder, edge, hKnown hpKnown⟩)
    have hOld : ∀ p ∈ risingPreds g root up w, Above root up x p := fun p hp =>
      h.above_of_put hne hMeet (mem_risingPreds.mp hp).2.2 (hNew p hp)
    rcases update_eq_some_iff.mp next with ⟨rfl, rfl⟩ | ⟨-, next⟩
    · exact (h.above_put_of_lt hLower).mpr (hMeet.lowest x hOld)
    · exact h.common_put hv hne hPlace hMeet hwRoot next hOld hNew
  · intro w u p y hwRoot next hp edge hlt hWhere hy
    rcases update_eq_some_iff.mp next with ⟨rfl, rfl⟩ | ⟨hEq, next⟩
    · have hcp := hMeet.above p
        (mem_risingPreds.mpr ⟨hp, edge, h.swept hp (hPlace ▸ hlt)⟩)
      exact hy.trans ((h.above_put_of_lt hlt).mpr hcp)
    · exact h.entered_put hv hne hPlace hMeet hwRoot hEq next hp edge hlt hWhere hy

end Step

/-- A sweep that has come to the end can start anew. -/
theorem restart (h : Settling g root up k) (hEnd : (g.order root).length ≤ k) (j : Nat) :
    Settling g root up j :=
  { h with
    swept := fun hw _ => h.swept hw (Nat.lt_of_lt_of_le (Digraph.place_lt hw) hEnd)
    entered := fun hwRoot next hp edge hlt _ hy =>
      h.entered hwRoot next hp edge hlt
        (.inl (Nat.lt_of_lt_of_le
          (Digraph.place_lt (h.mem_order (Option.isSome_iff_exists.mpr ⟨_, next⟩))) hEnd)) hy }

/-- If every node stands where the ways up from its predecessors meet, the ways up are the chains
of dominators. -/
theorem above_iff (h : Settling g root up k) (hEnd : (g.order root).length ≤ k)
    (hStill : ∀ v ∈ g.order root, v ≠ root →
      ∃ c, up v = some c ∧ IsMeet root up (risingPreds g root up v) c)
    {a v : Nat} (hv : v ∈ g.order root) : Above root up a v ↔ g.Dom root a v := by
  have hAll : ∀ {w}, w ∈ g.order root → (up w).isSome := fun hw =>
    h.swept hw (Nat.lt_of_lt_of_le (Digraph.place_lt hw) hEnd)
  constructor
  · intro ha
    by_cases hEq : a = v
    · exact .inl hEq
    · refine .inr fun hPath => hEq ?_
      clear hEq
      -- On a path that avoids `a` no node is below it but one that is `a` itself.
      induction hPath with
      | root => exact ha.eq_root
      | @step p q path ok edge ih =>
        by_contra hne
        have hp : p ∈ g.order root :=
          (mem_order_iff g root p).mpr ⟨path.reaches, lt_size_of_mem_succ edge⟩
        have hRoot : q ≠ root := by
          rintro rfl
          exact hne ha.eq_root
        obtain ⟨c, next, hMeet⟩ := hStill q hv hRoot
        have hac := (ha.eq_or_next next).resolve_left hne
        have hcp := hMeet.above p (mem_risingPreds.mpr ⟨hp, edge, hAll hp⟩)
        exact ok (ih hp (hac.trans hcp)).symm
  · rintro (rfl | hDom)
    · exact .here
    · exact h.sdom_above (hAll hv) hDom

end Settling

end Digraph

end LiveCompiler
