import LiveCompiler.Proofs.Graph.Path
import Mathlib.Data.Finset.Card
import Mathlib.Data.Finset.Range
import Mathlib.Data.List.Nodup

/-!
# What a search finds

A search from a root sees exactly the nodes that the root leads to, and lists each of them
once (`mem_order_iff`, `order_nodup`).  In the list of a search every node but the root is
entered from an earlier one (`exists_earlier`), and no node comes after a node that it
strictly dominates (`order_pairwise`): while a node is being visited all nodes on the path
to it are still unfinished.

`Search.Visits` is the step that all of this is read off.  It says what a visit of some
nodes adds to a search, and is composed along the recursion of `visit`.
-/

namespace LiveCompiler

namespace Digraph

namespace Search

theorem sees_mark (s : Search) (v w : Nat) :
    (s.mark v).sees w = true ↔ s.sees w = true ∨ w = v := by
  unfold sees mark
  simp only [Array.getD_eq_getD_getElem?, Array.getElem?_setIfInBounds]
  by_cases hEq : v = w
  · subst hEq
    by_cases hlt : v < s.seen.size
    · simp [hlt]
    · simp [hlt]
  · simp [hEq, Ne.symm hEq]

/-- If what a search sees stays seen, then what is unseen later was unseen before. -/
theorem sees_eq_false_of_imp {s t : Search} {w : Nat} (h : s.sees w = true → t.sees w = true)
    (hw : t.sees w = false) : s.sees w = false := by
  by_contra hNot
  rw [Bool.not_eq_false] at hNot
  simp [h hNot] at hw

theorem sees_eq_false_of_mark {s : Search} {v w : Nat} (h : (s.mark v).sees w = false) :
    s.sees w = false :=
  sees_eq_false_of_imp (fun hw => (s.sees_mark v w).mpr (.inl hw)) h

@[simp] theorem finished_mark (s : Search) (v : Nat) : (s.mark v).finished = s.finished := rfl

@[simp] theorem size_mark (s : Search) (v : Nat) : (s.mark v).seen.size = s.seen.size := by
  simp [mark]

@[simp] theorem sees_finish (s : Search) (v w : Nat) : (s.finish v).sees w = s.sees w := rfl

/-- How many nodes have not been seen. -/
def unseen (s : Search) : Nat :=
  ((Finset.range s.seen.size).filter fun w => s.sees w = false).card

theorem lt_size_of_sees_eq_false {s : Search} {v : Nat} (h : s.sees v = false) :
    v < s.seen.size := by
  by_contra hNot
  have hNone : s.seen[v]? = none := Array.getElem?_eq_none (Nat.le_of_not_lt hNot)
  simp [sees, Array.getD_eq_getD_getElem?, hNone] at h

theorem mem_unseen_iff (s : Search) (v : Nat) :
    v ∈ (Finset.range s.seen.size).filter (fun w => s.sees w = false) ↔ s.sees v = false := by
  rw [Finset.mem_filter, Finset.mem_range]
  exact ⟨And.right, fun h => ⟨lt_size_of_sees_eq_false h, h⟩⟩

theorem unseen_pos {s : Search} {v : Nat} (h : s.sees v = false) : 0 < s.unseen :=
  Finset.card_pos.mpr ⟨v, (s.mem_unseen_iff v).mpr h⟩

/-- A node that is seen once stays seen, so the number of unseen nodes goes down. -/
theorem unseen_le_of_sees {s t : Search}
    (h : ∀ w, s.sees w = true → t.sees w = true) : t.unseen ≤ s.unseen := by
  refine Finset.card_le_card fun w hw => ?_
  rw [mem_unseen_iff] at hw ⊢
  exact sees_eq_false_of_imp (h w) hw

theorem unseen_mark_lt {s : Search} {v : Nat} (h : s.sees v = false) :
    (s.mark v).unseen < s.unseen := by
  refine Finset.card_lt_card ((Finset.ssubset_iff_of_subset fun w hw => ?_).mpr ⟨v, ?_, ?_⟩)
  · rw [mem_unseen_iff] at hw ⊢
    exact sees_eq_false_of_mark hw
  · exact (s.mem_unseen_iff v).mpr h
  · rw [mem_unseen_iff]
    simp [(s.sees_mark v v).mpr (.inr rfl)]

/-- What a visit of `targets` adds to a search: the nodes `new`, all of them unseen before,
which hold with every node its successors. -/
structure Visits (g : Digraph) (root : Nat) (s t : Search) (new targets : List Nat) : Prop where
  finished : t.finished = new ++ s.finished
  size : t.seen.size = s.seen.size
  sees_iff : ∀ w, t.sees w = true ↔ s.sees w = true ∨ w ∈ new
  fresh : ∀ w ∈ new, s.sees w = false
  nodup : new.Nodup
  closed : ∀ w ∈ new, ∀ q ∈ g.succ w, t.sees q = true
  /-- A node is entered from a target or from a node that is finished after it. -/
  fed : ∀ front w back, new = front ++ w :: back →
    w ∈ targets ∨ ∃ p ∈ front, w ∈ g.succ p
  sees_target : ∀ q ∈ targets, t.sees q = true
  leads : ∀ via : Nat → Prop, (∀ p, s.sees p = false → via p) →
    (∀ q ∈ targets, g.LeadsTo root via q) → ∀ w ∈ new, g.LeadsTo root via w
  /-- If the targets are reached through nodes that are being visited, the order in which
  nodes are finished respects dominance. -/
  ordered : (∀ p ∈ s.finished, s.sees p = true) →
    (∀ q ∈ targets, g.LeadsTo root (fun p => s.sees p = true ∧ p ∉ s.finished) q) →
    s.finished.Pairwise (fun w x => ¬ g.SDom root x w) →
    t.finished.Pairwise fun w x => ¬ g.SDom root x w

namespace Visits

variable {g : Digraph} {root : Nat} {s t u : Search} {new more targets rest : List Nat}

theorem nothing (s : Search) (hSeen : ∀ q ∈ targets, s.sees q = true) :
    Visits g root s s [] targets where
  finished := rfl
  size := rfl
  sees_iff := by simp
  fresh := by simp
  nodup := List.nodup_nil
  closed := by simp
  fed := by simp
  sees_target := hSeen
  leads := by simp
  ordered := fun _ _ h => h

theorem sees_of_sees (h : Visits g root s t new targets) {w : Nat} (hw : s.sees w = true) :
    t.sees w = true :=
  (h.sees_iff w).mpr (.inl hw)

theorem sees_eq_false (h : Visits g root s t new targets) {w : Nat} (hw : t.sees w = false) :
    s.sees w = false :=
  sees_eq_false_of_imp h.sees_of_sees hw

theorem unseen_le (h : Visits g root s t new targets) : t.unseen ≤ s.unseen :=
  unseen_le_of_sees fun _ => h.sees_of_sees

/-- A node that is being visited stays unfinished while other nodes are visited. -/
theorem unfinished_of_unfinished (h : Visits g root s t new targets) {p : Nat}
    (hp : s.sees p = true ∧ p ∉ s.finished) : t.sees p = true ∧ p ∉ t.finished := by
  refine ⟨h.sees_of_sees hp.1, ?_⟩
  rw [h.finished, List.mem_append, not_or]
  refine ⟨fun hNew => ?_, hp.2⟩
  have hFresh := h.fresh p hNew
  simp [hp.1] at hFresh

theorem sees_finished (h : Visits g root s t new targets)
    (hSeen : ∀ p ∈ s.finished, s.sees p = true) : ∀ p ∈ t.finished, t.sees p = true := by
  intro p hp
  rw [h.finished, List.mem_append] at hp
  exact (h.sees_iff p).mpr (hp.symm.imp_left (hSeen p))

theorem trans (h : Visits g root s t new targets) (h' : Visits g root t u more rest) :
    Visits g root s u (more ++ new) (targets ++ rest) where
  finished := by rw [h'.finished, h.finished, List.append_assoc]
  size := h'.size.trans h.size
  sees_iff w := by
    rw [h'.sees_iff, h.sees_iff, List.mem_append, or_assoc, or_comm (a := w ∈ new)]
  fresh w hw := by
    rcases List.mem_append.mp hw with hMore | hNew
    · exact h.sees_eq_false (h'.fresh w hMore)
    · exact h.fresh w hNew
  nodup := by
    refine List.nodup_append.mpr ⟨h'.nodup, h.nodup, ?_⟩
    rintro a hMore b hNew rfl
    have hFresh := h'.fresh a hMore
    simp [(h.sees_iff a).mpr (.inr hNew)] at hFresh
  closed w hw q hq := by
    rcases List.mem_append.mp hw with hMore | hNew
    · exact h'.closed w hMore q hq
    · exact h'.sees_of_sees (h.closed w hNew q hq)
  fed front w back hSplit := by
    rcases List.append_eq_append_iff.mp hSplit with ⟨middle, hFront, hNew⟩ | ⟨middle, hMore, hBack⟩
    · rcases h.fed middle w back hNew with hTarget | ⟨p, hp, edge⟩
      · exact .inl (List.mem_append_left _ hTarget)
      · exact .inr ⟨p, by simp [hFront, hp], edge⟩
    · cases middle with
      | nil =>
        -- With nothing between them the node is the first of `new`.
        rcases h.fed [] w back (by simpa using hBack.symm) with hTarget | ⟨p, hp, -⟩
        · exact .inl (List.mem_append_left _ hTarget)
        · simp at hp
      | cons x middle =>
        obtain ⟨rfl, -⟩ := List.cons.inj hBack
        exact (h'.fed front w middle hMore).imp_left (List.mem_append_right _)
  sees_target q hq := by
    rcases List.mem_append.mp hq with hTarget | hRest
    · exact h'.sees_of_sees (h.sees_target q hTarget)
    · exact h'.sees_target q hRest
  leads via hVia hTargets w hw := by
    rcases List.mem_append.mp hw with hMore | hNew
    · exact h'.leads via (fun p hp => hVia p (h.sees_eq_false hp))
        (fun q hq => hTargets q (List.mem_append_right _ hq)) w hMore
    · exact h.leads via hVia (fun q hq => hTargets q (List.mem_append_left _ hq)) w hNew
  ordered hSeen hTargets hPairwise := by
    refine h'.ordered (h.sees_finished hSeen) (fun q hq => ?_)
      (h.ordered hSeen (fun q hq => ?_) hPairwise)
    · exact (hTargets q (List.mem_append_right _ hq)).weaken fun p hp =>
        h.unfinished_of_unfinished hp
    · exact hTargets q (List.mem_append_left _ hq)

/-- A node is finished once its successors have been visited. -/
theorem finish {v : Nat} (hv : s.sees v = false)
    (h : Visits g root (s.mark v) t new (g.succ v)) :
    Visits g root s (t.finish v) (v :: new) [v] where
  finished := by rw [Search.finish, h.finished, finished_mark, List.cons_append]
  size := h.size.trans (size_mark s v)
  sees_iff w := by
    rw [sees_finish, h.sees_iff, sees_mark, List.mem_cons, or_assoc]
  fresh w hw := by
    rcases List.mem_cons.mp hw with rfl | hNew
    · exact hv
    · exact sees_eq_false_of_mark (h.fresh w hNew)
  nodup := by
    refine List.nodup_cons.mpr ⟨fun hNew => ?_, h.nodup⟩
    have hMarked := (s.sees_mark v v).mpr (.inr rfl)
    simp [h.fresh v hNew] at hMarked
  closed w hw q hq := by
    rcases List.mem_cons.mp hw with rfl | hNew
    · exact h.sees_target q hq
    · exact h.closed w hNew q hq
  fed front w back hSplit := by
    -- The first node is `v` itself, a target; any other is fed from `v` or from one in front of it.
    cases front with
    | nil =>
      obtain ⟨rfl, -⟩ := List.cons.inj hSplit
      exact .inl (List.mem_singleton.mpr rfl)
    | cons x front =>
      obtain ⟨rfl, hNew⟩ := List.cons.inj hSplit
      rcases h.fed front w back hNew with hSucc | ⟨p, hp, edge⟩
      · exact .inr ⟨v, List.mem_cons_self, hSucc⟩
      · exact .inr ⟨p, List.mem_cons_of_mem _ hp, edge⟩
  sees_target q hq := by
    rw [List.mem_singleton.mp hq]
    exact h.sees_of_sees ((s.sees_mark v v).mpr (.inr rfl))
  leads via hVia hTargets w hw := by
    have hPath : g.LeadsTo root via v := hTargets v (List.mem_singleton.mpr rfl)
    rcases List.mem_cons.mp hw with rfl | hNew
    · exact hPath
    · exact h.leads via (fun p hp => hVia p (sees_eq_false_of_mark hp))
        (fun q hq => .step hPath (hVia v hv) hq) w hNew
  ordered hSeen hTargets hPairwise := by
    have hPath := hTargets v (List.mem_singleton.mpr rfl)
    have hOpen : ∀ p, s.sees p = true ∧ p ∉ s.finished →
        (s.mark v).sees p = true ∧ p ∉ (s.mark v).finished :=
      fun p hp => ⟨(s.sees_mark v p).mpr (.inl hp.1), hp.2⟩
    have hUnfinished : v ∉ s.finished := fun hMem => by simp [hSeen v hMem] at hv
    refine List.pairwise_cons.mpr ⟨fun x hx hDom => ?_, ?_⟩
    · -- The nodes on the path to `v` are all unfinished, so `x` is not among them.
      refine hDom (hPath.weaken ?_)
      rintro p hp rfl
      exact (h.unfinished_of_unfinished (hOpen p hp)).2 hx
    · refine h.ordered (fun p hp => ?_) (fun q hq => ?_) hPairwise
      · exact (s.sees_mark v p).mpr (.inl (hSeen p hp))
      · exact .step (hPath.weaken hOpen) ⟨(s.sees_mark v v).mpr (.inr rfl), hUnfinished⟩ hq

end Visits

end Search

/-! ## The recursion of a visit -/

theorem visits_foldl {g : Digraph} {root depth : Nat}
    (ih : ∀ (s : Search) (v : Nat), s.unseen ≤ depth →
      ∃ new, Search.Visits g root s (g.visit depth s v) new [v])
    (targets : List Nat) : ∀ s : Search, s.unseen ≤ depth →
      ∃ new, Search.Visits g root s (targets.foldl (g.visit depth) s) new targets := by
  induction targets with
  | nil =>
    intro s _
    exact ⟨[], .nothing s (by simp)⟩
  | cons q rest ihRest =>
    intro s hDepth
    obtain ⟨new, hq⟩ := ih s q hDepth
    obtain ⟨more, hRest⟩ := ihRest _ (Nat.le_trans hq.unseen_le hDepth)
    exact ⟨more ++ new, hq.trans hRest⟩

/-- A depth of as many levels as there are unseen nodes is enough. -/
theorem visits_visit (g : Digraph) (root : Nat) (depth : Nat) :
    ∀ (s : Search) (v : Nat), s.unseen ≤ depth →
      ∃ new, Search.Visits g root s (g.visit depth s v) new [v] := by
  induction depth with
  | zero =>
    intro s v hDepth
    refine ⟨[], .nothing s fun q hq => ?_⟩
    by_contra hNot
    rw [Bool.not_eq_true] at hNot
    exact absurd (Search.unseen_pos hNot) (by omega)
  | succ depth ih =>
    intro s v hDepth
    unfold visit
    by_cases hSeen : s.sees v = true
    · rw [if_pos hSeen]
      exact ⟨[], .nothing s fun q hq => by rw [List.mem_singleton.mp hq, hSeen]⟩
    · rw [if_neg hSeen]
      rw [Bool.not_eq_true] at hSeen
      have hLess := Search.unseen_mark_lt hSeen
      obtain ⟨new, hNew⟩ := visits_foldl ih (g.succ v) (s.mark v) (by omega)
      exact ⟨v :: new, hNew.finish hSeen⟩

/-! ## The search from a root -/

theorem unseen_le_size (s : Search) : s.unseen ≤ s.seen.size := by
  refine Nat.le_trans (Finset.card_filter_le _ _) ?_
  rw [Finset.card_range]

theorem succ_eq_nil {g : Digraph} {p : Nat} (h : g.size ≤ p) : g.succ p = [] := by
  unfold succ
  rw [Array.getD_eq_getD_getElem?, Array.getElem?_eq_none h]
  rfl

theorem lt_size_of_mem_succ {g : Digraph} {p q : Nat} (edge : q ∈ g.succ p) : p < g.size := by
  by_contra hNot
  rw [succ_eq_nil (Nat.le_of_not_lt hNot)] at edge
  simp at edge

/-- A number that is no node is on no path before its end. -/
theorem Reaches.avoid_of_size_le {g : Digraph} {root a v : Nat} (hReach : g.Reaches root v)
    (ha : g.size ≤ a) : g.LeadsTo root (· ≠ a) v := by
  induction hReach with
  | root => exact .root
  | step _ _ edge ih =>
    have hlt := lt_size_of_mem_succ edge
    exact .step ih (by omega) edge

theorem SDom.lt_size {g : Digraph} {root a v : Nat} (hReach : g.Reaches root v)
    (hDom : g.SDom root a v) : a < g.size := by
  by_contra hNot
  exact hDom (hReach.avoid_of_size_le (Nat.le_of_not_lt hNot))

theorem sees_start (size v : Nat) : (Search.start size).sees v = true ↔ size ≤ v := by
  unfold Search.start Search.sees
  rw [Array.getD_eq_getD_getElem?, Array.getElem?_replicate]
  split <;> simp <;> omega

/-- What a search from a root comes to. -/
theorem visits_search (g : Digraph) (root : Nat) :
    ∃ new, Search.Visits g root (Search.start g.size) (g.search root) new [root] := by
  refine visits_visit g root g.size _ root ?_
  have h := unseen_le_size (Search.start g.size)
  simpa [Search.start] using h

theorem order_visits (g : Digraph) (root : Nat) :
    Search.Visits g root (Search.start g.size) (g.search root) (g.order root) [root] := by
  obtain ⟨new, h⟩ := visits_search g root
  have hOrder : g.order root = new := by
    rw [order, h.finished]
    simp [Search.start]
  rwa [hOrder]

theorem lt_size_of_mem_order {g : Digraph} {root v : Nat} (h : v ∈ g.order root) :
    v < g.size := by
  have hFresh := (order_visits g root).fresh v h
  by_contra hNot
  simp [(sees_start g.size v).mpr (Nat.le_of_not_lt hNot)] at hFresh

/-- A search lists the nodes that its root leads to. -/
theorem mem_order_iff (g : Digraph) (root v : Nat) :
    v ∈ g.order root ↔ g.Reaches root v ∧ v < g.size := by
  have hVisits := order_visits g root
  constructor
  · intro hv
    refine ⟨?_, lt_size_of_mem_order hv⟩
    refine hVisits.leads _ (fun _ _ => trivial) (fun q hq => ?_) v hv
    rw [List.mem_singleton.mp hq]
    exact .root
  · rintro ⟨hReach, hlt⟩
    have hSees : ∀ w, (g.search root).sees w = true → w < g.size → w ∈ g.order root := by
      intro w hw hwlt
      rcases (hVisits.sees_iff w).mp hw with hStart | hNew
      · have hge := (sees_start g.size w).mp hStart
        omega
      · exact hNew
    refine hSees v ?_ hlt
    induction hReach with
    | root => exact hVisits.sees_target root (List.mem_singleton.mpr rfl)
    | @step p q _ _ edge ih =>
      have hp := lt_size_of_mem_succ edge
      exact hVisits.closed p (hSees p (ih hp) hp) q edge

/-- Nothing is listed if the root is no node. -/
theorem root_lt_size {g : Digraph} {root v : Nat} (hv : v ∈ g.order root) : root < g.size := by
  obtain ⟨hReach, hlt⟩ := (mem_order_iff g root v).mp hv
  induction hReach with
  | root => exact hlt
  | step path _ edge ih =>
    have hp := lt_size_of_mem_succ edge
    exact ih ((mem_order_iff g root _).mpr ⟨path.reaches, hp⟩) hp

/-- A search lists no node twice. -/
theorem order_nodup (g : Digraph) (root : Nat) : (g.order root).Nodup :=
  (order_visits g root).nodup

/-- Every listed node but the root is entered from a node listed before it. -/
theorem exists_earlier {g : Digraph} {root v : Nat} (hv : v ∈ g.order root) (hne : v ≠ root) :
    ∃ p ∈ g.order root, (g.order root).idxOf p < (g.order root).idxOf v ∧ v ∈ g.succ p := by
  obtain ⟨front, back, hSplit⟩ := List.append_of_mem hv
  have hNodup := order_nodup g root
  rw [hSplit] at hNodup
  have hNotFront : v ∉ front := fun hMem =>
    (List.nodup_append.mp hNodup).2.2 v hMem v List.mem_cons_self rfl
  rcases (order_visits g root).fed front v back hSplit with hRoot | ⟨p, hp, edge⟩
  · exact absurd (List.mem_singleton.mp hRoot) hne
  · refine ⟨p, by simp [hSplit, hp], ?_, edge⟩
    rw [hSplit, List.idxOf_append_of_mem hp, List.idxOf_append_of_notMem hNotFront]
    exact Nat.lt_of_lt_of_le (List.idxOf_lt_length_of_mem hp) (Nat.le_add_right _ _)

theorem SDom.mem_order {g : Digraph} {root a v : Nat} (hv : v ∈ g.order root)
    (hDom : g.SDom root a v) : a ∈ g.order root := by
  have hReach := ((mem_order_iff g root v).mp hv).1
  exact (mem_order_iff g root a).mpr ⟨hDom.reaches hReach, hDom.lt_size hReach⟩

/-- No node comes after one that it strictly dominates. -/
theorem order_pairwise (g : Digraph) (root : Nat) :
    (g.order root).Pairwise fun w x => ¬ g.SDom root x w := by
  refine (order_visits g root).ordered (by simp [Search.start]) (fun q hq => ?_)
    (by simp [Search.start])
  rw [List.mem_singleton.mp hq]
  exact .root

/-- The root is listed first. -/
theorem order_eq_cons {g : Digraph} {root : Nat} (hRoot : root < g.size) :
    ∃ rest, g.order root = root :: rest := by
  have hMem : root ∈ g.order root := (mem_order_iff g root root).mpr ⟨.root, hRoot⟩
  obtain ⟨front, rest, hSplit⟩ := List.append_of_mem hMem
  cases front with
  | nil => exact ⟨rest, by simpa using hSplit⟩
  | cons v front =>
    -- Another node at the front would be entered from a node before it.
    have hNodup := order_nodup g root
    rw [hSplit] at hNodup
    have hne : v ≠ root := by
      rintro rfl
      simp at hNodup
    have hv : v ∈ g.order root := by simp [hSplit]
    obtain ⟨p, -, hlt, -⟩ := exists_earlier hv hne
    rw [hSplit, List.cons_append, List.idxOf_cons_self] at hlt
    exact absurd hlt (Nat.not_lt_zero _)

theorem seen_search_iff (g : Digraph) (root v : Nat) :
    (g.search root).seen.getD v false = true ↔ v ∈ g.order root := by
  have hVisits := order_visits g root
  have hSize : (g.search root).seen.size = g.size := by
    rw [hVisits.size]
    simp [Search.start]
  by_cases hlt : v < g.size
  · have hSees : (g.search root).seen.getD v false = (g.search root).sees v := by
      simp [Search.sees, Array.getD_eq_getD_getElem?, hSize, hlt]
    rw [hSees, hVisits.sees_iff, sees_start]
    exact ⟨fun h => h.resolve_left (by omega), .inr⟩
  · have hNot : v ∉ g.order root := fun h => hlt (lt_size_of_mem_order h)
    simp [Array.getD_eq_getD_getElem?, hSize, hlt, hNot]

end Digraph

end LiveCompiler
