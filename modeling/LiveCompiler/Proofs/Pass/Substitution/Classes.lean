import LiveCompiler.Proofs.Pass.Substitution
import Mathlib.Data.List.Induction
import Mathlib.Logic.Relation

/-!
# Which registers a substitution makes one

A substitution that grows by sources which are all different splits the registers into classes.
`Merges s joined` says that the registers with one representative are those which the pairs of
`joined` connect.  Nothing is connected at first (`merges_empty`), and one more pair connects what
its two registers stand for (`Merges.insert`), so after any number of pairs the classes are those
that the pairs generate (`merges_ofPairs`).

Chains are looked up for a bounded number of steps.  `Ends` follows a chain with no bound, and
`ends_iff` says that it comes to an end, with the representative.
-/

namespace LiveCompiler

open Ir

namespace Substitution

variable {s : Substitution} {source target r final : Reg}

/-! ## Chains without a bound -/

/-- The chain of replacements from a register, however long it is, ends with a register that has
none. -/
inductive Ends (s : Substitution) : Reg → Reg → Prop
  | here {r : Reg} (last : s.entries.lookup r = none) : Ends s r r
  | next {r next final : Reg} (step : s.entries.lookup r = some next) (rest : Ends s next final) :
      Ends s r final

theorem Ends.unique {other : Reg} (h : s.Ends r final) (h' : s.Ends r other) : final = other := by
  induction h with
  | here last =>
    cases h' with
    | here => rfl
    | next step' _ => simp [last] at step'
  | next step _ ih =>
    cases h' with
    | here last' => simp [step] at last'
    | next step' rest' =>
      obtain rfl := Option.some.inj (step.symm.trans step')
      exact ih rest'

/-- Each replacement lies in a later layer, so the chain runs out of layers. -/
theorem ends_resolve (hLayered : Layered s.entries) (r : Reg) :
    s.Ends r (resolve s.entries r) := by
  induction hDepth : depth s.entries r using Nat.strongRecOn generalizing r with
  | ind layers ih =>
    cases hLookup : s.entries.lookup r with
    | none =>
      rw [resolve_of_lookup_none hLookup]
      exact .here hLookup
    | some next =>
      rw [resolve_of_lookup_some hLayered hLookup]
      exact .next hLookup (ih _ (hDepth ▸ depth_lt hLayered hLookup) next rfl)

/-- With no bound on its length a chain comes to an end, with what the bounded look-up gives. -/
theorem ends_iff (hLayered : Layered s.entries) :
    s.Ends r final ↔ final = s.representative r := by
  have hEnds : s.Ends r (s.representative r) := by
    rw [representative_eq hLayered]
    exact ends_resolve hLayered r
  exact ⟨fun h => h.unique hEnds, fun h => h ▸ hEnds⟩

/-! ## Classes -/

/-- Nothing that stands for a register is replaced, and the registers that have one representative
are those that a relation connects. -/
structure Merges (s : Substitution) (joined : Reg → Reg → Prop) : Prop where
  layered : Layered s.entries
  alike_iff : ∀ a b,
    s.representative a = s.representative b ↔ Relation.EqvGen joined a b

/-- What is the same for joined registers is the same for connected ones. -/
theorem eq_of_connected {joined : Reg → Reg → Prop} {f : Reg → Reg}
    (hSame : ∀ x y, joined x y → f x = f y) {a b : Reg} (h : Relation.EqvGen joined a b) :
    f a = f b :=
  (eq_equivalence.comap f).eqvGen_iff.mp (h.mono hSame _ _)

theorem merges_empty : empty.Merges fun _ _ => False where
  layered := trivial
  alike_iff a b := by
    have hSelf : ∀ r, empty.representative r = r := fun _ => rfl
    rw [hSelf, hSelf]
    refine ⟨fun hEq => hEq ▸ .refl a, fun h => ?_⟩
    exact eq_of_connected (f := id) (fun _ _ hFalse => hFalse.elim) h

namespace Merges

variable {joined : Reg → Reg → Prop}

theorem representative_representative (h : s.Merges joined) (r : Reg) :
    s.representative (s.representative r) = s.representative r :=
  representative_of_not_replaces (not_replaces_representative h.layered r)

/-- A register is connected with what stands for it. -/
theorem connected (h : s.Merges joined) (r : Reg) :
    Relation.EqvGen joined r (s.representative r) :=
  (h.alike_iff r (s.representative r)).mp (h.representative_representative r).symm

/-- One more pair connects its two registers and nothing else anew. -/
theorem insert (h : s.Merges joined) (hSource : ¬ s.Replaces source) :
    (s.insert source target).Merges
      fun a b => joined a b ∨ a = source ∧ b = target where
  layered := layered_insert h.layered hSource
  alike_iff a b := by
    have hNow := @representative_insert s h.layered source target hSource
    have hOld : ∀ {x y}, Relation.EqvGen joined x y →
        Relation.EqvGen (fun a b => joined a b ∨ a = source ∧ b = target) x y :=
      fun hConnected => hConnected.mono (fun _ _ => .inl) _ _
    constructor
    · intro hAlike
      -- What stands for a register now is what stood for it before, or comes from the new pair.
      have hReached : ∀ r, Relation.EqvGen (fun a b => joined a b ∨ a = source ∧ b = target) r
          ((s.insert source target).representative r) := by
        intro r
        rw [hNow]
        split
        · rename_i hEq
          have hFirst := hOld (h.connected r)
          rw [hEq] at hFirst
          exact (hFirst.trans _ _ _ (.rel _ _ (.inr ⟨rfl, rfl⟩))).trans _ _ _
            (hOld (h.connected target))
        · exact hOld (h.connected r)
      exact (hReached a).trans _ _ _ (hAlike ▸ (hReached b).symm _ _)
    · refine eq_of_connected fun x y hPair => ?_
      rcases hPair with hJoined | ⟨rfl, rfl⟩
      · rw [hNow, hNow, (h.alike_iff x y).mpr (.rel _ _ hJoined)]
      · rw [hNow, hNow, if_pos (representative_of_not_replaces hSource)]
        split <;> rfl

end Merges

/-! ## Any number of pairs -/

/-- The substitution that is made by inserting pairs of a source and a target, one after
another. -/
def ofPairs (pairs : List (Reg × Reg)) : Substitution :=
  pairs.foldl (fun s pair => s.insert pair.1 pair.2) empty

theorem ofPairs_append_singleton (pairs : List (Reg × Reg)) (pair : Reg × Reg) :
    ofPairs (pairs ++ [pair]) = (ofPairs pairs).insert pair.1 pair.2 :=
  List.foldl_append

/-- Only sources are replaced. -/
theorem mem_of_replaces_ofPairs (pairs : List (Reg × Reg)) :
    ∀ r, (ofPairs pairs).Replaces r → r ∈ pairs.map Prod.fst := by
  induction pairs using List.reverseRecOn with
  | nil => exact fun r hr => absurd hr (not_replaces_empty r)
  | append_singleton pairs pair ih =>
    intro r hr
    rw [ofPairs_append_singleton] at hr
    rw [List.map_append, List.mem_append, List.map_singleton, List.mem_singleton]
    exact (replaces_insert hr).elim .inr fun hOld => .inl (ih r hOld)

/-- Pairs with different sources connect what they say and nothing else. -/
theorem merges_ofPairs (pairs : List (Reg × Reg)) (hDistinct : (pairs.map Prod.fst).Nodup) :
    (ofPairs pairs).Merges fun source target => (source, target) ∈ pairs := by
  induction pairs using List.reverseRecOn with
  | nil =>
    have hNone : (fun source target => (source, target) ∈ ([] : List (Reg × Reg))) =
        fun _ _ => False := by simp
    rw [hNone]
    exact merges_empty
  | append_singleton pairs pair ih =>
    rw [List.map_append, List.nodup_append] at hDistinct
    obtain ⟨hFront, -, hApart⟩ := hDistinct
    have hSource : ¬ (ofPairs pairs).Replaces pair.1 := fun hReplaces =>
      hApart _ (mem_of_replaces_ofPairs pairs _ hReplaces) pair.1 (by simp) rfl
    have hPairs : (fun source target => (source, target) ∈ pairs ++ [pair]) =
        fun a b => (a, b) ∈ pairs ∨ a = pair.1 ∧ b = pair.2 := by
      funext a b
      rw [List.mem_append, List.mem_singleton, Prod.ext_iff]
    rw [ofPairs_append_singleton, hPairs]
    exact (ih hFront).insert hSource

/-- Where all sources are different, after each pair the chains come to an end, what stands for a
register is final, each pair has been made one, and two registers have one representative if and
only if the pairs connect them. -/
theorem representatives_ofPairs {pairs : List (Reg × Reg)}
    (hDistinct : (pairs.map Prod.fst).Nodup) (front : List (Reg × Reg)) (hFront : front <+: pairs) :
    (∀ r final, (ofPairs front).Ends r final ↔ final = (ofPairs front).representative r) ∧
    (∀ r, (ofPairs front).representative ((ofPairs front).representative r) =
      (ofPairs front).representative r) ∧
    (∀ pair ∈ front,
      (ofPairs front).representative pair.1 = (ofPairs front).representative pair.2) ∧
    ∀ a b, (ofPairs front).representative a = (ofPairs front).representative b ↔
      Relation.EqvGen (fun source target => (source, target) ∈ front) a b := by
  have hMerges := merges_ofPairs front (hDistinct.sublist (hFront.sublist.map Prod.fst))
  exact ⟨fun _ _ => ends_iff hMerges.layered, hMerges.representative_representative,
    fun pair hPair => (hMerges.alike_iff _ _).mpr (.rel _ _ hPair), hMerges.alike_iff⟩

/-- Pairs that lengthen a chain at both ends; the third would close a cycle, and the last joins two
chains. -/
def chainedPairs : List (Reg × Reg) :=
  [(3, 2), (2, 1), (1, 3), (6, 5), (5, 4), (4, 3)]

/-- After three pairs nothing has been added for the pair that would close the cycle.  In the end
all registers of the pairs have one representative, and a register of no pair is left alone. -/
theorem representatives_ofPairs_chainedPairs :
    (chainedPairs.map Prod.fst).Nodup ∧
      (ofPairs (chainedPairs.take 3)).Ends 3 1 ∧
      (ofPairs (chainedPairs.take 3)).entries.length = 2 ∧
      Relation.EqvGen (fun source target => (source, target) ∈ chainedPairs) 6 2 ∧
      ¬ Relation.EqvGen (fun source target => (source, target) ∈ chainedPairs) 6 7 := by
  have hDistinct : (chainedPairs.map Prod.fst).Nodup := by decide
  obtain ⟨hEnds, -, -, -⟩ :=
    representatives_ofPairs hDistinct (chainedPairs.take 3) (List.take_prefix _ _)
  obtain ⟨-, -, -, hAlike⟩ :=
    representatives_ofPairs hDistinct chainedPairs (List.prefix_refl _)
  refine ⟨hDistinct, (hEnds 3 1).mpr (by decide), by decide, (hAlike 6 2).mp (by decide), fun h => ?_⟩
  exact absurd ((hAlike 6 7).mpr h) (by decide)

end Substitution

end LiveCompiler
