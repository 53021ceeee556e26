/-!
# Loops without a bound

A loop is given by one turn, which says whether it changed something.  `Repeats` makes turns until
one changes nothing, however many that takes.
-/

namespace LiveCompiler

/-- A step that says whether it changed something, made again until it did not.  The result says
whether any of the steps changed something. -/
inductive Repeats {α : Type} (step : α → α × Bool → Prop) : α → α × Bool → Prop
  | last {a b : α} (still : step a (b, false)) : Repeats step a (b, false)
  | again {a b : α} {out : α × Bool} (changed : step a (b, true)) (rest : Repeats step b out) :
      Repeats step a (out.1, true)

/-- There is one way to repeat a step that has one result. -/
theorem Repeats.unique {α : Type} {step : α → α × Bool → Prop}
    (hStep : ∀ a out out', step a out → step a out' → out = out') {a : α} {out out' : α × Bool}
    (h : Repeats step a out) (h' : Repeats step a out') : out = out' := by
  induction h generalizing out' with
  | last still =>
    cases h' with
    | last still' => exact hStep _ _ _ still still'
    | again changed' _ =>
      exact absurd (Prod.mk.inj (hStep _ _ _ still changed')).2 Bool.false_ne_true
  | again changed _ ih =>
    cases h' with
    | last still' =>
      exact absurd (Prod.mk.inj (hStep _ _ _ still' changed)).2 Bool.false_ne_true
    | again changed' rest' =>
      obtain rfl := (Prod.mk.inj (hStep _ _ _ changed changed')).1
      rw [ih rest']

/-- A function is repeated in one way. -/
theorem Repeats.unique_of_eq {α : Type} {f : α → α × Bool} {a : α} {out out' : α × Bool}
    (h : Repeats (fun a out => f a = out) a out) (h' : Repeats (fun a out => f a = out) a out') :
    out = out' :=
  h.unique (fun _ _ _ hOut hOut' => hOut.symm.trans hOut') h'

/-- The last step changes nothing. -/
theorem Repeats.exists_last {α : Type} {step : α → α × Bool → Prop} {a : α} {out : α × Bool}
    (h : Repeats step a out) : ∃ b, step b (out.1, false) := by
  induction h with
  | last still => exact ⟨_, still⟩
  | again _ _ ih => exact ih

/-- What each step keeps is kept in the end. -/
theorem Repeats.invariant {α : Type} {step : α → α × Bool → Prop} {holds : α → Prop}
    (hStep : ∀ a b changed, step a (b, changed) → holds a → holds b) {a : α} {out : α × Bool}
    (h : Repeats step a out) (ha : holds a) : holds out.1 := by
  induction h with
  | last still => exact hStep _ _ _ still ha
  | again changed _ ih => exact ih (hStep _ _ _ changed ha)

/-- What a loop over a list by index has still to go through begins at the index. -/
theorem getElem?_of_drop_eq_cons {α : Type} {l rest : List α} {next : Nat} {a : α}
    (h : l.drop next = a :: rest) : l[next]? = some a ∧ l.drop (next + 1) = rest := by
  refine ⟨?_, ?_⟩
  · rw [← List.head?_drop, h, List.head?_cons]
  · rw [← List.drop_drop, h, List.drop_one, List.tail_cons]

/-- Where changes are counted, a flag for two of them counts no more than the two flags. -/
theorem toNat_or_le (a b : Bool) : (a || b).toNat ≤ a.toNat + b.toNat := by
  cases a <;> simp

end LiveCompiler
