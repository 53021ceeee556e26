import LiveCompiler.Ir.Basic

/-!
# Symbols

What the names of functions stand for at a moment of a session.  A name stands for the
function bound last under it.
-/

namespace LiveCompiler

/-- What a function of the image is. -/
inductive FunctionKind where
  | definition
  /-- A declaration of a function that is defined elsewhere. -/
  | external
  /-- The wrapper of a bare expression.  It has no name in the program. -/
  | wrapper
deriving DecidableEq, Repr

/-- What a name stands for. -/
structure Binding where
  func : FuncId
  arity : Nat
  kind : FunctionKind
deriving DecidableEq, Repr

/-- The bindings of a session, one for each name. -/
structure Symbols where
  bindings : List (String × Binding)
deriving Repr

namespace Symbols

/-- No name is bound. -/
def empty : Symbols where
  bindings := []

/-- Bind a name, in place of an earlier binding. -/
def bind (table : Symbols) (name : String) (binding : Binding) : Symbols where
  bindings := (name, binding) :: table.bindings.filter fun entry => entry.1 != name

/-- What a name stands for. -/
def lookup (table : Symbols) (name : String) : Option Binding :=
  table.bindings.lookup name

/-- The number of names that are bound. -/
def size (table : Symbols) : Nat :=
  table.bindings.length

/-- Whether no name is bound. -/
def isEmpty (table : Symbols) : Bool :=
  table.bindings.isEmpty

/-- The bound names in the order of their code points, which is that of their UTF-8
bytes. -/
def names (table : Symbols) : List String :=
  (table.bindings.map Prod.fst).mergeSort fun a b => decide (a ≤ b)

/-- Taking entries of one key out of a list leaves the other keys as they were. -/
theorem lookup_filter_ne {α : Type} {name other : String} (h : other ≠ name)
    (entries : List (String × α)) :
    (entries.filter fun entry => entry.1 != name).lookup other = entries.lookup other := by
  induction entries with
  | nil => rfl
  | cons entry rest ih =>
    obtain ⟨key, value⟩ := entry
    by_cases hkey : key = name
    · have hother : (other == key) = false := by simpa [hkey] using h
      rw [List.lookup_cons, hother]
      simpa [hkey] using ih
    · have hkept : (key != name) = true := by simpa using hkey
      simp only [List.filter_cons, hkept, if_true, List.lookup_cons, ih]

/-- A name stands for what was bound last under it; other names keep their meaning. -/
theorem lookup_bind (table : Symbols) (name other : String) (binding : Binding) :
    (table.bind name binding).lookup other =
      if other = name then some binding else table.lookup other := by
  by_cases h : other = name
  · subst h
    simp [bind, lookup]
  · have hne : (other == name) = false := by simpa using h
    rw [if_neg h]
    simpa only [bind, lookup, List.lookup_cons, hne] using lookup_filter_ne h table.bindings

end Symbols

end LiveCompiler
