/-!
# Operator precedence

A table gives each operator character a precedence; higher binds tighter.  A character
whose entry is not positive is no operator, so an entry can also take one away.
-/

namespace LiveCompiler

/-- Precedences by operator character, the latest entry first. -/
structure OperatorTable where
  entries : List (Char × Int32)
deriving Repr

namespace OperatorTable

/-- The table without operators. -/
def empty : OperatorTable where
  entries := []

/-- Install an operator, in place of an earlier entry for the same character. -/
def insert (table : OperatorTable) (op : Char) (precedence : Int32) : OperatorTable where
  entries := (op, precedence) :: table.entries

/-- The precedence of an operator; 1 is the lowest. -/
def get? (table : OperatorTable) (op : Char) : Option Int32 :=
  (table.entries.lookup op).filter (0 < ·)

/-- The operators of the language: comparison, sums, products. -/
def standard : OperatorTable :=
  (((empty.insert '<' 10).insert '+' 20).insert '-' 20).insert '*' 40

theorem get?_insert (table : OperatorTable) (op c : Char) (precedence : Int32) :
    (table.insert op precedence).get? c =
      if c = op then (some precedence).filter (0 < ·) else table.get? c := by
  by_cases h : c = op
  · subst h; simp [insert, get?]
  · have hne : (c == op) = false := by simpa using h
    simp [insert, get?, List.lookup_cons, hne, h]

end OperatorTable

end LiveCompiler
