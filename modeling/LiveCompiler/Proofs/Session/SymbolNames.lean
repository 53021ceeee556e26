import LiveCompiler.Session.Basic
import Mathlib.Data.List.Basic

/-!
# Symbols are never used twice

The symbol of a definition or declaration ends in a dot and its position, and a position has no
dot in it; so the symbol tells the position, whatever the name is like.  Wrappers are counted,
and neither their symbols nor those of host functions have a dot.
-/

namespace LiveCompiler

/-- The symbol of a named function at a position. -/
def numberedSymbol (name : String) (f : FuncId) : String :=
  name ++ "." ++ toString f

theorem dot_notMem_toString (n : Nat) : '.' ∉ (toString n).toList := by
  intro h
  change '.' ∈ n.repr.toList at h
  rw [Nat.toList_repr] at h
  have hDigit := Nat.isDigit_of_mem_toDigits (by decide) (by decide) h
  revert hDigit
  decide

theorem toString_injective {m n : Nat} (h : toString m = toString n) : m = n := by
  have hLists : m.repr.toList = n.repr.toList := congrArg String.toList h
  rw [Nat.toList_repr, Nat.toList_repr] at hLists
  have hDigits := congrArg (Nat.ofDigitChars 10 · 0) hLists
  simpa using hDigits

/-- What comes behind the last dot of a text is settled by the text. -/
theorem eq_of_append_dot_eq {front front' back back' : List Char} (hBack : '.' ∉ back)
    (hBack' : '.' ∉ back') (h : front ++ '.' :: back = front' ++ '.' :: back') : back = back' := by
  -- If one front were longer, its dot would stand in the back of the other text.
  rcases List.append_eq_append_iff.mp h with ⟨between, -, hRest⟩ | ⟨between, -, hRest⟩
  · cases between with
    | nil => exact (List.cons.inj hRest).2
    | cons c between =>
      obtain ⟨-, hTail⟩ := List.cons.inj hRest
      exact absurd (hTail ▸ List.mem_append_right between List.mem_cons_self) hBack
  · cases between with
    | nil => exact (List.cons.inj hRest).2.symm
    | cons c between =>
      obtain ⟨-, hTail⟩ := List.cons.inj hRest
      exact absurd (hTail ▸ List.mem_append_right between List.mem_cons_self) hBack'

theorem toList_numberedSymbol (name : String) (f : FuncId) :
    (numberedSymbol name f).toList = name.toList ++ '.' :: (toString f).toList := by
  rw [numberedSymbol, String.toList_append, String.toList_append, List.append_assoc]
  rfl

theorem numberedSymbol_injective {name other : String} {f g : FuncId}
    (h : numberedSymbol name f = numberedSymbol other g) : f = g := by
  have hLists := congrArg String.toList h
  rw [toList_numberedSymbol, toList_numberedSymbol] at hLists
  have hDigits := eq_of_append_dot_eq (dot_notMem_toString f) (dot_notMem_toString g) hLists
  exact toString_injective (String.toList_inj.mp hDigits)

theorem dot_mem_numberedSymbol (name : String) (f : FuncId) :
    '.' ∈ (numberedSymbol name f).toList := by
  rw [toList_numberedSymbol]
  exact List.mem_append_right _ List.mem_cons_self

theorem toList_wrapperName (count : Nat) :
    (Session.wrapperName count).toList = "__anon_expr".toList ++ (toString count).toList :=
  String.toList_append

theorem wrapperName_injective {count other : Nat}
    (h : Session.wrapperName count = Session.wrapperName other) : count = other := by
  have hLists := congrArg String.toList h
  rw [toList_wrapperName, toList_wrapperName] at hLists
  exact toString_injective (String.toList_inj.mp (List.append_cancel_left hLists))

theorem wrapperName_ne_numberedSymbol (count : Nat) (name : String) (f : FuncId) :
    Session.wrapperName count ≠ numberedSymbol name f := by
  intro h
  have hDot := dot_mem_numberedSymbol name f
  rw [← h, toList_wrapperName] at hDot
  rcases List.mem_append.mp hDot with hDot | hDot
  · revert hDot
    decide
  · exact dot_notMem_toString count hDot

theorem numberedSymbol_ne_host (name : String) (f : FuncId) (h : HostFunction) :
    numberedSymbol name f ≠ h.symbol := by
  intro hSame
  have hDot := dot_mem_numberedSymbol name f
  rw [hSame] at hDot
  cases h <;> revert hDot <;> decide

theorem wrapperName_ne_host (count : Nat) (h : HostFunction) :
    Session.wrapperName count ≠ h.symbol := by
  intro hSame
  have hFirst : (Session.wrapperName count).toList.head? = some '_' := by
    rw [toList_wrapperName, List.head?_append]
    rfl
  rw [hSame] at hFirst
  cases h <;> revert hFirst <;> decide

end LiveCompiler
