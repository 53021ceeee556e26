/-!
# Numbered cells

A bank of cells holds a double in each; a cell that was never written holds zero.  There
is a cell for every number: writing past the end makes the bank longer.
-/

namespace LiveCompiler

namespace Ir

/-- A bank of cells. -/
structure Cells where
  values : Array Float

namespace Cells

/-- A bank in which nothing has been written, with room for some cells. -/
def ofSize (size : Nat) : Cells where
  values := Array.replicate size 0.0

/-- Read a cell. -/
def get (c : Cells) (i : Nat) : Float :=
  c.values.getD i 0.0

/-- Write a cell. -/
def set (c : Cells) (i : Nat) (x : Float) : Cells :=
  if i < c.values.size then { values := c.values.setIfInBounds i x }
  else { values := (c.values ++ Array.replicate (i - c.values.size) 0.0).push x }

/-- Write cells from left to right; values without a cell are dropped. -/
def setAll (c : Cells) : List Nat → List Float → Cells
  | i :: is, x :: xs => (c.set i x).setAll is xs
  | _, _ => c

@[simp] theorem get_ofSize (size i : Nat) : (ofSize size).get i = 0.0 := by
  simp only [ofSize, get, Array.getD_eq_getD_getElem?, Array.getElem?_replicate]
  split <;> rfl

theorem get_set (c : Cells) (i j : Nat) (x : Float) :
    (c.set i x).get j = if j = i then x else c.get j := by
  unfold set get
  split
  · rename_i hi
    simp only [Array.getD_eq_getD_getElem?, Array.getElem?_setIfInBounds]
    by_cases h : i = j
    · subst h; simp [hi]
    · simp [h, Ne.symm h]
  · rename_i hi
    have hsize : (c.values ++ Array.replicate (i - c.values.size) (0.0 : Float)).size = i := by
      simp; omega
    simp only [Array.getD_eq_getD_getElem?, Array.getElem?_push, hsize]
    by_cases h : j = i
    · simp [h]
    · simp only [h, if_false]
      by_cases hj : j < c.values.size
      · rw [Array.getElem?_append_left hj]
      · have hge : c.values.size ≤ j := Nat.le_of_not_lt hj
        rw [Array.getElem?_append_right hge, Array.getElem?_replicate,
          Array.getElem?_eq_none hge]
        split <;> rfl

@[simp] theorem get_set_self (c : Cells) (i : Nat) (x : Float) : (c.set i x).get i = x := by
  simp [get_set]

theorem get_set_of_ne (c : Cells) {i j : Nat} (x : Float) (h : j ≠ i) :
    (c.set i x).get j = c.get j := by
  simp [get_set, h]

end Cells

end Ir

end LiveCompiler
