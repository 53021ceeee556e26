import LiveCompiler.Grammar.Chain

/-!
# The tree of a chain

A grouping of a chain is a tree with the operands and operators of the chain from left to right.
It is ordered if each operator binds no tighter than the one on its left and looser than the one on
its right.  A chain has one ordered grouping (`existsUnique_ordered`), and `groupChain` gives it as
an expression (`groupChain_of_ordered`).

Climbing is another way to it: a loop that takes operators down to a minimal precedence, and calls
itself with a higher minimum where the operator ahead binds tighter than the one before.  It comes
to the same expression, and no minimum that it computes overflows (`climbs_iff`).
-/

namespace LiveCompiler

/-- A tree over the operands and operators of a chain. -/
inductive Grouping where
  | operand (e : Expr)
  | node (operator : Char) (precedence : Int32) (left right : Grouping)

namespace Grouping

/-- The tree as an expression. -/
def expr : Grouping → Expr
  | operand e => e
  | node operator _ left right => .binary operator left.expr right.expr

/-- The operand on the far left. -/
def first : Grouping → Expr
  | operand e => e
  | node _ _ left _ => left.first

/-- The operators from left to right, each with the operand behind it. -/
def operations : Grouping → List Operation
  | operand _ => []
  | node operator precedence left right =>
    left.operations ++ ⟨operator, precedence, right.first⟩ :: right.operations

/-- The precedence at the root meets a condition, if the tree is no operand. -/
def Root (condition : Int32 → Prop) : Grouping → Prop
  | operand _ => True
  | node _ precedence _ _ => condition precedence

/-- At each operator the left operand binds at least as tight, and the right operand tighter. -/
def Ordered : Grouping → Prop
  | operand _ => True
  | node _ precedence left right =>
    left.Root (precedence ≤ ·) ∧ right.Root (precedence < ·) ∧ left.Ordered ∧ right.Ordered

variable {g left right : Grouping} {op : Char} {p : Int32} {o : Operation}
  {operations rest : List Operation} {condition condition' : Int32 → Prop}

theorem Root.imp (h : g.Root condition) (hImp : ∀ q, condition q → condition' q) :
    g.Root condition' := by
  cases g with
  | operand e => trivial
  | node op p left right => exact hImp p h

/-- In an ordered tree nothing binds looser than the root. -/
theorem Ordered.lt_of_mem (h : g.Ordered) (hRoot : g.Root (p < ·)) (ho : o ∈ g.operations) :
    p < o.precedence := by
  induction g with
  | operand e => cases ho
  | node op q left right ihLeft ihRight =>
    obtain ⟨hLeft, hRight, hLeftOrdered, hRightOrdered⟩ := h
    have hq : p < q := hRoot
    rcases List.mem_append.mp ho with ho | ho
    · exact ihLeft hLeftOrdered (hLeft.imp fun _ => Int32.lt_of_lt_of_le hq) ho
    · rcases List.mem_cons.mp ho with rfl | ho
      · exact hq
      · exact ihRight hRightOrdered (hRight.imp fun _ => Int32.lt_trans hq) ho

/-! ## Adding an operator -/

/-- Add an operator with its operand on the right of a tree. -/
def push : Grouping → Operation → Grouping
  | operand e, o => node o.operator o.precedence (operand e) (operand o.operand)
  | node op p left right, o =>
    if o.precedence ≤ p then
      node o.operator o.precedence (node op p left right) (operand o.operand)
    else node op p left (right.push o)

/-- The tree to which the operators of a chain are added one by one. -/
def ofChain (first : Expr) (operations : List Operation) : Grouping :=
  operations.foldl push (operand first)

theorem first_push (g : Grouping) (o : Operation) : (g.push o).first = g.first := by
  cases g with
  | operand e => rfl
  | node op p left right =>
    unfold push
    split <;> rfl

theorem operations_push (g : Grouping) (o : Operation) :
    (g.push o).operations = g.operations ++ [o] := by
  induction g with
  | operand e => rfl
  | node op p left right _ ih =>
    unfold push
    split
    · rfl
    · simp [Grouping.operations, ih, first_push]

theorem Root.push (h : g.Root condition) (ho : condition o.precedence) :
    (g.push o).Root condition := by
  cases g with
  | operand e => exact ho
  | node op p left right =>
    unfold Grouping.push
    split
    · exact ho
    · exact h

theorem Ordered.push (h : g.Ordered) (o : Operation) : (g.push o).Ordered := by
  induction g with
  | operand e => exact ⟨trivial, trivial, trivial, trivial⟩
  | node op p left right _ ih =>
    obtain ⟨hLeft, hRight, hLeftOrdered, hRightOrdered⟩ := h
    unfold Grouping.push
    split
    · rename_i hLe
      exact ⟨hLe, trivial, ⟨hLeft, hRight, hLeftOrdered, hRightOrdered⟩, trivial⟩
    · rename_i hLt
      exact ⟨hLeft, hRight.push (Int32.not_le.mp hLt), hLeftOrdered, ih hRightOrdered⟩

/-- Adding operators adds them to the chain and keeps the order. -/
theorem foldl_push (operations : List Operation) : ∀ {g : Grouping}, g.Ordered →
    (operations.foldl push g).first = g.first ∧
      (operations.foldl push g).operations = g.operations ++ operations ∧
        (operations.foldl push g).Ordered := by
  induction operations with
  | nil => exact fun h => ⟨rfl, (List.append_nil _).symm, h⟩
  | cons o rest ih =>
    intro g h
    obtain ⟨hFirst, hOperations, hOrdered⟩ := ih (h.push o)
    refine ⟨hFirst.trans (first_push g o), hOperations.trans ?_, hOrdered⟩
    rw [operations_push, List.append_assoc, List.singleton_append]

/-- Operators that bind tighter than the root are added on its right. -/
theorem foldl_push_node (h : ∀ o ∈ operations, p < o.precedence) :
    operations.foldl push (node op p left right) =
      node op p left (operations.foldl push right) := by
  induction operations generalizing right with
  | nil => rfl
  | cons o rest ih =>
    have ho : ¬ o.precedence ≤ p := Int32.not_le.mpr (h o List.mem_cons_self)
    rw [List.foldl_cons, List.foldl_cons, push, if_neg ho]
    exact ih fun o' ho' => h o' (List.mem_cons_of_mem _ ho')

/-- An ordered tree is what its chain is added up to. -/
theorem Ordered.ofChain_eq (h : g.Ordered) : ofChain g.first g.operations = g := by
  unfold ofChain
  induction g with
  | operand e => rfl
  | node op p left right ihLeft ihRight =>
    obtain ⟨hLeft, hRight, hLeftOrdered, hRightOrdered⟩ := h
    have hAdded : left.push ⟨op, p, right.first⟩ = node op p left (operand right.first) := by
      cases left with
      | operand e => rfl
      | node op' q left' right' => exact if_pos hLeft
    rw [first, Grouping.operations, List.foldl_append, ihLeft hLeftOrdered, List.foldl_cons, hAdded,
      foldl_push_node fun o ho => hRightOrdered.lt_of_mem hRight ho, ihRight hRightOrdered]

/-- A chain has one ordered tree. -/
theorem existsUnique_ordered (first : Expr) (operations : List Operation) :
    ∃ g : Grouping, (g.first = first ∧ g.operations = operations ∧ g.Ordered) ∧
      ∀ other : Grouping, other.first = first → other.operations = operations → other.Ordered →
        other = g := by
  have hOperand : (operand first).Ordered := trivial
  refine ⟨ofChain first operations, foldl_push operations hOperand, fun other hFirst hOps h => ?_⟩
  rw [← h.ofChain_eq, hFirst, hOps]

/-! ## Reading a chain from left to right -/

theorem completeFor_of_lt {opened : List OpenOperator}
    (h : ∀ o ∈ opened.head?, o.precedence < p) (e : Expr) :
    completeFor p opened e = (opened, e) := by
  cases opened with
  | nil => rfl
  | cons o outer => rw [completeFor, if_neg (Int32.not_le.mpr (h o rfl))]

/-- An open operator is completed when what comes next binds no tighter. -/
theorem groupFrom_cons {o : OpenOperator} {opened : List OpenOperator}
    (h : ∀ next ∈ rest.head?, next.precedence ≤ o.precedence) (e : Expr) :
    groupFrom (o :: opened) e rest = groupFrom opened (.binary o.operator o.left e) rest := by
  cases rest with
  | nil => rfl
  | cons next more => rw [groupFrom, groupFrom, completeFor, if_pos (h next rfl)]

/-- What the chain of an ordered tree is read to, if the tree binds tighter than the operator before
it and at least as tight as the one behind it. -/
theorem groupFrom_of_ordered (h : g.Ordered) : ∀ {opened : List OpenOperator}
    {rest : List Operation}, (g.Root fun p => ∀ o ∈ opened.head?, o.precedence < p) →
      (g.Root fun p => ∀ o ∈ rest.head?, o.precedence ≤ p) →
        groupFrom opened g.first (g.operations ++ rest) = groupFrom opened g.expr rest := by
  induction g with
  | operand e => exact fun _ _ => rfl
  | node op p left right ihLeft ihRight =>
    intro opened rest hOpened hRest
    obtain ⟨hLeft, hRight, hLeftOrdered, hRightOrdered⟩ := h
    calc groupFrom opened left.first
          ((left.operations ++ ⟨op, p, right.first⟩ :: right.operations) ++ rest)
        = groupFrom opened left.expr (⟨op, p, right.first⟩ :: (right.operations ++ rest)) := by
          rw [List.append_assoc, List.cons_append]
          refine ihLeft hLeftOrdered (hLeft.imp fun q hq o ho => ?_) (hLeft.imp fun q hq o ho => ?_)
          · exact Int32.lt_of_lt_of_le (hOpened o ho) hq
          · obtain rfl := Option.some.inj ho
            exact hq
      _ = groupFrom (⟨left.expr, op, p⟩ :: opened) right.first (right.operations ++ rest) := by
          rw [groupFrom, completeFor_of_lt hOpened]
      _ = groupFrom (⟨left.expr, op, p⟩ :: opened) right.expr rest := by
          refine ihRight hRightOrdered (hRight.imp fun q hq o ho => ?_)
            (hRight.imp fun q hq o ho => ?_)
          · obtain rfl := Option.some.inj ho
            exact hq
          · exact Int32.le_of_lt (Int32.lt_of_le_of_lt (hRest o ho) hq)
      _ = groupFrom opened (.binary op left.expr right.expr) rest :=
          groupFrom_cons (o := ⟨left.expr, op, p⟩) (fun next hNext => hRest next hNext) right.expr

/-- The tree of a chain is its ordered one. -/
theorem groupChain_of_ordered (h : g.Ordered) : groupChain g.first g.operations = g.expr := by
  have hRead := @groupFrom_of_ordered g h [] [] (by cases g <;> simp [Root])
    (by cases g <;> simp [Root])
  rwa [List.append_nil] at hRead

end Grouping

/-! ## Climbing -/

/-- Climb a chain: take operators as long as they bind at least as tight as a minimum.  If the
operator ahead binds tighter than the one just taken, climb from its left operand first, with a
minimum that is one higher; where that overflows there is no way on.  What is left over is given
back. -/
inductive Climbs : Int32 → Expr → List Operation → Expr → List Operation → Prop
  | atEnd (minimum : Int32) (left : Expr) : Climbs minimum left [] left []
  | stop {minimum : Int32} {left : Expr} {o : Operation} {rest : List Operation}
      (hBelow : o.precedence < minimum) : Climbs minimum left (o :: rest) left (o :: rest)
  | level {minimum : Int32} {left e : Expr} {o : Operation} {rest after : List Operation}
      (hTaken : minimum ≤ o.precedence)
      (hNext : ∀ next ∈ rest.head?, next.precedence ≤ o.precedence)
      (hRest : Climbs minimum (.binary o.operator left o.operand) rest e after) :
      Climbs minimum left (o :: rest) e after
  | tighter {minimum : Int32} {left right e : Expr} {o next : Operation}
      {rest middle after : List Operation} (hTaken : minimum ≤ o.precedence)
      (hNext : o.precedence < next.precedence)
      (hFits : (o.precedence + 1).toInt = o.precedence.toInt + 1)
      (hRight : Climbs (o.precedence + 1) o.operand (next :: rest) right middle)
      (hRest : Climbs minimum (.binary o.operator left right) middle e after) :
      Climbs minimum left (o :: next :: rest) e after

/-- One more than a precedence that is not the highest does not overflow. -/
theorem toInt_add_one {p q : Int32} (h : p < q) : (p + 1).toInt = p.toInt + 1 := by
  have hLt := Int32.lt_iff_toInt_lt.mp h
  have hTop := q.toInt_lt
  have hBottom := p.le_toInt
  have hOne : (1 : Int32).toInt = 1 := rfl
  rw [Int32.toInt_add, hOne, Int.bmod_eq_of_le (by omega) (by omega)]

theorem add_one_le {p q : Int32} (h : p < q) : p + 1 ≤ q := by
  rw [Int32.le_iff_toInt_le, toInt_add_one h]
  exact Int32.lt_iff_toInt_lt.mp h

namespace Climbs

variable {g : Grouping} {minimum : Int32} {left e e' : Expr}
  {operations after after' : List Operation}

/-- Climbing has one outcome. -/
theorem unique (h : Climbs minimum left operations e after)
    (h' : Climbs minimum left operations e' after') : e = e' ∧ after = after' := by
  induction h generalizing e' after' with
  | atEnd minimum left =>
    cases h'
    exact ⟨rfl, rfl⟩
  | stop hBelow =>
    cases h' with
    | stop _ => exact ⟨rfl, rfl⟩
    | level hTaken => exact absurd hBelow (Int32.not_lt.mpr hTaken)
    | tighter hTaken => exact absurd hBelow (Int32.not_lt.mpr hTaken)
  | level hTaken hNext _ ih =>
    cases h' with
    | stop hBelow => exact absurd hBelow (Int32.not_lt.mpr hTaken)
    | level _ _ hRest' => exact ih hRest'
    | tighter _ hTighter => exact absurd hTighter (Int32.not_lt.mpr (hNext _ rfl))
  | tighter hTaken hTighter _ _ _ ihRight ihRest =>
    cases h' with
    | stop hBelow => exact absurd hBelow (Int32.not_lt.mpr hTaken)
    | level _ hNext _ => exact absurd hTighter (Int32.not_lt.mpr (hNext _ rfl))
    | tighter _ _ _ hRight' hRest' =>
      obtain ⟨rfl, rfl⟩ := ihRight hRight'
      exact ihRest hRest'

/-- Climbing the chain of an ordered tree, if the tree binds at least as tight as the minimum and as
the operator behind it, comes to the tree and goes on behind it. -/
theorem of_ordered (h : g.Ordered) : ∀ {minimum : Int32} {rest after : List Operation} {e : Expr},
    g.Root (minimum ≤ ·) → (g.Root fun p => ∀ o ∈ rest.head?, o.precedence ≤ p) →
      Climbs minimum g.expr rest e after →
        Climbs minimum g.first (g.operations ++ rest) e after := by
  induction g with
  | operand f => exact fun _ _ hClimbs => hClimbs
  | node op p left right ihLeft ihRight =>
    intro minimum rest after e hMinimum hRest hClimbs
    obtain ⟨hLeft, hRight, hLeftOrdered, hRightOrdered⟩ := h
    have hMinimum : minimum ≤ p := hMinimum
    have hRest : ∀ o ∈ rest.head?, o.precedence ≤ p := hRest
    rw [Grouping.operations, List.append_assoc, List.cons_append]
    refine ihLeft hLeftOrdered (hLeft.imp fun q hq => Int32.le_trans hMinimum hq)
      (hLeft.imp fun q hq o ho => by obtain rfl := Option.some.inj ho; exact hq) ?_
    cases hRightOps : right.operations with
    | nil =>
      have hOperand : right.expr = right.first := by
        cases right with
        | operand f => rfl
        | node => simp [Grouping.operations] at hRightOps
      rw [Grouping.expr, hOperand] at hClimbs
      exact .level hMinimum hRest hClimbs
    | cons next more =>
      have hNext : p < next.precedence :=
        hRightOrdered.lt_of_mem hRight (hRightOps ▸ List.mem_cons_self)
      -- The inner climb ends behind the right operand, where nothing binds tight enough for it.
      have hEnd : Climbs (p + 1) right.expr rest right.expr rest := by
        cases rest with
        | nil => exact .atEnd _ _
        | cons o later =>
          refine .stop (Int32.lt_iff_toInt_lt.mpr ?_)
          have hLe := Int32.le_iff_toInt_le.mp (hRest o rfl)
          rw [toInt_add_one hNext]
          omega
      have hInner := ihRight hRightOrdered (hRight.imp fun q hq => add_one_le hq)
        (hRight.imp fun q hq o ho => Int32.le_of_lt (Int32.lt_of_le_of_lt (hRest o ho) hq)) hEnd
      rw [hRightOps] at hInner
      exact .tighter hMinimum hNext (toInt_add_one hNext) hInner hClimbs

end Climbs

/-- Climbing a chain whose operators are no looser than the minimum comes to the tree of the chain,
and no minimum on the way overflows. -/
theorem climbs_iff {minimum : Int32} {first e : Expr} {operations after : List Operation}
    (h : ∀ o ∈ operations, minimum ≤ o.precedence) :
    Climbs minimum first operations e after ↔ e = groupChain first operations ∧ after = [] := by
  obtain ⟨g, ⟨rfl, rfl, hOrdered⟩, -⟩ := Grouping.existsUnique_ordered first operations
  have hRoot : g.Root (minimum ≤ ·) := by
    cases g with
    | operand f => trivial
    | node op p left right => exact h ⟨op, p, right.first⟩ (by simp [Grouping.operations])
  have hClimbs : Climbs minimum g.first g.operations g.expr [] := by
    have hNone : g.Root fun p => ∀ o ∈ ([] : List Operation).head?, o.precedence ≤ p := by
      cases g <;> simp [Grouping.Root]
    have hAll := Climbs.of_ordered hOrdered hRoot hNone (.atEnd minimum g.expr)
    rwa [List.append_nil] at hAll
  rw [Grouping.groupChain_of_ordered hOrdered]
  constructor
  · exact fun hOther => hOther.unique hClimbs
  · rintro ⟨rfl, rfl⟩
    exact hClimbs

end LiveCompiler
