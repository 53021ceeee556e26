import LiveCompiler.Grammar.Progress
import Mathlib.Data.List.Basic

/-!
# How high a tree the rules can read

The rules count levels down on the way into an expression and give them back on the way out.
What an operator adds on top of the operands before it is counted only against the operators
that follow in its own chain, not against the height that those operands already have.  So an
expression read with so many levels can be higher than that: each level may hold a chain whose
first operand uses all levels below it.

`height_expression_le` is the bound that does hold, the sum of the numbers up to `maxLevels`.
-/

namespace LiveCompiler

/-! ## Height -/

mutual

/-- The number of levels of a tree; a leaf is one level. -/
def Expr.height : Expr → Nat
  | .number _ => 1
  | .variable _ => 1
  | .binary _ left right => max left.height right.height + 1
  | .call _ args => Expr.heightAll args + 1
  | .ifThenElse condition onTrue onFalse =>
    max condition.height (max onTrue.height onFalse.height) + 1
  | .forLoop _ start finish step body =>
    max start.height (max finish.height (max (Expr.heightStep step) body.height)) + 1

/-- The height of the highest argument. -/
def Expr.heightAll : List Expr → Nat
  | [] => 0
  | arg :: rest => max arg.height (Expr.heightAll rest)

/-- The height of the step of a loop, if there is one. -/
def Expr.heightStep : Option Expr → Nat
  | none => 0
  | some step => step.height

end

theorem Expr.heightAll_le {bound : Nat} {args : List Expr} (h : ∀ e ∈ args, e.height ≤ bound) :
    Expr.heightAll args ≤ bound := by
  induction args with
  | nil => exact Nat.zero_le _
  | cons arg rest ih =>
    rw [Expr.heightAll]
    exact Nat.max_le.mpr ⟨h arg List.mem_cons_self, ih fun e he => h e (List.mem_cons_of_mem _ he)⟩

/-! ## What the results of a rule satisfy -/

namespace Rule

variable {α β : Type} {P : α → Prop} {Q : β → Prop}

/-- Whatever a rule reads satisfies a condition. -/
def Gives (rule : Rule α) (P : α → Prop) : Prop :=
  ∀ lexer a after, rule.run lexer = (.ok a, after) → P a

theorem gives_pure {a : α} (h : P a) : Gives (pure a) P := by
  intro lexer b after hRun
  obtain ⟨hb, -⟩ := Prod.mk.inj hRun
  exact Except.ok.inj hb ▸ h

theorem gives_fail (fault : SyntaxFault) : Gives (fail fault) P := by
  intro lexer a after hRun
  simp at hRun

theorem gives_true (rule : Rule α) : Gives rule fun _ => True :=
  fun _ _ _ _ => trivial

theorem Gives.bind {first : Rule α} {next : α → Rule β} (h : first.Gives P)
    (hNext : ∀ a, P a → (next a).Gives Q) : (first >>= next).Gives Q := by
  intro lexer b after hRun
  rw [run_bind] at hRun
  split at hRun
  · rename_i a middle hFirst
    exact hNext a (h lexer a middle hFirst) middle b after hRun
  · simp at hRun

/-- A rule whose own result does not matter, followed by one whose result does. -/
theorem gives_bind_any {first : Rule α} {next : α → Rule β} (hNext : ∀ a, (next a).Gives Q) :
    (first >>= next).Gives Q :=
  (gives_true first).bind fun a _ => hNext a

theorem Gives.items {item : Rule α} (h : item.Gives P) : (items item).Gives (∀ a ∈ ·, P a) := by
  intro lexer
  -- Said of whatever the loop gives, so that the induction can follow its rounds.
  change ∀ all after, itemsFrom item lexer = (.ok all, after) → ∀ a ∈ all, P a
  fun_induction itemsFrom item lexer with
  | case1 lexer e after hItem => simp
  | case2 lexer a after hItem hPeek =>
    intro all rest hRun
    obtain ⟨hAll, -⟩ := Prod.mk.inj hRun
    obtain rfl := Except.ok.inj hAll
    exact fun b hb => List.mem_singleton.mp hb ▸ h lexer a after hItem
  | case3 lexer a after hItem hPeek more rest hMore ih =>
    intro all rest' hRun
    obtain ⟨hAll, -⟩ := Prod.mk.inj hRun
    cases more with
    | error e => cases hAll
    | ok more =>
      obtain rfl := Except.ok.inj hAll
      intro b hb
      rcases List.mem_cons.mp hb with rfl | hb
      · exact h lexer b after hItem
      · exact ih more rest hMore b hb
  | case4 lexer a after hItem => simp

/-! ## Operands -/

variable {inner : Rule Expr} {bound : Nat}

theorem gives_named (h : inner.Gives (·.height ≤ bound)) (name : String) :
    (named inner name).Gives (·.height ≤ bound + 1) := by
  refine gives_bind_any fun isCall => ?_
  cases isCall with
  | false => exact gives_pure (Nat.le_add_left 1 bound)
  | true =>
    refine gives_bind_any fun _ => gives_bind_any fun isEmpty => ?_
    cases isEmpty with
    | true =>
      refine gives_bind_any fun _ => gives_pure ?_
      simp [Expr.height, Expr.heightAll]
    | false =>
      refine h.items.bind fun args hArgs => gives_pure ?_
      rw [Expr.height]
      exact Nat.add_le_add_right (Expr.heightAll_le hArgs) 1

theorem gives_bracketed (h : inner.Gives (·.height ≤ bound)) :
    (bracketed inner).Gives (·.height ≤ bound + 1) := by
  refine gives_bind_any fun _ => h.bind fun e he => ?_
  exact gives_bind_any fun _ => gives_pure (Nat.le_succ_of_le he)

theorem gives_conditional (h : inner.Gives (·.height ≤ bound)) :
    (conditional inner).Gives (·.height ≤ bound + 1) := by
  refine gives_bind_any fun _ => h.bind fun condition hCondition => ?_
  refine gives_bind_any fun _ => h.bind fun onTrue hOnTrue => ?_
  refine gives_bind_any fun _ => h.bind fun onFalse hOnFalse => gives_pure ?_
  rw [Expr.height]
  omega

theorem gives_loopStep (h : inner.Gives (·.height ≤ bound)) :
    (loopStep inner).Gives (Expr.heightStep · ≤ bound) := by
  refine gives_bind_any fun isGiven => ?_
  cases isGiven with
  | false => exact gives_pure (Nat.zero_le bound)
  | true =>
    refine gives_bind_any fun _ => h.bind fun step hStep => gives_pure ?_
    rwa [Expr.heightStep]

theorem gives_loop (h : inner.Gives (·.height ≤ bound)) :
    (loop inner).Gives (·.height ≤ bound + 1) := by
  refine gives_bind_any fun _ => gives_bind_any fun loopVar => gives_bind_any fun _ => ?_
  refine h.bind fun start hStart => gives_bind_any fun _ => h.bind fun finish hFinish => ?_
  refine (gives_loopStep h).bind fun step hStep => gives_bind_any fun _ => ?_
  refine h.bind fun body hBody => gives_pure ?_
  rw [Expr.height]
  omega

/-- An operand is at most one level higher than the expressions inside it. -/
theorem gives_operand (h : inner.Gives (·.height ≤ bound)) :
    (operand inner).Gives (·.height ≤ bound + 1) := by
  refine gives_bind_any fun token => ?_
  split
  · exact gives_bind_any fun _ => gives_pure (Nat.le_add_left 1 bound)
  · exact gives_fail _
  · exact gives_bind_any fun _ => gives_named h _
  · exact gives_bracketed h
  · exact gives_conditional h
  · exact gives_loop h
  · exact gives_fail _

end Rule

/-! ## Chains -/

/-- The left sides of open operators: what they have over a bound, together with one level for
each operator, comes to no more than a given number of levels. -/
def OpenedWithin (bound : Nat) : Nat → List OpenOperator → Prop
  | _, [] => True
  | levels, o :: outer =>
    ∃ extra rest, o.left.height ≤ bound + extra ∧ OpenedWithin bound rest outer ∧
      extra + rest + 1 ≤ levels

theorem height_completeAll_le {bound levels extra : Nat} {opened : List OpenOperator}
    (hOpened : OpenedWithin bound levels opened) {right : Expr}
    (hRight : right.height ≤ bound + extra) :
    (completeAll opened right).height ≤ bound + (extra + levels) := by
  -- Each operator pays for what its left side has over the bound, and for a level of its own.
  induction opened generalizing levels extra right with
  | nil => exact Nat.le_trans hRight (by omega)
  | cons o outer ih =>
    obtain ⟨extraLeft, rest, hLeft, hOuter, hSum⟩ := hOpened
    have hBinary : (Expr.binary o.operator o.left right).height ≤ bound + (extra + extraLeft + 1) := by
      rw [Expr.height]
      omega
    exact Nat.le_trans (ih hOuter hBinary) (by omega)

theorem completeFor_within {bound levels extra : Nat} {opened : List OpenOperator}
    (hOpened : OpenedWithin bound levels opened) {right : Expr}
    (hRight : right.height ≤ bound + extra) (next : Int32) :
    ∃ extra' levels', (completeFor next opened right).2.height ≤ bound + extra' ∧
      OpenedWithin bound levels' (completeFor next opened right).1 ∧
      extra' + levels' ≤ extra + levels := by
  induction opened generalizing levels extra right with
  | nil => exact ⟨extra, levels, hRight, hOpened, Nat.le_refl _⟩
  | cons o outer ih =>
    rw [completeFor]
    split
    · obtain ⟨extraLeft, rest, hLeft, hOuter, hSum⟩ := hOpened
      have hBinary : (Expr.binary o.operator o.left right).height ≤
          bound + (extra + extraLeft + 1) := by
        rw [Expr.height]
        omega
      obtain ⟨extra', levels', hHeight, hWithin, hLe⟩ := ih hOuter hBinary
      exact ⟨extra', levels', hHeight, hWithin, by omega⟩
    · exact ⟨extra, levels, hRight, hOpened, Nat.le_refl _⟩

theorem height_groupFrom_le {bound : Nat} {operations : List Operation}
    (hOperands : ∀ o ∈ operations, o.operand.height ≤ bound) :
    ∀ (levels extra : Nat) {opened : List OpenOperator} {right : Expr},
      OpenedWithin bound levels opened → right.height ≤ bound + extra →
      (groupFrom opened right operations).height ≤
        bound + (extra + levels + operations.length) := by
  -- What the last operand and the open left sides have over the bound never comes to more than
  -- one level for each operator so far; completing operators on the way only moves it.
  induction operations with
  | nil => exact fun _ _ _ _ hOpened hRight => height_completeAll_le hOpened hRight
  | cons next rest ih =>
    intro levels extra opened right hOpened hRight
    obtain ⟨extra', levels', hLeft, hOuter, hLe⟩ :=
      completeFor_within hOpened hRight next.precedence
    have hNext : next.operand.height ≤ bound + 0 := hOperands next List.mem_cons_self
    have hOpen : OpenedWithin bound (extra' + levels' + 1)
        (⟨(completeFor next.precedence opened right).2, next.operator, next.precedence⟩ ::
          (completeFor next.precedence opened right).1) :=
      ⟨extra', levels', hLeft, hOuter, Nat.le_refl _⟩
    have hRest := ih (fun o ho => hOperands o (List.mem_cons_of_mem _ ho)) _ 0 hOpen hNext
    refine Nat.le_trans hRest ?_
    rw [List.length_cons]
    omega

/-- Grouping adds at most a level for each operator. -/
theorem height_groupChain_le {bound : Nat} {first : Expr} {operations : List Operation}
    (hFirst : first.height ≤ bound) (hOperands : ∀ o ∈ operations, o.operand.height ≤ bound) :
    (groupChain first operations).height ≤ bound + operations.length := by
  have h := @height_groupFrom_le _ _ hOperands 0 0 [] _ trivial hFirst
  rw [Nat.zero_add] at h
  exact h

/-! ## Expressions -/

/-- The height that so many levels allow: at each level a chain that uses all levels left, on
top of an operand that uses the levels below. -/
def heightWithin : Nat → Nat
  | 0 => 0
  | levels + 1 => heightWithin levels + (levels + 1)

theorem heightWithin_mono {few many : Nat} (h : few ≤ many) :
    heightWithin few ≤ heightWithin many := by
  induction h with
  | refl => exact Nat.le_refl _
  | step _ ih => exact Nat.le_trans ih (Nat.le_add_right _ _)

theorem two_mul_heightWithin (levels : Nat) :
    2 * heightWithin levels = levels * (levels + 1) := by
  induction levels with
  | zero => rfl
  | succ levels ih =>
    rw [heightWithin, Nat.mul_add, ih, ← Nat.add_mul, Nat.mul_comm]

namespace Rule

variable {table : OperatorTable}

theorem gives_operationsWithin {bound levels : Nat}
    (h : ∀ fewer, fewer < levels → (expressionWithin table fewer).Gives (·.height ≤ bound)) :
    (operationsWithin table levels).Gives fun operations =>
      operations.length ≤ levels ∧ ∀ o ∈ operations, o.operand.height ≤ bound + 1 := by
  induction levels with
  | zero =>
    rw [operationsWithin]
    refine gives_bind_any fun ahead => ?_
    cases ahead with
    | none => exact gives_pure ⟨Nat.le_refl _, by simp⟩
    | some _ => exact gives_bind_any fun _ => gives_fail _
  | succ levels ih =>
    rw [operationsWithin]
    refine gives_bind_any fun ahead => ?_
    cases ahead with
    | none => exact gives_pure ⟨Nat.zero_le _, by simp⟩
    | some operator =>
      refine gives_bind_any fun _ => ?_
      refine (gives_operand (h levels (Nat.lt_succ_self _))).bind fun right hRight => ?_
      refine (ih fun fewer hFewer => h fewer (Nat.lt_succ_of_lt hFewer)).bind fun more hMore => ?_
      obtain ⟨hLength, hOperands⟩ := hMore
      refine gives_pure ⟨Nat.succ_le_succ hLength, fun o ho => ?_⟩
      rcases List.mem_cons.mp ho with rfl | ho
      · exact hRight
      · exact hOperands o ho

theorem gives_expressionWithin (levels : Nat) :
    (expressionWithin table levels).Gives (·.height ≤ heightWithin levels) := by
  induction levels using Nat.strongRecOn with
  | ind levels ih =>
    cases levels with
    | zero =>
      rw [expressionWithin]
      exact gives_fail _
    | succ levels =>
      rw [expressionWithin]
      -- The operands of a chain are read with fewer and fewer levels, so the bound for the first
      -- one is a bound for all.
      have hInner : ∀ fewer, fewer ≤ levels →
          (expressionWithin table fewer).Gives (·.height ≤ heightWithin levels) :=
        fun fewer hLe lexer e after hRun =>
          Nat.le_trans (ih fewer (Nat.lt_succ_of_le hLe) lexer e after hRun) (heightWithin_mono hLe)
      refine (gives_operand (hInner levels (Nat.le_refl _))).bind fun first hFirst => ?_
      refine (gives_operationsWithin fun fewer hLt =>
        hInner fewer (Nat.le_of_lt hLt)).bind fun operations hOperations => gives_pure ?_
      obtain ⟨hLength, hOperands⟩ := hOperations
      have hChain := height_groupChain_le hFirst hOperands
      rw [heightWithin]
      omega

end Rule

end LiveCompiler
