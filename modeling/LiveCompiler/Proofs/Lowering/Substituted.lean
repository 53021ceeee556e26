import LiveCompiler.Proofs.Lowering.Inversion
import LiveCompiler.Proofs.Lowering.Meaning
import LiveCompiler.Proofs.Pass.Substitution
import Mathlib.Data.List.Forall2

/-!
# Expressions in the place of variables

Expressions are put in the place of the free variables of another expression
(`Expr.substitute`).  The variable of a loop hides what is given for its name, but not where the
loop starts.

What is put in is made of numbers and operators only (`Expr.Arithmetic`), so it has one value
wherever it stands, and comes to it without a call (`exists_hasValue`).  Hence an
expression under bindings evaluates as it does with expressions of the bound values in the places
of the variables (`Evaluates.substitute`): inside of a loop, what was given for other names than
the variable of the loop still stands for the bindings around it (`Stands.bind`).
-/

namespace LiveCompiler

open Ir

namespace Expr

mutual

/-- An expression with what is given in the place of its free variables. -/
def substitute (given : List (String × Expr)) : Expr → Expr
  | .number value => .number value
  | .variable name => (given.lookup name).getD (.variable name)
  | .binary op left right => .binary op (substitute given left) (substitute given right)
  | .call callee args => .call callee (substituteAll given args)
  | .ifThenElse condition onTrue onFalse =>
    .ifThenElse (substitute given condition) (substitute given onTrue) (substitute given onFalse)
  | .forLoop loopVar start finish step body =>
    let inner := given.filter fun entry => entry.1 != loopVar
    .forLoop loopVar (substitute given start) (substitute inner finish) (substituteStep inner step)
      (substitute inner body)

/-- Arguments with what is given in the place of their free variables. -/
def substituteAll (given : List (String × Expr)) : List Expr → List Expr
  | [] => []
  | arg :: rest => substitute given arg :: substituteAll given rest

/-- The step of a loop with what is given in the place of its free variables. -/
def substituteStep (given : List (String × Expr)) : Option Expr → Option Expr
  | none => none
  | some step => some (substitute given step)

end

mutual

/-- The names of the functions that an expression calls. -/
def callees : Expr → List String
  | .number _ => []
  | .variable _ => []
  | .binary _ left right => callees left ++ callees right
  | .call callee args => callee :: calleesAll args
  | .ifThenElse condition onTrue onFalse => callees condition ++ callees onTrue ++ callees onFalse
  | .forLoop _ start finish step body =>
    callees start ++ callees finish ++ calleesStep step ++ callees body

/-- The names of the functions that arguments call. -/
def calleesAll : List Expr → List String
  | [] => []
  | arg :: rest => callees arg ++ calleesAll rest

/-- The names of the functions that the step of a loop calls. -/
def calleesStep : Option Expr → List String
  | none => []
  | some step => callees step

end

/-- An expression made of numbers and operators. -/
inductive Arithmetic : Expr → Prop
  | number (value : Float) : Arithmetic (.number value)
  | binary {op : Char} {a b : Expr} (known : op ∈ ['+', '-', '*', '<']) (left : Arithmetic a)
      (right : Arithmetic b) : Arithmetic (.binary op a b)

end Expr

namespace Lowering

variable {names other : Names} {answers : Answers} {e : Expr} {vars : Bindings}
  {calls after : List Call} {x y : Float} {given : List (String × Expr)}

/-! ## Loops -/

/-- A loop goes through the turns of another one that has all its turns. -/
theorem Repeats.imp {turn more : Turn} (hImp : ∀ x calls raised goesOn after,
      turn x calls raised goesOn after → more x calls raised goesOn after)
    (h : Repeats turn x calls after) : Repeats more x calls after := by
  induction h with
  | last hEnds => exact .last (hImp _ _ _ _ _ hEnds)
  | again hGoesOn _ ih => exact .again (hImp _ _ _ _ _ hGoesOn) ih

/-! ## The calls of an expression -/

/-- Calls were added, all of them of some kind. -/
def Adds (kind : Call → Prop) (calls after : List Call) : Prop :=
  ∃ made, after = calls ++ made ∧ ∀ call ∈ made, kind call

/-- Calls of what the names of callees stand for are of some kind. -/
def Names.CallsOnly (names : Names) (kind : Call → Prop) (callees : List String) : Prop :=
  ∀ name ∈ callees, ∀ binding, names.callee name = some binding →
    ∀ args, kind ⟨binding.func, args⟩

theorem Names.callsOnly_append {kind : Call → Prop} {callees more : List String} :
    names.CallsOnly kind (callees ++ more) ↔
      names.CallsOnly kind callees ∧ names.CallsOnly kind more :=
  List.forall_mem_append

section Adds

variable {kind : Call → Prop}

theorem Adds.refl (kind : Call → Prop) (calls : List Call) : Adds kind calls calls :=
  ⟨[], (List.append_nil calls).symm, List.forall_mem_nil _⟩

theorem Adds.trans {middle : List Call} (h : Adds kind calls middle)
    (hNext : Adds kind middle after) : Adds kind calls after := by
  obtain ⟨first, rfl, hFirst⟩ := h
  obtain ⟨rest, rfl, hRest⟩ := hNext
  exact ⟨first ++ rest, List.append_assoc _ _ _, List.forall_mem_append.mpr ⟨hFirst, hRest⟩⟩

theorem Repeats.adds {turn : Turn} (hTurn : ∀ x calls raised goesOn after,
      turn x calls raised goesOn after → Adds kind calls after)
    (h : Repeats turn x calls after) : Adds kind calls after := by
  induction h with
  | last hEnds => exact hTurn _ _ _ _ _ hEnds
  | again hGoesOn _ ih => exact (hTurn _ _ _ _ _ hGoesOn).trans ih

theorem EvaluatesAll.adds {args : List Expr} {values : List Float}
    (hArgs : ∀ arg ∈ args, names.CallsOnly kind arg.callees → ∀ {vars calls y after},
      Evaluates names answers arg vars calls y after → Adds kind calls after)
    (hCalls : names.CallsOnly kind (Expr.calleesAll args))
    (h : EvaluatesAll names answers args vars calls values after) : Adds kind calls after := by
  induction args generalizing calls values after with
  | nil =>
    rw [EvaluatesAll] at h
    obtain ⟨-, rfl⟩ := h
    exact .refl _ _
  | cons arg rest ih =>
    rw [EvaluatesAll] at h
    obtain ⟨y, middle, ys, hArg, hRest, -⟩ := h
    obtain ⟨hFirst, hOthers⟩ := Names.callsOnly_append.mp hCalls
    exact (hArgs arg List.mem_cons_self hFirst hArg).trans
      (ih (fun a ha => hArgs a (List.mem_cons_of_mem arg ha)) hOthers hRest)

/-- An expression adds only calls of what the names in it stand for. -/
theorem Evaluates.adds (e : Expr) : names.CallsOnly kind e.callees → ∀ {vars calls y after},
    Evaluates names answers e vars calls y after → Adds kind calls after := by
  induction e using Expr.induction with
  | number value =>
    intro _ vars calls y after h
    rw [Evaluates] at h
    obtain ⟨-, rfl⟩ := h
    exact .refl _ _
  | var name =>
    intro _ vars calls y after h
    rw [Evaluates] at h
    obtain ⟨-, rfl⟩ := h
    exact .refl _ _
  | binary op left right ihLeft ihRight =>
    intro hCalls vars calls y after h
    rw [Expr.callees, Names.callsOnly_append] at hCalls
    rw [Evaluates] at h
    obtain ⟨a, middle, b, hLeft, hRight, -⟩ := h
    exact (ihLeft hCalls.1 hLeft).trans (ihRight hCalls.2 hRight)
  | call callee args ih =>
    intro hCalls vars calls y after h
    rw [Expr.callees, Names.CallsOnly, List.forall_mem_cons] at hCalls
    rw [Evaluates] at h
    obtain ⟨binding, values, middle, hBinding, hArgs, -, rfl⟩ := h
    refine (hArgs.adds ih hCalls.2).trans ⟨_, rfl, ?_⟩
    exact List.forall_mem_singleton.mpr (hCalls.1 binding hBinding values)
  | ifThenElse condition onTrue onFalse ihCondition ihTrue ihFalse =>
    intro hCalls vars calls y after h
    rw [Expr.callees, Names.callsOnly_append, Names.callsOnly_append] at hCalls
    obtain ⟨⟨hInCondition, hInTrue⟩, hInFalse⟩ := hCalls
    rw [Evaluates] at h
    obtain ⟨c, middle, hCondition, ⟨-, hTrue⟩ | ⟨-, hFalse⟩⟩ := h
    · exact (ihCondition hInCondition hCondition).trans (ihTrue hInTrue hTrue)
    · exact (ihCondition hInCondition hCondition).trans (ihFalse hInFalse hFalse)
  | forLoop loopVar start finish step body ihStart ihFinish ihStep ihBody =>
    intro hCalls vars calls y after h
    rw [Expr.callees, Names.callsOnly_append, Names.callsOnly_append, Names.callsOnly_append]
      at hCalls
    obtain ⟨⟨⟨hInStart, hInFinish⟩, hInStep⟩, hInBody⟩ := hCalls
    obtain ⟨first, middle, hStart, -, hRepeats⟩ := evaluates_forLoop.mp h
    refine (ihStart hInStart hStart).trans (hRepeats.adds ?_)
    rintro x calls raised goesOn after
      ⟨unused, afterBody, increment, afterStep, c, hBody, hStep, hFinish, -, -⟩
    -- A turn makes the calls of its body, of its step and of its end condition, in this order.
    have hStepAdds : Adds kind afterBody afterStep := by
      cases step with
      | none =>
        rw [EvaluatesStep] at hStep
        obtain ⟨-, rfl⟩ := hStep
        exact .refl _ _
      | some step =>
        rw [EvaluatesStep] at hStep
        exact ihStep step rfl hInStep hStep
    exact ((ihBody hInBody hBody).trans hStepAdds).trans (ihFinish hInFinish hFinish)

end Adds

/-! ## Arithmetic expressions -/

/-- An expression has a value wherever it stands, and makes no call. -/
def HasValue (e : Expr) (x : Float) : Prop :=
  ∀ (names : Names) (answers : Answers) (vars : Bindings) (calls : List Call) (y : Float)
    (after : List Call), Evaluates names answers e vars calls y after ↔ y = x ∧ after = calls

theorem exists_operate? {op : Char} (h : op ∈ ['+', '-', '*', '<']) (x y : Float) :
    ∃ z, operate? op x y = some z := by
  simp only [List.mem_cons, List.not_mem_nil, or_false] at h
  rcases h with rfl | rfl | rfl | rfl <;> exact ⟨_, rfl⟩

/-- An arithmetic expression has a value. -/
theorem exists_hasValue (h : e.Arithmetic) : ∃ x, HasValue e x := by
  induction h with
  | number value =>
    refine ⟨value, fun names answers vars calls y after => ?_⟩
    rw [Evaluates]
  | binary hKnown _ _ ihLeft ihRight =>
    obtain ⟨a, hLeft⟩ := ihLeft
    obtain ⟨b, hRight⟩ := ihRight
    obtain ⟨x, hx⟩ := exists_operate? hKnown a b
    refine ⟨x, fun names answers vars calls y after => ?_⟩
    rw [Evaluates]
    constructor
    · rintro ⟨a', middle, b', ha, hb, hy⟩
      obtain ⟨rfl, rfl⟩ := (hLeft _ _ _ _ _ _).mp ha
      obtain ⟨rfl, rfl⟩ := (hRight _ _ _ _ _ _).mp hb
      exact ⟨Option.some.inj (hy.symm.trans hx), rfl⟩
    · rintro ⟨rfl, rfl⟩
      exact ⟨a, after, b, (hLeft _ _ _ _ _ _).mpr ⟨rfl, rfl⟩,
        (hRight _ _ _ _ _ _).mpr ⟨rfl, rfl⟩, hx⟩

/-! ## Substitution -/

/-- What is given stands for bindings: an expression for the value that a name is bound to, and
a name for which nothing is given has its binding still. -/
def Stands (given : List (String × Expr)) (vars rest : Bindings) : Prop :=
  ∀ ⦃name y⦄, vars.lookup name = some y →
    (∃ arg, given.lookup name = some arg ∧ HasValue arg y) ∨
      (given.lookup name = none ∧ rest.lookup name = some y)

/-- The variable of a loop is bound on both sides, whatever was given for its name. -/
theorem Stands.bind {rest : Bindings} (h : Stands given vars rest) (loopVar : String) (x : Float) :
    Stands (given.filter fun entry => entry.1 != loopVar) ((loopVar, x) :: vars)
      ((loopVar, x) :: rest) := by
  intro name y hLookup
  by_cases hName : name = loopVar
  · subst hName
    rw [List.lookup_cons_self] at hLookup ⊢
    refine .inr ⟨List.lookup_eq_none_iff.mpr fun entry hEntry => ?_, hLookup⟩
    have hOther : entry.1 ≠ name := by simpa using (List.mem_filter.mp hEntry).2
    exact bne_iff_ne.mpr hOther.symm
  · rw [List.lookup_cons, beq_false_of_ne hName] at hLookup ⊢
    rw [Symbols.lookup_filter_ne hName]
    exact h hLookup

theorem EvaluatesAll.substitute {args : List Expr} {values : List Float} {rest : Bindings}
    (hArgs : ∀ arg ∈ args, (∀ name ∈ arg.callees, other.callee name = names.callee name) →
      ∀ {calls y after}, Evaluates names answers arg vars calls y after →
        Evaluates other answers (arg.substitute given) rest calls y after)
    (hNames : ∀ name ∈ Expr.calleesAll args, other.callee name = names.callee name)
    (h : EvaluatesAll names answers args vars calls values after) :
    EvaluatesAll other answers (Expr.substituteAll given args) rest calls values after := by
  induction args generalizing calls values after with
  | nil => exact h
  | cons arg others ih =>
    rw [EvaluatesAll] at h
    obtain ⟨y, middle, ys, hArg, hRest, rfl⟩ := h
    obtain ⟨hFirst, hOthers⟩ := List.forall_mem_append.mp hNames
    rw [Expr.substituteAll, EvaluatesAll]
    exact ⟨y, middle, ys, hArgs arg List.mem_cons_self hFirst hArg,
      ih (fun a ha => hArgs a (List.mem_cons_of_mem arg ha)) hOthers hRest, rfl⟩

/-- An expression under bindings evaluates as it does with what stands for them, if the names of
the functions that it calls keep their meaning. -/
theorem Evaluates.substitute (e : Expr) : ∀ {given vars rest}, Stands given vars rest →
    (∀ name ∈ e.callees, other.callee name = names.callee name) → ∀ {calls y after},
      Evaluates names answers e vars calls y after →
        Evaluates other answers (e.substitute given) rest calls y after := by
  induction e using Expr.induction with
  | number value => exact fun _ _ _ _ _ h => h
  | var name =>
    intro given vars rest hStands _ calls y after h
    rw [Evaluates] at h
    obtain ⟨hLookup, rfl⟩ := h
    rw [Expr.substitute]
    rcases hStands hLookup with ⟨arg, hGiven, hValue⟩ | ⟨hGiven, hRest⟩ <;> rw [hGiven]
    · exact (hValue _ _ _ _ _ _).mpr ⟨rfl, rfl⟩
    · exact ⟨hRest, rfl⟩
  | binary op left right ihLeft ihRight =>
    intro given vars rest hStands hNames calls y after h
    obtain ⟨hInLeft, hInRight⟩ := List.forall_mem_append.mp hNames
    rw [Evaluates] at h
    obtain ⟨a, middle, b, hLeft, hRight, hOperate⟩ := h
    rw [Expr.substitute, Evaluates]
    exact ⟨a, middle, b, ihLeft hStands hInLeft hLeft, ihRight hStands hInRight hRight, hOperate⟩
  | call callee args ih =>
    intro given vars rest hStands hNames calls y after h
    obtain ⟨hOwn, hInArgs⟩ := List.forall_mem_cons.mp hNames
    rw [Evaluates] at h
    obtain ⟨binding, values, middle, hBinding, hArgs, hRest⟩ := h
    rw [Expr.substitute, Evaluates]
    exact ⟨binding, values, middle, hOwn.trans hBinding,
      hArgs.substitute (fun arg hArg hIn => ih arg hArg hStands hIn) hInArgs, hRest⟩
  | ifThenElse condition onTrue onFalse ihCondition ihTrue ihFalse =>
    intro given vars rest hStands hNames calls y after h
    obtain ⟨hOthers, hInFalse⟩ := List.forall_mem_append.mp hNames
    obtain ⟨hInCondition, hInTrue⟩ := List.forall_mem_append.mp hOthers
    rw [Evaluates] at h
    obtain ⟨c, middle, hCondition, hArm⟩ := h
    rw [Expr.substitute, Evaluates]
    refine ⟨c, middle, ihCondition hStands hInCondition hCondition, ?_⟩
    exact hArm.imp (And.imp_right (ihTrue hStands hInTrue))
      (And.imp_right (ihFalse hStands hInFalse))
  | forLoop loopVar start finish step body ihStart ihFinish ihStep ihBody =>
    intro given vars rest hStands hNames calls y after h
    obtain ⟨hOthers, hInBody⟩ := List.forall_mem_append.mp hNames
    obtain ⟨hOthers, hInStep⟩ := List.forall_mem_append.mp hOthers
    obtain ⟨hInStart, hInFinish⟩ := List.forall_mem_append.mp hOthers
    obtain ⟨first, middle, hStart, hZero, hRepeats⟩ := evaluates_forLoop.mp h
    rw [Expr.substitute]
    refine evaluates_forLoop.mpr
      ⟨first, middle, ihStart hStands hInStart hStart, hZero, hRepeats.imp ?_⟩
    rintro x calls raised goesOn after
      ⟨unused, afterBody, increment, afterStep, c, hBody, hStep, hFinish, hTurn⟩
    -- Inside the loop its variable hides what stands for that name outside.
    have hInner := hStands.bind loopVar x
    refine ⟨unused, afterBody, increment, afterStep, c, ihBody hInner hInBody hBody, ?_,
      ihFinish hInner hInFinish hFinish, hTurn⟩
    cases step with
    | none => exact hStep
    | some step => exact ihStep step rfl hInner hInStep hStep

/-! ## Arguments -/

/-- Arithmetic expressions as arguments come to their values, without a call. -/
theorem exists_values {args : List Expr} (hArgs : ∀ arg ∈ args, arg.Arithmetic) :
    ∃ values, List.Forall₂ HasValue args values := by
  induction args with
  | nil => exact ⟨[], .nil⟩
  | cons arg rest ih =>
    obtain ⟨hArg, hRest⟩ := List.forall_mem_cons.mp hArgs
    obtain ⟨x, hx⟩ := exists_hasValue hArg
    obtain ⟨values, hValues⟩ := ih hRest
    exact ⟨x :: values, .cons hx hValues⟩

theorem EvaluatesAll.eq_of_hasValue {args : List Expr} {values own : List Float}
    (hOwn : List.Forall₂ HasValue args own)
    (h : EvaluatesAll names answers args vars calls values after) : values = own ∧ after = calls := by
  induction hOwn generalizing values after with
  | nil => exact h
  | cons hArg _ ih =>
    rw [EvaluatesAll] at h
    obtain ⟨y, middle, ys, hFirst, hRest, rfl⟩ := h
    obtain ⟨rfl, rfl⟩ := (hArg _ _ _ _ _ _).mp hFirst
    obtain ⟨rfl, rfl⟩ := ih hRest
    exact ⟨rfl, rfl⟩

/-- A call with such arguments is one call, of their values. -/
theorem Evaluates.of_call {name : String} {args : List Expr} {values : List Float}
    (hValues : List.Forall₂ HasValue args values)
    (h : Evaluates names answers (.call name args) vars calls y after) :
    ∃ binding, names.callee name = some binding ∧ y = answers calls ⟨binding.func, values⟩ ∧
      after = calls ++ [⟨binding.func, values⟩] := by
  rw [Evaluates] at h
  obtain ⟨binding, own, middle, hBinding, hArgs, hValue, hAfter⟩ := h
  obtain ⟨rfl, rfl⟩ := hArgs.eq_of_hasValue hValues
  exact ⟨binding, hBinding, hValue, hAfter⟩

/-- Arguments stand for the parameters that are bound to their values. -/
theorem stands_arguments {params : List String} {args : List Expr} {values : List Float}
    (hValues : List.Forall₂ HasValue args values) (hNodup : params.Nodup) :
    Stands (params.zip args) (params.zip values).reverse [] := by
  intro name y hLookup
  refine .inl ?_
  have hMem : (name, y) ∈ params.zip values := List.mem_reverse.mp (mem_of_lookup hLookup)
  clear hLookup
  induction hValues generalizing params with
  | nil =>
    rw [List.zip_nil_right] at hMem
    exact absurd hMem List.not_mem_nil
  | @cons arg x args values hArg _ ih =>
    cases params with
    | nil => exact absurd hMem List.not_mem_nil
    | cons param rest =>
      rw [List.zip_cons_cons, List.mem_cons] at hMem
      obtain ⟨hFirst, hRest⟩ := List.nodup_cons.mp hNodup
      rcases hMem with hSame | hMem
      · obtain ⟨rfl, rfl⟩ := Prod.mk.inj hSame
        exact ⟨arg, List.lookup_cons_self, hArg⟩
      · have hNe : name ≠ param := by
          rintro rfl
          exact hFirst (List.of_mem_zip hMem).1
        obtain ⟨found, hFound, hHas⟩ := ih hRest hMem
        refine ⟨found, ?_, hHas⟩
        rw [List.zip_cons_cons, List.lookup_cons, beq_false_of_ne hNe]
        exact hFound

end Lowering

end LiveCompiler
