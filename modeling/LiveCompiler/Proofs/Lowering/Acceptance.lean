import LiveCompiler.Proofs.Lowering.Retarget
import LiveCompiler.Proofs.Lowering.Shape

/-!
# Which procedures are lowered

Lowering succeeds if and only if every part of the expression has a meaning where it stands
(`lowers_iff`).  `Expr.Contains` lists the parts of an expression with the loops that they stand in:
the start of a loop stands outside of it, its end condition, step and body stand inside.

What has been built does not matter for success (`SucceedsIff`), so lowering one part after another
succeeds if and only if each of them is lowered.
-/

namespace LiveCompiler

open Ir

namespace Expr

/-- An expression contains a part, within loops with the given variables, the outermost first. -/
inductive Contains : Expr → List String → Expr → Prop
  | whole (e : Expr) : Contains e [] e
  | left {op : Char} {left right part : Expr} {loops : List String} (h : Contains left loops part) :
      Contains (.binary op left right) loops part
  | right {op : Char} {left right part : Expr} {loops : List String}
      (h : Contains right loops part) : Contains (.binary op left right) loops part
  | argument {callee : String} {args : List Expr} {arg part : Expr} {loops : List String}
      (mem : arg ∈ args) (h : Contains arg loops part) : Contains (.call callee args) loops part
  | condition {condition onTrue onFalse part : Expr} {loops : List String}
      (h : Contains condition loops part) :
      Contains (.ifThenElse condition onTrue onFalse) loops part
  | onTrue {condition onTrue onFalse part : Expr} {loops : List String}
      (h : Contains onTrue loops part) : Contains (.ifThenElse condition onTrue onFalse) loops part
  | onFalse {condition onTrue onFalse part : Expr} {loops : List String}
      (h : Contains onFalse loops part) : Contains (.ifThenElse condition onTrue onFalse) loops part
  | start {loopVar : String} {start finish body part : Expr} {step : Option Expr}
      {loops : List String} (h : Contains start loops part) :
      Contains (.forLoop loopVar start finish step body) loops part
  | finish {loopVar : String} {start finish body part : Expr} {step : Option Expr}
      {loops : List String} (h : Contains finish loops part) :
      Contains (.forLoop loopVar start finish step body) (loopVar :: loops) part
  | step {loopVar : String} {start finish step body part : Expr} {loops : List String}
      (h : Contains step loops part) :
      Contains (.forLoop loopVar start finish (some step) body) (loopVar :: loops) part
  | body {loopVar : String} {start finish body part : Expr} {step : Option Expr}
      {loops : List String} (h : Contains body loops part) :
      Contains (.forLoop loopVar start finish step body) (loopVar :: loops) part

/-- What an expression says itself, its parts aside, has a meaning: its operator is one there is,
its variable is in scope, its callee takes so many arguments. -/
def HasMeaning (callable : String → Nat → Prop) (scope : List String) : Expr → Prop
  | .variable name => name ∈ scope
  | .binary op _ _ => op ∈ ['+', '-', '*', '<']
  | .call callee args => callable callee args.length
  | _ => True

/-- All that an expression says has a meaning, if the given variables are in scope around it. -/
def Meaningful (callable : String → Nat → Prop) (scope : List String) (e : Expr) : Prop :=
  ∀ loops part, e.Contains loops part → part.HasMeaning callable (loops ++ scope)

section Parts

variable {callable : String → Nat → Prop} {scope other : List String}

/-- The order of the variables in scope does not matter. -/
theorem HasMeaning.congr {e : Expr} (h : e.HasMeaning callable scope)
    (hScope : ∀ name ∈ scope, name ∈ other) : e.HasMeaning callable other := by
  cases e with
  | «variable» name => exact hScope name h
  | _ => exact h

theorem meaningful_congr {e : Expr} (hScope : ∀ name, name ∈ scope ↔ name ∈ other) :
    e.Meaningful callable scope ↔ e.Meaningful callable other := by
  constructor
  all_goals
    intro h loops part hPart
    apply (h loops part hPart).congr
    simp [hScope]

theorem meaningful_number (value : Float) : (Expr.number value).Meaningful callable scope := by
  intro loops part h
  cases h
  trivial

theorem meaningful_variable_iff {name : String} :
    (Expr.variable name).Meaningful callable scope ↔ name ∈ scope := by
  constructor
  · exact fun h => h [] _ (.whole _)
  · intro hName loops part h
    cases h
    exact hName

theorem meaningful_binary_iff {op : Char} {left right : Expr} :
    (binary op left right).Meaningful callable scope ↔
      left.Meaningful callable scope ∧ right.Meaningful callable scope ∧
        op ∈ ['+', '-', '*', '<'] := by
  constructor
  · intro h
    exact ⟨fun loops part hPart => h loops part (.left hPart),
      fun loops part hPart => h loops part (.right hPart), h [] _ (.whole _)⟩
  · rintro ⟨hLeft, hRight, hOp⟩ loops part h
    cases h with
    | whole => exact hOp
    | left h => exact hLeft loops part h
    | right h => exact hRight loops part h

theorem meaningful_call_iff {callee : String} {args : List Expr} :
    (call callee args).Meaningful callable scope ↔
      callable callee args.length ∧ ∀ arg ∈ args, arg.Meaningful callable scope := by
  constructor
  · intro h
    exact ⟨h [] _ (.whole _), fun arg hArg loops part hPart => h loops part (.argument hArg hPart)⟩
  · rintro ⟨hCallee, hArgs⟩ loops part h
    cases h with
    | whole => exact hCallee
    | argument mem h => exact hArgs _ mem loops part h

theorem meaningful_ifThenElse_iff {condition onTrue onFalse : Expr} :
    (ifThenElse condition onTrue onFalse).Meaningful callable scope ↔
      condition.Meaningful callable scope ∧ onTrue.Meaningful callable scope ∧
        onFalse.Meaningful callable scope := by
  constructor
  · intro h
    exact ⟨fun loops part hPart => h loops part (.condition hPart),
      fun loops part hPart => h loops part (.onTrue hPart),
      fun loops part hPart => h loops part (.onFalse hPart)⟩
  · rintro ⟨hCondition, hTrue, hFalse⟩ loops part h
    cases h with
    | whole => trivial
    | condition h => exact hCondition loops part h
    | onTrue h => exact hTrue loops part h
    | onFalse h => exact hFalse loops part h

theorem meaningful_forLoop_iff {loopVar : String} {start finish body : Expr} {step : Option Expr} :
    (forLoop loopVar start finish step body).Meaningful callable scope ↔
      start.Meaningful callable scope ∧ body.Meaningful callable (loopVar :: scope) ∧
        (∀ s, step = some s → s.Meaningful callable (loopVar :: scope)) ∧
        finish.Meaningful callable (loopVar :: scope) := by
  -- The variable of the loop is the last of the loops, or the first that is in scope.
  have hInner : ∀ {part : Expr} {loops : List String},
      part.HasMeaning callable (loopVar :: loops ++ scope) ↔
        part.HasMeaning callable (loops ++ loopVar :: scope) := by
    intro part loops
    constructor
    all_goals
      intro h
      apply h.congr
      simp only [List.mem_append, List.mem_cons]
      tauto
  constructor
  · intro h
    refine ⟨fun loops part hPart => h loops part (.start hPart),
      fun loops part hPart => hInner.mp (h _ part (.body hPart)), ?_,
      fun loops part hPart => hInner.mp (h _ part (.finish hPart))⟩
    rintro s rfl loops part hPart
    exact hInner.mp (h _ part (.step hPart))
  · rintro ⟨hStart, hBody, hStep, hFinish⟩ loops part h
    cases h with
    | whole => trivial
    | start h => exact hStart loops part h
    | finish h => exact hInner.mpr (hFinish _ part h)
    | step h => exact hInner.mpr (hStep _ rfl _ part h)
    | body h => exact hInner.mpr (hBody _ part h)

end Parts

end Expr

namespace Lowering

/-! ## Steps that succeed whatever has been built -/

section Succeeds

variable {α β : Type} {x : Lower α} {f : α → Lower β} {p q : Prop}

/-- A step of the construction succeeds, whatever has been built, if and only if something holds. -/
def SucceedsIff (x : Lower α) (p : Prop) : Prop :=
  ∀ b, (∃ out, x.run b = .ok out) ↔ p

theorem SucceedsIff.congr (h : SucceedsIff x p) (hIff : p ↔ q) : SucceedsIff x q :=
  fun b => (h b).trans hIff

theorem SucceedsIff.bind (h : SucceedsIff x p) (hf : ∀ a, SucceedsIff (f a) q) :
    SucceedsIff (x >>= f) (p ∧ q) := by
  intro b
  constructor
  · rintro ⟨⟨y, b'⟩, hRun⟩
    obtain ⟨a, middle, hx, hRest⟩ := run_bind_ok hRun
    exact ⟨(h b).mp ⟨_, hx⟩, (hf a middle).mp ⟨_, hRest⟩⟩
  · rintro ⟨hp, hq⟩
    obtain ⟨⟨a, middle⟩, hx⟩ := (h b).mpr hp
    obtain ⟨out, hRest⟩ := (hf a middle).mpr hq
    refine ⟨out, ?_⟩
    rw [StateT.run_bind, hx]
    exact hRest

/-- A step that always succeeds makes no difference. -/
theorem SucceedsIff.skip (h : SucceedsIff x True) (hf : ∀ a, SucceedsIff (f a) q) :
    SucceedsIff (x >>= f) q :=
  (h.bind hf).congr (Iff.of_eq (true_and q))

theorem succeedsIff_of_run (h : ∀ b, ∃ out, x.run b = .ok out) : SucceedsIff x True :=
  fun b => ⟨fun _ => trivial, fun _ => h b⟩

theorem succeedsIff_throw (e : LoweringError) : SucceedsIff (throw e : Lower α) False := by
  refine fun b => ⟨?_, False.elim⟩
  rintro ⟨out, hRun⟩
  cases hRun

theorem succeedsIff_return (a : α) : SucceedsIff (return a : Lower α) True :=
  succeedsIff_of_run fun b => ⟨(a, b), rfl⟩

theorem succeedsIff_freshReg : SucceedsIff Lower.freshReg True :=
  succeedsIff_of_run fun b => ⟨b.freshReg, rfl⟩

theorem succeedsIff_freshSlot : SucceedsIff Lower.freshSlot True :=
  succeedsIff_of_run fun b => ⟨b.freshSlot, rfl⟩

theorem succeedsIff_freshBlock (params : List Reg) : SucceedsIff (Lower.freshBlock params) True :=
  succeedsIff_of_run fun b => ⟨b.freshBlock params, rfl⟩

theorem succeedsIff_append (i : Instr) : SucceedsIff (Lower.append i) True :=
  succeedsIff_of_run fun b => ⟨((), b.append i), rfl⟩

theorem succeedsIff_endBlock (t : Terminator) : SucceedsIff (Lower.endBlock t) True :=
  succeedsIff_of_run fun b => ⟨((), b.endBlock t), rfl⟩

theorem succeedsIff_continueIn (label : Label) : SucceedsIff (Lower.continueIn label) True :=
  succeedsIff_of_run fun b => ⟨((), b.continueIn label), rfl⟩

theorem succeedsIff_appendTo (i : Reg → Instr) : SucceedsIff (Lower.appendTo i) True :=
  succeedsIff_of_run fun b => ⟨_, run_appendTo b i⟩

end Succeeds

/-! ## Expressions -/

section Compute

variable {names : Names} {scope : Scope}

/-- A name stands for a function with so many parameters. -/
def Names.Takes (names : Names) (callee : String) (count : Nat) : Prop :=
  ∃ binding, names.callee callee = some binding ∧ binding.arity = count

theorem operatorInstr?_cases (op : Char) :
    (op ∈ ['+', '-', '*', '<'] ∧
      ∀ left right, ∃ instr, operatorInstr? op left right = some instr) ∨
    (op ∉ ['+', '-', '*', '<'] ∧ ∀ left right, operatorInstr? op left right = none) := by
  by_cases hOp : op ∈ ['+', '-', '*', '<']
  · left
    refine ⟨hOp, fun left right => ?_⟩
    simp only [List.mem_cons, List.not_mem_nil, or_false] at hOp
    rcases hOp with rfl | rfl | rfl | rfl
    all_goals exact ⟨_, rfl⟩
  · right
    refine ⟨hOp, fun left right => ?_⟩
    unfold operatorInstr?
    split <;> simp_all

theorem mem_names_iff {name : String} :
    name ∈ scope.map Prod.fst ↔ ∃ slot, scope.lookup name = some slot := by
  rw [← Option.isSome_iff_exists, List.lookup_isSome_iff, List.mem_map]
  constructor
  · rintro ⟨entry, hEntry, rfl⟩
    exact ⟨entry, hEntry, beq_self_eq_true _⟩
  · rintro ⟨entry, hEntry, hName⟩
    exact ⟨entry, hEntry, (beq_iff_eq.mp hName).symm⟩

theorem computeAll_succeedsIff {args : List Expr} {p : Expr → Prop}
    (h : ∀ arg ∈ args, SucceedsIff (compute names scope arg) (p arg)) :
    SucceedsIff (computeAll names scope args) (∀ arg ∈ args, p arg) := by
  induction args with
  | nil =>
    rw [computeAll]
    exact (succeedsIff_return _).congr (by simp)
  | cons arg rest ih =>
    rw [computeAll]
    have hRest := ih fun other hOther => h other (List.mem_cons_of_mem arg hOther)
    have hBoth := (h arg List.mem_cons_self).bind fun value =>
      hRest.bind fun values => succeedsIff_return (value :: values)
    exact hBoth.congr (by simp)

/-- Computing an expression succeeds, in every scope, if and only if all that it says has a
meaning there. -/
def Accepted (names : Names) (e : Expr) : Prop :=
  ∀ scope : Scope,
    SucceedsIff (compute names scope e) (e.Meaningful names.Takes (scope.map Prod.fst))

theorem accepted_number (value : Float) : Accepted names (.number value) := by
  intro scope
  rw [compute]
  exact (succeedsIff_appendTo _).congr (iff_of_true trivial (Expr.meaningful_number value))

theorem accepted_variable (name : String) : Accepted names (.variable name) := by
  intro scope
  rw [compute]
  cases hSlot : scope.lookup name with
  | some slot =>
    apply (succeedsIff_appendTo _).congr
    exact iff_of_true trivial (Expr.meaningful_variable_iff.mpr (mem_names_iff.mpr ⟨slot, hSlot⟩))
  | none =>
    apply (succeedsIff_throw _).congr
    rw [Expr.meaningful_variable_iff, mem_names_iff, hSlot]
    simp

theorem accepted_binary (op : Char) {left right : Expr} (ihLeft : Accepted names left)
    (ihRight : Accepted names right) : Accepted names (.binary op left right) := by
  intro scope
  rw [compute]
  apply SucceedsIff.congr _ Expr.meaningful_binary_iff.symm
  refine (ihLeft scope).bind fun l => (ihRight scope).bind fun r => ?_
  rcases operatorInstr?_cases op with ⟨hOp, hSome⟩ | ⟨hOp, hNone⟩
  · obtain ⟨instr, hInstr⟩ := hSome l r
    rw [hInstr]
    exact (succeedsIff_appendTo _).congr (iff_of_true trivial hOp)
  · rw [hNone l r]
    exact (succeedsIff_throw _).congr (iff_of_false id hOp)

theorem accepted_call (callee : String) {args : List Expr}
    (ih : ∀ arg ∈ args, Accepted names arg) : Accepted names (.call callee args) := by
  intro scope
  rw [compute]
  apply SucceedsIff.congr _ Expr.meaningful_call_iff.symm
  have hArgs := computeAll_succeedsIff fun arg hArg => ih arg hArg scope
  cases hCallee : names.callee callee with
  | none =>
    apply (succeedsIff_throw _).congr
    simp [Names.Takes, hCallee]
  | some binding =>
    dsimp only
    by_cases hArity : binding.arity = args.length
    · rw [if_pos hArity]
      have hTakes : names.Takes callee args.length := ⟨binding, hCallee, hArity⟩
      apply (hArgs.bind fun values => succeedsIff_appendTo _).congr
      rw [and_true, and_iff_right hTakes]
    · rw [if_neg hArity]
      have hNot : ¬ names.Takes callee args.length := by
        rintro ⟨other, hOther, hEq⟩
        obtain rfl := Option.some.inj (hCallee.symm.trans hOther)
        exact hArity hEq
      exact (succeedsIff_throw _).congr (iff_of_false id fun hBoth => hNot hBoth.1)

theorem accepted_ifThenElse {condition onTrue onFalse : Expr}
    (ihCondition : Accepted names condition) (ihTrue : Accepted names onTrue)
    (ihFalse : Accepted names onFalse) :
    Accepted names (.ifThenElse condition onTrue onFalse) := by
  intro scope
  rw [compute]
  have hSteps := (ihCondition scope).bind fun c =>
    (succeedsIff_freshBlock []).skip fun trueBlock =>
    (succeedsIff_freshBlock []).skip fun falseBlock =>
    succeedsIff_freshReg.skip fun result =>
    (succeedsIff_freshBlock [result]).skip fun meetBlock =>
    (succeedsIff_endBlock (.branch c ⟨trueBlock, []⟩ ⟨falseBlock, []⟩)).skip fun _ =>
    (succeedsIff_continueIn trueBlock).skip fun _ =>
    (ihTrue scope).bind fun onTrue =>
    (succeedsIff_endBlock (.jump ⟨meetBlock, [onTrue]⟩)).skip fun _ =>
    (succeedsIff_continueIn falseBlock).skip fun _ =>
    (ihFalse scope).bind fun onFalse =>
    (succeedsIff_endBlock (.jump ⟨meetBlock, [onFalse]⟩)).skip fun _ =>
    (succeedsIff_continueIn meetBlock).skip fun _ => succeedsIff_return result
  apply hSteps.congr
  rw [and_true, Expr.meaningful_ifThenElse_iff]

theorem computeStep_succeedsIff {step : Option Expr} (ih : ∀ s, step = some s → Accepted names s) :
    SucceedsIff (computeStep names scope step)
      (∀ s, step = some s → s.Meaningful names.Takes (scope.map Prod.fst)) := by
  cases step with
  | none =>
    rw [computeStep]
    exact (succeedsIff_appendTo _).congr (by simp)
  | some s =>
    rw [computeStep]
    exact (ih s rfl scope).congr (by simp)

theorem accepted_forLoop (loopVar : String) {start finish body : Expr} {step : Option Expr}
    (ihStart : Accepted names start) (ihFinish : Accepted names finish)
    (ihStep : ∀ s, step = some s → Accepted names s) (ihBody : Accepted names body) :
    Accepted names (.forLoop loopVar start finish step body) := by
  intro scope
  have hStep : ∀ slot, SucceedsIff (computeStep names ((loopVar, slot) :: scope) step)
      (∀ s, step = some s → s.Meaningful names.Takes (loopVar :: scope.map Prod.fst)) :=
    fun slot => computeStep_succeedsIff ihStep
  have hBody : ∀ slot, SucceedsIff (compute names ((loopVar, slot) :: scope) body)
      (body.Meaningful names.Takes (loopVar :: scope.map Prod.fst)) :=
    fun slot => ihBody ((loopVar, slot) :: scope)
  have hFinish : ∀ slot, SucceedsIff (compute names ((loopVar, slot) :: scope) finish)
      (finish.Meaningful names.Takes (loopVar :: scope.map Prod.fst)) :=
    fun slot => ihFinish ((loopVar, slot) :: scope)
  rw [compute]
  have hSteps := (ihStart scope).bind fun first =>
    succeedsIff_freshSlot.skip fun slot =>
    (succeedsIff_append (.store slot first)).skip fun _ =>
    (succeedsIff_freshBlock []).skip fun loopBlock =>
    (succeedsIff_endBlock (.jump ⟨loopBlock, []⟩)).skip fun _ =>
    (succeedsIff_continueIn loopBlock).skip fun _ =>
    (hBody slot).bind fun _ =>
    (hStep slot).bind fun increment =>
    (hFinish slot).bind fun goOn =>
    (succeedsIff_appendTo fun dst => .load dst slot).skip fun current =>
    (succeedsIff_appendTo fun dst => .arith .add dst current increment).skip fun next =>
    (succeedsIff_append (.store slot next)).skip fun _ =>
    (succeedsIff_freshBlock []).skip fun afterBlock =>
    (succeedsIff_endBlock (.branch goOn ⟨loopBlock, []⟩ ⟨afterBlock, []⟩)).skip fun _ =>
    (succeedsIff_continueIn afterBlock).skip fun _ =>
    succeedsIff_appendTo fun dst => .const dst 0.0
  apply hSteps.congr
  rw [and_true, Expr.meaningful_forLoop_iff]

/-- Computing an expression succeeds if and only if all that it says has a meaning. -/
theorem compute_succeedsIff (e : Expr) : Accepted names e := by
  induction e using Expr.induction with
  | number value => exact accepted_number value
  | var name => exact accepted_variable name
  | binary op left right ihLeft ihRight => exact accepted_binary op ihLeft ihRight
  | call callee args ih => exact accepted_call callee ih
  | ifThenElse condition onTrue onFalse ihCondition ihTrue ihFalse =>
    exact accepted_ifThenElse ihCondition ihTrue ihFalse
  | forLoop loopVar start finish step body ihStart ihFinish ihStep ihBody =>
    exact accepted_forLoop loopVar ihStart ihFinish ihStep ihBody

end Compute

/-! ## Procedures -/

section Procedures

variable {names : Names} {procedure : Procedure} {this : FuncId} {kind : FunctionKind}
  {symbols : Symbols}

/-- The parameters join the scope, the last one innermost. -/
theorem exists_run_lowerParams (params : List String) :
    ∀ (scope : Scope) (index : Nat) (b : Builder), ∃ final b',
      (lowerParams scope index params).run b = .ok (final, b') ∧
        final.map Prod.fst = params.reverse ++ scope.map Prod.fst := by
  induction params with
  | nil => exact fun scope index b => ⟨scope, b, rfl, rfl⟩
  | cons param rest ih =>
    intro scope index b
    rw [lowerParams, run_bind_appendTo, run_freshSlot, run_append]
    obtain ⟨final, b', hRun, hNames⟩ := ih ((param, _) :: scope) (index + 1) _
    refine ⟨final, b', hRun, ?_⟩
    rw [hNames, List.reverse_cons, List.append_assoc]
    rfl

theorem lowerBody_succeedsIff : SucceedsIff (lowerBody names procedure)
    (procedure.body.Meaningful names.Takes procedure.signature.params) := by
  intro b
  obtain ⟨scope, b₁, hParams, hNames⟩ := exists_run_lowerParams procedure.signature.params [] 0 b
  have hScope : procedure.body.Meaningful names.Takes (scope.map Prod.fst) ↔
      procedure.body.Meaningful names.Takes procedure.signature.params := by
    rw [hNames]
    apply Expr.meaningful_congr
    simp
  have hSteps := (@compute_succeedsIff names procedure.body scope).bind fun result =>
    succeedsIff_endBlock (.ret result)
  rw [← hScope, ← (hSteps.congr (Iff.of_eq (and_true _))) b₁]
  unfold lowerBody
  rw [StateT.run_bind, hParams]
  rfl

/-- Lowering makes a body if and only if the signature of a definition is accepted and all that the
expression says has a meaning. -/
theorem exists_lowerProcedure_iff (name : String) :
    (∃ body, lowerProcedure procedure name this kind symbols = .ok body) ↔
      (kind = .definition → acceptSignature procedure.signature symbols = .ok ()) ∧
        procedure.body.Meaningful (namesFor procedure this kind symbols).Takes
          procedure.signature.params := by
  rw [← lowerBody_succeedsIff (Builder.start name procedure.signature.arity), lowerProcedure_eq]
  have hMap : ∀ result : Except LoweringError (Unit × Builder),
      (∃ body, (result.map fun made => made.2.body) = .ok body) ↔ ∃ out, result = .ok out := by
    intro result
    cases result with
    | error e => exact iff_of_false nofun nofun
    | ok out => exact iff_of_true ⟨_, rfl⟩ ⟨out, rfl⟩
  by_cases hKind : kind = .definition
  · rw [if_pos hKind]
    simp only [hKind, true_implies]
    cases hAccept : acceptSignature procedure.signature symbols with
    | error e => exact iff_of_false nofun nofun
    | ok _ =>
      rw [and_iff_right rfl]
      exact hMap _
  · rw [if_neg hKind, and_iff_right fun hDefinition => absurd hDefinition hKind]
    exact hMap _

/-- A definition is lowered if and only if its parameters are different, its name is not declared
with another number of parameters, and everything in its expression has a meaning, where its own
name stands for itself.  A bare expression is lowered if and only if everything in it has a meaning
by the symbols alone. -/
theorem lowers_iff (procedure : Procedure) (name : String) (this : FuncId) (symbols : Symbols) :
    ((∃ body, lowerProcedure procedure name this .definition symbols = .ok body) ↔
      procedure.signature.params.Nodup ∧
      (∀ existing, symbols.lookup procedure.signature.name = some existing →
        existing.kind = .external → existing.arity = procedure.signature.arity) ∧
      procedure.body.Meaningful (fun callee count =>
          (callee = procedure.signature.name ∧ count = procedure.signature.arity) ∨
            (callee ≠ procedure.signature.name ∧
              ∃ binding, symbols.lookup callee = some binding ∧ binding.arity = count))
        procedure.signature.params) ∧
    ((∃ body, lowerProcedure procedure name this .wrapper symbols = .ok body) ↔
      procedure.body.Meaningful (fun callee count =>
          ∃ binding, symbols.lookup callee = some binding ∧ binding.arity = count)
        procedure.signature.params) := by
  have hDefinition : (namesFor procedure this .definition symbols).Takes = fun callee count =>
      (callee = procedure.signature.name ∧ count = procedure.signature.arity) ∨
        (callee ≠ procedure.signature.name ∧
          ∃ binding, symbols.lookup callee = some binding ∧ binding.arity = count) := by
    funext callee count
    unfold Names.Takes Names.callee namesFor
    by_cases hOwn : procedure.signature.name = callee
    · simp [hOwn, eq_comm]
    · simp [hOwn, Ne.symm hOwn]
  constructor
  · rw [exists_lowerProcedure_iff, hDefinition, ← and_assoc, ← acceptSignature_iff]
    simp
  · rw [exists_lowerProcedure_iff, and_iff_right nofun]
    rfl

end Procedures

end Lowering

end LiveCompiler
