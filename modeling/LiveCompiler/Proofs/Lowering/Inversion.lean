import LiveCompiler.Lowering.Procedure

/-!
# What lowering does to a builder

For each form of expression: if lowering succeeds, then on the parts one after another, and the
builder is as said in between.  What an expression does around its parts is named: `fork` opens
the blocks of a conditional, `enter` and `close` begin and end a loop.
-/

namespace LiveCompiler

open Ir

/-- Induction over expressions, those inside of argument lists and steps included. -/
theorem Expr.induction {motive : Expr → Prop} (number : ∀ value, motive (.number value))
    (var : ∀ name, motive (.variable name))
    (binary : ∀ op left right, motive left → motive right → motive (.binary op left right))
    (call : ∀ callee args, (∀ arg ∈ args, motive arg) → motive (.call callee args))
    (ifThenElse : ∀ condition onTrue onFalse, motive condition → motive onTrue → motive onFalse →
      motive (.ifThenElse condition onTrue onFalse))
    (forLoop : ∀ loopVar start finish step body, motive start → motive finish →
      (∀ s, step = some s → motive s) → motive body →
      motive (.forLoop loopVar start finish step body)) : ∀ e, motive e
  | .number value => number value
  | .variable name => var name
  | .binary op left right =>
    binary op left right
      (Expr.induction number var binary call ifThenElse forLoop left)
      (Expr.induction number var binary call ifThenElse forLoop right)
  | .call callee args =>
    call callee args fun arg _ => Expr.induction number var binary call ifThenElse forLoop arg
  | .ifThenElse condition onTrue onFalse =>
    ifThenElse condition onTrue onFalse
      (Expr.induction number var binary call ifThenElse forLoop condition)
      (Expr.induction number var binary call ifThenElse forLoop onTrue)
      (Expr.induction number var binary call ifThenElse forLoop onFalse)
  | .forLoop loopVar start finish step body =>
    forLoop loopVar start finish step body
      (Expr.induction number var binary call ifThenElse forLoop start)
      (Expr.induction number var binary call ifThenElse forLoop finish)
      (fun s _ => Expr.induction number var binary call ifThenElse forLoop s)
      (Expr.induction number var binary call ifThenElse forLoop body)

namespace Builder

/-- Append an instruction that writes the next register. -/
def write (b : Builder) (i : Instr) : Builder :=
  b.freshReg.2.append i

/-- Open the blocks of a conditional and go on in the first arm.  The blocks are the arms and the
one where they meet, in this order. -/
def fork (b : Builder) (condition : Reg) : Builder :=
  let opened := (((b.freshBlock []).2.freshBlock []).2.freshReg.2.freshBlock [b.body.regCount]).2
  (opened.endBlock (.branch condition { target := b.body.blocks.length, args := [] }
    { target := b.body.blocks.length + 1, args := [] })).continueIn b.body.blocks.length

/-- End an arm, with its value, and go on in another block. -/
def turn (b : Builder) (meet : Label) (value : Reg) (next : Label) : Builder :=
  (b.endBlock (.jump { target := meet, args := [value] })).continueIn next

/-- Put the start value of a loop into a new slot and go on in a new block. -/
def enter (b : Builder) (start : Reg) : Builder :=
  let opened := ((b.freshSlot.2.append (.store b.body.slots.length start)).freshBlock []).2
  (opened.endBlock (.jump { target := b.body.blocks.length, args := [] })).continueIn
    b.body.blocks.length

/-- Raise the variable of a loop, branch to the start of the loop or to a new block, and go on
there. -/
def close (b : Builder) (loop : Label) (slot : Slot) (step goOn : Reg) : Builder :=
  let raised := ((b.write (.load b.body.regCount slot)).write
    (.arith .add (b.body.regCount + 1) b.body.regCount step)).append
      (.store slot (b.body.regCount + 1))
  let opened := (raised.freshBlock []).2
  (opened.endBlock (.branch goOn { target := loop, args := [] }
    { target := raised.body.blocks.length, args := [] })).continueIn raised.body.blocks.length

end Builder

namespace Lowering

theorem run_bind_ok {α β : Type} {x : Lower α} {f : α → Lower β} {b b' : Builder} {y : β}
    (h : (x >>= f).run b = .ok (y, b')) :
    ∃ a middle, x.run b = .ok (a, middle) ∧ (f a).run middle = .ok (y, b') := by
  rw [StateT.run_bind] at h
  cases hx : x.run b with
  | error e =>
    rw [hx] at h
    cases h
  | ok result =>
    obtain ⟨a, middle⟩ := result
    rw [hx] at h
    exact ⟨a, middle, rfl, h⟩

section Primitives

variable {α : Type} (b : Builder)

theorem run_freshReg (f : Reg → Lower α) :
    (Lower.freshReg >>= f).run b = (f b.body.regCount).run b.freshReg.2 := rfl

theorem run_freshSlot (f : Slot → Lower α) :
    (Lower.freshSlot >>= f).run b = (f b.body.slots.length).run b.freshSlot.2 :=
  congrArg (fun slot => (f slot).run b.freshSlot.2) b.freshSlot_eq

theorem run_freshBlock (params : List Reg) (f : Label → Lower α) :
    (Lower.freshBlock params >>= f).run b =
      (f b.body.blocks.length).run (b.freshBlock params).2 :=
  congrArg (fun label => (f label).run (b.freshBlock params).2) (b.freshBlock_eq params)

theorem run_append (i : Instr) (f : Unit → Lower α) :
    (Lower.append i >>= f).run b = (f ()).run (b.append i) := rfl

theorem run_endBlock (t : Terminator) (f : Unit → Lower α) :
    (Lower.endBlock t >>= f).run b = (f ()).run (b.endBlock t) := rfl

theorem run_continueIn (label : Label) (f : Unit → Lower α) :
    (Lower.continueIn label >>= f).run b = (f ()).run (b.continueIn label) := rfl

theorem run_bind_appendTo (i : Reg → Instr) (f : Reg → Lower α) :
    (Lower.appendTo i >>= f).run b =
      (f b.body.regCount).run (b.write (i b.body.regCount)) := rfl

theorem run_appendTo (i : Reg → Instr) :
    (Lower.appendTo i).run b = .ok (b.body.regCount, b.write (i b.body.regCount)) := rfl

theorem run_return (x : α) : (return x : Lower α).run b = .ok (x, b) := rfl

theorem length_freshBlock (params : List Reg) :
    (b.freshBlock params).2.body.blocks.length = b.body.blocks.length + 1 := by
  simp [Builder.body_freshBlock]

end Primitives

variable {names : Names} {scope : Scope} {b b' : Builder} {r : Reg}

theorem compute_number_ok {value : Float}
    (h : (compute names scope (.number value)).run b = .ok (r, b')) :
    r = b.body.regCount ∧ b' = b.write (.const b.body.regCount value) := by
  rw [compute, run_appendTo] at h
  cases h
  exact ⟨rfl, rfl⟩

theorem compute_variable_ok {name : String}
    (h : (compute names scope (.variable name)).run b = .ok (r, b')) :
    ∃ slot, scope.lookup name = some slot ∧ r = b.body.regCount ∧
      b' = b.write (.load b.body.regCount slot) := by
  rw [compute] at h
  cases hSlot : scope.lookup name with
  | none =>
    rw [hSlot] at h
    cases h
  | some slot =>
    rw [hSlot] at h
    cases h
    exact ⟨slot, rfl, rfl, rfl⟩

theorem compute_binary_ok {op : Char} {left right : Expr}
    (h : (compute names scope (.binary op left right)).run b = .ok (r, b')) :
    ∃ l b₁ k b₂ i, (compute names scope left).run b = .ok (l, b₁) ∧
      (compute names scope right).run b₁ = .ok (k, b₂) ∧ operatorInstr? op l k = some i ∧
      r = b₂.body.regCount ∧ b' = b₂.write (i b₂.body.regCount) := by
  rw [compute] at h
  obtain ⟨l, b₁, hLeft, h⟩ := run_bind_ok h
  obtain ⟨k, b₂, hRight, h⟩ := run_bind_ok h
  cases hOp : operatorInstr? op l k with
  | none =>
    rw [hOp] at h
    cases h
  | some i =>
    rw [hOp] at h
    cases h
    exact ⟨l, b₁, k, b₂, i, hLeft, hRight, hOp, rfl, rfl⟩

theorem compute_call_ok {name : String} {args : List Expr}
    (h : (compute names scope (.call name args)).run b = .ok (r, b')) :
    ∃ binding values b₁, names.callee name = some binding ∧ binding.arity = args.length ∧
      (computeAll names scope args).run b = .ok (values, b₁) ∧ r = b₁.body.regCount ∧
      b' = b₁.write (.call b₁.body.regCount binding.func values) := by
  rw [compute] at h
  cases hCallee : names.callee name with
  | none =>
    rw [hCallee] at h
    cases h
  | some binding =>
    rw [hCallee] at h
    by_cases hArity : binding.arity = args.length
    · dsimp only at h
      rw [if_pos hArity] at h
      obtain ⟨values, b₁, hArgs, h⟩ := run_bind_ok h
      cases h
      exact ⟨binding, values, b₁, rfl, hArity, hArgs, rfl, rfl⟩
    · dsimp only at h
      rw [if_neg hArity] at h
      cases h

theorem compute_ifThenElse_ok {condition onTrue onFalse : Expr}
    (h : (compute names scope (.ifThenElse condition onTrue onFalse)).run b = .ok (r, b')) :
    ∃ c b₁ x b₂ y b₃, (compute names scope condition).run b = .ok (c, b₁) ∧
      (compute names scope onTrue).run (b₁.fork c) = .ok (x, b₂) ∧
      (compute names scope onFalse).run
        (b₂.turn (b₁.body.blocks.length + 2) x (b₁.body.blocks.length + 1)) = .ok (y, b₃) ∧
      r = b₁.body.regCount ∧
      b' = b₃.turn (b₁.body.blocks.length + 2) y (b₁.body.blocks.length + 2) := by
  rw [compute] at h
  obtain ⟨c, b₁, hCondition, h⟩ := run_bind_ok h
  rw [run_freshBlock, run_freshBlock, run_freshReg, run_freshBlock, run_endBlock,
    run_continueIn] at h
  obtain ⟨x, b₂, hOnTrue, h⟩ := run_bind_ok h
  rw [run_endBlock, run_continueIn] at h
  obtain ⟨y, b₃, hOnFalse, h⟩ := run_bind_ok h
  rw [run_endBlock, run_continueIn, run_return] at h
  have hFalse : (b₁.freshBlock []).2.body.blocks.length = b₁.body.blocks.length + 1 :=
    length_freshBlock b₁ []
  have hMeet : (((b₁.freshBlock []).2.freshBlock []).2.freshReg.2).body.blocks.length =
      b₁.body.blocks.length + 2 :=
    (length_freshBlock (b₁.freshBlock []).2 []).trans (congrArg (· + 1) hFalse)
  rw [hFalse] at hOnTrue hOnFalse
  rw [hMeet] at hOnFalse h
  obtain ⟨hr, hb'⟩ := Prod.mk.inj (Except.ok.inj h)
  exact ⟨c, b₁, x, b₂, y, b₃, hCondition, hOnTrue, hOnFalse, hr.symm, hb'.symm⟩

theorem compute_forLoop_ok {loopVar : String} {start finish body : Expr} {step : Option Expr}
    (h : (compute names scope (.forLoop loopVar start finish step body)).run b = .ok (r, b')) :
    ∃ first b₁ unused b₂ increment b₃ goOn b₄,
      (compute names scope start).run b = .ok (first, b₁) ∧
      (compute names ((loopVar, b₁.body.slots.length) :: scope) body).run (b₁.enter first) =
        .ok (unused, b₂) ∧
      (computeStep names ((loopVar, b₁.body.slots.length) :: scope) step).run b₂ =
        .ok (increment, b₃) ∧
      (compute names ((loopVar, b₁.body.slots.length) :: scope) finish).run b₃ =
        .ok (goOn, b₄) ∧
      r = b₄.body.regCount + 2 ∧
      b' = (b₄.close b₁.body.blocks.length b₁.body.slots.length increment goOn).write
        (.const (b₄.body.regCount + 2) 0.0) := by
  rw [compute] at h
  obtain ⟨first, b₁, hStart, h⟩ := run_bind_ok h
  rw [run_freshSlot, run_append, run_freshBlock, run_endBlock, run_continueIn] at h
  obtain ⟨unused, b₂, hBody, h⟩ := run_bind_ok h
  obtain ⟨increment, b₃, hStep, h⟩ := run_bind_ok h
  obtain ⟨goOn, b₄, hFinish, h⟩ := run_bind_ok h
  rw [run_bind_appendTo, run_bind_appendTo, run_append, run_freshBlock, run_endBlock,
    run_continueIn, run_appendTo] at h
  have hLoop : ((b₁.freshSlot.2).append (.store b₁.body.slots.length first)).body.blocks.length =
      b₁.body.blocks.length :=
    Builder.length_append _ _
  rw [hLoop] at hBody h
  obtain ⟨hr, hb'⟩ := Prod.mk.inj (Except.ok.inj h)
  exact ⟨first, b₁, unused, b₂, increment, b₃, goOn, b₄, hStart, hBody, hStep, hFinish, hr.symm,
    hb'.symm⟩

theorem computeAll_nil_ok {values : List Reg}
    (h : (computeAll names scope []).run b = .ok (values, b')) : values = [] ∧ b' = b := by
  rw [computeAll, run_return] at h
  obtain ⟨hValues, hb'⟩ := Prod.mk.inj (Except.ok.inj h)
  exact ⟨hValues.symm, hb'.symm⟩

theorem computeAll_cons_ok {arg : Expr} {rest : List Expr} {values : List Reg}
    (h : (computeAll names scope (arg :: rest)).run b = .ok (values, b')) :
    ∃ x b₁ xs, (compute names scope arg).run b = .ok (x, b₁) ∧
      (computeAll names scope rest).run b₁ = .ok (xs, b') ∧ values = x :: xs := by
  rw [computeAll] at h
  obtain ⟨x, b₁, hArg, h⟩ := run_bind_ok h
  obtain ⟨xs, b₂, hRest, h⟩ := run_bind_ok h
  rw [run_return] at h
  obtain ⟨hValues, rfl⟩ := Prod.mk.inj (Except.ok.inj h)
  exact ⟨x, b₁, xs, hArg, hRest, hValues.symm⟩

theorem computeStep_none_ok (h : (computeStep names scope none).run b = .ok (r, b')) :
    r = b.body.regCount ∧ b' = b.write (.const b.body.regCount 1.0) := by
  rw [computeStep, run_appendTo] at h
  obtain ⟨hr, hb'⟩ := Prod.mk.inj (Except.ok.inj h)
  exact ⟨hr.symm, hb'.symm⟩

theorem computeStep_some_ok {step : Expr}
    (h : (computeStep names scope (some step)).run b = .ok (r, b')) :
    (compute names scope step).run b = .ok (r, b') := by
  rwa [computeStep] at h

end Lowering

end LiveCompiler
