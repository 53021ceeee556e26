import LiveCompiler.Proofs.Lowering.Meaning
import LiveCompiler.Proofs.Lowering.Running

/-!
# The code of an expression simulates its evaluation

`compute_simulates` is by induction on the expression.  The arms of a conditional and the turns
of a loop end in blocks of their own, so each of them is brought to the place where all of them
come together.  What is known of these places is collected in `ForkCode` and `LoopCode`.  A loop
needs a second induction: on the turns if it evaluates, and on the number of blocks if it halts.
-/

namespace LiveCompiler

open Ir

namespace Lowering

open Stage

/-- The variables in scope with the values in their slots. -/
def Scope.values (scope : Scope) (s : Store) : Bindings :=
  scope.map fun entry => (entry.1, s.slots entry.2)

theorem Scope.lookup_values (scope : Scope) (s : Store) (name : String) :
    (scope.values s).lookup name = (scope.lookup name).map s.slots := by
  induction scope with
  | nil => rfl
  | cons entry rest ih =>
    obtain ⟨key, slot⟩ := entry
    show List.lookup name ((key, s.slots slot) :: Scope.values rest s) = _
    rw [List.lookup_cons, List.lookup_cons]
    cases name == key with
    | true => rfl
    | false => exact ih

theorem Scope.InBody.values_eq {scope : Scope} {b : Builder} {s s' : Store}
    (h : scope.InBody b.body) (hKeeps : Keeps b s s') : scope.values s' = scope.values s :=
  List.map_congr_left fun entry hEntry => by rw [hKeeps.slots entry.2 (h entry hEntry)]

/-- A register holds a value. -/
abbrev Holds (r : Reg) (s : Store) (y : Float) : Prop :=
  s.regs r = y

variable {names : Names} {c : Setting} {body : Body}

/-- The code of an expression simulates its evaluation, from every sound stage. -/
def Simulated (names : Names) (c : Setting) (body : Body) (e : Expr) : Prop :=
  ∀ {scope : Scope} {st : Stage} {r : Reg} {b' : Builder}, st.Sound names.Callable →
    scope.InBody st.body → (compute names scope e).run st.builder = .ok (r, b') →
    b'.body.Grows body → ∀ s, Simulates c body st.builder b' s (Holds r)
      (Evaluates names c.answers e (scope.values s) s.calls)

/-- An instruction that writes the next register, and calls nothing. -/
theorem simulates_write {callable : FuncId → Nat → Prop} {st : Stage} (h : st.Sound callable)
    {i : Instr} (hDst : i.dst = some st.body.regCount) (hStored : i.stored = none) {s : Store}
    (hMade : i.made s.regs = []) (hGrows : (st.write i).body.Grows body) {y : Float}
    (hValue : i.value c s = y) :
    Simulates c body st.builder (st.builder.write i) s (Holds st.body.regCount)
      fun z after => z = y ∧ after = s.calls := by
  have hCalls : (i.effect c s).calls = s.calls := by
    show s.calls ++ i.made s.regs = s.calls
    rw [hMade, List.append_nil]
  rw [← hCalls]
  exact Simulates.of_arrives (arrives_write h hGrows) (keeps_effect hDst (Nat.le_refl _) hStored)
    ((Instr.regs_effect_of_eq hDst).trans hValue)

theorem operatorInstr_value {op : Char} {left right : Reg} {i : Reg → Instr}
    (h : operatorInstr? op left right = some i) (s : Store) (dst : Reg) :
    operate? op (s.regs left) (s.regs right) = some ((i dst).value c s) ∧
      (i dst).stored = none ∧ (i dst).made s.regs = [] := by
  unfold operatorInstr? at h
  split at h
  all_goals first
    | (obtain rfl := Option.some.inj h; exact ⟨rfl, rfl, rfl⟩)
    | cases h

/-- Arguments, one after another. -/
theorem computeAll_simulates {args : List Expr}
    (hEach : ∀ arg ∈ args, Simulated names c body arg) : ∀ {scope : Scope} {st : Stage}
    {values : List Reg} {b' : Builder}, st.Sound names.Callable → scope.InBody st.body →
    (computeAll names scope args).run st.builder = .ok (values, b') → b'.body.Grows body →
    ∀ s, Simulates c body st.builder b' s (fun s ys => values.map s.regs = ys)
      (EvaluatesAll names c.answers args (scope.values s) s.calls) := by
  induction args with
  | nil =>
    intro scope st values b' hSound _ hRun _ s
    obtain ⟨rfl, rfl⟩ := computeAll_nil_ok hRun
    refine (Simulates.of_arrives (y := []) (Arrives.refl c body st.builder s) (Keeps.refl _ s)
      rfl).congr fun ys after => ?_
    rw [EvaluatesAll]
  | cons arg rest ih =>
    intro scope st values b' hSound hScope hRun hGrows s
    obtain ⟨x, b₁, xs, hArg, hRest, rfl⟩ := computeAll_cons_ok hRun
    obtain ⟨st₁, rfl, hLeads₁, hx, hxLt⟩ := compute_leads names arg hSound hScope hArg
    have hScope₁ := hScope.grows hLeads₁.grows
    obtain ⟨st₂, rfl, hLeads₂, -, -⟩ := computeAll_leads
      (fun other _ => compute_leads names other) hLeads₁.sound hScope₁ hRest
    have hFirst := hEach arg List.mem_cons_self hSound hScope hArg (hLeads₂.grows.trans hGrows) s
    have hNext : ∀ y middle s₁, Evaluates names c.answers arg (scope.values s) s.calls y middle →
        Keeps st.builder s s₁ → Holds x s₁ y → s₁.calls = middle →
        Simulates c body st₁.builder st₂.builder s₁ (fun s ys => (x :: xs).map s.regs = ys)
          fun zs after => ∃ ys, EvaluatesAll names c.answers rest (scope.values s) middle ys after ∧
            zs = y :: ys := by
      intro y middle s₁ _ hKeeps hy hCalls
      have hOthers := ih (fun other hOther => hEach other (List.mem_cons_of_mem _ hOther))
        hLeads₁.sound hScope₁ hRest hGrows s₁
      rw [hScope.values_eq hKeeps, hCalls] at hOthers
      refine hOthers.map fun s₂ ys hKeeps₂ hys => ?_
      rw [List.map_cons, hys, hKeeps₂.regs x hxLt, hy]
    refine (hFirst.bind hLeads₁.grows hNext).congr fun zs after => ?_
    rw [EvaluatesAll]
    constructor
    · rintro ⟨y, middle, ys, hy, hys, rfl⟩
      exact ⟨y, middle, hy, ys, hys, rfl⟩
    · rintro ⟨y, middle, hy, ys, hys, rfl⟩
      exact ⟨y, middle, ys, hy, hys, rfl⟩

/-- The step of a loop. -/
theorem computeStep_simulates {step : Option Expr}
    (hStep : ∀ e, step = some e → Simulated names c body e) {scope : Scope} {st : Stage} {r : Reg}
    {b' : Builder} (hSound : st.Sound names.Callable) (hScope : scope.InBody st.body)
    (hRun : (computeStep names scope step).run st.builder = .ok (r, b'))
    (hGrows : b'.body.Grows body) (s : Store) :
    Simulates c body st.builder b' s (Holds r)
      (EvaluatesStep names c.answers step (scope.values s) s.calls) := by
  cases step with
  | none =>
    obtain ⟨rfl, rfl⟩ := computeStep_none_ok hRun
    refine (simulates_write hSound (i := .const st.body.regCount 1.0) rfl rfl rfl hGrows
      rfl).congr fun y after => ?_
    rw [EvaluatesStep]
    rfl
  | some e =>
    refine (hStep e rfl hSound hScope (computeStep_some_ok hRun) hGrows s).congr fun y after => ?_
    rw [EvaluatesStep]

theorem simulated_number (value : Float) : Simulated names c body (.number value) := by
  intro scope st r b' hSound _ hRun hGrows s
  obtain ⟨rfl, rfl⟩ := compute_number_ok hRun
  refine (simulates_write hSound (i := .const st.body.regCount value) rfl rfl rfl hGrows
    rfl).congr fun y after => ?_
  rw [Evaluates]
  rfl

theorem simulated_variable (name : String) : Simulated names c body (.variable name) := by
  intro scope st r b' hSound _ hRun hGrows s
  obtain ⟨slot, hSlot, rfl, rfl⟩ := compute_variable_ok hRun
  refine (simulates_write hSound (i := .load st.body.regCount slot) rfl rfl rfl hGrows
    rfl).congr fun y after => ?_
  rw [Evaluates, Scope.lookup_values, hSlot, Option.map_some, Option.some.injEq, eq_comm]
  rfl

theorem simulated_binary {op : Char} {left right : Expr} (ihLeft : Simulated names c body left)
    (ihRight : Simulated names c body right) :
    Simulated names c body (.binary op left right) := by
  intro scope st r b' hSound hScope hRun hGrows s
  obtain ⟨l, b₁, k, b₂, i, hLeft, hRight, hOp, rfl, rfl⟩ := compute_binary_ok hRun
  obtain ⟨st₁, rfl, hLeads₁, hl, hlLt⟩ := compute_leads names left hSound hScope hLeft
  have hScope₁ := hScope.grows hLeads₁.grows
  obtain ⟨st₂, rfl, hLeads₂, hk, -⟩ := compute_leads names right hLeads₁.sound hScope₁ hRight
  obtain ⟨hDst, hUses, hLegal⟩ := operatorInstr_spec hOp st₂.body.regCount
  have hWrite := (hLeads₂.sound.write hDst (by
    intro r hr
    rw [hUses] at hr
    rcases List.mem_cons.mp hr with rfl | hr
    · exact hLeads₂.knows _ hl
    · rw [List.mem_singleton.mp hr]
      exact hk) (hLegal _ _ _)).1
  have hGrows₂ := hWrite.grows.trans hGrows
  have hLast : ∀ x y s₂, s₂.regs l = x → s₂.regs k = y → Simulates c body st₂.builder
      (st₂.builder.write (i st₂.body.regCount)) s₂ (Holds st₂.body.regCount)
      fun z after => operate? op x y = some z ∧ after = s₂.calls := by
    rintro _ _ s₂ rfl rfl
    obtain ⟨hValue, hStored, hMade⟩ := operatorInstr_value (c := c) hOp s₂ st₂.body.regCount
    refine (simulates_write hLeads₂.sound hDst hStored hMade hGrows rfl).congr fun z after => ?_
    rw [hValue, Option.some.injEq, eq_comm]
  have hNext : ∀ x middle s₁, Evaluates names c.answers left (scope.values s) s.calls x middle →
      Keeps st.builder s s₁ → Holds l s₁ x → s₁.calls = middle →
      Simulates c body st₁.builder (st₂.builder.write (i st₂.body.regCount)) s₁
        (Holds st₂.body.regCount) fun z after => ∃ y end₂,
          Evaluates names c.answers right (scope.values s) middle y end₂ ∧
            (operate? op x y = some z ∧ after = end₂) := by
    intro x middle s₁ _ hKeeps hx hCalls
    have hRight := ihRight hLeads₁.sound hScope₁ hRight hGrows₂ s₁
    rw [hScope.values_eq hKeeps, hCalls] at hRight
    refine hRight.bind hLeads₂.grows fun y end₂ s₂ _ hKeeps₂ hy hCalls₂ => ?_
    rw [← hCalls₂]
    exact hLast x y s₂ ((hKeeps₂.regs l hlLt).trans hx) hy
  have hFirst := ihLeft hSound hScope hLeft (hLeads₂.grows.trans hGrows₂) s
  refine (hFirst.bind hLeads₁.grows hNext).congr fun z after => ?_
  rw [Evaluates]
  constructor
  · rintro ⟨x, middle, y, hx, hy, hz⟩
    exact ⟨x, middle, hx, y, after, hy, hz, rfl⟩
  · rintro ⟨x, middle, hx, y, _, hy, hz, rfl⟩
    exact ⟨x, middle, y, hx, hy, hz⟩

theorem simulated_call {name : String} {args : List Expr}
    (ih : ∀ arg ∈ args, Simulated names c body arg) :
    Simulated names c body (.call name args) := by
  intro scope st r b' hSound hScope hRun hGrows s
  obtain ⟨binding, values, b₁, hCallee, hArity, hArgs, rfl, rfl⟩ := compute_call_ok hRun
  obtain ⟨st₁, rfl, hLeads₁, hValues, hLength⟩ :=
    computeAll_leads (fun other _ => compute_leads names other) hSound hScope hArgs
  have hWrite := (hLeads₁.sound.write (i := .call st₁.body.regCount binding.func values) rfl
    hValues ⟨name, binding, hCallee, rfl, hArity.trans hLength.symm⟩).1
  have hNext : ∀ ys middle s₁,
      EvaluatesAll names c.answers args (scope.values s) s.calls ys middle →
      Keeps st.builder s s₁ → values.map s₁.regs = ys → s₁.calls = middle →
      Simulates c body st₁.builder
        (st₁.builder.write (.call st₁.body.regCount binding.func values)) s₁
        (Holds st₁.body.regCount) fun z after =>
          z = c.answers middle ⟨binding.func, ys⟩ ∧ after = middle ++ [⟨binding.func, ys⟩] := by
    rintro _ _ s₁ - - rfl rfl
    exact Simulates.of_arrives (arrives_write hLeads₁.sound hGrows)
      (keeps_effect rfl (Nat.le_refl _) rfl) (Instr.regs_effect_of_eq rfl)
  have hAll := computeAll_simulates ih hSound hScope hArgs (hWrite.grows.trans hGrows) s
  refine (hAll.bind hLeads₁.grows hNext).congr fun z after => ?_
  rw [Evaluates]
  constructor
  · rintro ⟨other, ys, middle, hOther, hys, hz⟩
    obtain rfl := Option.some.inj (hCallee.symm.trans hOther)
    exact ⟨ys, middle, hys, hz⟩
  · rintro ⟨ys, middle, hys, hz⟩
    exact ⟨binding, ys, middle, hCallee, hys, hz⟩

/-! ## Conditionals -/

/-- The code of a conditional at its place in a body: the stage at its fork knows the condition, and
each arm leads from its start to a stage that knows the result of the arm. -/
structure ForkCode (names : Names) (body : Body) (st st₂ st₃ : Stage) (k x y : Reg) : Prop where
  sound : st.Sound names.Callable
  condition : st.Knows k
  onTrue : Leads names.Callable (st.fork k) st₂
  resultTrue : st₂.Knows x
  onFalse : Leads names.Callable
    (st₂.turn (st.body.blocks.length + 2) x (st.body.blocks.length + 1)) st₃
  resultFalse : st₃.Knows y
  grows : (st₃.turn (st.body.blocks.length + 2) y (st.body.blocks.length + 2)).body.Grows body

namespace ForkCode

variable {st st₂ st₃ : Stage} {k x y : Reg}

theorem forks (code : ForkCode names body st st₂ st₃ k x y) :
    Extends names.Callable st (st.fork k) :=
  code.sound.fork code.condition

theorem turns (code : ForkCode names body st st₂ st₃ k x y) : Extends names.Callable st₂
    (st₂.turn (st.body.blocks.length + 2) x (st.body.blocks.length + 1)) :=
  (code.sound.arms code.onTrue code.resultTrue).1

theorem meets (code : ForkCode names body st st₂ st₃ k x y) : Extends names.Callable st₃
    (st₃.turn (st.body.blocks.length + 2) y (st.body.blocks.length + 2)) :=
  (code.sound.meets code.onTrue code.resultTrue code.onFalse code.resultFalse).1

theorem grows_onFalse (code : ForkCode names body st st₂ st₃ k x y) :
    (st₂.turn (st.body.blocks.length + 2) x (st.body.blocks.length + 1)).body.Grows body :=
  (code.onFalse.grows.trans code.meets.grows).trans code.grows

theorem grows_fork (code : ForkCode names body st st₂ st₃ k x y) : (st.fork k).body.Grows body :=
  (code.onTrue.grows.trans code.turns.grows).trans code.grows_onFalse

/-- The block where the arms meet takes the result. -/
theorem params_meet (code : ForkCode names body st st₂ st₃ k x y) :
    (body.block (st.body.blocks.length + 2)).params = [st.body.regCount] := by
  rw [code.grows_fork.params _ (by rw [length_fork]; exact Nat.lt_succ_self _),
    code.sound.block_fork_meet]

/-- The block where the arms meet is empty when the second arm ends. -/
theorem instrs_meet (code : ForkCode names body st st₂ st₃ k x y) :
    ((st₃.turn (st.body.blocks.length + 2) y (st.body.blocks.length + 2)).body.block
      (st.body.blocks.length + 2)).instrs = [] := by
  have hNext : st.body.blocks.length + 2 ∈ st₃.waiting := by
    rw [code.onFalse.waiting_eq, (code.sound.arms code.onTrue code.resultTrue).2.1]
    exact List.mem_cons_self
  exact (congrArg Block.instrs (here_leave code.onFalse.sound _ hNext)).trans
    (code.onFalse.sound.idle _ hNext).2.1

/-- A condition that holds leads to the first arm. -/
theorem arrives_onTrue (code : ForkCode names body st st₂ st₃ k x y) {s : Store}
    (hTaken : countsAsTrue (s.regs k) = true) :
    Arrives c body st.builder s (st.fork k).builder s :=
  arrives_fork code.sound code.grows_fork (n := 0) (by rw [hTaken]; rfl) rfl
    (congrArg Block.instrs (code.sound.here_fork k))

/-- A condition that does not hold leads to the second arm. -/
theorem arrives_onFalse (code : ForkCode names body st st₂ st₃ k x y) {s : Store}
    (hTaken : countsAsTrue (s.regs k) = false) : Arrives c body st.builder s
      (st₂.turn (st.body.blocks.length + 2) x (st.body.blocks.length + 1)).builder s := by
  have hElse : st.body.blocks.length + 1 ∈ st₂.waiting := by
    rw [code.onTrue.waiting_eq, waiting_fork]
    exact List.mem_cons_of_mem _ List.mem_cons_self
  exact arrives_fork code.sound code.grows_fork (n := 1) (by rw [hTaken]; rfl) rfl
    ((congrArg Block.instrs (here_leave code.onTrue.sound _ hElse)).trans
      (code.onTrue.sound.idle _ hElse).2.1)

/-- The code of a conditional simulates the arm that its condition takes. -/
theorem simulates (code : ForkCode names body st st₂ st₃ k x y) {s : Store}
    {evaluates evaluates' : Float → List Call → Prop}
    (hTrue : Simulates c body (st.fork k).builder st₂.builder s (Holds x) evaluates)
    (hFalse : Simulates c body
      (st₂.turn (st.body.blocks.length + 2) x (st.body.blocks.length + 1)).builder st₃.builder s
      (Holds y) evaluates') :
    Simulates c body st.builder
      (st₃.turn (st.body.blocks.length + 2) y (st.body.blocks.length + 2)).builder s
      (Holds st.body.regCount) fun z after =>
        (countsAsTrue (s.regs k) = true ∧ evaluates z after) ∨
        (countsAsTrue (s.regs k) = false ∧ evaluates' z after) := by
  have hFirst := (code.forks.trans code.onTrue.toExtends).trans code.turns
  cases hTaken : countsAsTrue (s.regs k) with
  | true =>
    have hArm := hTrue.after (code.arrives_onTrue hTaken) (Keeps.refl _ _) code.forks.grows
    refine (hArm.before fun s₂ v hv => ?_).congr fun z after => by simp
    rw [← hv]
    exact arrives_turn code.onTrue.sound code.grows_onFalse code.params_meet rfl code.instrs_meet
      (Nat.le_refl _) s₂
  | false =>
    have hArm := hFalse.after (code.arrives_onFalse hTaken) (Keeps.refl _ _) hFirst.grows
    refine (hArm.before fun s₂ v hv => ?_).congr fun z after => by simp
    rw [← hv]
    exact arrives_turn code.onFalse.sound code.grows code.params_meet rfl code.instrs_meet
      (Nat.le_refl _) s₂

end ForkCode

theorem simulated_ifThenElse {condition onTrue onFalse : Expr}
    (ihCondition : Simulated names c body condition) (ihTrue : Simulated names c body onTrue)
    (ihFalse : Simulated names c body onFalse) :
    Simulated names c body (.ifThenElse condition onTrue onFalse) := by
  intro scope st r b' hSound hScope hRun hGrows s
  obtain ⟨k, b₁, x, b₂, y, b₃, hCondition, hTrue, hFalse, rfl, rfl⟩ := compute_ifThenElse_ok hRun
  obtain ⟨st₁, rfl, hLeads₁, hk, -⟩ := compute_leads names condition hSound hScope hCondition
  have hFork := hLeads₁.sound.fork hk
  have hScope₁ := hScope.grows hLeads₁.grows
  obtain ⟨st₂, rfl, hLeads₂, hx, -⟩ :=
    compute_leads names onTrue hFork.sound (hScope₁.grows hFork.grows) hTrue
  obtain ⟨hArms, -, -⟩ := hLeads₁.sound.arms hLeads₂ hx
  have hFirst := (hFork.trans hLeads₂.toExtends).trans hArms
  obtain ⟨st₃, rfl, hLeads₃, hy, -⟩ :=
    compute_leads names onFalse hArms.sound (hScope₁.grows hFirst.grows) hFalse
  have code : ForkCode names body st₁ st₂ st₃ k x y :=
    ⟨hLeads₁.sound, hk, hLeads₂, hx, hLeads₃, hy, hGrows⟩
  have hNext : ∀ v middle s₁,
      Evaluates names c.answers condition (scope.values s) s.calls v middle →
      Keeps st.builder s s₁ → Holds k s₁ v → s₁.calls = middle →
      Simulates c body st₁.builder
        (st₃.turn (st₁.body.blocks.length + 2) y (st₁.body.blocks.length + 2)).builder s₁
        (Holds st₁.body.regCount) fun z after =>
          (countsAsTrue v = true ∧
            Evaluates names c.answers onTrue (scope.values s) middle z after) ∨
          (countsAsTrue v = false ∧
            Evaluates names c.answers onFalse (scope.values s) middle z after) := by
    rintro _ _ s₁ - hKeeps rfl rfl
    rw [← hScope.values_eq hKeeps]
    exact code.simulates
      (ihTrue hFork.sound (hScope₁.grows hFork.grows) hTrue
        (hArms.grows.trans code.grows_onFalse) s₁)
      (ihFalse hArms.sound (hScope₁.grows hFirst.grows) hFalse (code.meets.grows.trans hGrows) s₁)
  have hCond := ihCondition hSound hScope hCondition (hFork.grows.trans code.grows_fork) s
  refine (hCond.bind hLeads₁.grows hNext).congr fun z after => ?_
  rw [Evaluates]

/-! ## Loops -/

/-- A turn of a loop comes to a step and an end condition, with the variables of its body. -/
def TurnComesTo (names : Names) (answers : Answers) (finish : Expr) (step : Option Expr)
    (turnBody : Expr) (vars : Bindings) (calls : List Call) (p : Float × Float)
    (after : List Call) : Prop :=
  ∃ unused afterBody afterStep, Evaluates names answers turnBody vars calls unused afterBody ∧
    EvaluatesStep names answers step vars afterBody p.1 afterStep ∧
    Evaluates names answers finish vars afterStep p.2 after

/-- A turn raises the variable by its step, and its end condition tells whether the loop goes on. -/
theorem loopTurn_iff {answers : Answers} {loopVar : String} {finish turnBody : Expr}
    {step : Option Expr} {vars : Bindings} {x raised : Float} {goesOn : Bool}
    {calls after : List Call} :
    loopTurn names answers loopVar finish step turnBody vars x calls raised goesOn after ↔
      ∃ p, TurnComesTo names answers finish step turnBody ((loopVar, x) :: vars) calls p after ∧
        raised = x + p.1 ∧ goesOn = countsAsTrue p.2 := by
  constructor
  · rintro ⟨unused, afterBody, d, afterStep, g, hb, hs, hf, hRaised, hGoesOn⟩
    exact ⟨(d, g), ⟨unused, afterBody, afterStep, hb, hs, hf⟩, hRaised, hGoesOn⟩
  · rintro ⟨p, ⟨unused, afterBody, afterStep, hb, hs, hf⟩, hRaised, hGoesOn⟩
    exact ⟨unused, afterBody, p.1, afterStep, p.2, hb, hs, hf, hRaised, hGoesOn⟩

/-- One turn of a loop, up to the end condition: the step and the end condition are observed. -/
theorem turn_simulates {inner : Scope} {finish turnBody : Expr} {step : Option Expr}
    (ihFinish : Simulated names c body finish)
    (ihStep : ∀ e, step = some e → Simulated names c body e)
    (ihBody : Simulated names c body turnBody) {st : Stage} {unused increment goOn : Reg}
    {b₂ b₃ b₄ : Builder} (hSound : st.Sound names.Callable) (hInner : inner.InBody st.body)
    (hBody : (compute names inner turnBody).run st.builder = .ok (unused, b₂))
    (hStep : (computeStep names inner step).run b₂ = .ok (increment, b₃))
    (hFinish : (compute names inner finish).run b₃ = .ok (goOn, b₄)) (hGrows : b₄.body.Grows body)
    (s : Store) :
    Simulates c body st.builder b₄ s
      (fun s' (p : Float × Float) => s'.regs increment = p.1 ∧ s'.regs goOn = p.2)
      (TurnComesTo names c.answers finish step turnBody (inner.values s) s.calls) := by
  obtain ⟨st₂, rfl, hLeads₂, -, -⟩ := compute_leads names turnBody hSound hInner hBody
  have hInner₂ := hInner.grows hLeads₂.grows
  obtain ⟨st₃, rfl, hLeads₃, -, hLt⟩ :=
    computeStep_leads (fun e _ => compute_leads names e) hLeads₂.sound hInner₂ hStep
  have hInner₃ := hInner₂.grows hLeads₃.grows
  obtain ⟨st₄, rfl, hLeads₄, -, -⟩ := compute_leads names finish hLeads₃.sound hInner₃ hFinish
  have hGrows₃ := hLeads₄.grows.trans hGrows
  -- The parts are put together from the end of the turn: the end condition, the step, the body.
  have hLast : ∀ d middle s₃, Keeps st.builder s s₃ → Holds increment s₃ d → s₃.calls = middle →
      Simulates c body st₃.builder st₄.builder s₃
        (fun s' (p : Float × Float) => s'.regs increment = p.1 ∧ s'.regs goOn = p.2) fun p after =>
          ∃ g, Evaluates names c.answers finish (inner.values s) middle g after ∧ p = (d, g) := by
    rintro d _ s₃ hKeeps hd rfl
    rw [← hInner.values_eq hKeeps]
    refine (ihFinish hLeads₃.sound hInner₃ hFinish hGrows s₃).map fun s₄ g hKeeps₄ hg => ?_
    exact ⟨(hKeeps₄.regs _ hLt).trans hd, hg⟩
  have hMiddle : ∀ unused middle s₂, Evaluates names c.answers turnBody (inner.values s) s.calls
      unused middle → Keeps st.builder s s₂ → True → s₂.calls = middle →
      Simulates c body st₂.builder st₄.builder s₂
        (fun s' (p : Float × Float) => s'.regs increment = p.1 ∧ s'.regs goOn = p.2) fun p after =>
          ∃ d afterStep, EvaluatesStep names c.answers step (inner.values s) middle d afterStep ∧
            ∃ g, Evaluates names c.answers finish (inner.values s) afterStep g after ∧
              p = (d, g) := by
    rintro unused _ s₂ - hKeeps - rfl
    have hSecond := computeStep_simulates ihStep hLeads₂.sound hInner₂ hStep hGrows₃ s₂
    rw [hInner.values_eq hKeeps] at hSecond
    refine hSecond.bind hLeads₃.grows fun d afterStep s₃ _ hKeeps₃ hd hCalls => ?_
    exact hLast d afterStep s₃ (hKeeps.trans (hKeeps₃.of_grows hLeads₂.grows)) hd hCalls
  have hFirst := ihBody hSound hInner hBody (hLeads₃.grows.trans hGrows₃) s
  refine ((hFirst.weaken).bind hLeads₂.grows hMiddle).congr fun p after => ?_
  constructor
  · rintro ⟨unused, afterBody, afterStep, hb, hs, hf⟩
    exact ⟨unused, afterBody, hb, p.1, afterStep, hs, p.2, hf, rfl⟩
  · rintro ⟨unused, afterBody, hb, d, afterStep, hs, g, hf, rfl⟩
    exact ⟨unused, afterBody, afterStep, hb, hs, hf⟩

/-- A loop simulates the repetition of its turns, if its code does one turn and then either comes
back to the start or leaves. -/
theorem repeats_simulates {turn : Turn} {holds : Float → Store → Prop} {b head tail : Builder}
    (hForward : ∀ x s, holds x s → ∀ raised goOn after, turn x s.calls raised goOn after →
      ∃ s', Keeps b s s' ∧ holds raised s' ∧ s'.calls = after ∧
        if goOn then ∃ n, 0 < n ∧ ArrivesIn c body n head s head s'
        else Arrives c body head s tail s')
    (hBackward : ∀ x s, holds x s → ∀ count, Halts c body count head s →
      ∃ raised goOn after, turn x s.calls raised goOn after)
    {x : Float} {s₀ s : Store} (hEnter : Arrives c body b s₀ head s) (hKeeps : Keeps b s₀ s)
    (hx : holds x s) :
    Simulates c body b tail s₀ (fun _ (_ : Unit) => True)
      fun _ after => Repeats turn x s.calls after := by
  -- Turns that come to an end are run, by induction on the turns.
  have hTurns : ∀ {x calls after}, Repeats turn x calls after → ∀ s, holds x s → s.calls = calls →
      ∃ s', Keeps b s s' ∧ s'.calls = after ∧ Arrives c body head s tail s' := by
    intro x calls after hRepeats
    induction hRepeats with
    | @last x raised calls after ends =>
      rintro s hx rfl
      obtain ⟨s', hKeeps, -, hCalls, hLeave⟩ := hForward x s hx raised false after ends
      exact ⟨s', hKeeps, hCalls, hLeave⟩
    | @again x raised calls middle after goesOn _ ih =>
      rintro s hx rfl
      obtain ⟨s₁, hKeeps, hRaised, hCalls, n, -, hBack⟩ := hForward x s hx raised true middle goesOn
      obtain ⟨s', hKeeps', hCalls', hLeave⟩ := ih s₁ hRaised hCalls
      exact ⟨s', hKeeps.trans hKeeps', hCalls', Arrives.trans ⟨n, hBack⟩ hLeave⟩
  -- A run that halts is made of turns, by induction on the number of blocks that are left: a turn
  -- that comes back to the start has used at least one.
  have hEnds : ∀ count x s, holds x s → Halts c body count head s →
      ∃ after, Repeats turn x s.calls after := by
    intro count
    induction count using Nat.strong_induction_on with
    | _ count ih =>
      intro x s hx hHalts
      obtain ⟨raised, goOn, after, hTurn⟩ := hBackward x s hx count hHalts
      obtain ⟨s', -, hRaised, hCalls, hNext⟩ := hForward x s hx raised goOn after hTurn
      cases goOn with
      | false => exact ⟨after, .last hTurn⟩
      | true =>
        obtain ⟨n, hPos, hBack⟩ := hNext
        obtain ⟨fewer, hFewer, hHalts'⟩ := hBack.halts_lt hPos hHalts
        obtain ⟨final, hRest⟩ := ih fewer hFewer raised s' hRaised hHalts'
        exact ⟨final, .again hTurn (hCalls ▸ hRest)⟩
  constructor
  · intro _ after hRepeats
    obtain ⟨s', hKeeps', hCalls, hLeave⟩ := hTurns hRepeats s hx rfl
    exact ⟨s', hKeeps.trans hKeeps', trivial, hCalls, hEnter.trans hLeave⟩
  · intro count hHalts
    obtain ⟨after, hRepeats⟩ := hEnds count x s hx (hEnter.halts hHalts)
    exact ⟨(), after, hRepeats⟩

/-- In a turn of a loop its variable has a value, and the scope around the loop has the values from
before it. -/
def InTurn (scope : Scope) (loopVar : String) (slot : Slot) (vars : Bindings) (x : Float)
    (s : Store) : Prop :=
  Scope.values ((loopVar, slot) :: scope) s = (loopVar, x) :: vars

/-- The code of a loop at its place in a body: the stage in front of it knows the start value, and
a turn leads to a stage that knows the step and the end condition. -/
structure LoopCode (names : Names) (body : Body) (scope : Scope) (st st' : Stage)
    (first increment goOn : Reg) : Prop where
  sound : st.Sound names.Callable
  inBody : scope.InBody st.body
  start : st.Knows first
  turn : Leads names.Callable (st.enter first) st'
  step : st'.Knows increment ∧ increment < st'.body.regCount
  finish : st'.Knows goOn ∧ goOn < st'.body.regCount
  grows : (st'.close st.body.blocks.length st.body.slots.length increment goOn).body.Grows body

namespace LoopCode

variable {scope : Scope} {st st' : Stage} {first increment goOn : Reg} {loopVar : String}
  {vars : Bindings}

theorem enters (code : LoopCode names body scope st st' first increment goOn) :
    Leads names.Callable st (st.enter first) :=
  code.sound.enter code.start

theorem slot_lt (code : LoopCode names body scope st st' first increment goOn) :
    st.body.slots.length < st'.body.slots.length :=
  Nat.lt_of_lt_of_le (st.slot_lt_enter first) code.turn.grows.slots_le

theorem admits (code : LoopCode names body scope st st' first increment goOn) :
    st'.Admits { target := st.body.blocks.length, args := [] } :=
  code.sound.admits_loop code.start code.turn

theorem closes (code : LoopCode names body scope st st' first increment goOn) :
    Leads names.Callable st'
      (st'.close st.body.blocks.length st.body.slots.length increment goOn) :=
  code.turn.sound.close code.slot_lt code.step.1 code.finish.1 code.admits

theorem grows_turn (code : LoopCode names body scope st st' first increment goOn) :
    st'.body.Grows body :=
  code.closes.grows.trans code.grows

theorem grows_enter (code : LoopCode names body scope st st' first increment goOn) :
    (st.enter first).body.Grows body :=
  code.turn.grows.trans code.grows_turn

/-- Behind the end condition the variable is raised, and the loop is started again or left. -/
theorem ends_turn (code : LoopCode names body scope st st' first increment goOn) {x : Float}
    {s s' : Store} (hx : InTurn scope loopVar st.body.slots.length vars x s)
    (hKeeps : Keeps (st.enter first).builder s s') :
    ∃ s'', Keeps st.builder s s'' ∧
      InTurn scope loopVar st.body.slots.length vars (x + s'.regs increment) s'' ∧
      s''.calls = s'.calls ∧
      if countsAsTrue (s'.regs goOn) then ∃ n, 0 < n ∧
        ArrivesIn c body n st'.builder s' (st.enter first).builder s''
      else Arrives c body st'.builder s'
        (st'.close st.body.blocks.length st.body.slots.length increment goOn).builder s'' := by
  obtain ⟨s'', hRegs, hSlots, hCalls, hNext⟩ := arrives_close (c := c) code.turn.sound code.slot_lt
    code.step.1 code.step.2 code.finish.1 code.finish.2 code.admits code.grows
    (code.sound.params_enter code.start code.grows_enter) (length_place st first)
    (code.sound.instrs_enter code.start) s'
  have hBefore := hKeeps.of_grows code.enters.grows
  have hOuter : Keeps st.builder s s'' := by
    refine ⟨fun r hr => ?_, fun slot hLt => ?_⟩
    · have hLt := Nat.lt_of_lt_of_le hr (code.enters.trans code.turn).grows.regCount_le
      rw [hRegs r hLt, hBefore.regs r hr]
    · rw [hSlots, if_neg (Nat.ne_of_lt hLt), hBefore.slots slot hLt]
  obtain ⟨hHead, hTail⟩ := List.cons.inj hx
  refine ⟨s'', hOuter, ?_, hCalls, hNext⟩
  show (loopVar, s''.slots st.body.slots.length) :: scope.values s'' = _
  rw [hSlots, if_pos rfl, hKeeps.slots _ (st.slot_lt_enter first), code.inBody.values_eq hOuter]
  exact congrArg₂ List.cons
    (congrArg (fun y => (loopVar, y + s'.regs increment)) (Prod.mk.inj hHead).2) hTail

/-- The code of a loop simulates the repetition of its turns, if the code between its start and its
end condition simulates one turn. -/
theorem simulates (code : LoopCode names body scope st st' first increment goOn)
    {finish turnBody : Expr} {step : Option Expr}
    (hTurn : ∀ s, Simulates c body (st.enter first).builder st'.builder s
      (fun s' (p : Float × Float) => s'.regs increment = p.1 ∧ s'.regs goOn = p.2)
      (TurnComesTo names c.answers finish step turnBody
        (Scope.values ((loopVar, st.body.slots.length) :: scope) s) s.calls)) (s : Store) :
    Simulates c body st.builder
      (st'.close st.body.blocks.length st.body.slots.length increment goOn).builder s
      (fun _ (_ : Unit) => True) fun _ after =>
        Repeats (loopTurn names c.answers loopVar finish step turnBody (scope.values s))
          (s.regs first) s.calls after := by
  have hForward : ∀ x s₂, InTurn scope loopVar st.body.slots.length (scope.values s) x s₂ →
      ∀ raised goesOn after,
      loopTurn names c.answers loopVar finish step turnBody (scope.values s) x s₂.calls raised
        goesOn after →
      ∃ s', Keeps st.builder s₂ s' ∧
        InTurn scope loopVar st.body.slots.length (scope.values s) raised s' ∧ s'.calls = after ∧
        if goesOn then ∃ n, 0 < n ∧
          ArrivesIn c body n (st.enter first).builder s₂ (st.enter first).builder s'
        else Arrives c body (st.enter first).builder s₂
          (st'.close st.body.blocks.length st.body.slots.length increment goOn).builder s' := by
    intro x s₂ hx raised goesOn after hLoop
    obtain ⟨p, hp, rfl, rfl⟩ := loopTurn_iff.mp hLoop
    rw [← hx] at hp
    obtain ⟨s₄, hKeeps₄, ⟨hStep, hFinish⟩, hCalls₄, n, hTo₄⟩ := (hTurn s₂).forward p after hp
    obtain ⟨s', hKeeps, hRaised, hCalls, hNext⟩ := code.ends_turn (c := c) hx hKeeps₄
    rw [hStep] at hRaised
    rw [hFinish] at hNext
    refine ⟨s', hKeeps, hRaised, hCalls.trans hCalls₄, ?_⟩
    cases hTaken : countsAsTrue p.2 with
    | true =>
      rw [hTaken] at hNext
      obtain ⟨m, hPos, hBack⟩ := hNext
      exact ⟨m + n, by omega, hTo₄.trans hBack⟩
    | false =>
      rw [hTaken] at hNext
      exact Arrives.trans ⟨n, hTo₄⟩ hNext
  have hBackward : ∀ x s₂, InTurn scope loopVar st.body.slots.length (scope.values s) x s₂ →
      ∀ count, Halts c body count (st.enter first).builder s₂ → ∃ raised goesOn after,
        loopTurn names c.answers loopVar finish step turnBody (scope.values s) x s₂.calls raised
          goesOn after := by
    intro x s₂ hx count hHalts
    obtain ⟨p, after, hp⟩ := (hTurn s₂).backward count hHalts
    rw [hx] at hp
    exact ⟨_, _, after, loopTurn_iff.mpr ⟨p, hp, rfl, rfl⟩⟩
  obtain ⟨s₂, hArrives, hKeeps₂, hValue, hCalls⟩ :=
    arrives_enter code.sound code.start code.grows_enter s
  have hx : InTurn scope loopVar st.body.slots.length (scope.values s) (s.regs first) s₂ := by
    show (loopVar, s₂.slots st.body.slots.length) :: scope.values s₂ = _
    rw [hValue, code.inBody.values_eq hKeeps₂]
  rw [← hCalls]
  exact repeats_simulates hForward hBackward hArrives hKeeps₂ hx

end LoopCode

theorem simulated_forLoop {loopVar : String} {start finish turnBody : Expr} {step : Option Expr}
    (ihStart : Simulated names c body start) (ihFinish : Simulated names c body finish)
    (ihStep : ∀ e, step = some e → Simulated names c body e)
    (ihBody : Simulated names c body turnBody) :
    Simulated names c body (.forLoop loopVar start finish step turnBody) := by
  intro scope st r b' hSound hScope hRun hGrows s
  obtain ⟨first, b₁, unused, b₂, increment, b₃, goOn, b₄, hStart, hBody, hStep, hFinish, rfl,
    rfl⟩ := compute_forLoop_ok hRun
  obtain ⟨st₁, rfl, hLeads₁, hFirst, -⟩ := compute_leads names start hSound hScope hStart
  have hScope₁ := hScope.grows hLeads₁.grows
  have hEnter := hLeads₁.sound.enter hFirst
  have hInner := hScope₁.inner_enter loopVar first hEnter.grows
  rw [← builder_enter] at hBody
  obtain ⟨st₄, rfl, hTurn, hIncrement, hGoOn⟩ := turn_leads (compute_leads names turnBody)
    (fun e _ => compute_leads names e) (compute_leads names finish) hEnter.sound hInner hBody hStep
    hFinish
  have hClose := hTurn.sound.close
    (Nat.lt_of_lt_of_le (st₁.slot_lt_enter first) hTurn.grows.slots_le) hIncrement.1 hGoOn.1
    (hLeads₁.sound.admits_loop hFirst hTurn)
  have hWrite := (hClose.sound.write (i := .const (st₄.body.regCount + 2) 0.0) rfl
    (fun r hr => absurd hr List.not_mem_nil) trivial).1
  have code : LoopCode names body scope st₁ st₄ first increment goOn :=
    ⟨hLeads₁.sound, hScope₁, hFirst, hTurn, hIncrement, hGoOn, hWrite.grows.trans hGrows⟩
  -- Behind the loop its value, zero, is written.
  have hLast : ∀ (_ : Unit) middle s₃, s₃.calls = middle → Simulates c body
      (st₄.close st₁.body.blocks.length st₁.body.slots.length increment goOn).builder
      ((st₄.close st₁.body.blocks.length st₁.body.slots.length increment goOn).builder.write
        (.const (st₄.body.regCount + 2) 0.0)) s₃ (Holds (st₄.body.regCount + 2))
      fun z after => z = 0.0 ∧ after = middle := by
    rintro _ _ s₃ rfl
    exact simulates_write hClose.sound (i := .const (st₄.body.regCount + 2) 0.0) rfl rfl rfl hGrows
      rfl
  have hNext : ∀ v middle s₁, Evaluates names c.answers start (scope.values s) s.calls v middle →
      Keeps st.builder s s₁ → Holds first s₁ v → s₁.calls = middle →
      Simulates c body st₁.builder
        ((st₄.close st₁.body.blocks.length st₁.body.slots.length increment goOn).builder.write
          (.const (st₄.body.regCount + 2) 0.0)) s₁ (Holds (st₄.body.regCount + 2)) fun z after =>
        z = 0.0 ∧ Repeats (loopTurn names c.answers loopVar finish step turnBody (scope.values s)) v
          middle after := by
    rintro _ _ s₁ - hKeeps rfl rfl
    have hLoop := code.simulates (fun s₂ => turn_simulates ihFinish ihStep ihBody hEnter.sound
      hInner hBody hStep hFinish code.grows_turn s₂) s₁
    rw [hScope.values_eq hKeeps] at hLoop
    refine (hLoop.bind (hEnter.grows.trans (hTurn.grows.trans hClose.grows))
      fun u middle s₃ _ _ _ hCalls₃ => hLast u middle s₃ hCalls₃).congr fun z after => ?_
    constructor
    · rintro ⟨hz, hRepeats⟩
      exact ⟨(), after, hRepeats, hz, rfl⟩
    · rintro ⟨_, _, hRepeats, hz, rfl⟩
      exact ⟨hz, hRepeats⟩
  have hHead := ihStart hSound hScope hStart (hEnter.grows.trans code.grows_enter) s
  refine (hHead.bind hLeads₁.grows hNext).congr fun z after => ?_
  rw [evaluates_forLoop]

/-- The code of an expression simulates its evaluation. -/
theorem compute_simulates (e : Expr) : Simulated names c body e := by
  induction e using Expr.induction with
  | number value => exact simulated_number value
  | var name => exact simulated_variable name
  | binary op left right ihLeft ihRight => exact simulated_binary ihLeft ihRight
  | call name args ih => exact simulated_call ih
  | ifThenElse condition onTrue onFalse ihCondition ihTrue ihFalse =>
    exact simulated_ifThenElse ihCondition ihTrue ihFalse
  | forLoop loopVar start finish step turnBody ihStart ihFinish ihStep ihBody =>
    exact simulated_forLoop ihStart ihFinish ihStep ihBody

end Lowering

end LiveCompiler
