import LiveCompiler.Proofs.Ir.Log
import LiveCompiler.Proofs.Program.Mirror
import LiveCompiler.Proofs.Program.Safety

/-!
# What calls come to

A machine does the steps of a call between those of its caller.  `CodeTable.Comes` says in one
piece what a call comes to: a host function computes, and other code returns a value under a log
whose calls come to what the log says.  `CodeTable.Gives` says so of code that is started without
arguments.

Both views agree.  If a machine ends with a value, then the frame that it runs has returned under a
log, and its callers went on from there (`exists_log_of_run`); and where calls come to something, a
machine gets there in some number of steps, whoever waits for it (`Comes.done`).  So code ends with
a value if and only if it gives one, and all limits from some bound on do for it (`gives_of_run`,
`Gives.run`).
-/

namespace LiveCompiler

open Ir

/-- What a frame calls that stands inside of a body is called by the body. -/
theorem Ir.Frame.Inside.mem_calleesOf_of_logs {body : Body} {frame : Frame} {label : Label}
    {x : Float} {log : List Answered} (h : frame.Inside body label) (hLogs : frame.Logs x log) :
    ∀ a ∈ log, a.call.callee ∈ calleesOf body := by
  induction hLogs generalizing label with
  | returned _ => exact nofun
  | next hNext _ ih =>
    rcases h.step_cases with ⟨_, hStep⟩ | ⟨_, target, hStep, hAfter⟩ | ⟨_, _, _, _, hStep, -⟩ |
      ⟨hStep, -⟩ <;> rw [hNext] at hStep <;> cases hStep
    exact ih hAfter
  | call first hCall _ ih =>
    rcases h.step_cases with ⟨_, hStep⟩ | ⟨_, _, hStep, -⟩ | ⟨_, _, _, _, hStep, hMem, hAfter⟩ |
      ⟨hStep, -⟩ <;> rw [hCall] at hStep <;> cases hStep
    intro a ha
    rcases List.mem_cons.mp ha with rfl | ha
    · exact hMem
    · exact ih (hAfter.write _ _) a ha

/-- What was written over a log. -/
def Ir.outputOf (log : List Answered) : List UInt8 :=
  log.flatMap Answered.output

theorem Ir.append_outputOf_cons (output : Array UInt8) (first : Answered) (log : List Answered) :
    output ++ (outputOf (first :: log)).toArray =
      output ++ first.output.toArray ++ (outputOf log).toArray := by
  rw [outputOf, List.flatMap_cons, ← List.append_toArray, Array.append_assoc]
  rfl

/-- What a call of some code comes to: a value, and what is written on the way. -/
inductive CodeTable.Comes (table : CodeTable) : Code → Call → Float → List UInt8 → Prop
  | host {caller : Code} {call : Call} {h : HostFunction}
      (callee : table.callee? caller call.callee = some (.host h)) :
      Comes table caller call (h.value call.args) (h.output call.args)
  | code {caller code : Code} {call : Call} {x : Float} {log : List Answered}
      (callee : table.callee? caller call.callee = some (.code code))
      (logs : code.body.Logs call.args x log)
      (answers : ∀ a ∈ log, Comes table code a.call a.value a.output) :
      Comes table caller call x (outputOf log)

/-- What code gives that is started without arguments. -/
def CodeTable.Gives (table : CodeTable) (code : Code) (x : Float) (output : List UInt8) : Prop :=
  ∃ log, code.body.Logs [] x log ∧ (∀ a ∈ log, table.Comes code a.call a.value a.output) ∧
    output = outputOf log

namespace Machine

variable {table : CodeTable} {m : Machine} {code : Code} {x y : Float}
  {output final : Array UInt8}

/-- Hand a value to the innermost caller and go on. -/
def resume (table : CodeTable) (limit : Nat) (callers : List Caller) (output : Array UInt8)
    (x : Float) : RunEnd × Array UInt8 :=
  match giveBack callers output x with
  | .inl m => m.run table limit
  | .inr ended => ended

/-! ## From steps to logs -/

/-- If a machine ends with a value, then its frame has returned under a log, and its callers have
gone on with what it returned. -/
theorem exists_log_of_run (limit : Nat) : ∀ {m : Machine},
    m.run table limit = (.value y, final) →
    ∃ x log rest, rest < limit ∧ m.frame.Logs x log ∧
      (∀ a ∈ log, table.Comes m.code a.call a.value a.output) ∧
      resume table rest m.callers (m.output ++ (outputOf log).toArray) x = (.value y, final) := by
  -- A call of code is a run of its own, and what its caller does after it is one more: both are
  -- shorter than the whole.
  induction limit using Nat.strong_induction_on with
  | _ limit ih =>
    rintro ⟨code, frame, callers, output⟩ hRun
    cases limit with
    | zero => cases hRun
    | succ limit =>
      rw [run, step] at hRun
      dsimp only at hRun ⊢
      cases hStep : frame.step with
      | returned x =>
        rw [hStep] at hRun
        refine ⟨x, [], limit, Nat.lt_succ_self limit, .returned hStep,
          fun _ ha => absurd ha List.not_mem_nil, ?_⟩
        rw [outputOf, List.flatMap_nil, Array.append_empty]
        exact hRun
      | trapped =>
        rw [hStep] at hRun
        cases hRun
      | next after =>
        rw [hStep] at hRun
        obtain ⟨x, log, rest, hLt, hLogs, hAnswers, hRest⟩ := ih limit (Nat.lt_succ_self _) hRun
        exact ⟨x, log, rest, Nat.lt_succ_of_lt hLt, .next hStep hLogs, hAnswers, hRest⟩
      | call callee args dst after =>
        rw [hStep] at hRun
        dsimp only at hRun
        cases hCallee : table.callee? code callee with
        | none =>
          rw [hCallee] at hRun
          cases hRun
        | some target =>
          cases target with
          | host h =>
            rw [hCallee] at hRun
            obtain ⟨x, log, rest, hLt, hLogs, hAnswers, hRest⟩ := ih limit (Nat.lt_succ_self _) hRun
            let first : Answered := ⟨⟨callee, args⟩, h.value args, h.output args⟩
            refine ⟨x, first :: log, rest, Nat.lt_succ_of_lt hLt, .call first hStep hLogs,
              List.forall_mem_cons.mpr ⟨.host hCallee, hAnswers⟩, ?_⟩
            rw [append_outputOf_cons]
            exact hRest
          | code next =>
            rw [hCallee] at hRun
            obtain ⟨x, inner, mid, hMid, hInner, hComes, hBack⟩ :=
              ih limit (Nat.lt_succ_self _) hRun
            obtain ⟨z, log, rest, hLt, hLogs, hAnswers, hRest⟩ :=
              ih mid (Nat.lt_succ_of_lt hMid) hBack
            let first : Answered := ⟨⟨callee, args⟩, x, outputOf inner⟩
            refine ⟨z, first :: log, rest, Nat.lt_succ_of_lt (Nat.lt_trans hLt hMid),
              .call first hStep hLogs,
              List.forall_mem_cons.mpr ⟨.code hCallee hInner hComes, hAnswers⟩, ?_⟩
            rw [append_outputOf_cons]
            exact hRest

/-- Code that ends with a value gives it. -/
theorem gives_of_run {limit : Nat} (h : run table limit (.start code) = (.value y, final)) :
    table.Gives code y final.toList := by
  obtain ⟨x, log, rest, -, hLogs, hAnswers, hEnd⟩ := exists_log_of_run limit h
  obtain ⟨hValue, rfl⟩ := Prod.mk.inj hEnd
  obtain rfl := RunEnd.value.inj hValue
  exact ⟨log, hLogs, hAnswers, congrArg Array.toList Array.empty_append⟩

/-! ## From logs to steps -/

/-- What a call comes to is what a machine does in some number of steps. -/
def Done (table : CodeTable) (code : Code) (call : Call) (x : Float) (written : List UInt8) :
    Prop :=
  ∃ steps, ∀ (frame after : Frame) (dst : Reg) (callers : List Caller) (output : Array UInt8)
    (limit : Nat), frame.step = .call call.callee call.args dst after →
      run table (steps + limit) ⟨code, frame, callers, output⟩ =
        run table limit ⟨code, after.write dst x, callers, output ++ written.toArray⟩

/-- A frame that returns under a log of calls that a machine does is left after some number of
steps. -/
theorem exists_steps_of_logs {frame : Frame} {log : List Answered} (h : frame.Logs x log)
    (hDone : ∀ a ∈ log, Done table code a.call a.value a.output) :
    ∃ steps, ∀ (callers : List Caller) (output : Array UInt8) (limit : Nat),
      run table (steps + limit) ⟨code, frame, callers, output⟩ =
        resume table limit callers (output ++ (outputOf log).toArray) x := by
  induction h with
  | returned hStep =>
    refine ⟨1, fun callers output limit => ?_⟩
    rw [Nat.add_comm, run, step, outputOf, List.flatMap_nil, Array.append_empty, hStep]
    rfl
  | next hStep _ ih =>
    obtain ⟨steps, hRun⟩ := ih hDone
    refine ⟨steps + 1, fun callers output limit => ?_⟩
    rw [Nat.add_right_comm, run, step, hStep]
    exact hRun callers output limit
  | call first hStep _ ih =>
    obtain ⟨steps, hRun⟩ := ih fun a ha => hDone a (List.mem_cons_of_mem first ha)
    obtain ⟨before, hFirst⟩ := hDone first List.mem_cons_self
    refine ⟨before + steps, fun callers output limit => ?_⟩
    rw [Nat.add_assoc, hFirst _ _ _ callers output _ hStep, hRun, append_outputOf_cons]

end Machine

namespace CodeTable

variable {table : CodeTable} {code : Code} {x : Float} {written : List UInt8}

open Machine

/-- A machine does what a call comes to. -/
theorem Comes.done {call : Call} (h : table.Comes code call x written) :
    Done table code call x written := by
  induction h with
  | host hCallee =>
    refine ⟨1, fun frame after dst callers output limit hStep => ?_⟩
    rw [Nat.add_comm, run, step, hStep]
    dsimp only
    rw [hCallee]
  | code hCallee hLogs _ ih =>
    obtain ⟨steps, hRun⟩ := exists_steps_of_logs hLogs ih
    refine ⟨steps + 1, fun frame after dst callers output limit hStep => ?_⟩
    rw [Nat.add_right_comm, run, step, hStep]
    dsimp only
    rw [hCallee]
    exact hRun _ _ _

/-- Code that gives a value ends with it, under any limit from some bound on. -/
theorem Gives.run (h : table.Gives code x written) :
    ∃ bound, ∀ limit, bound ≤ limit →
      Machine.run table limit (.start code) = (.value x, written.toArray) := by
  obtain ⟨log, hLogs, hAnswers, rfl⟩ := h
  obtain ⟨steps, hRun⟩ := exists_steps_of_logs hLogs fun a ha => (hAnswers a ha).done
  refine ⟨steps, fun limit hLe => ?_⟩
  obtain ⟨more, rfl⟩ := Nat.exists_eq_add_of_le hLe
  have hEnd := hRun [] #[] more
  rw [Array.empty_append] at hEnd
  exact hEnd

/-- Code gives one value only. -/
theorem Gives.unique {y : Float} {others : List UInt8} (h : table.Gives code x written)
    (hOther : table.Gives code y others) : x = y ∧ written = others := by
  obtain ⟨bound, hRun⟩ := h.run
  obtain ⟨otherBound, hOtherRun⟩ := hOther.run
  have hSame := (hRun _ (Nat.le_max_left bound otherBound)).symm.trans
    (hOtherRun _ (Nat.le_max_right bound otherBound))
  obtain ⟨hValue, hWritten⟩ := Prod.mk.inj hSame
  exact ⟨RunEnd.value.inj hValue, List.toArray_inj hWritten⟩

end CodeTable

/-! ## Code that stands in for other code -/

/-- A body that can take the place of another one: it returns the same under the same logs, and
calls nothing else. -/
structure Ir.Body.Replaces (better body : Body) : Prop where
  logs : ∀ {args x log}, body.Logs args x log → better.Logs args x log
  calleesOf : ∀ f ∈ calleesOf better, f ∈ calleesOf body

/-- A relation of code on two sides under which the other side stands in: its bodies take the
place of those on this side, and what they call ends up in related code. -/
structure CodeTable.StandsIn (table better : CodeTable) (same : Code → Code → Prop) : Prop where
  body : ∀ {code other}, same code other → other.body.Replaces code.body
  callee : ∀ {code other}, same code other → ∀ f ∈ calleesOf other.body,
    Callee.Related same (table.callee? code f) (better.callee? other f)

namespace CodeTable

variable {table better : CodeTable} {same : Code → Code → Prop} {code other : Code} {x : Float}
  {written : List UInt8}

theorem mem_calleesOf_of_logs {body : Body} {args : List Float} {log : List Answered}
    (h : body.Logs args x log) : ∀ a ∈ log, a.call.callee ∈ calleesOf body :=
  (Frame.inside_start body args).mem_calleesOf_of_logs h

/-- A call comes to the same on the side that stands in, if it ends up in related code. -/
theorem Comes.standsIn (hSides : table.StandsIn better same) {call : Call}
    (h : table.Comes code call x written) : ∀ {other : Code},
    Callee.Related same (table.callee? code call.callee) (better.callee? other call.callee) →
    better.Comes other call x written := by
  induction h with
  | host hCallee =>
    intro other hRelated
    rw [hCallee] at hRelated
    generalize hOther : better.callee? other _ = target at hRelated
    cases hRelated
    exact .host hOther
  | code hCallee hLogs _ ih =>
    intro other hRelated
    rw [hCallee] at hRelated
    generalize hOther : better.callee? other _ = target at hRelated
    cases hRelated with
    | code hNext =>
      have hBetter := (hSides.body hNext).logs hLogs
      exact .code hOther hBetter fun a ha =>
        ih a ha (hSides.callee hNext _ (mem_calleesOf_of_logs hBetter a ha))

/-- Code gives the same on the side that stands in. -/
theorem Gives.standsIn (hSides : table.StandsIn better same) (hSame : same code other)
    (h : table.Gives code x written) : better.Gives other x written := by
  obtain ⟨log, hLogs, hAnswers, hWritten⟩ := h
  have hBetter := (hSides.body hSame).logs hLogs
  exact ⟨log, hBetter, fun a ha => (hAnswers a ha).standsIn hSides
    (hSides.callee hSame _ (mem_calleesOf_of_logs hBetter a ha)), hWritten⟩

end CodeTable

end LiveCompiler
