import LiveCompiler.Ir.Frame
import LiveCompiler.Program.Backend

/-!
# Running compiled functions

A machine runs a frame of some code and keeps the frames of its callers.  A call ends up
where the calling code was linked: in other code, or in a host function, which may write to
the host output.

A run may take any number of steps, so it is given a limit.  A run that reaches the limit
is told apart from one that ends.
-/

namespace LiveCompiler

open Ir

/-- A caller that waits for the result of a call. -/
structure Caller where
  dst : Reg
  code : Code
  frame : Frame

/-- The state of a run. -/
structure Machine where
  /-- The code that is running. -/
  code : Code
  frame : Frame
  /-- The callers, the innermost first. -/
  callers : List Caller
  /-- What has been written to the host output. -/
  output : Array UInt8

/-- How a run ends. -/
inductive RunEnd where
  | value (x : Float)
  /-- The run came to a place that is not to be reached. -/
  | trapped
  /-- The run was cut off at its limit. -/
  | unfinished

/-- What a call runs. -/
inductive Callee where
  | code (code : Code)
  | host (h : HostFunction)

/-- What a call runs that is done by some code. -/
def CodeTable.callee? (table : CodeTable) (caller : Code) (f : FuncId) : Option Callee :=
  match caller.target? f with
  | some (.code target) => (table.code? target).map .code
  | some (.host h) => some (.host h)
  | none => none

namespace Machine

/-- Start code without arguments. -/
def start (code : Code) : Machine where
  code := code
  frame := Frame.start code.body []
  callers := []
  output := #[]

/-- Hand a value to the innermost caller, or end the run. -/
def giveBack (callers : List Caller) (output : Array UInt8) (x : Float) :
    Machine ⊕ (RunEnd × Array UInt8) :=
  match callers with
  | caller :: rest =>
    .inl
      { code := caller.code
        frame := caller.frame.write caller.dst x
        callers := rest
        output := output }
  | [] => .inr (.value x, output)

/-- Do one step. -/
def step (table : CodeTable) (m : Machine) : Machine ⊕ (RunEnd × Array UInt8) :=
  match m with
  | { code, frame, callers, output } =>
    match frame.step with
    | .next frame => .inl { code := code, frame := frame, callers := callers, output := output }
    | .returned x => giveBack callers output x
    | .trapped => .inr (.trapped, output)
    | .call f args dst frame =>
      match table.callee? code f with
      | some (.code callee) =>
        .inl
          { code := callee
            frame := Frame.start callee.body args
            callers := { dst := dst, code := code, frame := frame } :: callers
            output := output }
      | some (.host h) =>
        .inl
          { code := code
            frame := frame.write dst (h.value args)
            callers := callers
            output := output ++ (h.output args).toArray }
      | none => .inr (.trapped, output)

/-- Do at most so many steps. -/
def run (table : CodeTable) : Nat → Machine → RunEnd × Array UInt8
  | 0, m => (.unfinished, m.output)
  | limit + 1, m =>
    match m.step table with
    | .inl next => run table limit next
    | .inr ended => ended

end Machine

/-- What running a function comes to. -/
structure Invocation where
  result : Except CodeError RunEnd
  output : List UInt8

namespace Backend

/-- The code of a function that is ready to run. -/
def readyCode? (backend : Backend) (f : FuncId) : Option Code :=
  if backend.isReady f then backend.table.code? f else none

/-- Run a function that is ready for at most so many steps. -/
def invoke (backend : Backend) (limit : Nat) (runnable : Runnable) : Invocation :=
  let f := runnable.func
  match backend.readyCode? f with
  | some code =>
    if code.body.arity = 0 then
      let (ended, output) := Machine.run backend.table limit (Machine.start code)
      { result := .ok ended, output := output.toList }
    else { result := .error (.invalid (.takesArguments f code.body.arity)), output := [] }
  | none => { result := .error (.invalid (.notCompiled f)), output := [] }

end Backend

end LiveCompiler
