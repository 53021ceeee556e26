import LiveCompiler.Proofs.Ir.Run

/-!
# Logs of calls

A log lists the calls of a run with what each of them came to.  A body returns a value under a log
(`Body.Logs`) if it makes the calls of the log, and no others, when each of them is given the value
that the log has for it.  This is what a body returns under the answers that are read off the log
(`Body.logs_iff_returns`): an answer may depend on the calls before it, so their number is enough
to find its place.
-/

namespace LiveCompiler

namespace Ir

/-- A call, the value that it was given, and what was written to the host output on the way. -/
structure Answered where
  call : Call
  value : Float
  output : List UInt8

/-- A frame returns a value when its calls are answered as a log says. -/
inductive Frame.Logs : Frame → Float → List Answered → Prop
  | returned {frame : Frame} {x : Float} (stop : frame.step = .returned x) : Logs frame x []
  | next {frame after : Frame} {x : Float} {log : List Answered}
      (step : frame.step = .next after) (rest : Logs after x log) : Logs frame x log
  | call {frame after : Frame} {x : Float} {log : List Answered} {dst : Reg}
      (first : Answered) (step : frame.step = .call first.call.callee first.call.args dst after)
      (rest : Logs (after.write dst first.value) x log) : Logs frame x (first :: log)

/-- A body, started on arguments, returns a value when its calls are answered as a log says. -/
def Body.Logs (body : Body) (args : List Float) (x : Float) (log : List Answered) : Prop :=
  Frame.Logs (Frame.start body args) x log

/-- The calls of a log. -/
def callsOf (log : List Answered) : List Call :=
  log.map Answered.call

/-- The answers of a log, one after another. -/
def answersOf (log : List Answered) : Answers :=
  fun before _ => (log.map Answered.value).getD before.length 0.0

theorem answersOf_append_cons (before log : List Answered) (first : Answered) (call : Call) :
    answersOf (before ++ first :: log) (callsOf before) call = first.value := by
  simp [answersOf, callsOf]

namespace Frame

variable {frame : Frame} {x : Float} {log : List Answered}

theorem Logs.returns (h : frame.Logs x log) : ∀ before : List Answered,
    frame.Returns (answersOf (before ++ log)) (callsOf before) x (callsOf (before ++ log)) := by
  induction h with
  | returned hStop =>
    intro before
    rw [List.append_nil]
    exact .returned hStop
  | next hStep _ ih => exact fun before => .next hStep (ih before)
  | @call _ _ _ log _ first hStep _ ih =>
    intro before
    refine .call hStep ?_
    rw [answersOf_append_cons]
    have hRest := ih (before ++ [first])
    rw [List.append_assoc, List.singleton_append] at hRest
    rwa [callsOf, List.map_append] at hRest

/-- The calls made before are the first of those made in all. -/
theorem Returns.isPrefix {answers : Answers} {calls all : List Call}
    (h : frame.Returns answers calls x all) : calls <+: all := by
  induction h with
  | returned _ => exact List.prefix_rfl
  | next _ _ ih => exact ih
  | call _ _ ih => exact (List.prefix_append _ _).trans ih

theorem Returns.logs {answers : Answers} {calls all : List Call}
    (h : frame.Returns answers calls x all) :
    ∀ before log : List Answered, answers = answersOf (before ++ log) →
      calls = callsOf before → all = callsOf (before ++ log) → frame.Logs x log := by
  induction h with
  | returned hStop =>
    rintro before log - rfl hAll
    rw [callsOf, callsOf, List.map_append, List.self_eq_append_right, List.map_eq_nil_iff] at hAll
    subst hAll
    exact .returned hStop
  | next hStep _ ih =>
    exact fun before log hAnswers hCalls hAll => .next hStep (ih before log hAnswers hCalls hAll)
  | @call _ _ frame after _ callee args dst hStep hRest ih =>
    rintro before log rfl rfl rfl
    have hPrefix := hRest.isPrefix
    rw [callsOf, callsOf, List.map_append, List.prefix_append_right_inj] at hPrefix
    cases log with
    | nil => simp at hPrefix
    | cons first log =>
      obtain ⟨hCall, -⟩ := List.cons_prefix_cons.mp hPrefix
      have hFirst : frame.step = .call first.call.callee first.call.args dst after := by
        rw [← hCall]
        exact hStep
      refine .call first hFirst ?_
      rw [answersOf_append_cons] at ih
      have hWhole : before ++ first :: log = before ++ [first] ++ log := by simp
      refine ih (before ++ [first]) log (congrArg _ hWhole) ?_ (congrArg _ hWhole)
      rw [hCall, callsOf, callsOf, List.map_append, List.map_singleton]

end Frame

/-- What a body returns under a log is what it returns under the answers of the log. -/
theorem Body.logs_iff_returns (body : Body) (args : List Float) (x : Float)
    (log : List Answered) :
    body.Logs args x log ↔ body.Returns (answersOf log) args x (callsOf log) :=
  ⟨fun h => h.returns [], fun h => h.logs [] log rfl rfl rfl⟩

end Ir

end LiveCompiler
