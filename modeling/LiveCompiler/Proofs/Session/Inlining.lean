import LiveCompiler.Proofs.Lowering.Correctness
import LiveCompiler.Proofs.Lowering.Substituted
import LiveCompiler.Proofs.Program.Enclosed
import LiveCompiler.Proofs.Session.Improvement

/-!
# Calls and their bodies

A function is defined and called with arithmetic arguments (`Session.handleCall`), or its body is
evaluated as a bare expression, with the arguments in the place of the parameters
(`Session.handleBare`).  From the same session both come to the same value and write the same
(`handleCall_eq_handleBare`).

The two ways differ in all but what is evaluated.  One goes through slots and a call, the other one
repeats the arguments; the images differ by the definition, and what is made ready by the wrappers.
So both are brought down to what they evaluate to: the body under bindings of the parameters
evaluates as it does with the arguments in their place, after calls of the same functions
(`Lowering.Evaluates.substitute`).  And these come to the same in both sessions, as they belong to
a part of the image that is linked before the definition (`Session.Linked`).

The index of a parameter has sixteen bits, so a parameter behind the first 65536 ones would read the
argument of another one.
-/

namespace LiveCompiler

open Ir Lowering

namespace Session

variable {config : Config} {s : Session} {procedure : Procedure} {lowered : Body} {e : Expr}
  {x y : Float}

/-! ## What an expression leads to -/

/-- An expression leads to a function: a name that it calls stands for one that leads there. -/
def LeadsTo (s : Session) (e : Expr) (g : FuncId) : Prop :=
  ∃ name ∈ e.callees, ∃ binding, s.symbols.lookup name = some binding ∧
    s.backend.Reaches s.image binding.func g

/-- Every declaration that an expression leads to has a link. -/
def Linked (s : Session) (e : Expr) : Prop :=
  ∀ d decl, s.LeadsTo e d → s.image.get? d = some decl → decl.body = none →
    ∃ link, s.backend.links.lookup d = some link

theorem Linked.enclosed (h : s.Linked e) (hSound : s.Sound) :
    s.backend.Enclosed s.image (s.LeadsTo e) where
  inImage := by
    rintro g ⟨name, -, binding, hLookup, hReaches⟩
    obtain ⟨entry, hGet, -⟩ := hSound.bound hLookup
    exact hSound.coherent.get?_of_reaches hSound.image.sound hGet hReaches
  leads := by
    rintro f g ⟨name, hName, binding, hLookup, hReaches⟩ hLeads
    exact ⟨name, hName, binding, hLookup, hReaches.tail hLeads⟩
  linked hd hGet hBody := h _ _ hd hGet hBody

/-! ## Kept bodies and their runs -/

/-- A kept body returns what the expression of its procedure evaluates to. -/
theorem logs_kept_iff {name : String} {this : FuncId} {kind : FunctionKind} {symbols : Symbols}
    (s : Session) (hLower : lowerProcedure procedure name this kind symbols = .ok lowered)
    (hSmall : procedure.signature.arity ≤ 65536) {args : List Float}
    (hArgs : args.length = procedure.signature.arity) (log : List Answered) :
    (s.kept lowered).Logs args x log ↔
      Evaluates (namesFor procedure this kind symbols) (answersOf log) procedure.body
        (argumentBindings procedure args) [] x (callsOf log) := by
  have hWf := lowerProcedure_wellFormed hLower
  rw [lowerProcedure_yields_iff (c := { args := args, answers := answersOf log }) hLower hSmall hArgs,
    ← Body.returns_iff_yields hWf.regsBounded, Body.logs_iff_returns]
  unfold kept
  split
  · exact optimize_returns_iff hWf (lowerProcedure_inTable hLower) _ _ _ _
  · exact Iff.rfl

/-- A bare expression that comes to a value was lowered, and its wrapper made ready; the value and
what was written are what the code of the wrapper gives. -/
theorem Sound.exists_gives (h : s.Sound) (hPlain : procedure.signature.params = [])
    (hValue : (s.handle (.expression procedure)).result = .ok (.evaluated x)) :
    ∃ lowered after code, s.lowerWrapper procedure = .ok lowered ∧
      s.backend.Continues s.image after (s.image.push (s.wrapperEntry lowered)) ∧
      after.CodeFits (s.kept lowered) code ∧
      after.table.Gives code x (s.handle (.expression procedure)).output := by
  have hHandles := s.handles (.expression procedure)
  generalize s.handle (.expression procedure) = handled at hHandles hValue ⊢
  cases hHandles with
  | refused => cases hValue
  | @ran _ lowered hLower =>
    have hWrapped := h.wrapper hPlain hLower (s.listed lowered)
    have hGet : (s.wrap (s.wrapperEntry lowered) (s.listed lowered)).image.get? s.image.next =
      some (s.wrapperEntry lowered) := s.image.get?_push_next _
    have hRegular := hWrapped.image.sound.toRegular
    rcases Backend.makeReady_ends hRegular hWrapped.coherent hGet rfl with
      ⟨after, hMake, hAfter, hMade, -⟩ | ⟨d, decl, -, -, hMake⟩ | ⟨g, -, -, hMake⟩
    · rw [runWrapper_of_ready hMake] at hValue ⊢
      have hReady : after.isReady s.image.next = true :=
        (hMade.isReady_iff _).mpr (.inr ⟨.refl, _, hGet, rfl⟩)
      obtain ⟨entry, body, code, hEntry, hBody, hCode, hFits⟩ := hAfter.code hReady
      obtain rfl := Option.some.inj (hGet.symm.trans hEntry)
      obtain rfl := Option.some.inj hBody
      have hZero : code.body.arity = 0 := hAfter.arity_code hRegular hReady hGet hCode
      rw [Backend.invoke_of_code hReady hCode hZero] at hValue ⊢
      have hEnd := Except.ok.inj (eq_of_outcomeOf hValue)
      refine ⟨lowered, after, code, hLower, ?_, hFits,
        Machine.gives_of_run (Prod.ext hEnd rfl)⟩
      exact
        { get := fun hOld => Image.get?_push_of_some hOld _
          link := fun hLookup => hMade.links_kept _ _ hLookup
          coherent := hAfter }
    · rw [runWrapper, Session.makeReady, hMake] at hValue
      cases hValue
    · rw [runWrapper, Session.makeReady, hMake] at hValue
      cases hValue

/-! ## Calls and their bodies -/

/-- A bare expression that calls a procedure. -/
def callOf (procedure : Procedure) (args : List Expr) : Procedure where
  signature := .unnamed
  body := .call procedure.signature.name args

/-- A bare expression that is the body of a procedure, with arguments in the place of the
parameters. -/
def bodyWith (procedure : Procedure) (args : List Expr) : Procedure where
  signature := .unnamed
  body := procedure.body.substitute (procedure.signature.params.zip args)

/-- What becomes of a call of a function that has just been defined. -/
def handleCall (s : Session) (procedure : Procedure) (args : List Expr) : Handled :=
  (s.handle (.definition procedure)).session.handle (.expression (callOf procedure args))

/-- What becomes of the body of a function as a bare expression. -/
def handleBare (s : Session) (procedure : Procedure) (args : List Expr) : Handled :=
  s.handle (.expression (bodyWith procedure args))

variable {args : List Expr}

/-- Other names keep their meaning in the body of a definition. -/
theorem callee_namesFor_of_ne {name : String} {this : FuncId} {symbols : Symbols}
    (hNe : procedure.signature.name ≠ name) :
    (namesFor procedure this .definition symbols).callee name = symbols.lookup name :=
  if_neg hNe

/-- The name of a definition stands for it, with as many values as it has parameters. -/
theorem callee_of_defined (s : Session) (procedure : Procedure) (lowered : Body)
    (listings : String) (this : FuncId) (wrapped : Procedure) :
    (namesFor wrapped this .wrapper
      (s.accept (s.definitionEntry procedure lowered) listings).symbols).callee
        procedure.signature.name =
      some { func := s.image.next, arity := procedure.signature.arity, kind := .definition } :=
  (Symbols.lookup_bind _ _ _ _).trans (if_pos rfl)

/-- A call that was lowered passes as many values as its function takes. -/
theorem arity_of_lowered_call {name : String} {this : FuncId} {symbols : Symbols}
    (h : lowerProcedure (callOf procedure args) name this .wrapper symbols = .ok lowered)
    {binding : Binding}
    (hBinding : (namesFor (callOf procedure args) this .wrapper symbols).callee
      procedure.signature.name = some binding) : binding.arity = args.length := by
  obtain ⟨_, _, _, _, -, hCompute, -, -⟩ := lowerProcedure_ok h
  obtain ⟨found, _, _, hFound, hArity, -⟩ := compute_call_ok hCompute
  rwa [Option.some.inj (hBinding.symm.trans hFound)]

/-- A call of a function that has just been defined, with arithmetic arguments, gives what the body
of the function returns for the values of the arguments. -/
theorem Sound.exists_body_logs (h : s.Sound) (hLower : s.lowerDefinition procedure = .ok lowered)
    (hArgs : ∀ arg ∈ args, arg.Arithmetic)
    (hCall : (s.handleCall procedure args).result = .ok (.evaluated x)) :
    ∃ values after more code log, List.Forall₂ HasValue args values ∧
      values.length = procedure.signature.arity ∧
      s.backend.Continues s.image after more ∧ after.CodeFits (s.kept lowered) code ∧
      (s.kept lowered).Logs values x log ∧
      (∀ a ∈ log, after.table.Comes code a.call a.value a.output) ∧
      (s.handleCall procedure args).output = outputOf log := by
  rw [handleCall, handle_definition hLower] at hCall ⊢
  have hDefined := h.definition hLower (s.listed lowered)
  obtain ⟨wrapped, after, wrapper, hWrapped, hAfter, hWrapper, outer, hOuter, hComes, hOutput⟩ :=
    hDefined.exists_gives rfl hCall
  obtain ⟨values, hValues⟩ := exists_values hArgs
  -- The wrapper makes one call, of the function that was defined.
  have hKept := hWrapper.body_eq ▸ hOuter
  obtain ⟨binding, hBinding, hValue, hCalls⟩ :=
    Evaluates.of_call hValues ((logs_kept_iff _ hWrapped (Nat.zero_le _) rfl _).mp hKept)
  have hArity := arity_of_lowered_call hWrapped hBinding
  rw [callee_of_defined] at hBinding
  obtain rfl := Option.some.inj hBinding
  obtain ⟨first, rfl, hFirst⟩ := List.map_eq_singleton_iff.mp hCalls
  have hMem := CodeTable.mem_calleesOf_of_logs hKept first List.mem_cons_self
  rw [hFirst] at hMem
  have hGet := Image.get?_push_of_some
    (s.image.get?_push_next (s.definitionEntry procedure lowered))
    ((s.accept (s.definitionEntry procedure lowered) (s.listed lowered)).wrapperEntry wrapped)
  obtain ⟨code, hCode, hFits⟩ := hAfter.coherent.callee?_of_body hWrapper hMem hGet rfl
  have hLength : values.length = procedure.signature.arity := by
    rw [← hValues.length_eq]
    exact hArity.symm
  have hContinues := (h.coherent.continues_push (s.definitionEntry procedure lowered)).trans hAfter
  obtain ⟨call, value, written⟩ := first
  obtain rfl : x = value := hValue.trans (answersOf_append_cons [] [] _ _)
  obtain rfl : call = ⟨s.image.next, values⟩ := hFirst
  have hFirstComes : after.table.Comes wrapper ⟨s.image.next, values⟩ x written :=
    hComes _ List.mem_cons_self
  rw [hOutput, show outputOf [_] = written from List.append_nil _]
  cases hFirstComes with
  | host hCallee =>
    rw [hCode] at hCallee
    cases hCallee
  | @code _ callee _ _ log hCallee hLogs hAnswers =>
    obtain rfl : code = callee := by
      rw [hCode] at hCallee
      cases hCallee
      rfl
    exact ⟨values, after, _, code, log, hValues, hLength, hContinues, hFits, hFits.body_eq ▸ hLogs,
      hAnswers, rfl⟩

/-- What the body of a function returns for the values of arithmetic arguments, the body with the
arguments in the place of the parameters returns as well, after the same calls.  They are calls
of what the body leads to. -/
theorem bare_logs {bare : Body} {values : List Float} {log : List Answered}
    (hLower : s.lowerDefinition procedure = .ok lowered)
    (hBareLower : s.lowerWrapper (bodyWith procedure args) = .ok bare)
    (hSmall : procedure.signature.arity ≤ 65536)
    (hOther : procedure.signature.name ∉ procedure.body.callees)
    (hValues : List.Forall₂ HasValue args values)
    (hLength : values.length = procedure.signature.arity)
    (hLogs : (s.kept lowered).Logs values x log) :
    (s.kept bare).Logs [] x log ∧ ∀ a ∈ log, s.LeadsTo procedure.body a.call.callee := by
  have hEval := (logs_kept_iff s hLower hSmall hLength log).mp hLogs
  obtain ⟨-, -, -, -, -, -, -, hAccept⟩ := lowerProcedure_ok hLower
  have hNodup := nodup_of_acceptSignature (hAccept rfl)
  -- Names other than that of the procedure itself stand for the same in both.
  have hNames : ∀ name ∈ procedure.body.callees,
      (namesFor procedure s.image.next .definition s.symbols).callee name =
        s.symbols.lookup name := fun name hName =>
    callee_namesFor_of_ne fun hSame => hOther (hSame ▸ hName)
  constructor
  · refine (logs_kept_iff s hBareLower (Nat.zero_le _) rfl log).mpr ?_
    refine Evaluates.substitute procedure.body (stands_arguments hValues hNodup) ?_ hEval
    exact fun name hName => (hNames name hName).symm
  · have hCalls : (namesFor procedure s.image.next .definition s.symbols).CallsOnly
        (fun call => s.LeadsTo procedure.body call.callee) procedure.body.callees :=
      fun name hName binding hBinding _ =>
        ⟨name, hName, binding, (hNames name hName).symm.trans hBinding, .refl⟩
    obtain ⟨made, hMade, hLeads⟩ := Evaluates.adds procedure.body hCalls hEval
    intro a ha
    refine hLeads a.call ?_
    rw [← List.nil_append made, ← hMade]
    exact List.mem_map_of_mem ha

/-- A function is defined and called with arithmetic arguments, or its body is evaluated as a bare
expression with the arguments in the place of its parameters: if both come to a value, then to the
same, and they write the same to the host output. -/
theorem handleCall_eq_handleBare (hReached : Reached config s)
    (hSmall : procedure.signature.arity ≤ 65536)
    (hOther : procedure.signature.name ∉ procedure.body.callees)
    (hArgs : ∀ arg ∈ args, arg.Arithmetic) (hLinked : s.Linked procedure.body) {f : FuncId}
    (hDefined : (s.handle (.definition procedure)).result = .ok (.defined f))
    (hCall : (s.handleCall procedure args).result = .ok (.evaluated x))
    (hBare : (s.handleBare procedure args).result = .ok (.evaluated y)) :
    x = y ∧ (s.handleCall procedure args).output = (s.handleBare procedure args).output := by
  have h := hReached.sound
  obtain ⟨lowered, hLower⟩ : ∃ lowered, s.lowerDefinition procedure = .ok lowered := by
    cases hLower : s.lowerDefinition procedure with
    | ok lowered => exact ⟨lowered, rfl⟩
    | error e =>
      have hRefuses : s.Refuses e (.definition procedure) := hLower
      rw [handle_of_refuses hRefuses] at hDefined
      cases hDefined
  obtain ⟨values, after, more, code, log, hValues, hLength, hAfter, hFits, hLogs, hComes, hOutput⟩ :=
    h.exists_body_logs hLower hArgs hCall
  obtain ⟨bare, later, other, hBareLower, hLater, hOtherFits, hGives⟩ := h.exists_gives rfl hBare
  obtain ⟨hBareLogs, hLeads⟩ :=
    bare_logs hLower hBareLower hSmall hOther hValues hLength hLogs
  have hBareGives : later.table.Gives other x (outputOf log) := by
    refine ⟨log, hOtherFits.body_eq ▸ hBareLogs, fun a ha => ?_, rfl⟩
    exact hAfter.comes hLater (hLinked.enclosed h) h.coherent (hLeads a ha) hFits
      (CodeTable.mem_calleesOf_of_logs hLogs a ha) hOtherFits
      (CodeTable.mem_calleesOf_of_logs hBareLogs a ha) (hComes a ha)
  obtain ⟨hValue, hWritten⟩ := hBareGives.unique hGives
  exact ⟨hValue, hOutput.trans hWritten⟩

/-! ## A loop under the name of a parameter -/

/-- Whether a unit defined a function. -/
def definedAs (result : Except UnitError Outcome) (f : FuncId) : Bool :=
  match result with
  | .ok (.defined g) => g == f
  | _ => false

theorem eq_of_definedAs {result : Except UnitError Outcome} {f : FuncId}
    (h : definedAs result f = true) : result = .ok (.defined f) := by
  unfold definedAs at h
  split at h
  · rw [eq_of_beq h]
  · cases h

/-- Whether a unit came to a value. -/
def isEvaluated : Except UnitError Outcome → Bool
  | .ok (.evaluated _) => true
  | _ => false

theorem exists_of_isEvaluated {result : Except UnitError Outcome}
    (h : isEvaluated result = true) : ∃ x, result = .ok (.evaluated x) := by
  unfold isEvaluated at h
  split at h
  · exact ⟨_, rfl⟩
  · cases h

/-- Prints the numbers from one parameter up to another, under the name of the first one. -/
def printUpTo : Procedure where
  signature := { name := "f", params := ["i", "n"] }
  body := .forLoop "i" (.variable "i") (.binary '<' (.variable "i") (.variable "n")) none
    (.call "printd" [.variable "i"])

/-- A bare expression that prints a number. -/
def printOne : Procedure where
  signature := .unnamed
  body := .call "printd" [.number 1.0]

/-- A session in which the function that prints was declared and linked. -/
def printingSession : Session :=
  let declared := ((start Config.standard).handle
    (.declaration { name := "printd", params := ["x"] })).session
  (declared.handle (.expression printOne)).session

theorem reached_printingSession : Reached Config.standard printingSession :=
  have hDeclared : Reached Config.standard ((start Config.standard).handle
      (.declaration { name := "printd", params := ["x"] })).session := by
    refine .handle .start ?_
    trivial
  .handle hDeclared rfl

/-- The loop leads to nothing but the function that prints. -/
theorem linked_printUpTo : printingSession.Linked printUpTo.body := by
  rintro d decl ⟨name, hName, binding, hLookup, hReaches⟩ - -
  obtain rfl : name = "printd" := by simpa [printUpTo, Expr.callees, Expr.calleesAll,
    Expr.calleesStep] using hName
  have hBound : printingSession.symbols.lookup "printd" =
      some { func := 0, arity := 1, kind := .external } := by decide +kernel
  have hLink : printingSession.backend.links.lookup 0 = some (.host .printd) := by decide +kernel
  obtain rfl := Option.some.inj (hBound.symm.trans hLookup)
  obtain rfl := reached_printingSession.sound.coherent.eq_of_reaches_host hLink hReaches
  exact ⟨_, hLink⟩

/-- Arguments for a loop of two turns. -/
def twoTurns : List Expr :=
  [.number 1.0, .binary '+' (.number 1.0) (.number 2.0)]

theorem handleCall_eq_handleBare_printUpTo :
    Reached Config.standard printingSession ∧ printUpTo.signature.arity ≤ 65536 ∧
    printUpTo.signature.name ∉ printUpTo.body.callees ∧ (∀ arg ∈ twoTurns, arg.Arithmetic) ∧
    printingSession.Linked printUpTo.body ∧
    (printingSession.handle (.definition printUpTo)).result = .ok (.defined 2) ∧
    ∃ x y, (printingSession.handleCall printUpTo twoTurns).result = .ok (.evaluated x) ∧
      (printingSession.handleBare printUpTo twoTurns).result = .ok (.evaluated y) ∧
      x = y ∧ (printingSession.handleCall printUpTo twoTurns).output =
        (printingSession.handleBare printUpTo twoTurns).output := by
  have hSmall : printUpTo.signature.arity ≤ 65536 := by decide
  have hOther : printUpTo.signature.name ∉ printUpTo.body.callees := by decide
  have hArgs : ∀ arg ∈ twoTurns, arg.Arithmetic :=
    List.forall_mem_cons.mpr ⟨.number _, List.forall_mem_singleton.mpr
      (.binary (by decide) (.number _) (.number _))⟩
  have hDefined : (printingSession.handle (.definition printUpTo)).result = .ok (.defined 2) := by
    refine eq_of_definedAs ?_
    decide +kernel
  obtain ⟨x, hCall⟩ : ∃ x,
      (printingSession.handleCall printUpTo twoTurns).result = .ok (.evaluated x) := by
    refine exists_of_isEvaluated ?_
    decide +kernel
  obtain ⟨y, hBare⟩ : ∃ y,
      (printingSession.handleBare printUpTo twoTurns).result = .ok (.evaluated y) := by
    refine exists_of_isEvaluated ?_
    decide +kernel
  exact ⟨reached_printingSession, hSmall, hOther, hArgs, linked_printUpTo, hDefined, x, y, hCall,
    hBare, handleCall_eq_handleBare reached_printingSession hSmall hOther hArgs linked_printUpTo
      hDefined hCall hBare⟩

end Session

end LiveCompiler
