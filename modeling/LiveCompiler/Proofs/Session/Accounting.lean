import LiveCompiler.Proofs.Grammar.Sight
import LiveCompiler.Proofs.Session.Readings

/-!
# The accounts of a run

The loop turns finitely often.  Every turn takes tokens off the front of the stream: a semicolon
between units, or what one call of a rule uses, with one more token after a syntax error; and in
the end the stream is used up (`TopLevel.Takes`, `TopLevel.Turns`).

Every turn but those for semicolons is an attempt at a unit.  The results, the errors, the counters
and the size of the image can be read off the attempts (`TopLevel.Accounts`): `Accounts.take` is the
step for one turn, and `run_accounts` says it of whole runs.  An evaluation that is cut off at its
limit of steps counts as one that failed.
-/

namespace LiveCompiler

/-- What became of a unit that was started. -/
inductive Attempt where
  | refused (e : SyntaxError)
  | handled (u : SourceUnit) (result : Except UnitError Outcome)

namespace Attempt

/-- The line with the result, if there is one. -/
def resultLine? : Attempt → Option String
  | handled _ (.ok (.evaluated x)) => some ("Evaluated to " ++ Binary64.valueText x ++ "\n")
  | _ => none

/-- The line with the error, if the unit failed. -/
def errorLine? : Attempt → Option String
  | refused e => some ("error: " ++ e.message ++ "\n")
  | handled _ (.error e) => some ("error: " ++ e.message ++ "\n")
  | handled _ (.ok _) => none

/-- Whether it is a unit that was handled without an error. -/
def succeeds : Attempt → Bool
  | handled _ (.ok _) => true
  | _ => false

/-- Whether it is a bare expression that was evaluated. -/
def evaluates : Attempt → Bool
  | handled (.expression _) (.ok _) => true
  | _ => false

/-- Whether it is a bare expression that failed after it was lowered. -/
def leavesWrapper : Attempt → Bool
  | handled (.expression _) (.error (.lowering _)) => false
  | handled (.expression _) (.error _) => true
  | _ => false

/-- A unit that is started succeeds, or there is one line that says why it does not. -/
theorem succeeds_add_errors (attempt : Attempt) :
    attempt.succeeds.toNat + attempt.errorLine?.toList.length = 1 := by
  match attempt with
  | refused _ => rfl
  | handled _ (.error _) => rfl
  | handled _ (.ok _) => rfl

end Attempt

/-- One turn of the loop. -/
structure Turn where
  /-- A semicolon between units, or the tokens that a rule used. -/
  parsed : List Lexeme
  /-- The token that is dropped after a syntax error.  At the end of the input there is none. -/
  skipped : List Lexeme
  /-- The unit that was started, if one was. -/
  attempt : Option Attempt

/-- The tokens that a turn takes. -/
def Turn.used (turn : Turn) : List Lexeme :=
  turn.parsed ++ turn.skipped

/-- What was written as a result. -/
def Written.outText? : Written → Option String
  | .out text => some text
  | _ => none

/-- What was written as a diagnostic. -/
def Written.diagText? : Written → Option String
  | .diag text => some text
  | _ => none

namespace TopLevel

/-- What a turn of the loop does: it drops a semicolon, reads a unit and hands it to the session, or
reports a syntax error and drops the token that was refused. -/
inductive Takes (t : TopLevel) : Turn → TopLevel → Prop
  | separator {semicolon : Lexeme} (token_eq : semicolon.token = .char ';')
      (shown : t.lexer.lexemes = semicolon :: t.lexer.advance.lexemes) :
      Takes t ⟨[semicolon], [], none⟩ (t.withLexer t.lexer.advance)
  | unit {u : SourceUnit} {after : Lexer} {parsed : List Lexeme}
      (run : (Rule.sourceUnit t.session.config.precedence (kindAt t.lexer.peek)).run t.lexer =
        (.ok u, after))
      (shown : t.lexer.lexemes = parsed ++ after.lexemes) :
      Takes t ⟨parsed, [], some (.handled u (t.session.handle u).result)⟩
        ((t.withLexer after).handle u)
  | fault {e : SyntaxError} {after : Lexer} {parsed skipped : List Lexeme}
      (run : (Rule.sourceUnit t.session.config.precedence (kindAt t.lexer.peek)).run t.lexer =
        (.error e, after))
      (shown : t.lexer.lexemes = parsed ++ after.lexemes)
      (skipped_eq : skipped = if after.peek.isInput then [after.look.1] else [])
      (shown_after : after.lexemes = skipped ++ after.advance.lexemes) :
      Takes t ⟨parsed, skipped, some (.refused e)⟩
        ((t.withLexer after.advance).report e.message)

/-- Turns one after another. -/
inductive Turns : TopLevel → List Turn → TopLevel → Prop
  | nil {t : TopLevel} : Turns t [] t
  | cons {t next last : TopLevel} {turn : Turn} {turns : List Turn} (step : t.step? = some next)
      (takes : t.Takes turn next) (used_ne_nil : turn.used ≠ []) (rest : Turns next turns last) :
      Turns t (turn :: turns) last

variable {t next last : TopLevel} {turn : Turn} {turns : List Turn}

/-! ## The tokens of a turn -/

theorem Takes.shown (h : t.Takes turn next) :
    t.lexer.lexemes = turn.used ++ next.lexer.lexemes := by
  unfold Turn.used
  cases h with
  | separator hToken hShown => exact hShown
  | unit hRun hShown =>
    rw [lexer_handle, List.append_nil]
    exact hShown
  | fault hRun hShown hSkipped hAfter =>
    rw [lexer_report, List.append_assoc, hShown, hAfter]
    rfl

/-- Behind the end of the input nothing is dropped. -/
theorem lexemes_skip {lexer : Lexer} (h : lexer.Genuine) :
    lexer.lexemes =
      (if lexer.peek.isInput then [lexer.look.1] else []) ++ lexer.advance.lexemes := by
  split
  · rename_i hInput
    exact Lexer.lexemes_of_input hInput
  · rename_i hInput
    have hEnd := Token.eq_endOfInput_iff.mpr (Bool.eq_false_iff.mpr hInput)
    exact (Lexer.lexemes_advance_of_end h hEnd).symm

/-- Reading a unit takes at least one token, whatever comes of it. -/
theorem exists_takes_readUnit (hGenuine : t.lexer.Genuine) (hInput : t.lexer.peek.isInput = true) :
    ∃ turn, t.Takes turn (t.readUnit (kindAt t.lexer.peek)) ∧ turn.used ≠ [] ∧
      (t.readUnit (kindAt t.lexer.peek)).lexer.Genuine := by
  have hSees : Rule.Sees t.session.config.precedence (fun _ => True)
      (Rule.sourceUnit t.session.config.precedence (kindAt t.lexer.peek)) := Rule.sees_sourceUnit _
  obtain ⟨⟨parsed, hShown, hNone⟩, hAfter⟩ := hSees.behind t.lexer
  unfold readUnit
  split
  · rename_i u after hRun
    rw [hRun] at hShown hNone hAfter
    refine ⟨_, .unit hRun hShown, fun hUsed => ?_, ?_⟩
    · have hParsed : parsed = [] := (List.append_eq_nil_iff.mp hUsed).1
      exact hSees.looked_ne (Rule.isProductive_sourceUnit _ _) hRun (hNone hParsed)
    · rw [lexer_handle]
      exact hAfter hGenuine
  · rename_i e after hRun
    rw [hRun] at hShown hNone hAfter
    refine ⟨_, .fault hRun hShown rfl (lexemes_skip (hAfter hGenuine)), fun hUsed => ?_, ?_⟩
    · -- If the rule used no token, the first one was refused, and is dropped.
      obtain ⟨hParsed, hSkipped⟩ := List.append_eq_nil_iff.mp hUsed
      have hPeek : after.peek = t.lexer.peek := by
        rw [← after.peek_looked, hNone hParsed, Lexer.peek_looked]
      rw [hPeek, if_pos hInput] at hSkipped
      cases hSkipped
    · rw [lexer_report]
      exact Lexer.genuine_advance _

/-- A turn takes at least one token. -/
theorem exists_takes (hGenuine : t.lexer.Genuine) (hStep : t.step? = some next) :
    ∃ turn, t.Takes turn next ∧ turn.used ≠ [] ∧ next.lexer.Genuine := by
  by_cases hInput : t.lexer.peek.isInput = true
  · unfold step? at hStep
    split at hStep
    · contradiction
    · rename_i hSemicolon
      obtain rfl := Option.some.inj hStep
      exact ⟨_, .separator hSemicolon (Lexer.lexemes_of_input hInput), List.cons_ne_nil _ _,
        Lexer.genuine_advance _⟩
    · obtain rfl := Option.some.inj hStep
      exact exists_takes_readUnit hGenuine hInput
  · have hEnd : t.lexer.peek = .endOfInput :=
      Token.eq_endOfInput_iff.mpr (Bool.eq_false_iff.mpr hInput)
    simp only [step?, hEnd] at hStep
    cases hStep

/-- The loop ends after finitely many turns. -/
theorem exists_turns (t : TopLevel) (hGenuine : t.lexer.Genuine) :
    ∃ turns last, Turns t turns last ∧ last.step? = none ∧
      t.run = last.withLexer last.lexer.looked := by
  fun_induction run t with
  | case1 t hStep => exact ⟨[], t, .nil, hStep, rfl⟩
  | case2 t next hStep ih =>
    obtain ⟨turn, hTakes, hUsed, hNext⟩ := exists_takes hGenuine hStep
    obtain ⟨turns, last, hTurns, hEnd, hRun⟩ := ih hNext
    exact ⟨turn :: turns, last, .cons hStep hTakes hUsed hTurns, hEnd, hRun⟩

/-- The turns take the tokens in order, each of them once. -/
theorem Turns.shown (h : Turns t turns last) :
    t.lexer.lexemes = turns.flatMap Turn.used ++ last.lexer.lexemes := by
  induction h with
  | nil => rfl
  | cons _ hTakes _ _ ih => rw [hTakes.shown, ih, List.flatMap_cons, List.append_assoc]

/-! ## The books -/

theorem filterMap_concat {α β : Type} (f : α → Option β) (l : List α) (a : α) :
    (l ++ [a]).filterMap f = l.filterMap f ++ (f a).toList := by
  rw [List.filterMap_append, List.filterMap_eq_flatMap_toList f [a], List.flatMap_singleton]

/-- The lines with results that were written. -/
def outLines (t : TopLevel) : List String :=
  t.transcript.filterMap Written.outText?

/-- The texts that were written as diagnostics. -/
def diagTexts (t : TopLevel) : List String :=
  t.transcript.filterMap Written.diagText?

@[simp] theorem outLines_write (t : TopLevel) (w : Written) :
    (t.write w).outLines = t.outLines ++ w.outText?.toList :=
  filterMap_concat Written.outText? t.transcript w

@[simp] theorem diagTexts_write (t : TopLevel) (w : Written) :
    (t.write w).diagTexts = t.diagTexts ++ w.diagText?.toList :=
  filterMap_concat Written.diagText? t.transcript w

/-- What a step adds to the books if one attempt is made in it. -/
structure Enters (t : TopLevel) (attempt : Attempt) (next : TopLevel) : Prop where
  outLines_eq : next.outLines = t.outLines ++ attempt.resultLine?.toList
  diagTexts_eq : t.session.Quiet → next.diagTexts = t.diagTexts ++ attempt.errorLine?.toList
  quiet : t.session.Quiet → next.session.Quiet
  units_eq : next.summary.units = t.summary.units + attempt.succeeds.toNat
  errors_eq : next.summary.errors = t.summary.errors + attempt.errorLine?.toList.length
  evaluations_eq :
    next.summary.evaluations = t.summary.evaluations + attempt.resultLine?.toList.length
  size_eq : next.session.image.size =
    t.session.image.size + attempt.succeeds.toNat + attempt.leavesWrapper.toNat
  evaluated : attempt.resultLine?.isSome = attempt.evaluates

/-- A syntax error is entered as it is reported. -/
theorem enters_report (t : TopLevel) (e : SyntaxError) :
    t.Enters (.refused e) (t.report e.message) where
  outLines_eq := t.outLines_write _
  diagTexts_eq _ := t.diagTexts_write _
  quiet hQuiet := hQuiet
  units_eq := rfl
  errors_eq := rfl
  evaluations_eq := rfl
  size_eq := rfl
  evaluated := rfl

/-- Host output and listings are no results. -/
@[simp] theorem outLines_writeHost (t : TopLevel) (bytes : List UInt8) :
    (t.writeHost bytes).outLines = t.outLines := by
  unfold writeHost
  split
  · rfl
  · rw [outLines_write]
    exact List.append_nil _

@[simp] theorem outLines_writeListings (t : TopLevel) :
    t.writeListings.outLines = t.outLines := by
  unfold writeListings
  split
  · rw [outLines_write]
    exact List.append_nil _
  · rfl

@[simp] theorem diagTexts_writeHost (t : TopLevel) (bytes : List UInt8) :
    (t.writeHost bytes).diagTexts = t.diagTexts := by
  unfold writeHost
  split
  · rfl
  · rw [diagTexts_write]
    exact List.append_nil _

@[simp] theorem summary_writeHost (t : TopLevel) (bytes : List UInt8) :
    (t.writeHost bytes).summary = t.summary := by
  unfold writeHost
  split <;> rfl

@[simp] theorem summary_writeListings (t : TopLevel) : t.writeListings.summary = t.summary := by
  unfold writeListings
  split <;> rfl

/-- What is written and counted of a unit is settled by what became of it. -/
theorem conclude_spec (t : TopLevel) (u : SourceUnit) (result : Except UnitError Outcome) :
    (t.conclude result).outLines = t.outLines ++ (Attempt.handled u result).resultLine?.toList ∧
    (t.conclude result).diagTexts = t.diagTexts ++ (Attempt.handled u result).errorLine?.toList ∧
    (t.conclude result).summary =
      { units := t.summary.units + (Attempt.handled u result).succeeds.toNat
        errors := t.summary.errors + (Attempt.handled u result).errorLine?.toList.length
        evaluations :=
          t.summary.evaluations + (Attempt.handled u result).resultLine?.toList.length } := by
  match result with
  | .error e => exact ⟨t.outLines_write _, t.diagTexts_write _, rfl⟩
  | .ok (.evaluated x) => exact ⟨t.outLines_write _, t.diagTexts_write _, rfl⟩
  | .ok (.defined f) => exact ⟨(List.append_nil _).symm, (List.append_nil _).symm, rfl⟩
  | .ok (.declared f) => exact ⟨(List.append_nil _).symm, (List.append_nil _).symm, rfl⟩

/-- A wrapper gives a value, or its expression failed after it was lowered. -/
theorem runWrapper_spec (s : Session) (f : FuncId) (procedure : Procedure) :
    let attempt := Attempt.handled (.expression procedure) (s.runWrapper f).result
    attempt.succeeds.toNat + attempt.leavesWrapper.toNat = 1 ∧
      attempt.resultLine?.isSome = attempt.evaluates := by
  unfold Session.runWrapper
  dsimp only
  split
  · exact ⟨rfl, rfl⟩
  · rename_i runnable _
    match ((s.makeReady f).2.invoke runnable).result with
    | .error e => exact ⟨rfl, rfl⟩
    | .ok (.value x) => exact ⟨rfl, rfl⟩
    | .ok .trapped => exact ⟨rfl, rfl⟩
    | .ok .unfinished => exact ⟨rfl, rfl⟩

/-- There is a result for bare expressions that are evaluated, and for no other units. -/
theorem isSome_resultLine_handle (s : Session) (u : SourceUnit) :
    (Attempt.handled u (s.handle u).result).resultLine?.isSome =
      (Attempt.handled u (s.handle u).result).evaluates := by
  have hHandles := s.handles u
  generalize s.handle u = handled at hHandles ⊢
  cases hHandles with
  | refused => cases u <;> rfl
  | defined => rfl
  | declared => rfl
  | ran => exact (runWrapper_spec _ _ _).2

/-- The image grows by each unit that succeeds, and by each wrapper that does not. -/
theorem size_handle (s : Session) (u : SourceUnit) :
    (s.handle u).session.image.size = s.image.size +
      (Attempt.handled u (s.handle u).result).succeeds.toNat +
      (Attempt.handled u (s.handle u).result).leavesWrapper.toNat := by
  have hHandles := s.handles u
  generalize s.handle u = handled at hHandles ⊢
  cases hHandles with
  | refused => cases u <;> rfl
  | defined => exact Image.size_push _ _
  | declared => exact Image.size_push _ _
  | ran =>
    rw [Session.session_runWrapper, Nat.add_assoc, (runWrapper_spec _ _ _).1]
    exact Image.size_push _ _

/-- A unit is entered as it is handled. -/
theorem enters_handle (t : TopLevel) (u : SourceUnit) :
    t.Enters (.handled u (t.session.handle u).result) (t.handle u) := by
  obtain ⟨hOut, -, hSummary⟩ := conclude_spec
    (writeHost { t with session := (t.session.handle u).session }
      (t.session.handle u).output).writeListings u (t.session.handle u).result
  simp only [outLines_writeListings, outLines_writeHost] at hOut
  simp only [summary_writeListings, summary_writeHost] at hSummary
  refine ⟨hOut, fun hQuiet => ?_, fun hQuiet => ?_, congrArg Summary.units hSummary,
    congrArg Summary.errors hSummary, congrArg Summary.evaluations hSummary, ?_,
    isSome_resultLine_handle t.session u⟩
  · rw [handle_of_quiet hQuiet, (conclude_spec _ u _).2.1, diagTexts_writeHost]
    rfl
  · rw [session_handle, (hQuiet.handle u).takeListings]
    exact hQuiet.handle u
  · rw [session_handle, (Session.takeListings_keeps _).2]
    exact size_handle t.session u

/-! ## The accounts -/

/-- What can be read off the attempts that were made since a session was in some state. -/
structure Accounts (s : Session) (attempts : List Attempt) (t : TopLevel) : Prop where
  /-- The lines with results, in the order of the units. -/
  outLines_eq : t.outLines = attempts.filterMap Attempt.resultLine?
  /-- There is one for each bare expression that was evaluated. -/
  evaluated : ∀ attempt ∈ attempts, attempt.resultLine?.isSome = attempt.evaluates
  /-- Without listings there is a line for each unit that failed, and nothing else. -/
  diagTexts_eq : s.Quiet → t.diagTexts = attempts.filterMap Attempt.errorLine?
  units_add_errors : t.summary.units + t.summary.errors = attempts.length
  errors_eq : t.summary.errors = (attempts.filterMap Attempt.errorLine?).length
  evaluations_eq : t.summary.evaluations = t.outLines.length
  size_eq : t.session.image.size =
    s.image.size + t.summary.units + attempts.countP Attempt.leavesWrapper
  quiet : s.Quiet → t.session.Quiet

variable {s : Session} {attempts : List Attempt} {attempt : Attempt}

theorem accounts_start (s : Session) (input : Input) : Accounts s [] (start s input) where
  outLines_eq := rfl
  evaluated := nofun
  diagTexts_eq _ := rfl
  units_add_errors := rfl
  errors_eq := rfl
  evaluations_eq := rfl
  size_eq := rfl
  quiet hQuiet := hQuiet

theorem Accounts.withLexer (h : Accounts s attempts t) (lexer : Lexer) :
    Accounts s attempts (t.withLexer lexer) :=
  ⟨h.outLines_eq, h.evaluated, h.diagTexts_eq, h.units_add_errors, h.errors_eq, h.evaluations_eq,
    h.size_eq, h.quiet⟩

theorem Accounts.enter (h : Accounts s attempts t) (hEnters : t.Enters attempt next) :
    Accounts s (attempts ++ [attempt]) next where
  outLines_eq := by rw [hEnters.outLines_eq, h.outLines_eq, filterMap_concat]
  evaluated a hMem := by
    rcases List.mem_append.mp hMem with hBefore | hLast
    · exact h.evaluated a hBefore
    · rw [List.mem_singleton.mp hLast]
      exact hEnters.evaluated
  diagTexts_eq hQuiet := by
    rw [hEnters.diagTexts_eq (h.quiet hQuiet), h.diagTexts_eq hQuiet, filterMap_concat]
  units_add_errors := by
    have hOne := attempt.succeeds_add_errors
    rw [hEnters.units_eq, hEnters.errors_eq, List.length_append, List.length_singleton,
      ← h.units_add_errors]
    omega
  errors_eq := by rw [hEnters.errors_eq, h.errors_eq, filterMap_concat, List.length_append]
  evaluations_eq := by
    rw [hEnters.evaluations_eq, h.evaluations_eq, hEnters.outLines_eq, List.length_append]
  size_eq := by
    have hCount : (attempts ++ [attempt]).countP Attempt.leavesWrapper =
        attempts.countP Attempt.leavesWrapper + attempt.leavesWrapper.toNat := by
      rw [List.countP_append]
      cases hWrapper : attempt.leavesWrapper <;> simp [hWrapper]
    rw [hEnters.size_eq, h.size_eq, hEnters.units_eq, hCount]
    omega
  quiet hQuiet := hEnters.quiet (h.quiet hQuiet)

/-- The accounts after a turn. -/
theorem Accounts.take (h : Accounts s attempts t) (hTakes : t.Takes turn next) :
    Accounts s (attempts ++ turn.attempt.toList) next := by
  cases hTakes with
  | separator =>
    rw [Option.toList_none, List.append_nil]
    exact h.withLexer _
  | @unit u after => exact (h.withLexer after).enter (enters_handle (t.withLexer after) u)
  | @fault e after => exact (h.withLexer _).enter (enters_report (t.withLexer after.advance) e)

/-- The accounts after some turns. -/
theorem Turns.accounts (hTurns : Turns t turns last) :
    ∀ {attempts : List Attempt}, Accounts s attempts t →
      Accounts s (attempts ++ turns.filterMap Turn.attempt) last := by
  induction hTurns with
  | nil =>
    intro attempts h
    rw [List.filterMap_nil, List.append_nil]
    exact h
  | @cons _ _ _ turn turns _ hTakes _ _ ih =>
    intro attempts h
    have hSplit : (turn :: turns).filterMap Turn.attempt =
        turn.attempt.toList ++ turns.filterMap Turn.attempt := by
      simp only [List.filterMap_eq_flatMap_toList, List.flatMap_cons]
    rw [hSplit, ← List.append_assoc]
    exact ih (h.take hTakes)

/-! ## Runs -/

/-- A run over an input ends after finitely many turns.  Each of them takes at least one token, and
one after the other they take all the tokens of the input, in order and each of them once, up to
its end.  What was written, what was counted and how far the image has grown can be read off the
units that were started in these turns. -/
theorem run_accounts (s : Session) (input : Input) :
    ∃ turns last finish, Turns (start s input) turns last ∧ last.step? = none ∧
      (start s input).run = last.withLexer last.lexer.looked ∧
      finish.token = .endOfInput ∧
      (Lexer.ofInput input).lexemes = turns.flatMap Turn.used ++ [finish] ∧
      Accounts s (turns.filterMap Turn.attempt) (start s input).run := by
  obtain ⟨turns, last, hTurns, hLast, hRun⟩ :=
    exists_turns (start s input) (Lexer.genuine_ofInput input)
  have hEnd : last.lexer.peek = .endOfInput := by
    unfold step? at hLast
    split at hLast
    · assumption
    · cases hLast
    · cases hLast
  refine ⟨turns, last, last.lexer.look.1, hTurns, hLast, hRun, hEnd, ?_, ?_⟩
  · rw [← Lexer.lexemes_of_end hEnd]
    exact hTurns.shown
  · rw [hRun]
    exact (hTurns.accounts (accounts_start s input)).withLexer _

/-- Two units that succeed, a semicolon too many, a sum without its end, and a call of a function
that is not there. -/
def mixedUnits : Input :=
  .ofLines ["def f(x) x + 1; f(2);;\n", "1 + ;\n", "g(3)"] none

theorem run_accounts_mixedUnits :
    (Session.start Config.standard).Quiet ∧
    ∃ turns last finish, Turns (start (.start Config.standard) mixedUnits) turns last ∧
      (Lexer.ofInput mixedUnits).lexemes = turns.flatMap Turn.used ++ [finish] ∧
      (start (.start Config.standard) mixedUnits).run.diagTexts =
        (turns.filterMap Turn.attempt).filterMap Attempt.errorLine? := by
  have hQuiet : (Session.start Config.standard).Quiet := ⟨rfl, rfl⟩
  obtain ⟨turns, last, finish, hTurns, -, -, -, hTokens, hAccounts⟩ :=
    run_accounts (.start Config.standard) mixedUnits
  exact ⟨hQuiet, turns, last, finish, hTurns, hTokens, hAccounts.diagTexts_eq hQuiet⟩

end TopLevel

end LiveCompiler
