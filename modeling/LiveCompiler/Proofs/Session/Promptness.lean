import LiveCompiler.Proofs.Session.Accounting
import LiveCompiler.Proofs.Token.Reads

/-!
# A run answers before it reads on

The loop asks for a line only for the sake of the next token.  What it writes of a unit is written
while the lexer stands behind the unit, with at most the token ahead looked at.  So if a semicolon
follows on line `k` the unit is answered before line `k + 1` is asked for (`run_onDemand`).
-/

namespace LiveCompiler

namespace TopLevel

variable {input : Input} {t next last : TopLevel} {turn : Turn} {turns : List Turn}

/-! ## Moments of the loop -/

theorem Takes.arises (h : t.Takes turn next) (hArises : Lexer.Arises input t.lexer) :
    Lexer.Arises input next.lexer := by
  have hSees : Rule.Sees t.session.config.precedence (fun _ => True)
      (Rule.sourceUnit t.session.config.precedence (kindAt t.lexer.peek)) := Rule.sees_sourceUnit _
  have hAfter := hSees.arises hArises
  cases h with
  | separator => exact hArises.advance
  | unit hRun =>
    rw [hRun] at hAfter
    rw [lexer_handle]
    exact hAfter
  | fault hRun =>
    rw [hRun] at hAfter
    rw [lexer_report]
    exact hAfter.advance

theorem Turns.arises (h : Turns t turns last) (hArises : Lexer.Arises input t.lexer) :
    Lexer.Arises input last.lexer := by
  induction h with
  | nil => exact hArises
  | cons _ hTakes _ _ ih => exact ih (hTakes.arises hArises)

/-! ## What is written of a unit -/

/-- Between two moments what became of an attempt was written. -/
structure Answered (attempt : Attempt) (t next : TopLevel) : Prop where
  written : ∃ written, next.transcript = t.transcript ++ written ∧
    (∀ line, attempt.resultLine? = some line → .out line ∈ written) ∧
    (∀ line, attempt.errorLine? = some line → .diag line ∈ written)

theorem transcript_writeHost (t : TopLevel) (bytes : List UInt8) :
    ∃ written, (t.writeHost bytes).transcript = t.transcript ++ written := by
  unfold writeHost
  split
  · exact ⟨[], (List.append_nil _).symm⟩
  · exact ⟨_, rfl⟩

theorem transcript_writeListings (t : TopLevel) :
    ∃ written, t.writeListings.transcript = t.transcript ++ written := by
  unfold writeListings
  split
  · exact ⟨_, rfl⟩
  · exact ⟨[], (List.append_nil _).symm⟩

theorem transcript_conclude (t : TopLevel) (u : SourceUnit) (result : Except UnitError Outcome) :
    Answered (.handled u result) t (t.conclude result) := by
  match result with
  | .error e =>
    refine ⟨[.diag ("error: " ++ e.message ++ "\n")], rfl, nofun, fun line hLine => ?_⟩
    rw [← Option.some.inj hLine]
    exact List.mem_singleton.mpr rfl
  | .ok (.evaluated x) =>
    refine ⟨[.out ("Evaluated to " ++ Binary64.valueText x ++ "\n")], rfl, fun line hLine => ?_, nofun⟩
    rw [← Option.some.inj hLine]
    exact List.mem_singleton.mpr rfl
  | .ok (.defined f) => exact ⟨[], (List.append_nil _).symm, nofun, nofun⟩
  | .ok (.declared f) => exact ⟨[], (List.append_nil _).symm, nofun, nofun⟩

theorem answered_handle (t : TopLevel) (u : SourceUnit) :
    Answered (.handled u (t.session.handle u).result) t (t.handle u) := by
  obtain ⟨hosted, hHost⟩ := transcript_writeHost
    { t with session := (t.session.handle u).session } (t.session.handle u).output
  obtain ⟨listed, hListings⟩ := transcript_writeListings
    (writeHost { t with session := (t.session.handle u).session } (t.session.handle u).output)
  obtain ⟨written, hWritten, hResult, hError⟩ := transcript_conclude
    (writeHost { t with session := (t.session.handle u).session }
      (t.session.handle u).output).writeListings u (t.session.handle u).result
  refine ⟨hosted ++ listed ++ written, ?_,
    fun line hLine => List.mem_append_right _ (hResult line hLine),
    fun line hLine => List.mem_append_right _ (hError line hLine)⟩
  refine hWritten.trans ?_
  rw [hListings, hHost, List.append_assoc, List.append_assoc, List.append_assoc]

/-- A turn that reads a unit answers it. -/
theorem Takes.answered (h : t.Takes turn next) {u : SourceUnit} {result : Except UnitError Outcome}
    (hAttempt : turn.attempt = some (.handled u result)) : Answered (.handled u result) t next := by
  cases h with
  | separator => cases hAttempt
  | @unit u' after =>
    rw [← Option.some.inj hAttempt]
    obtain ⟨written, hWritten⟩ := answered_handle (t.withLexer after) u'
    exact ⟨written, hWritten⟩
  | fault => cases hAttempt

/-! ## Runs -/

/-- Whenever a token of the input is ahead, there have been as many reads as its line says, each of
which delivered a line.  After a read that found no line, as many have been made as there are lines and
one more, and there is no other one.  The lexer of a run is at every turn one of those, and when a
unit has been read it is answered at once: if a semicolon follows, no line below it has been asked for. -/
theorem run_onDemand (s : Session) (input : Input) :
    (∀ lexer, Lexer.Arises input lexer →
      (∀ lexeme, lexer.ahead = some lexeme → lexeme.token ≠ .endOfInput →
        lexer.reads = lexeme.location.line ∧ lexer.cursor.finished = false ∧
          lexer.cursor.input.lines = input.lines.drop lexeme.location.line) ∧
      lexer.reads ≤ input.lines.length + 1 ∧
      (lexer.cursor.finished = true → lexer.reads = input.lines.length + 1 ∧
        lexer.looked.reads = lexer.reads ∧ lexer.advance.reads = lexer.reads)) ∧
    Lexer.Arises input (start s input).run.lexer ∧
    ∀ turns t, Turns (start s input) turns t → Lexer.Arises input t.lexer ∧
      ∀ turn next, t.Takes turn next → Lexer.Arises input next.lexer ∧
        ∀ u result, turn.attempt = some (.handled u result) →
          Answered (.handled u result) t next ∧
          (next.lexer.peek = .char ';' → next.lexer.reads ≤ next.lexer.look.1.location.line) := by
  have hStart : Lexer.Arises input (start s input).lexer := .start
  refine ⟨fun lexer hArises => ?_, ?_, fun turns t hTurns => ⟨hTurns.arises hStart, ?_⟩⟩
  · have hOnDemand := hArises.onDemand
    exact ⟨fun lexeme => hOnDemand.reads_eq_line, hOnDemand.reads_le, hOnDemand.reads_of_finished⟩
  · obtain ⟨turns, last, hTurns, -, hRun⟩ := exists_turns (start s input) (Lexer.genuine_ofInput input)
    rw [hRun]
    exact (hTurns.arises hStart).looked
  · intro turn next hTakes
    have hNext := hTakes.arises (hTurns.arises hStart)
    refine ⟨hNext, fun u result hAttempt => ⟨hTakes.answered hAttempt, fun hSemicolon => ?_⟩⟩
    refine hNext.onDemand.reads_le_line fun hEnd => ?_
    cases hSemicolon.symm.trans hEnd

/-- A comment, a unit with a semicolon behind it, and two lines that are not needed for it. -/
def commentedInput : Input :=
  .ofLines ["# a comment\n", " a ; b", "c"] none

/-- The lexer that has shown all of it. -/
def commentedEnd : Lexer :=
  (Lexer.ofInput commentedInput).advance.advance.advance.advance.looked

theorem run_onDemand_commentedInput : ∃ t turn next u result lexeme,
    t.lexer.looked.ahead = some lexeme ∧ lexeme.token ≠ .endOfInput ∧
    t.lexer.looked.reads = lexeme.location.line ∧
    commentedEnd.cursor.finished = true ∧ commentedEnd.advance.reads = 4 ∧
    Turns (start (.start Config.standard) commentedInput) [] t ∧ t.Takes turn next ∧
    turn.attempt = some (.handled u result) ∧ Answered (.handled u result) t next ∧
    next.lexer.peek = .char ';' ∧ next.lexer.reads ≤ next.lexer.look.1.location.line := by
  obtain ⟨hMoments, -, hRun⟩ := run_onDemand (.start Config.standard) commentedInput
  have hRead : (Rule.sourceUnit Config.standard.precedence .expression).run
      (Lexer.ofInput commentedInput) =
      (.ok (.expression { signature := Signature.unnamed, body := .variable "a" }),
        (Lexer.ofInput commentedInput).advance.looked) := rfl
  have hShown : (Lexer.ofInput commentedInput).lexemes = [(Lexer.ofInput commentedInput).look.1] ++
      (Lexer.ofInput commentedInput).advance.looked.lexemes := by
    rw [Lexer.lexemes_looked]
    exact Lexer.lexemes_of_input rfl
  have hTakes := Takes.unit (t := start (.start Config.standard) commentedInput) hRead hShown
  have hAhead : Lexer.Arises commentedInput (Lexer.ofInput commentedInput).looked := .looked .start
  have hEnd : Lexer.Arises commentedInput commentedEnd :=
    .looked (.advance (.advance (.advance (.advance .start))))
  have hLine := (hMoments _ hAhead).1 _ rfl Token.noConfusion
  have hLast := (hMoments _ hEnd).2.2 rfl
  obtain ⟨hAnswered, hReads⟩ := ((hRun [] _ .nil).2 _ _ hTakes).2 _ _ rfl
  have hSemicolon : ((Lexer.ofInput commentedInput).advance.looked).peek = .char ';' := rfl
  rw [lexer_handle] at hReads
  refine ⟨_, _, _, _, _, _, rfl, Token.noConfusion, hLine.1, rfl, ?_, .nil, hTakes, rfl, hAnswered, ?_, ?_⟩
  · exact hLast.2.2.trans hLast.1
  · rw [lexer_handle]
    exact hSemicolon
  · rw [lexer_handle]
    exact hReads hSemicolon

end TopLevel

end LiveCompiler
