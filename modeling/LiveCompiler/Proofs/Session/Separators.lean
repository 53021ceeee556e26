import LiveCompiler.Proofs.Grammar.Sight
import LiveCompiler.Proofs.Session.Readings
import Mathlib.Data.List.Forall2

/-!
# Inputs can be cut at semicolons

No rule drops a semicolon, unless it is an operator.  So a reading that begins before a semicolon
ends before it: either the unit was complete there, or the semicolon was the token that was
refused, and the loop drops it.  What comes behind is read as if the input began there
(`Lexer.readAll_of_upTo`), and a session that is given both parts one after the other does the same
as with the whole (`TopLevel.run_goesOn`).

Two relations between lexers carry this, each of them one that the rules respect.  `UpTo` holds
between a lexer that comes to its end behind a semicolon and one that goes on there; `Relocated`
holds between lexers that show the same tokens at other places.
-/

namespace LiveCompiler

/-- The same reading of an input that begins at another place. -/
def Reading.moved (place : Location → Location) (reading : Reading) : Reading :=
  reading.mapError (SyntaxError.moved place)

theorem Reading.moved_id (reading : Reading) : reading.moved id = reading := by
  cases reading <;> rfl

namespace Lexer

variable {table : OperatorTable} {place : Location → Location} {rel rel' : Lexer → Lexer → Prop}
  {l w : Lexer}

/-! ## Readings on lexers that match -/

/-- A unit is read alike on lexers that match.  After an error one more token is dropped. -/
theorem Matching.readUnit (hMatching : Matching table place rel) (hRel : rel l w)
    (kind : SourceUnit.Kind) :
    (w.readUnit table kind).1 = Reading.moved place (l.readUnit table kind).1 ∧
      ∃ l' w', rel l' w' ∧
        ((l.readUnit table kind).2 = l' ∧ (w.readUnit table kind).2 = w' ∨
          (l.readUnit table kind).2 = l'.advance ∧ (w.readUnit table kind).2 = w'.advance) := by
  have hSees : Rule.Sees table (fun _ => True) (Rule.sourceUnit table kind) :=
    Rule.sees_sourceUnit kind
  obtain ⟨hResult, hAfter⟩ := hSees place rel hMatching l w hRel trivial
  unfold Lexer.readUnit
  generalize (Rule.sourceUnit table kind).run l = r at hResult hAfter ⊢
  generalize (Rule.sourceUnit table kind).run w = q at hResult hAfter ⊢
  obtain ⟨result, after⟩ := r
  obtain ⟨result', after'⟩ := q
  obtain rfl := hResult
  cases result with
  | ok u => exact ⟨rfl, after, after', hAfter, .inl ⟨rfl, rfl⟩⟩
  | error e => exact ⟨rfl, after, after', hAfter, .inr ⟨rfl, rfl⟩⟩

/-- A turn is the same on lexers that match.  Where the loop itself drops a token they need not
match any more. -/
theorem Matching.turn? (hMatching : Matching table place rel)
    (hSame : ∀ l w, rel l w → rel' l w) (hDrop : ∀ l w, rel l w → rel' l.advance w.advance)
    (hRel : rel l w) :
    (l.turn? table = none → w.turn? table = none) ∧
      ∀ read after, l.turn? table = some (read, after) →
        ∃ after', w.turn? table = some (read.map (Reading.moved place), after') ∧
          rel' after after' := by
  have hPeek : w.peek = l.peek := Rule.peek_eq hMatching hRel
  by_cases hEnd : l.peek = .endOfInput
  · rw [turn?_of_endOfInput hEnd, turn?_of_endOfInput (hPeek.trans hEnd)]
    exact ⟨fun _ => rfl, nofun⟩
  by_cases hSemicolon : l.peek = .char ';'
  · rw [turn?_of_semicolon hSemicolon, turn?_of_semicolon (hPeek.trans hSemicolon)]
    refine ⟨nofun, fun read after h => ?_⟩
    cases h
    exact ⟨_, rfl, hDrop l w hRel⟩
  · rw [turn?_of_begins hEnd hSemicolon, turn?_of_begins (hPeek ▸ hEnd) (hPeek ▸ hSemicolon), hPeek]
    refine ⟨nofun, fun read after h => ?_⟩
    cases h
    obtain ⟨hReading, l', w', hRel', hAfter⟩ := hMatching.readUnit hRel (TopLevel.kindAt l.peek)
    refine ⟨_, by rw [hReading]; rfl, ?_⟩
    rcases hAfter with ⟨hl, hw⟩ | ⟨hl, hw⟩
    · rw [hl, hw]
      exact hSame l' w' hRel'
    · rw [hl, hw]
      exact hDrop l' w' hRel'

/-! ## The same tokens at other places -/

/-- A lexer shows the tokens of another one at other places. -/
structure Relocated (place : Location → Location) (l w : Lexer) : Prop where
  genuine : l.Genuine
  genuine' : w.Genuine
  lexemes_eq : w.lexemes = l.lexemes.map (Lexeme.moved place)

theorem Relocated.look (h : Relocated place l w) : w.look.1 = l.look.1.moved place := by
  obtain ⟨rest, hRest⟩ := l.lexemes_eq_cons
  have hShown : w.lexemes = l.look.1.moved place :: rest.map (Lexeme.moved place) := by
    rw [h.lexemes_eq, hRest]
    rfl
  exact look_of_lexemes hShown

theorem Relocated.advance (h : Relocated place l w) : Relocated place l.advance w.advance := by
  refine ⟨genuine_advance l, genuine_advance w, ?_⟩
  have hPeek : w.peek = l.peek := (congrArg Lexeme.token h.look).trans rfl
  by_cases hInput : l.peek.isInput = true
  · have hAll := h.lexemes_eq
    rw [lexemes_of_input hInput, lexemes_of_input (hPeek ▸ hInput)] at hAll
    exact (List.cons.inj hAll).2
  · have hEnd : l.peek = .endOfInput :=
      Token.eq_endOfInput_iff.mpr (Bool.eq_false_iff.mpr hInput)
    rw [lexemes_advance_of_end h.genuine hEnd,
      lexemes_advance_of_end h.genuine' (hPeek.trans hEnd)]
    exact h.lexemes_eq

theorem matching_relocated (table : OperatorTable) (place : Location → Location) :
    Matching table place (Relocated place) where
  look h := h.look
  looked h := ⟨h.genuine.looked, h.genuine'.looked, by
    rw [lexemes_looked, lexemes_looked, h.lexemes_eq]⟩
  advance h _ := h.advance

theorem Relocated.turn? (h : Relocated place l w) :
    (l.turn? table = none → w.turn? table = none) ∧
      ∀ read after, l.turn? table = some (read, after) →
        ∃ after', w.turn? table = some (read.map (Reading.moved place), after') ∧
          Relocated place after after' :=
  (matching_relocated table place).turn? (fun _ _ h => h) (fun _ _ h => h.advance) h

/-- What is read does not depend on the places of the tokens. -/
theorem readAll_of_relocated (h : Relocated place l w) :
    (w.readAll table).1 = (l.readAll table).1.map (Reading.moved place) := by
  fun_induction readAll table l generalizing w with
  | case1 l hNone =>
    rw [readAll_of_none (h.turn?.1 hNone)]
    rfl
  | case2 l read after hSome ih =>
    obtain ⟨after', hSome', hAfter⟩ := h.turn?.2 read after hSome
    rw [readAll_of_some hSome', List.map_append, ih hAfter]

/-! ## Up to a semicolon -/

/-- Two lexers show the same tokens up to a semicolon.  One of them comes to its end there, and the
other one goes on. -/
def UpTo (stop finish : Lexeme) (tail : List Lexeme) (l w : Lexer) : Prop :=
  ∃ front, l.lexemes = front ++ [stop, finish] ∧ w.lexemes = front ++ stop :: tail

/-- The semicolon has been dropped. -/
def Past (finish : Lexeme) (tail : List Lexeme) (l w : Lexer) : Prop :=
  l.lexemes = [finish] ∧ w.lexemes = tail ∧ w.Genuine

variable {stop finish : Lexeme} {tail : List Lexeme}

theorem UpTo.look (h : UpTo stop finish tail l w) : w.look.1 = l.look.1 := by
  obtain ⟨front, hl, hw⟩ := h
  cases front with
  | nil => rw [look_of_lexemes hl, look_of_lexemes hw]
  | cons first rest => rw [look_of_lexemes hl, look_of_lexemes hw]

/-- Dropping a token is dropping the semicolon, or a token before it. -/
theorem UpTo.advance (h : UpTo stop finish tail l w) (hTail : tail ≠ []) :
    UpTo stop finish tail l.advance w.advance ∨
      l.peek = stop.token ∧ Past finish tail l.advance w.advance := by
  obtain ⟨front, hl, hw⟩ := h
  have hMore : ∀ {lexer : Lexer} {first : Lexeme} {rest : List Lexeme},
      lexer.lexemes = first :: rest → rest ≠ [] → lexer.advance.lexemes = rest := by
    intro lexer first rest hShown hRest
    obtain ⟨next, rest, rfl⟩ := List.exists_cons_of_ne_nil hRest
    exact (lexemes_advance hShown).2
  cases front with
  | nil =>
    have hStop : l.peek = stop.token := congrArg Lexeme.token (look_of_lexemes hl)
    exact .inr ⟨hStop, hMore hl (List.cons_ne_nil _ _), hMore hw hTail, genuine_advance w⟩
  | cons first rest =>
    exact .inl ⟨rest, hMore hl (by simp), hMore hw (by simp)⟩

/-- No rule gets past the semicolon. -/
theorem matching_upTo (hTable : table.get? ';' = none) (hStop : stop.token = .char ';')
    (hTail : tail ≠ []) : Matching table id (UpTo stop finish tail) where
  look h := h.look
  looked := by
    rintro l w ⟨front, hl, hw⟩
    exact ⟨front, by rw [lexemes_looked, hl], by rw [lexemes_looked, hw]⟩
  advance := by
    intro l w h hDrops
    refine (h.advance hTail).resolve_right fun hPast => ?_
    rw [hPast.1, hStop] at hDrops
    rcases hDrops with hPunctuation | hOperator
    · exact absurd hPunctuation (by decide)
    · rw [hTable] at hOperator
      cases hOperator

theorem UpTo.turn? (h : UpTo stop finish tail l w) (hTable : table.get? ';' = none)
    (hStop : stop.token = .char ';') (hTail : tail ≠ []) {read : List Reading} {after : Lexer}
    (hSome : l.turn? table = some (read, after)) :
    ∃ after', w.turn? table = some (read, after') ∧
      (UpTo stop finish tail after after' ∨ Past finish tail after after') := by
  obtain ⟨-, hTurn⟩ := (matching_upTo hTable hStop hTail).turn?
    (fun _ _ h => Or.inl h) (fun _ _ h => (h.advance hTail).imp_right And.right) h
  have hSame : read.map (Reading.moved id) = read :=
    (List.map_congr_left fun reading _ => reading.moved_id).trans (List.map_id' read)
  exact hSame ▸ hTurn read after hSome

/-- Before the semicolon there is something to be read. -/
theorem UpTo.turn?_ne_none (h : UpTo stop finish tail l w) : l.turn? table ≠ none := by
  obtain ⟨front, hl, -⟩ := h
  have hInput : l.peek.isInput = true := by
    cases front with
    | nil => exact (lexemes_advance hl).1
    | cons first rest =>
      obtain ⟨next, more, hMore⟩ := List.exists_cons_of_ne_nil (l := rest ++ [stop, finish]) (by simp)
      rw [List.cons_append, hMore] at hl
      exact (lexemes_advance hl).1
  by_cases hSemicolon : l.peek = .char ';'
  · rw [turn?_of_semicolon hSemicolon]
    exact Option.some_ne_none _
  · rw [turn?_of_begins (fun hEnd => by rw [hEnd] at hInput; cases hInput) hSemicolon]
    exact Option.some_ne_none _

/-- What is read up to a semicolon, and behind it. -/
theorem readAll_of_upTo {second : Lexer} (hTable : table.get? ';' = none)
    (hStop : stop.token = .char ';') (hSecond : second.Genuine)
    (hTail : tail = second.lexemes.map (Lexeme.moved place))
    (h : UpTo stop finish tail l w ∨ Past finish tail l w) :
    (w.readAll table).1 =
      (l.readAll table).1 ++ (second.readAll table).1.map (Reading.moved place) := by
  have hNe : tail ≠ [] := by
    obtain ⟨rest, hRest⟩ := second.lexemes_eq_cons
    rw [hTail, hRest]
    exact List.cons_ne_nil _ _
  fun_induction readAll table l generalizing w with
  | case1 l hNone =>
    rcases h with hUpTo | ⟨-, hw, hGenuine⟩
    · exact absurd hNone hUpTo.turn?_ne_none
    · exact readAll_of_relocated ⟨hSecond, hGenuine, hw.trans hTail⟩
  | case2 l read after hSome ih =>
    rcases h with hUpTo | ⟨hl, -, -⟩
    · obtain ⟨after', hSome', hAfter⟩ := hUpTo.turn? hTable hStop hNe hSome
      rw [readAll_of_some hSome', ih hAfter, List.append_assoc]
    · rw [turn?_of_endOfInput (peek_of_lexemes_singleton hl)] at hSome
      cases hSome

end Lexer

/-! ## Runs -/

/-- The same thing written, or the same syntax error with another place. -/
inductive Written.Moved (place : Location → Location) : Written → Written → Prop
  | same (w : Written) : Moved place w w
  | syntaxError (e : SyntaxError) : Moved place (.diag ("error: " ++ e.message ++ "\n"))
      (.diag ("error: " ++ (e.moved place).message ++ "\n"))

instance : Add Summary where
  add s s' :=
    { units := s.units + s'.units
      errors := s.errors + s'.errors
      evaluations := s.evaluations + s'.evaluations }

namespace TopLevel

/-- A run goes on where another one ended: what it has done since then is what a third one did from
its start, the places of syntax errors apart. -/
structure GoesOn (place : Location → Location) (first second whole : TopLevel) : Prop where
  session_eq : whole.session = second.session
  written : ∃ later, whole.transcript = first.transcript ++ later ∧
    List.Forall₂ (Written.Moved place) second.transcript later
  summary_eq : whole.summary = first.summary + second.summary

variable {place : Location → Location} {first second whole : TopLevel}

theorem GoesOn.write_moved (h : GoesOn place first second whole) {w w' : Written}
    (hMoved : Written.Moved place w w') :
    GoesOn place first (second.write w) (whole.write w') := by
  obtain ⟨later, hTranscript, hLater⟩ := h.written
  refine ⟨h.session_eq, ⟨later ++ [w'], ?_, ?_⟩, h.summary_eq⟩
  · rw [← List.append_assoc, ← hTranscript]
    rfl
  · exact List.rel_append hLater (.cons hMoved .nil)

theorem GoesOn.write (h : GoesOn place first second whole) (w : Written) :
    GoesOn place first (second.write w) (whole.write w) :=
  h.write_moved (.same w)

theorem GoesOn.writeHost (h : GoesOn place first second whole) (bytes : List UInt8) :
    GoesOn place first (second.writeHost bytes) (whole.writeHost bytes) := by
  unfold TopLevel.writeHost
  split
  · exact h
  · exact h.write _

theorem GoesOn.withSession (h : GoesOn place first second whole) (s : Session) :
    GoesOn place first { second with session := s } { whole with session := s } :=
  ⟨rfl, h.written, h.summary_eq⟩

theorem GoesOn.writeListings (h : GoesOn place first second whole) :
    GoesOn place first second.writeListings whole.writeListings := by
  unfold TopLevel.writeListings
  rw [h.session_eq]
  split
  · exact (h.withSession _).write _
  · exact h.withSession _

theorem GoesOn.countUnit (h : GoesOn place first second whole) :
    GoesOn place first second.countUnit whole.countUnit :=
  ⟨h.session_eq, h.written, by simp only [TopLevel.countUnit, h.summary_eq]; rfl⟩

theorem GoesOn.countEvaluation (h : GoesOn place first second whole) :
    GoesOn place first second.countEvaluation whole.countEvaluation :=
  ⟨h.session_eq, h.written, by simp only [TopLevel.countEvaluation, h.summary_eq]; rfl⟩

theorem GoesOn.report_moved (h : GoesOn place first second whole) {message message' : String}
    (hMoved : Written.Moved place (.diag ("error: " ++ message ++ "\n"))
      (.diag ("error: " ++ message' ++ "\n"))) :
    GoesOn place first (second.report message) (whole.report message') := by
  have hWritten := h.write_moved hMoved
  exact ⟨hWritten.session_eq, hWritten.written, by
    simp only [TopLevel.report, TopLevel.write, h.summary_eq]; rfl⟩

theorem GoesOn.conclude (h : GoesOn place first second whole)
    (result : Except UnitError Outcome) :
    GoesOn place first (second.conclude result) (whole.conclude result) := by
  unfold TopLevel.conclude
  split
  · exact (h.write _).countUnit.countEvaluation
  · exact h.countUnit
  · exact h.report_moved (.same _)

theorem GoesOn.take (h : GoesOn place first second whole) (reading : Reading) :
    GoesOn place first (second.take reading) (whole.take (reading.moved place)) := by
  cases reading with
  | error e => exact h.report_moved (.syntaxError e)
  | ok u =>
    show GoesOn place first (second.handle u) (whole.handle u)
    unfold TopLevel.handle
    rw [h.session_eq]
    exact (((h.withSession _).writeHost _).writeListings).conclude _

theorem GoesOn.foldl_take (readings : List Reading) : ∀ {second whole : TopLevel},
    GoesOn place first second whole →
    GoesOn place first (readings.foldl TopLevel.take second)
      ((readings.map (Reading.moved place)).foldl TopLevel.take whole) := by
  induction readings with
  | nil => exact fun h => h
  | cons reading rest ih => exact fun h => ih (h.take reading)

/-- A session that is given one input that ends with a semicolon, and then another one, does the
same as with both inputs in one, the places of the second one's tokens apart.  Units and syntax
errors are read in either case as they stand in one input or the other. -/
theorem run_goesOn (s : Session) (hTable : s.config.precedence.get? ';' = none)
    {first second whole : Input} {front : List Lexeme} {stop finish : Lexeme}
    {place : Location → Location} (hStop : stop.token = .char ';')
    (hFirst : (Lexer.ofInput first).lexemes = front ++ [stop, finish])
    (hWhole : (Lexer.ofInput whole).lexemes =
      front ++ stop :: (Lexer.ofInput second).lexemes.map (Lexeme.moved place)) :
    ((Lexer.ofInput whole).readAll s.config.precedence).1 =
        ((Lexer.ofInput first).readAll s.config.precedence).1 ++
          ((Lexer.ofInput second).readAll s.config.precedence).1.map (Reading.moved place) ∧
      GoesOn place (start s first).run (start (start s first).run.session second).run
        (start s whole).run := by
  have hReadings := Lexer.readAll_of_upTo hTable hStop (Lexer.genuine_ofInput second) rfl
    (.inl ⟨front, hFirst, hWhole⟩)
  refine ⟨hReadings, ?_⟩
  have hConfig : (start s first).run.session.config = s.config := by
    rw [run_eq_foldl]
    exact config_foldl_take _ _
  have hMoved : start s whole = (start s first).withLexer (Lexer.ofInput whole) := rfl
  -- The whole run goes on from the state in which the first one ends, with its lexer elsewhere.
  have hWholeRun : (start s whole).run =
      ((((Lexer.ofInput second).readAll s.config.precedence).1.map (Reading.moved place)).foldl take
        (start s first).run).withLexer ((Lexer.ofInput whole).readAll s.config.precedence).2 :=
    calc
      (start s whole).run
        = (((Lexer.ofInput whole).readAll s.config.precedence).1.foldl take
            (start s whole)).withLexer _ := run_eq_foldl _
      _ = (((Lexer.ofInput whole).readAll s.config.precedence).1.foldl take
            (start s first)).withLexer _ := by rw [hMoved, foldl_take_withLexer]; rfl
      _ = ((((Lexer.ofInput second).readAll s.config.precedence).1.map
            (Reading.moved place)).foldl take
              (((Lexer.ofInput first).readAll s.config.precedence).1.foldl take
                (start s first))).withLexer _ := by rw [hReadings, List.foldl_append]
      _ = _ := by rw [run_eq_foldl (start s first), foldl_take_withLexer]; rfl
  have hStart : GoesOn place (start s first).run (start (start s first).run.session second)
      (start s first).run :=
    ⟨rfl, ⟨[], (List.append_nil _).symm, .nil⟩, rfl⟩
  have hAll := hStart.foldl_take ((Lexer.ofInput second).readAll s.config.precedence).1
  rw [hWholeRun, run_eq_foldl (start _ second),
    show (start (start s first).run.session second).session.config = s.config from hConfig]
  exact ⟨hAll.session_eq, hAll.written, hAll.summary_eq⟩

/-- A loop without its bounds, an operator without its operand, and a call that is never closed. -/
def brokenInput : Input :=
  .ofLines ["def f(x) for i = 1; 2 + ;\n", "f(1, (2; # comment\n", "def g() 7;\n"] none

/-- A signature without a name, and three units. -/
def laterInput : Input :=
  .ofLines ["extern 5;\n", "extern putd(x); g() + 1;\n", "g(1)"] none

/-- Whether a token is a certain character. -/
def isChar (c : Char) (lexeme : Lexeme) : Bool :=
  match lexeme.token with
  | .char found => found == c
  | _ => false

theorem token_of_isChar {c : Char} {lexeme : Lexeme} (h : isChar c lexeme = true) :
    lexeme.token = .char c := by
  unfold isChar at h
  split at h
  · rename_i found hToken
    rw [hToken, beq_iff_eq.mp h]
  · cases h

theorem run_goesOn_brokenInput : ∃ front stop finish,
    Config.standard.precedence.get? ';' = none ∧ stop.token = .char ';' ∧
    (Lexer.ofInput brokenInput).lexemes = front ++ [stop, finish] ∧
    (Lexer.ofInput (brokenInput.followedBy laterInput)).lexemes =
      front ++ stop :: (Lexer.ofInput laterInput).lexemes.map
        (Lexeme.moved (Location.below finish.location)) ∧
    ((Lexer.ofInput (brokenInput.followedBy laterInput)).readAll Config.standard.precedence).1 =
        ((Lexer.ofInput brokenInput).readAll Config.standard.precedence).1 ++
          ((Lexer.ofInput laterInput).readAll Config.standard.precedence).1.map
            (Reading.moved (Location.below finish.location)) ∧
      GoesOn (Location.below finish.location) (start (.start Config.standard) brokenInput).run
        (start (start (.start Config.standard) brokenInput).run.session laterInput).run
        (start (.start Config.standard) (brokenInput.followedBy laterInput)).run := by
  obtain ⟨front, finish, hFirst, hWhole⟩ := Lexer.lexemes_followedBy brokenInput laterInput
  have hLast : (Lexer.ofInput brokenInput).lexemes.dropLast.getLast?.any (isChar ';') = true := by
    decide +kernel
  rw [hFirst, List.dropLast_concat, Option.any_eq_true] at hLast
  obtain ⟨stop, hStop, hSemicolon⟩ := hLast
  obtain ⟨front, rfl⟩ := List.getLast?_eq_some_iff.mp hStop
  rw [List.append_assoc] at hFirst hWhole
  have hToken := token_of_isChar hSemicolon
  exact ⟨front, stop, finish, rfl, hToken, hFirst, hWhole,
    run_goesOn (.start Config.standard) rfl hToken hFirst hWhole⟩

end TopLevel

end LiveCompiler
