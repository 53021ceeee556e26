import LiveCompiler.Proofs.Grammar.Height
import LiveCompiler.Proofs.Session.Units
import LiveCompiler.Session.TopLevel

/-!
# What the loop reads

The loop reads a unit, hands it to the session, and reads on.  What it reads is settled by the
input and the table of operators alone: `Lexer.readAll` lists the units of an input, and the syntax
errors between them, without a session.  A run is a fold over these readings
(`TopLevel.run_eq_foldl`).
-/

namespace LiveCompiler

/-- A session that has no listings to give out and makes none. -/
structure Session.Quiet (s : Session) : Prop where
  dumpIr : s.config.dumpIr = false
  queued : s.queuedListings = ""

theorem Session.Quiet.handle {s : Session} (h : s.Quiet) (u : SourceUnit) :
    (s.handle u).session.Quiet := by
  obtain ⟨hConfig, hQueued⟩ := s.handle_keeps u
  exact ⟨by rw [hConfig]; exact h.dumpIr, (hQueued h.dumpIr).trans h.queued⟩

theorem Session.Quiet.takeListings {s : Session} (h : s.Quiet) : s.takeListings = (none, s) := by
  unfold Session.takeListings
  rw [if_pos (by rw [h.queued]; rfl)]

/-- Taking the listings leaves the settings and the image as they are. -/
theorem Session.takeListings_keeps (s : Session) :
    s.takeListings.2.config = s.config ∧ s.takeListings.2.image = s.image := by
  unfold Session.takeListings
  split <;> exact ⟨rfl, rfl⟩

/-- What is read at one place: a unit, or the error of a text that is none. -/
abbrev Reading := Except SyntaxError SourceUnit

namespace Lexer

/-- Read a unit of a kind.  The token that was refused is dropped. -/
def readUnit (table : OperatorTable) (kind : SourceUnit.Kind) (lexer : Lexer) : Reading × Lexer :=
  match (Rule.sourceUnit table kind).run lexer with
  | (.ok u, after) => (.ok u, after)
  | (.error e, after) => (.error e, after.advance)

theorem remaining_readUnit_lt (table : OperatorTable) (kind : SourceUnit.Kind) {lexer : Lexer}
    (hInput : lexer.peek.isInput = true) :
    (lexer.readUnit table kind).2.remaining < lexer.remaining := by
  have hProductive := Rule.isProductive_sourceUnit table kind
  unfold readUnit
  split
  · rename_i u after hRun
    exact hProductive.used_of_ok hRun
  · rename_i e after hRun
    exact hProductive.remaining_advance_lt hInput hRun

/-- One turn of the loop: what is read, if anything, and where the lexer stands then.  A semicolon
between units is dropped. -/
def turn? (table : OperatorTable) (lexer : Lexer) : Option (List Reading × Lexer) :=
  match lexer.peek with
  | .endOfInput => none
  | .char ';' => some ([], lexer.advance)
  | token =>
    let read := lexer.readUnit table (TopLevel.kindAt token)
    some ([read.1], read.2)

section

variable {table : OperatorTable} {lexer after : Lexer} {read : List Reading}

theorem turn?_of_endOfInput (h : lexer.peek = .endOfInput) : lexer.turn? table = none := by
  simp only [turn?, h]

theorem turn?_of_semicolon (h : lexer.peek = .char ';') :
    lexer.turn? table = some ([], lexer.advance) := by
  simp only [turn?, h]

theorem turn?_of_begins (hEnd : lexer.peek ≠ .endOfInput) (hSemicolon : lexer.peek ≠ .char ';') :
    lexer.turn? table = some ([(lexer.readUnit table (TopLevel.kindAt lexer.peek)).1],
      (lexer.readUnit table (TopLevel.kindAt lexer.peek)).2) := by
  unfold turn?
  split
  · contradiction
  · contradiction
  · rfl

/-- A turn drops a semicolon or reads a unit. -/
theorem turn?_eq_some (h : lexer.turn? table = some (read, after)) :
    lexer.peek.isInput = true ∧ (read = [] ∧ after = lexer.advance ∨
      ∃ kind, read = [(lexer.readUnit table kind).1] ∧ after = (lexer.readUnit table kind).2) := by
  by_cases hEnd : lexer.peek = .endOfInput
  · rw [turn?_of_endOfInput hEnd] at h
    cases h
  have hInput : lexer.peek.isInput = true := by
    cases hPeek : lexer.peek with
    | endOfInput => exact absurd hPeek hEnd
    | _ => rfl
  refine ⟨hInput, ?_⟩
  by_cases hSemicolon : lexer.peek = .char ';'
  · rw [turn?_of_semicolon hSemicolon] at h
    cases h
    exact .inl ⟨rfl, rfl⟩
  · rw [turn?_of_begins hEnd hSemicolon] at h
    cases h
    exact .inr ⟨_, rfl, rfl⟩

theorem remaining_turn?_lt (h : lexer.turn? table = some (read, after)) :
    after.remaining < lexer.remaining := by
  obtain ⟨hInput, ⟨-, rfl⟩ | ⟨kind, -, rfl⟩⟩ := turn?_eq_some h
  · exact lexer.remaining_advance_lt hInput
  · exact remaining_readUnit_lt table kind hInput

end

/-- What is read until the input ends, and where the lexer stands in the end. -/
def readAll (table : OperatorTable) (lexer : Lexer) : List Reading × Lexer :=
  match _h : lexer.turn? table with
  | none => ([], lexer.looked)
  | some (read, after) => (read ++ (readAll table after).1, (readAll table after).2)
termination_by lexer.remaining
decreasing_by all_goals exact remaining_turn?_lt _h

theorem readAll_of_none {table : OperatorTable} {lexer : Lexer} (h : lexer.turn? table = none) :
    lexer.readAll table = ([], lexer.looked) := by
  rw [readAll, h]

theorem readAll_of_some {table : OperatorTable} {lexer after : Lexer} {read : List Reading}
    (h : lexer.turn? table = some (read, after)) :
    lexer.readAll table = (read ++ (after.readAll table).1, (after.readAll table).2) := by
  rw [readAll, h]

/-- The units that are read until the input ends. -/
def units (table : OperatorTable) (lexer : Lexer) : List SourceUnit :=
  (lexer.readAll table).1.filterMap Except.toOption

end Lexer

namespace TopLevel

/-- Hand a reading to the session, or report why it is no unit. -/
def take (t : TopLevel) : Reading → TopLevel
  | .ok u => t.handle u
  | .error e => t.report e.message

/-- The same state with the lexer at another place. -/
def withLexer (t : TopLevel) (lexer : Lexer) : TopLevel :=
  { t with lexer := lexer }

theorem readUnit_eq (t : TopLevel) (kind : SourceUnit.Kind) :
    t.readUnit kind =
      (t.withLexer (t.lexer.readUnit t.session.config.precedence kind).2).take
        (t.lexer.readUnit t.session.config.precedence kind).1 := by
  unfold readUnit Lexer.readUnit
  generalize (Rule.sourceUnit t.session.config.precedence kind).run t.lexer = ran
  obtain ⟨_ | u, after⟩ := ran <;> rfl

theorem step?_eq (t : TopLevel) :
    t.step? = (t.lexer.turn? t.session.config.precedence).map fun turn =>
      turn.1.foldl take (t.withLexer turn.2) := by
  unfold step?
  split
  · rename_i hEnd
    rw [Lexer.turn?_of_endOfInput hEnd]
    rfl
  · rename_i hSemicolon
    rw [Lexer.turn?_of_semicolon hSemicolon]
    rfl
  · rename_i hEnd hSemicolon
    rw [Lexer.turn?_of_begins hEnd hSemicolon, readUnit_eq]
    rfl

/-! ## The lexer makes no difference for what is written -/

theorem writeHost_withLexer (t : TopLevel) (lexer : Lexer) (bytes : List UInt8) :
    (t.withLexer lexer).writeHost bytes = (t.writeHost bytes).withLexer lexer := by
  unfold writeHost
  split <;> rfl

theorem writeListings_withLexer (t : TopLevel) (lexer : Lexer) :
    (t.withLexer lexer).writeListings = t.writeListings.withLexer lexer := by
  unfold writeListings withLexer
  dsimp only
  generalize t.session.takeListings = taken
  obtain ⟨_ | listings, session⟩ := taken <;> rfl

theorem conclude_withLexer (t : TopLevel) (lexer : Lexer) (result : Except UnitError Outcome) :
    (t.withLexer lexer).conclude result = (t.conclude result).withLexer lexer := by
  unfold conclude
  split <;> rfl

theorem take_withLexer (t : TopLevel) (lexer : Lexer) (reading : Reading) :
    (t.withLexer lexer).take reading = (t.take reading).withLexer lexer := by
  cases reading with
  | error e => rfl
  | ok u =>
    let handled := t.session.handle u
    change ((withLexer { t with session := handled.session } lexer).writeHost
      handled.output).writeListings.conclude handled.result = _
    rw [writeHost_withLexer, writeListings_withLexer, conclude_withLexer]
    rfl

theorem foldl_take_withLexer (lexer : Lexer) (readings : List Reading) (t : TopLevel) :
    readings.foldl take (t.withLexer lexer) = (readings.foldl take t).withLexer lexer := by
  induction readings generalizing t with
  | nil => rfl
  | cons reading rest ih => rw [List.foldl_cons, List.foldl_cons, take_withLexer, ih]

/-! ## The session after a reading -/

@[simp] theorem session_writeHost (t : TopLevel) (bytes : List UInt8) :
    (t.writeHost bytes).session = t.session := by
  unfold writeHost
  split <;> rfl

@[simp] theorem session_writeListings (t : TopLevel) :
    t.writeListings.session = t.session.takeListings.2 := by
  unfold writeListings
  generalize t.session.takeListings = taken
  obtain ⟨_ | listings, session⟩ := taken <;> rfl

@[simp] theorem session_conclude (t : TopLevel) (result : Except UnitError Outcome) :
    (t.conclude result).session = t.session := by
  unfold conclude
  split <;> rfl

theorem session_handle (t : TopLevel) (u : SourceUnit) :
    (t.handle u).session = (t.session.handle u).session.takeListings.2 := by
  simp only [handle, session_conclude, session_writeListings, session_writeHost]

theorem config_take (t : TopLevel) (reading : Reading) :
    (t.take reading).session.config = t.session.config := by
  cases reading with
  | error e => rfl
  | ok u =>
    rw [take, session_handle, (Session.takeListings_keeps _).1]
    exact (t.session.handle_keeps u).1

theorem config_foldl_take (readings : List Reading) (t : TopLevel) :
    (readings.foldl take t).session.config = t.session.config := by
  induction readings generalizing t with
  | nil => rfl
  | cons reading rest ih => rw [List.foldl_cons, ih, config_take]

/-! ## Sessions without listings -/

variable {t : TopLevel}

theorem writeListings_of_quiet (h : t.session.Quiet) : t.writeListings = t := by
  unfold writeListings
  rw [h.takeListings]

/-- The state after a unit, if there are no listings. -/
theorem handle_of_quiet (h : t.session.Quiet) (u : SourceUnit) :
    t.handle u = (writeHost { t with session := (t.session.handle u).session }
      (t.session.handle u).output).conclude (t.session.handle u).result := by
  rw [TopLevel.handle, writeListings_of_quiet]
  rw [session_writeHost]
  exact h.handle u

/-! ## Runs -/

/-- A run hands over what is read of its input, one reading after another. -/
theorem run_eq_foldl (t : TopLevel) :
    t.run = ((t.lexer.readAll t.session.config.precedence).1.foldl take t).withLexer
      (t.lexer.readAll t.session.config.precedence).2 := by
  fun_induction run t with
  | case1 t hStep =>
    rw [step?_eq, Option.map_eq_none_iff] at hStep
    rw [Lexer.readAll_of_none hStep]
    rfl
  | case2 t next hStep ih =>
    rw [step?_eq, Option.map_eq_some_iff] at hStep
    obtain ⟨⟨read, after⟩, hTurn, rfl⟩ := hStep
    -- What is read is settled by the lexer, so it may be handed over with the lexer anywhere.
    rw [config_foldl_take, foldl_take_withLexer] at ih
    rw [Lexer.readAll_of_some hTurn, foldl_take_withLexer, ih, foldl_take_withLexer]
    simp only [List.foldl_append]
    rfl

end TopLevel

/-! ## Units that are read -/

theorem Rule.gives_sourceUnit (table : OperatorTable) (kind : SourceUnit.Kind) :
    (sourceUnit table kind).Gives SourceUnit.Plain := by
  cases kind with
  | definition => exact gives_bind_any fun _ => gives_pure trivial
  | declaration => exact gives_bind_any fun _ => gives_pure trivial
  | expression =>
    have hBare : (bareExpression table).Gives fun procedure => procedure.signature.params = [] :=
      gives_bind_any fun _ => gives_pure rfl
    exact hBare.bind fun _ hParams => gives_pure hParams

namespace Lexer

variable {table : OperatorTable} {lexer after : Lexer} {read : List Reading} {u : SourceUnit}

theorem plain_of_readUnit (kind : SourceUnit.Kind) (h : (lexer.readUnit table kind).1 = .ok u) :
    u.Plain := by
  unfold readUnit at h
  split at h
  · rename_i found rest hRun
    obtain rfl := Except.ok.inj h
    exact Rule.gives_sourceUnit table kind lexer _ rest hRun
  · cases h

theorem plain_of_turn? (h : lexer.turn? table = some (read, after)) (hMem : .ok u ∈ read) :
    u.Plain := by
  obtain ⟨-, ⟨rfl, -⟩ | ⟨kind, rfl, -⟩⟩ := turn?_eq_some h
  · cases hMem
  · exact plain_of_readUnit kind (List.mem_singleton.mp hMem).symm

/-- Bare expressions are read without parameters. -/
theorem plain_of_mem_units (hMem : u ∈ lexer.units table) : u.Plain := by
  obtain ⟨reading, hReading, hUnit⟩ := List.mem_filterMap.mp hMem
  obtain rfl : reading = .ok u := by
    cases reading with
    | ok found => exact congrArg Except.ok (Option.some.inj hUnit)
    | error e => cases hUnit
  clear hMem hUnit
  fun_induction readAll table lexer with
  | case1 lexer hTurn => cases hReading
  | case2 lexer read after hTurn ih =>
    rcases List.mem_append.mp hReading with hRead | hMore
    · exact plain_of_turn? hTurn hRead
    · exact ih hMore

end Lexer

end LiveCompiler
