import LiveCompiler.Grammar.Progress
import LiveCompiler.Session.Basic
import LiveCompiler.Session.Transcript

/-!
# Running a session over an input

The loop reads a unit, hands it to the session and writes what became of it, before it
looks at the next token.  After a syntax error it drops the token that was refused and
goes on; a semicolon between units is dropped as well.  The loop ends with the input.
-/

namespace LiveCompiler

/-- Counts over a run. -/
structure Summary where
  /-- Units that were read and handled without an error. -/
  units : Nat
  /-- Errors that were written. -/
  errors : Nat
  /-- Expressions that were evaluated. -/
  evaluations : Nat
deriving DecidableEq, Repr

/-- The state of the loop. -/
structure TopLevel where
  lexer : Lexer
  session : Session
  transcript : Transcript
  summary : Summary

namespace TopLevel

/-- The start of a run over an input. -/
def start (session : Session) (input : Input) : TopLevel where
  lexer := Lexer.ofInput input
  session := session
  transcript := []
  summary := { units := 0, errors := 0, evaluations := 0 }

/-- Write something. -/
def write (t : TopLevel) (w : Written) : TopLevel :=
  { t with transcript := t.transcript ++ [w] }

/-- Write what host functions wrote, if they did. -/
def writeHost (t : TopLevel) (bytes : List UInt8) : TopLevel :=
  if bytes.isEmpty then t else t.write (.host bytes)

/-- Write a message and count an error. -/
def report (t : TopLevel) (message : String) : TopLevel :=
  let t := t.write (.diag ("error: " ++ message ++ "\n"))
  { t with summary := { t.summary with errors := t.summary.errors + 1 } }

/-- Write the listings that the session has queued. -/
def writeListings (t : TopLevel) : TopLevel :=
  match t.session.takeListings with
  | (some listings, session) => { t with session := session }.write (.diag listings)
  | (none, session) => { t with session := session }

/-- Count a unit. -/
def countUnit (t : TopLevel) : TopLevel :=
  { t with summary := { t.summary with units := t.summary.units + 1 } }

/-- Count an evaluation. -/
def countEvaluation (t : TopLevel) : TopLevel :=
  { t with summary := { t.summary with evaluations := t.summary.evaluations + 1 } }

/-- Write what became of a unit. -/
def conclude (t : TopLevel) : Except UnitError Outcome → TopLevel
  | .ok (.evaluated x) =>
    (t.write (.out ("Evaluated to " ++ Binary64.valueText x ++ "\n"))).countUnit.countEvaluation
  | .ok _ => t.countUnit
  | .error e => t.report e.message

/-- Hand a unit to the session and write what became of it.  Host output comes first, as
it is written while the unit runs. -/
def handle (t : TopLevel) (u : SourceUnit) : TopLevel :=
  let handled := t.session.handle u
  let ran := { t with session := handled.session }.writeHost handled.output
  ran.writeListings.conclude handled.result

/-- The kind of unit that a token begins. -/
def kindAt : Token → SourceUnit.Kind
  | .keyword .define => .definition
  | .keyword .external => .declaration
  | _ => .expression

/-- Read a unit of a kind and handle it, or report why it is none. -/
def readUnit (t : TopLevel) (kind : SourceUnit.Kind) : TopLevel :=
  match (Rule.sourceUnit t.session.config.precedence kind).run t.lexer with
  | (.ok u, lexer) => { t with lexer := lexer }.handle u
  -- The token that was refused is dropped, so that the next unit starts behind it.
  | (.error e, lexer) => { t with lexer := lexer.advance }.report e.message

/-- One turn of the loop; nothing at the end of input. -/
def step? (t : TopLevel) : Option TopLevel :=
  match t.lexer.peek with
  | .endOfInput => none
  | .char ';' => some { t with lexer := t.lexer.advance }
  | token => some (t.readUnit (kindAt token))

/-! ## Every turn uses a token -/

@[simp] theorem lexer_write (t : TopLevel) (w : Written) : (t.write w).lexer = t.lexer := rfl

@[simp] theorem lexer_writeHost (t : TopLevel) (bytes : List UInt8) :
    (t.writeHost bytes).lexer = t.lexer := by
  unfold writeHost
  split <;> rfl

@[simp] theorem lexer_report (t : TopLevel) (m : String) : (t.report m).lexer = t.lexer := rfl

@[simp] theorem lexer_writeListings (t : TopLevel) : t.writeListings.lexer = t.lexer := by
  unfold writeListings
  split <;> rfl

@[simp] theorem lexer_conclude (t : TopLevel) (r : Except UnitError Outcome) :
    (t.conclude r).lexer = t.lexer := by
  unfold conclude
  split <;> rfl

@[simp] theorem lexer_handle (t : TopLevel) (u : SourceUnit) : (t.handle u).lexer = t.lexer := by
  simp [handle]

theorem remaining_readUnit_lt (t : TopLevel) (kind : SourceUnit.Kind)
    (hinput : t.lexer.peek.isInput = true) :
    (t.readUnit kind).lexer.remaining < t.lexer.remaining := by
  have hproductive := Rule.isProductive_sourceUnit t.session.config.precedence kind
  unfold readUnit
  split
  · rename_i u lexer hrun
    simpa using hproductive.used_of_ok hrun
  · rename_i e lexer hrun
    simpa using hproductive.remaining_advance_lt hinput hrun

theorem remaining_step?_lt {t next : TopLevel} (h : t.step? = some next) :
    next.lexer.remaining < t.lexer.remaining := by
  unfold step? at h
  split at h
  · simp at h
  · rename_i hpeek
    obtain rfl := Option.some.inj h
    exact t.lexer.remaining_advance_lt (by rw [hpeek]; rfl)
  · rename_i hnot _
    obtain rfl := Option.some.inj h
    refine t.remaining_readUnit_lt _ ?_
    cases hpeek : t.lexer.peek with
    | endOfInput => exact absurd hpeek hnot
    | _ => rfl

/-- Turn until the end of input. -/
def run (t : TopLevel) : TopLevel :=
  match _h : t.step? with
  | none => { t with lexer := t.lexer.looked }
  | some next => run next
termination_by t.lexer.remaining
decreasing_by exact remaining_step?_lt _h

end TopLevel

/-- How a run over an input ended. -/
inductive RunResult where
  | finished (summary : Summary)
  | readFailed (message : String)
deriving DecidableEq, Repr

/-- A finished run over an input. -/
structure InputRun where
  session : Session
  transcript : Transcript
  result : RunResult
  /-- How often the input was asked for a line. -/
  reads : Nat

/-- The message for a read error. -/
def readErrorMessage (message : String) : String :=
  "I/O error: " ++ message

/-- Write the image if the settings say so. -/
def Session.imageDump (s : Session) : Transcript :=
  if s.config.dumpModule then [.diag s.image.text] else []

/-- Run a session over an input.  Unless reading failed the image is written at the end,
if the settings say so. -/
def Session.runInput (s : Session) (input : Input) : InputRun :=
  let t := (TopLevel.start s input).run
  match t.lexer.takeFailure.1 with
  | some message =>
    { session := t.session
      transcript := t.transcript
      result := .readFailed message
      reads := t.lexer.reads }
  | none =>
    { session := t.session
      transcript := t.transcript ++ t.session.imageDump
      result := .finished t.summary
      reads := t.lexer.reads }

end LiveCompiler
