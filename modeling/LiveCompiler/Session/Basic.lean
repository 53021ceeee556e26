import LiveCompiler.Lowering.Procedure
import LiveCompiler.Pass.Pipeline
import LiveCompiler.OperatorTable
import LiveCompiler.Program.Machine

/-!
# Sessions

A session takes units one after another.  A definition or declaration is added to the
image and its name is bound to it.  A bare expression becomes a wrapper in the image,
which is made ready to run and then run.  A unit that cannot be lowered leaves the
session as it was; an expression that cannot be linked leaves its wrapper in the image.
-/

namespace LiveCompiler

open Ir

/-- The settings of a session. -/
structure Config where
  /-- Run the standard pipeline over every body. -/
  optimize : Bool
  /-- Queue the listings of every body, before and after the pipeline. -/
  dumpIr : Bool
  /-- Write the image when the input has ended without a read error. -/
  dumpModule : Bool
  /-- What an interactive input shows when it is asked for a line. -/
  prompt : String
  precedence : OperatorTable
  /-- How many steps an evaluation may take. -/
  stepLimit : Nat
deriving Repr

/-- The settings that hold unless others are given. -/
def Config.standard : Config where
  optimize := true
  dumpIr := false
  dumpModule := false
  prompt := "ready> "
  precedence := OperatorTable.standard
  stepLimit := Nat.pow 2 62

/-- The state of a session. -/
structure Session where
  config : Config
  image : Image
  symbols : Symbols
  backend : Backend
  /-- How many wrappers have been made. -/
  wrapperCount : Nat
  /-- Listings that have been queued and not yet taken. -/
  queuedListings : String

/-- What became of a unit. -/
inductive Outcome where
  | defined (f : FuncId)
  | declared (f : FuncId)
  | evaluated (x : Float)

/-- Why a unit failed. -/
inductive UnitError where
  | lowering (e : LoweringError)
  | code (e : CodeError)
  /-- The evaluation came to a place that is not to be reached. -/
  | trapped
  /-- The evaluation was cut off at its limit. -/
  | unfinished

/-- The message for an error. -/
def UnitError.message : UnitError → String
  | lowering e => e.message
  | code e => e.message
  | trapped => "evaluation came to an unreachable place"
  | unfinished => "evaluation did not finish"

/-- A session after a unit, what became of the unit, and what was written to the host
output on the way. -/
structure Handled where
  session : Session
  result : Except UnitError Outcome
  output : List UInt8

namespace Session

/-- A new session. -/
def start (config : Config) : Session where
  config := config
  image := Image.empty
  symbols := Symbols.empty
  backend := Backend.empty
  wrapperCount := 0
  queuedListings := ""

/-- The name of the wrapper with a number. -/
def wrapperName (count : Nat) : String :=
  "__anon_expr" ++ toString count

/-- Queue a listing under a heading. -/
def queue (s : Session) (heading : String) (body : Body) : Session :=
  if s.config.dumpIr then
    { s with queuedListings := s.queuedListings ++ "; " ++ heading ++ "\n" ++ body.listing }
  else s

/-- Take the queued listings, if there are any. -/
def takeListings (s : Session) : Option String × Session :=
  if s.queuedListings.isEmpty then (none, s)
  else (some s.queuedListings, { s with queuedListings := "" })

/-- Run the pipeline over a body, if the settings say so, and queue its listings. -/
def prepare (s : Session) (body : Body) : Body × Session :=
  let s := s.queue "lowered" body
  if s.config.optimize then
    let better := (LiveCompiler.optimize body).1
    (better, s.queue "optimized" better)
  else (body, s)

/-- Add an entry to the image. -/
def addEntry (s : Session) (entry : Entry) : Session :=
  { s with image := s.image.push entry }

/-- Bind a name to a function of the image. -/
def bindName (s : Session) (name : String) (f : FuncId) (arity : Nat) (kind : FunctionKind) :
    Session :=
  { s with symbols := s.symbols.bind name { func := f, arity := arity, kind := kind } }

/-- Accept a definition. -/
def define (s : Session) (procedure : Procedure) : Except UnitError FuncId × Session :=
  let name := procedure.signature.name
  let arity := procedure.signature.arity
  let f := s.image.next
  match Lowering.lowerProcedure procedure name f .definition s.symbols with
  | .error e => (.error (.lowering e), s)
  | .ok lowered =>
    let (body, s) := s.prepare lowered
    let entry : Entry :=
      { name := name, symbol := s.image.nativeName name .definition, arity := arity,
        kind := .definition, body := some body }
    (.ok f, (s.addEntry entry).bindName name f arity .definition)

/-- Accept a declaration. -/
def declare (s : Session) (signature : Signature) : Except UnitError FuncId × Session :=
  let f := s.image.next
  match Lowering.acceptSignature signature s.symbols with
  | .error e => (.error (.lowering e), s)
  | .ok _ =>
    let name := signature.name
    let entry : Entry :=
      { name := name, symbol := s.image.nativeName name .external, arity := signature.arity,
        kind := .external, body := none }
    (.ok f, (s.addEntry entry).bindName name f signature.arity .external)

/-- Make a function ready to run. -/
def makeReady (s : Session) (f : FuncId) : Except CodeError Runnable × Session :=
  let (result, backend) := s.backend.makeReady s.image f
  (result, { s with backend := backend })

/-- Run a function that is ready. -/
def invoke (s : Session) (runnable : Runnable) : Invocation :=
  s.backend.invoke s.config.stepLimit runnable

/-- What the end of a run means for a unit. -/
def outcomeOf : Except CodeError RunEnd → Except UnitError Outcome
  | .error e => .error (.code e)
  | .ok (.value x) => .ok (.evaluated x)
  | .ok .trapped => .error .trapped
  | .ok .unfinished => .error .unfinished

/-- Wrap an expression, make the wrapper ready to run and run it. -/
def evaluate (s : Session) (procedure : Procedure) : Handled :=
  let name := wrapperName s.wrapperCount
  let f := s.image.next
  match Lowering.lowerProcedure procedure name f .wrapper s.symbols with
  | .error e => { session := s, result := .error (.lowering e), output := [] }
  | .ok lowered =>
    let (body, s) := { s with wrapperCount := s.wrapperCount + 1 }.prepare lowered
    let entry : Entry :=
      { name := name, symbol := s.image.nativeName name .wrapper, arity := 0,
        kind := .wrapper, body := some body }
    -- The wrapper stays in the image, whatever comes of making it ready.
    let (ready, s) := (s.addEntry entry).makeReady f
    match ready with
    | .error e => { session := s, result := .error (.code e), output := [] }
    | .ok runnable =>
      let invocation := s.invoke runnable
      { session := s, result := outcomeOf invocation.result, output := invocation.output }

/-- Handle a unit. -/
def handle (s : Session) : SourceUnit → Handled
  | .definition procedure =>
    let (result, s) := s.define procedure
    { session := s, result := result.map .defined, output := [] }
  | .declaration signature =>
    let (result, s) := s.declare signature
    { session := s, result := result.map .declared, output := [] }
  | .expression procedure => s.evaluate procedure

end Session

end LiveCompiler
