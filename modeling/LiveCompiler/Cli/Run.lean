import LiveCompiler.Cli.Arguments
import LiveCompiler.Session.TopLevel

/-!
# Running from the command line

One session runs over the file or over standard input.  Results go to standard output;
diagnostics, listings and host output go to standard error.
-/

namespace LiveCompiler

namespace Cli

/-- What a run of the program leaves. -/
structure Report where
  code : UInt8
  stdout : String
  stderr : List UInt8

/-- What became of the input that the command line names. -/
inductive Opened where
  | input (input : Input)
  | failed (path message : String)

/-- The settings of the session. -/
def Options.config (options : Options) : Config :=
  { Config.standard with
    optimize := !options.noOpt
    dumpIr := options.dumpIr
    dumpModule := options.dumpModule }

/-- The bytes of an error message. -/
def errorLine (message : String) : List UInt8 :=
  ("error: " ++ message ++ "\n").toUTF8.toList

/-- Run a session over an input. -/
def runInput (options : Options) (input : Input) : Report :=
  let run := (Session.start options.config).runInput input
  let stdout := run.transcript.outText
  let stderr := run.transcript.errorBytes
  match run.result with
  | .finished _ => { code := 0, stdout := stdout, stderr := stderr }
  | .readFailed message =>
    { code := 1, stdout := stdout, stderr := stderr ++ errorLine (readErrorMessage message) }

/-- Run with given options. -/
def runOptions (options : Options) : Opened → Report
  | .input input => runInput options input
  | .failed path message =>
    { code := 1, stdout := "", stderr := errorLine (path ++ ": " ++ message) }

/-- Answer a request; `openFile` gives the input for the file, or for standard input if
there is none. -/
def answer (openFile : Option String → Opened) : Request → Report
  | .run options => runOptions options (openFile options.file)
  | .help => { code := 0, stdout := helpText, stderr := [] }
  | .version => { code := 0, stdout := versionText, stderr := [] }
  | .refused e => { code := 2, stdout := "", stderr := e.message.toUTF8.toList }

end Cli

end LiveCompiler
