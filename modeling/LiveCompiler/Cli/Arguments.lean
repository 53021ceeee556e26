/-!
# Command-line arguments

Flags may stand before and after the file; after `--` everything is a file.  No flag may
be given twice, and there is one file at most.  The first argument that is out of place
decides, and so does the first that asks for help.
-/

namespace LiveCompiler

namespace Cli

/-- What the command line sets. -/
structure Options where
  noOpt : Bool
  dumpIr : Bool
  dumpModule : Bool
  noHistory : Bool
  trace : Bool
  file : Option String
deriving DecidableEq, Repr

/-- Nothing is set. -/
def Options.start : Options where
  noOpt := false
  dumpIr := false
  dumpModule := false
  noHistory := false
  trace := false
  file := none

/-- Why a command line is refused. -/
inductive UsageError where
  | unexpected (argument : String)
  | repeated (flag : String)
  | emptyFile
deriving DecidableEq, Repr

/-- What the command line asks for. -/
inductive Request where
  | run (options : Options)
  | help
  | version
  | refused (e : UsageError)
deriving DecidableEq, Repr

/-- Set a flag, or tell that it is set already. -/
def setFlag (flag : String) (isSet : Bool) (options : Options) : Except UsageError Options :=
  if isSet then .error (.repeated flag) else .ok options

/-- Take an argument as the file. -/
def setFile (options : Options) (argument : String) : Except UsageError Options :=
  match options.file with
  | some _ => .error (.unexpected argument)
  | none =>
    if argument.isEmpty then .error .emptyFile else .ok { options with file := some argument }

/-- Take all arguments as files. -/
def readFiles (options : Options) : List String → Request
  | [] => .run options
  | argument :: rest =>
    match setFile options argument with
    | .ok options => readFiles options rest
    | .error e => .refused e

/-- What a single argument asks for. -/
inductive Argument where
  | set (options : Except UsageError Options)
  | filesOnly
  | help
  | version

/-- Read a single argument.  A dash alone is a file. -/
def readArgument (options : Options) (argument : String) : Argument :=
  match argument with
  | "--" => .filesOnly
  | "--help" => .help
  | "--version" => .version
  | "--no-opt" => .set (setFlag argument options.noOpt { options with noOpt := true })
  | "--dump-ir" => .set (setFlag argument options.dumpIr { options with dumpIr := true })
  | "--dump-module" =>
    .set (setFlag argument options.dumpModule { options with dumpModule := true })
  | "--no-history" => .set (setFlag argument options.noHistory { options with noHistory := true })
  | "--trace" => .set (setFlag argument options.trace { options with trace := true })
  | _ =>
    match argument.toList with
    | '-' :: 'h' :: _ => .help
    | '-' :: 'V' :: _ => .version
    | '-' :: _ :: _ => .set (.error (.unexpected argument))
    | _ => .set (setFile options argument)

/-- Read arguments from first to last. -/
def readArguments (options : Options) : List String → Request
  | [] => .run options
  | argument :: rest =>
    match readArgument options argument with
    | .filesOnly => readFiles options rest
    | .help => .help
    | .version => .version
    | .set (.error e) => .refused e
    | .set (.ok options) => readArguments options rest

/-- What a command line asks for. -/
def parse (arguments : List String) : Request :=
  readArguments Options.start arguments

/-- How the program is called. -/
def usage : String :=
  "Usage: kaleido [OPTIONS] [FILE]\n"

/-- The answer to a call for the version. -/
def versionText : String :=
  "kaleido 0.1.0\n"

/-- The answer to a call for help. -/
def helpText : String :=
  "Interactive JIT for the Kaleidoscope language\n\n" ++ usage ++
    "\nArguments:\n" ++
    "  [FILE]  Read units from this file instead of stdin\n" ++
    "\nOptions:\n" ++
    "      --no-opt       Skip the optimization pipeline\n" ++
    "      --dump-ir      Print each function's IR after lowering and after optimization\n" ++
    "      --dump-module  Print the program image at end of input\n" ++
    "      --no-history   Do not load or save readline history\n" ++
    "      --trace        Log at debug level unless KALEIDO_LOG says otherwise\n" ++
    "  -h, --help         Print help\n" ++
    "  -V, --version      Print version\n"

/-- The message for a refused command line. -/
def UsageError.message (e : UsageError) : String :=
  let cause :=
    match e with
    | unexpected argument => "unexpected argument '" ++ argument ++ "' found"
    | repeated flag => "the argument '" ++ flag ++ "' cannot be used multiple times"
    | emptyFile => "a value is required for '[FILE]' but none was supplied"
  "error: " ++ cause ++ "\n\n" ++ usage ++ "\nFor more information, try '--help'.\n"

end Cli

end LiveCompiler
