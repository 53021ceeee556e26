import LiveCompiler.Cli.Run

/-!
# The program

Reads the input that the command line names, runs it and writes what the run leaves.
-/

namespace LiveCompiler

namespace Cli

/-- How messages show a failure of the system. -/
def failureText : IO.Error → String
  | .noFileOrDirectory _ code details => details ++ " (os error " ++ toString code ++ ")"
  | .permissionDenied _ code details => details ++ " (os error " ++ toString code ++ ")"
  | .inappropriateType _ code details => details ++ " (os error " ++ toString code ++ ")"
  | e => toString e

/-- Read all bytes of an open file.  A failure ends the input as a read error. -/
def readInput (handle : IO.FS.Handle) : IO Input := do
  try
    let bytes ← handle.readBinToEnd
    return Input.ofBytes bytes.toList
  catch e => return Input.ofLines [] (some (failureText e))

/-- Read all bytes of a stream, which gives none at its end. -/
partial def readStream (stream : IO.FS.Stream) (before : ByteArray) : IO ByteArray := do
  let more ← stream.read 65536
  if more.isEmpty then return before else readStream stream (before ++ more)

/-- Open the file, or standard input if there is none. -/
def openFile (file : Option String) : IO Opened := do
  match file with
  | some path =>
    try
      let handle ← IO.FS.Handle.mk path .read
      return .input (← readInput handle)
    catch e => return .failed path (failureText e)
  | none =>
    let bytes ← readStream (← IO.getStdin) ByteArray.empty
    return .input (Input.ofBytes bytes.toList)

end Cli

end LiveCompiler

open LiveCompiler in
/-- Run the program. -/
def main (arguments : List String) : IO UInt32 := do
  let request := Cli.parse arguments
  let opened ←
    match request with
    | .run options => Cli.openFile options.file
    | _ => pure (Cli.Opened.input (Input.ofLines [] none))
  let report := Cli.answer (fun _ => opened) request
  let stdout ← IO.getStdout
  let stderr ← IO.getStderr
  stderr.write (ByteArray.mk report.stderr.toArray)
  stdout.putStr report.stdout
  return report.code.toUInt32
