/-!
# Input

Program text arrives line by line and on demand.  An input is the list of lines that it
will still deliver, and how it ends: with the end of the text, or with a read error.
-/

namespace LiveCompiler

/-- The lines still to be delivered, and the read error that follows them, if any. -/
structure Input where
  lines : List (List Char)
  failure : Option String
deriving DecidableEq, Repr

namespace Input

/-- The text of the read error that an ill-encoded line gives. -/
def invalidEncoding : String :=
  "stream did not contain valid UTF-8"

/-- Put a byte in front of lines.  A newline ends a line, so it stands alone there. -/
def addByte (b : UInt8) : List (List UInt8) → List (List UInt8)
  | [] => [[b]]
  | line :: lines => if b = 10 then [b] :: line :: lines else (b :: line) :: lines

/-- Cut bytes into lines.  A line keeps its newline; the last one may have none. -/
def splitBytes (bytes : List UInt8) : List (List UInt8) :=
  bytes.foldr addByte []

/-- Decode lines up to the first that is not UTF-8, which ends the input. -/
def decodeLines : List (List UInt8) → Input
  | [] => { lines := [], failure := none }
  | line :: rest =>
    match String.fromUTF8? (ByteArray.mk line.toArray) with
    | none => { lines := [], failure := some invalidEncoding }
    | some text =>
      let tail := decodeLines rest
      { tail with lines := text.toList :: tail.lines }

/-- The input that reads a stream of bytes. -/
def ofBytes (bytes : List UInt8) : Input :=
  decodeLines (splitBytes bytes)

/-- The input that reads a text. -/
def ofString (text : String) : Input :=
  ofBytes text.toUTF8.toList

/-- A scripted input: each text is delivered as it is. -/
def ofLines (lines : List String) (failure : Option String) : Input where
  lines := lines.map String.toList
  failure := failure

end Input

end LiveCompiler
