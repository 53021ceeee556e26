/-!
# Transcripts

What a run over an input writes, in order.  Results go to one stream and diagnostics to
another; host functions write bytes to a third.
-/

namespace LiveCompiler

/-- Where something is written. -/
inductive Stream where
  | out
  | diag
  | host
deriving DecidableEq, Repr

/-- One thing that was written. -/
inductive Written where
  | out (text : String)
  | diag (text : String)
  | host (bytes : List UInt8)
deriving DecidableEq, Repr

namespace Written

/-- The stream that something was written to. -/
def stream : Written → Stream
  | out _ => .out
  | diag _ => .diag
  | host _ => .host

/-- What was written as text.  A host byte stands for the code point of its number. -/
def text : Written → String
  | out text => text
  | diag text => text
  | host bytes => String.ofList (bytes.map fun b => Char.ofNat b.toNat)

/-- What was written as bytes. -/
def bytes : Written → List UInt8
  | out text => text.toUTF8.toList
  | diag text => text.toUTF8.toList
  | host bytes => bytes

end Written

/-- What was written, in order. -/
abbrev Transcript := List Written

namespace Transcript

/-- Put a text in front of pieces, joined to the first if that is on the same stream. -/
def joinPiece (w : Written) : List (Stream × String) → List (Stream × String)
  | [] => [(w.stream, w.text)]
  | (stream, text) :: rest =>
    if w.stream = stream then (stream, w.text ++ text) :: rest
    else (w.stream, w.text) :: (stream, text) :: rest

/-- The pieces of a transcript: neighbours on one stream are joined and nothing is left
empty. -/
def pieces (t : Transcript) : List (Stream × String) :=
  (t.filter fun w => !w.text.isEmpty).foldr joinPiece []

/-- All that was written as results. -/
def outText (t : Transcript) : String :=
  String.join ((t.filter fun w => w.stream = .out).map Written.text)

/-- All diagnostics and host output, in order. -/
def errorBytes (t : Transcript) : List UInt8 :=
  (t.filter fun w => w.stream ≠ .out).flatMap Written.bytes

end Transcript

end LiveCompiler
