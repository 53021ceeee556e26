import LiveCompiler.Binary64.Text

/-!
# Host functions

The functions that a program can declare and call without a definition.  Most compute;
two write to the host output and give zero.
-/

namespace LiveCompiler

/-- A function that the host provides. -/
inductive HostFunction where
  | sin
  | cos
  | tan
  | sqrt
  | exp
  | log
  | fabs
  | pow
  | putchard
  | printd
deriving DecidableEq, Repr

namespace HostFunction

/-- All host functions, in the order in which they are listed. -/
def all : List HostFunction :=
  [sin, cos, tan, sqrt, exp, log, fabs, pow, putchard, printd]

/-- The name under which a program declares a host function. -/
def name : HostFunction → String
  | sin => "sin"
  | cos => "cos"
  | tan => "tan"
  | sqrt => "sqrt"
  | exp => "exp"
  | log => "log"
  | fabs => "fabs"
  | pow => "pow"
  | putchard => "putchard"
  | printd => "printd"

/-- The number of arguments. -/
def arity : HostFunction → Nat
  | pow => 2
  | _ => 1

/-- The symbol of a host function for the code generator. -/
def symbol (h : HostFunction) : String :=
  "kaleido_host_" ++ h.name

/-- The host function with a name and a number of arguments. -/
def find? (name : String) (arity : Nat) : Option HostFunction :=
  all.find? fun h => h.name == name && h.arity == arity

/-- The value of a host function. -/
def value : HostFunction → List Float → Float
  | sin, [x] => x.sin
  | cos, [x] => x.cos
  | tan, [x] => x.tan
  | sqrt, [x] => x.sqrt
  | exp, [x] => x.exp
  | log, [x] => x.log
  | fabs, [x] => x.abs
  | pow, [x, y] => x.pow y
  | _, _ => 0.0

/-- What a host function writes to the host output.  A character is written as one byte;
codes below and above the range of a byte count as its ends. -/
def output : HostFunction → List Float → List UInt8
  | putchard, [x] => [x.toUInt8]
  | printd, [x] => (Binary64.printedText x ++ "\n").toUTF8.toList
  | _, _ => []

theorem mem_all (h : HostFunction) : h ∈ all := by
  cases h <;> decide

end HostFunction

end LiveCompiler
