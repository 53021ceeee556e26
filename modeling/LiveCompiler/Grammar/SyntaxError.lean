import LiveCompiler.Token

/-!
# Syntax errors

An error names what the grammar wanted and the token that stood there instead.
-/

namespace LiveCompiler

/-- The deepest expression tree that is accepted, in levels. -/
def maxLevels : Nat := 256

/-- What the grammar wanted at some place. -/
inductive Expectation where
  | keyword (word : Keyword)
  | char (c : Char)
  | functionName
  | loopVariable
  | endOfParameters
  | moreArguments
deriving DecidableEq, Repr

/-- How messages name what was wanted. -/
def Expectation.describe : Expectation → String
  | keyword word => (Token.keyword word).describe
  | char c => (Token.char c).describe
  | functionName => "function name in prototype"
  | loopVariable => "identifier after 'for'"
  | endOfParameters => "')' in prototype"
  | moreArguments => "')' or ',' in argument list"

/-- Why a text is no unit. -/
inductive SyntaxFault where
  | expected (wanted : Expectation) (found : Token)
  | malformedNumber (text : String)
  | noExpression (found : Token)
  | tooDeep

/-- The wording of a fault. -/
def SyntaxFault.describe : SyntaxFault → String
  | expected wanted found => "expected " ++ wanted.describe ++ ", found " ++ found.describe
  | malformedNumber text => "malformed number '" ++ text ++ "'"
  | noExpression found => "unknown token " ++ found.describe ++ " when expecting an expression"
  | tooDeep => "expression nested more than " ++ toString maxLevels ++ " levels deep"

/-- A fault and the token at which it was found. -/
structure SyntaxError where
  fault : SyntaxFault
  location : Location

/-- The message for an error. -/
def SyntaxError.message (e : SyntaxError) : String :=
  "syntax error at " ++ e.location.text ++ ": " ++ e.fault.describe

end LiveCompiler
