/-!
# Errors of lowering

Why a parsed unit has no body: a name or operator without meaning, or a signature that
does not fit.
-/

namespace LiveCompiler

/-- Why a unit cannot be lowered. -/
inductive LoweringError where
  | unknownVariable (name : String)
  | unknownFunction (name : String)
  | arityMismatch (name : String) (expected got : Nat)
  | conflictingSignature (name : String) (declared found : Nat)
  | duplicateParameter (name param : String)
  | unknownOperator (op : Char)
deriving DecidableEq, Repr

/-- The message for an error. -/
def LoweringError.message : LoweringError → String
  | unknownVariable name => "unknown variable name '" ++ name ++ "'"
  | unknownFunction name => "unknown function referenced: '" ++ name ++ "'"
  | arityMismatch name expected got =>
    "incorrect number of arguments passed to '" ++ name ++ "': expected " ++
      toString expected ++ ", got " ++ toString got
  | conflictingSignature name declared found =>
    "'" ++ name ++ "' is declared with " ++ toString declared ++
      " parameter(s), cannot redefine it with " ++ toString found
  | duplicateParameter name param =>
    "duplicate parameter '" ++ param ++ "' in '" ++ name ++ "'"
  | unknownOperator op => "invalid binary operator '" ++ String.singleton op ++ "'"

end LiveCompiler
