import LiveCompiler.Grammar.Expression

/-!
# The grammar of units

A definition is a signature with a body, a declaration is a signature alone, and
anything else is an expression to evaluate.
-/

namespace LiveCompiler

namespace Rule

/-- A name and parameter names in brackets, with no comma between them. -/
def signature : Rule Signature := do
  let name ← identifier .functionName
  char '('
  let params ← identifiers
  if ← isAhead ')' then
    advance
    return { name := name, params := params }
  else
    fail (.expected .endOfParameters (← peek))

/-- The definition of a function. -/
def definition (table : OperatorTable) : Rule Procedure := do
  keyword .define
  let signature ← signature
  let body ← expression table
  return { signature := signature, body := body }

/-- The declaration of an external function. -/
def declaration : Rule Signature := do
  keyword .external
  signature

/-- A bare expression, wrapped into a procedure without name and parameters. -/
def bareExpression (table : OperatorTable) : Rule Procedure := do
  let body ← expression table
  return { signature := Signature.unnamed, body := body }

/-- A unit of a given kind. -/
def sourceUnit (table : OperatorTable) : SourceUnit.Kind → Rule SourceUnit
  | .definition => do return .definition (← definition table)
  | .declaration => do return .declaration (← declaration)
  | .expression => do return .expression (← bareExpression table)

end Rule

end LiveCompiler
