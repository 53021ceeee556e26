import LiveCompiler.Ir.Listing

/-!
# Errors of code generation

Why a function of the image cannot be made ready to run, or cannot be run.
-/

namespace LiveCompiler

open Ir

/-- What is wrong with a body, or with a request for one. -/
inductive CodeFault where
  | notInImage (f : FuncId)
  | noBody (f : FuncId) (name : String)
  | notCompiled (f : FuncId)
  | takesArguments (f : FuncId) (count : Nat)
  | notPlanned (f : FuncId)
  | arityDiffers (name : String) (declared signature : Nat)
  | unknownBlock (label : Label)
  | noParameter (index : UInt16)
deriving DecidableEq, Repr

/-- The wording of a fault. -/
def CodeFault.describe : CodeFault → String
  | notInImage f => FuncId.text f ++ " is not in the image"
  | noBody f name => FuncId.text f ++ " (" ++ name ++ ") has no body to run"
  | notCompiled f => FuncId.text f ++ " is not compiled"
  | takesArguments f count => FuncId.text f ++ " takes " ++ toString count ++ " argument(s)"
  | notPlanned f => FuncId.text f ++ " was not planned"
  | arityDiffers name declared signature =>
    name ++ " declares " ++ toString declared ++ " parameter(s) but the signature has " ++
      toString signature
  | unknownBlock label => "unknown block " ++ labelText label
  | noParameter index => "parameter " ++ toString index.toNat ++ " out of range"

/-- Why the code generator refuses a function whose body passed all other checks. -/
inductive Refusal where
  /-- The symbol is taken with another number of arguments. -/
  | signatureClash (symbol : String)
  /-- The symbol has a body already. -/
  | secondBody (symbol : String)
  /-- A call or an edge passes a wrong number of values. -/
  | wrongValueCount (symbol : String)
deriving DecidableEq, Repr

/-- The wording of a refusal. -/
def Refusal.describe : Refusal → String
  | signatureClash symbol => "signature of '" ++ symbol ++ "' differs from an earlier one"
  | secondBody symbol => "second body for '" ++ symbol ++ "'"
  | wrongValueCount symbol => "wrong number of values passed in '" ++ symbol ++ "'"

/-- Why a function cannot be made ready to run, or cannot be run. -/
inductive CodeError where
  | refused (refusal : Refusal)
  | unresolvedSymbol (name : String) (arity : Nat)
  | invalid (fault : CodeFault)
deriving DecidableEq, Repr

/-- The message for an error. -/
def CodeError.message : CodeError → String
  | refused refusal => "code generation failed: " ++ refusal.describe
  | unresolvedSymbol name arity =>
    "unresolved external symbol '" ++ name ++ "' taking " ++ toString arity ++ " argument(s)"
  | invalid fault => "invalid LIR: " ++ fault.describe

end LiveCompiler
