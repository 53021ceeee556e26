import LiveCompiler.Proofs.Grammar.Grouping
import LiveCompiler.Token
import LiveCompiler.OperatorTable

/-!
# What tokens spell

The grammar of expressions as a relation between tokens and trees (`Phrase.SpelledBy`).  Chains are
grouped by their ordered trees, and a phrase ends where the token behind it does not go on with it:
a name that is a variable is not followed by a bracket, and a chain is not followed by an operator.
-/

namespace LiveCompiler

/-- What the tokens of an expression are put together to. -/
inductive Phrase where
  | operand (e : Expr)
  /-- The operators of a chain, each with the operand behind it. -/
  | operations (operations : List Operation)
  | expression (e : Expr)
  /-- The arguments of a call, with the closing bracket. -/
  | arguments (args : List Expr)
  /-- The step of a loop, with the comma in front of it. -/
  | step (step : Option Expr)

/-- The precedence of a token, if it is an operator of the table. -/
def OperatorTable.precedence? (table : OperatorTable) : Token → Option Int32
  | .char c => table.get? c
  | _ => none

/-- Tokens spell a phrase, in front of a given token. -/
inductive Phrase.SpelledBy (table : OperatorTable) : Phrase → List Token → Token → Prop
  | number (value : Float) (next : Token) :
      SpelledBy table (.operand (.number value)) [.number value] next
  | name (name : String) {next : Token} (hNext : next ≠ .char '(') :
      SpelledBy table (.operand (.variable name)) [.identifier name] next
  | callNone (callee : String) (next : Token) :
      SpelledBy table (.operand (.call callee []))
        [.identifier callee, .char '(', .char ')'] next
  | call (callee : String) {args : List Expr} {tokens : List Token} {next : Token}
      (hArgs : SpelledBy table (.arguments args) tokens next) :
      SpelledBy table (.operand (.call callee args))
        (.identifier callee :: .char '(' :: tokens) next
  | bracketed {e : Expr} {tokens : List Token} (next : Token)
      (hInner : SpelledBy table (.expression e) tokens (.char ')')) :
      SpelledBy table (.operand e) (.char '(' :: (tokens ++ [.char ')'])) next
  | conditional {condition onTrue onFalse : Expr} {asked yes no : List Token} {next : Token}
      (hCondition : SpelledBy table (.expression condition) asked (.keyword .thenWord))
      (hTrue : SpelledBy table (.expression onTrue) yes (.keyword .elseWord))
      (hFalse : SpelledBy table (.expression onFalse) no next) :
      SpelledBy table (.operand (.ifThenElse condition onTrue onFalse))
        (.keyword .ifWord :: (asked ++ .keyword .thenWord :: (yes ++ .keyword .elseWord :: no)))
        next
  | loop (loopVar : String) {start finish body : Expr} {step : Option Expr}
      {starting finishing stepping looped : List Token} {next : Token}
      (hStart : SpelledBy table (.expression start) starting (.char ','))
      (hFinish : SpelledBy table (.expression finish) finishing
        (stepping.headD (.keyword .inWord)))
      (hStep : SpelledBy table (.step step) stepping (.keyword .inWord))
      (hBody : SpelledBy table (.expression body) looped next) :
      SpelledBy table (.operand (.forLoop loopVar start finish step body))
        (.keyword .forWord :: .identifier loopVar :: .char '=' :: (starting ++ .char ',' ::
          (finishing ++ (stepping ++ .keyword .inWord :: looped)))) next
  | noStep : SpelledBy table (.step none) [] (.keyword .inWord)
  | someStep {e : Expr} {tokens : List Token}
      (hStep : SpelledBy table (.expression e) tokens (.keyword .inWord)) :
      SpelledBy table (.step (some e)) (.char ',' :: tokens) (.keyword .inWord)
  | lastArgument {e : Expr} {tokens : List Token} (next : Token)
      (hLast : SpelledBy table (.expression e) tokens (.char ')')) :
      SpelledBy table (.arguments [e]) (tokens ++ [.char ')']) next
  | argument {e : Expr} {args : List Expr} {tokens more : List Token} {next : Token}
      (hFirst : SpelledBy table (.expression e) tokens (.char ','))
      (hMore : SpelledBy table (.arguments args) more next) :
      SpelledBy table (.arguments (e :: args)) (tokens ++ .char ',' :: more) next
  | noOperations {next : Token} (hNext : table.precedence? next = none) :
      SpelledBy table (.operations []) [] next
  | operation {op : Char} {precedence : Int32} {right : Expr} {operations : List Operation}
      {tokens more : List Token} {next : Token} (hOp : table.get? op = some precedence)
      (hRight : SpelledBy table (.operand right) tokens (more.headD next))
      (hMore : SpelledBy table (.operations operations) more next) :
      SpelledBy table (.operations (⟨op, precedence, right⟩ :: operations))
        (.char op :: (tokens ++ more)) next
  | chain {g : Grouping} {tokens more : List Token} {next : Token} (hOrdered : g.Ordered)
      (hFirst : SpelledBy table (.operand g.first) tokens (more.headD next))
      (hMore : SpelledBy table (.operations g.operations) more next) :
      SpelledBy table (.expression g.expr) (tokens ++ more) next

namespace Phrase

variable {table : OperatorTable} {tokens : List Token} {next : Token}

/-- The operators that tokens spell are those of the table. -/
theorem SpelledBy.precedence_pos {all : List Operation}
    (h : (operations all).SpelledBy table tokens next) : ∀ o ∈ all, 0 < o.precedence := by
  induction all generalizing tokens with
  | nil => exact nofun
  | cons o rest ih =>
    cases h with
    | operation hOp _ hMore =>
      intro other hMem
      rcases List.mem_cons.mp hMem with rfl | hMem
      · obtain ⟨-, hPos⟩ := Option.filter_eq_some_iff.mp hOp
        exact of_decide_eq_true hPos
      · exact ih hMore other hMem

end Phrase

end LiveCompiler
