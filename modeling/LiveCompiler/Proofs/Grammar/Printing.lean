import LiveCompiler.Proofs.Binary64.Literals
import LiveCompiler.Proofs.Grammar.Height
import LiveCompiler.Proofs.Grammar.Sight
import LiveCompiler.Proofs.Token.Spelling

/-!
# Printed expressions are read back

An expression is printed with brackets around every operator, conditional and loop.  Two machines
undo this.  The lexer finds the tokens of the expression in the text (`spells_source`), and the rule
for expressions finds the expression in the tokens (`parses_operand`).  Brackets leave the chains of
operators with one operator each, so a level of the tree costs at most two levels of the rules: one
for the brackets, and one for the operator in front of the right operand.

Any literals will do that read back (`run_expression_source`).  Finite numbers without sign have
such literals (`run_expression_exactSource`).
-/

namespace LiveCompiler

/-! ## Printing -/

namespace Expr

mutual

/-- The tokens of an expression with brackets. -/
def tokens : Expr → List Token
  | .number value => [.number value]
  | .variable name => [.identifier name]
  | .binary op left right =>
    .char '(' :: (left.tokens ++ .char op :: (right.tokens ++ [.char ')']))
  | .call callee args => .identifier callee :: .char '(' :: tokensAll args
  | .ifThenElse condition onTrue onFalse =>
    .char '(' :: .keyword .ifWord :: (condition.tokens ++ .keyword .thenWord ::
      (onTrue.tokens ++ .keyword .elseWord :: (onFalse.tokens ++ [.char ')'])))
  | .forLoop loopVar start finish step body =>
    .char '(' :: .keyword .forWord :: .identifier loopVar :: .char '=' ::
      (start.tokens ++ .char ',' :: (finish.tokens ++ (tokensStep step ++ .keyword .inWord ::
        (body.tokens ++ [.char ')']))))

/-- The tokens of the arguments of a call, up to its closing bracket. -/
def tokensAll : List Expr → List Token
  | [] => [.char ')']
  | arg :: rest => arg.tokens ++ tokensMore rest

/-- The tokens of the arguments that follow another one. -/
def tokensMore : List Expr → List Token
  | [] => [.char ')']
  | arg :: rest => .char ',' :: (arg.tokens ++ tokensMore rest)

/-- The tokens of the step of a loop. -/
def tokensStep : Option Expr → List Token
  | none => []
  | some step => .char ',' :: step.tokens

end

mutual

/-- An expression as source text, with brackets around operators, conditionals and loops. -/
def source (literal : Float → List Char) : Expr → List Char
  | .number value => literal value
  | .variable name => name.toList
  | .binary op left right =>
    '(' :: (left.source literal ++ ' ' :: op :: ' ' :: (right.source literal ++ [')']))
  | .call callee args => callee.toList ++ '(' :: sourceAll literal args
  | .ifThenElse condition onTrue onFalse =>
    '(' :: (Keyword.ifWord.spelling.toList ++ ' ' :: (condition.source literal ++
      ' ' :: (Keyword.thenWord.spelling.toList ++ ' ' :: (onTrue.source literal ++
        ' ' :: (Keyword.elseWord.spelling.toList ++ ' ' :: (onFalse.source literal ++ [')']))))))
  | .forLoop loopVar start finish step body =>
    '(' :: (Keyword.forWord.spelling.toList ++ ' ' :: (loopVar.toList ++ ' ' :: '=' :: ' ' ::
      (start.source literal ++ ',' :: ' ' :: (finish.source literal ++ (sourceStep literal step ++
        ' ' :: (Keyword.inWord.spelling.toList ++ ' ' :: (body.source literal ++ [')'])))))))

/-- The arguments of a call as source text, up to its closing bracket. -/
def sourceAll (literal : Float → List Char) : List Expr → List Char
  | [] => [')']
  | arg :: rest => arg.source literal ++ sourceMore literal rest

/-- The arguments that follow another one as source text. -/
def sourceMore (literal : Float → List Char) : List Expr → List Char
  | [] => [')']
  | arg :: rest => ',' :: ' ' :: (arg.source literal ++ sourceMore literal rest)

/-- The step of a loop as source text. -/
def sourceStep (literal : Float → List Char) : Option Expr → List Char
  | none => []
  | some step => ',' :: ' ' :: step.source literal

end

end Expr

/-- A name that the lexer reads as one identifier. -/
def IsName (name : String) : Prop :=
  IsWord name.toList ∧ Keyword.ofSpelling? name = none

instance (name : String) : Decidable (IsName name) := by
  unfold IsName
  infer_instance

/-- An operator of a table that the lexer reads as a character of its own. -/
structure OperatorTable.IsOperator (table : OperatorTable) (op : Char) : Prop where
  known : (table.get? op).isSome
  punctuation : Punctuation op

/-- An expression that can be written down: its names are names, its operators are operators of the
table, and its numbers are of a kind that has literals. -/
inductive Expr.Writable (table : OperatorTable) (number : Float → Prop) : Expr → Prop where
  | ofNumber {value : Float} (hNumber : number value) : Writable table number (.number value)
  | ofVariable {name : String} (hName : IsName name) : Writable table number (.variable name)
  | ofBinary {op : Char} {left right : Expr} (hOperator : table.IsOperator op)
    (hLeft : Writable table number left) (hRight : Writable table number right) :
    Writable table number (.binary op left right)
  | ofCall {callee : String} {args : List Expr} (hName : IsName callee)
    (hArgs : ∀ arg ∈ args, Writable table number arg) : Writable table number (.call callee args)
  | ofConditional {condition onTrue onFalse : Expr} (hCondition : Writable table number condition)
    (hTrue : Writable table number onTrue) (hFalse : Writable table number onFalse) :
    Writable table number (.ifThenElse condition onTrue onFalse)
  | ofLoop {loopVar : String} {start finish : Expr} {step : Option Expr} {body : Expr}
    (hName : IsName loopVar) (hStart : Writable table number start)
    (hFinish : Writable table number finish) (hStep : ∀ e ∈ step, Writable table number e)
    (hBody : Writable table number body) :
    Writable table number (.forLoop loopVar start finish step body)

/-- An expression that can be written down with these literals: they read back to its numbers. -/
abbrev Expr.Printable (table : OperatorTable) (literal : Float → List Char) (e : Expr) : Prop :=
  e.Writable table fun value => Binary64.ofLiteral? (literal value) = some value

theorem Expr.Writable.imp {table : OperatorTable} {number number' : Float → Prop} {e : Expr}
    (h : e.Writable table number) (hImp : ∀ value, number value → number' value) :
    e.Writable table number' := by
  induction h with
  | ofNumber hNumber => exact .ofNumber (hImp _ hNumber)
  | ofVariable hName => exact .ofVariable hName
  | ofBinary hOperator _ _ ihLeft ihRight => exact .ofBinary hOperator ihLeft ihRight
  | ofCall hName _ ih => exact .ofCall hName ih
  | ofConditional _ _ _ ihCondition ihTrue ihFalse => exact .ofConditional ihCondition ihTrue ihFalse
  | ofLoop hName _ _ _ _ ihStart ihFinish ihStep ihBody =>
    exact .ofLoop hName ihStart ihFinish ihStep ihBody

/-- With the exact values of its numbers as literals every expression can be written down whose
numbers are finite and without sign. -/
theorem Expr.Writable.printable {table : OperatorTable} {e : Expr}
    (h : e.Writable table Binary64.IsUnsigned) : e.Printable table Binary64.exactLiteral :=
  h.imp fun _ hNumber => Binary64.ofLiteral?_exactLiteral hNumber

/-! ## From characters to tokens -/

theorem punctuation_of_mem {c : Char} (h : c ∈ ['(', ')', ',', ';', '=']) : Punctuation c := by
  have hAll : ['(', ')', ',', ';', '='].all (fun c =>
      !isBlank c && c != '#' && !c.isAlpha && !isNumeral c) = true := by decide
  have hHere := List.all_eq_true.mp hAll c h
  simp only [Bool.and_eq_true, Bool.not_eq_true', bne_iff_ne, ne_eq] at hHere
  obtain ⟨⟨⟨hBlank, hComment⟩, hAlpha⟩, hNumeral⟩ := hHere
  exact ⟨hBlank, hComment, hAlpha, hNumeral⟩

section Spelling

variable {text : List Char} {tokens : List Token}

theorem Spells.name (h : Spells text tokens) {name : String} (hName : IsName name)
    (hText : Boundary text) : Spells (name.toList ++ text) (.identifier name :: tokens) := by
  have hToken : Token.ofWord name.toList = .identifier name := by
    unfold Token.ofWord
    rw [String.ofList_toList, hName.2]
  rw [← hToken]
  exact h.word hName.1 hText

/-- A keyword with the blank behind it. -/
theorem Spells.keyword (h : Spells text tokens) (word : Keyword) :
    Spells (word.spelling.toList ++ ' ' :: text) (.keyword word :: tokens) := by
  have hToken : Token.ofWord word.spelling.toList = .keyword word := by
    unfold Token.ofWord
    rw [String.ofList_toList, Keyword.ofSpelling?_spelling]
  have hWord : IsWord word.spelling.toList := by
    cases word <;> decide
  rw [← hToken]
  exact h.space.word hWord (boundary_space _)

variable {table : OperatorTable} {literal : Float → List Char}

/-- The arguments behind another one, if each of them is spelled. -/
theorem spells_sourceMore {args : List Expr} (h : Spells text tokens)
    (hArgs : ∀ arg ∈ args, ∀ {text : List Char} {tokens : List Token}, Boundary text →
      Spells text tokens → Spells (arg.source literal ++ text) (arg.tokens ++ tokens)) :
    Boundary (Expr.sourceMore literal args ++ text) ∧
      Spells (Expr.sourceMore literal args ++ text) (Expr.tokensMore args ++ tokens) := by
  have hClose : Punctuation ')' := punctuation_of_mem (by simp)
  have hComma : Punctuation ',' := punctuation_of_mem (by simp)
  induction args with
  | nil => exact ⟨hClose.boundary _, h.char hClose⟩
  | cons arg rest ih =>
    obtain ⟨hBoundary, hRest⟩ := ih fun a ha => hArgs a (List.mem_cons_of_mem _ ha)
    have hArg := hArgs arg List.mem_cons_self hBoundary hRest
    refine ⟨hComma.boundary _, ?_⟩
    rw [Expr.sourceMore, Expr.tokensMore]
    simp only [List.cons_append, List.append_assoc]
    exact hArg.space.char hComma

/-- The step of a loop, if it is spelled. -/
theorem spells_sourceStep {step : Option Expr}
    (hStep : ∀ e ∈ step, ∀ {text : List Char} {tokens : List Token}, Boundary text →
      Spells text tokens → Spells (e.source literal ++ text) (e.tokens ++ tokens))
    (hText : Boundary text) (h : Spells text tokens) :
    Boundary (Expr.sourceStep literal step ++ text) ∧
      Spells (Expr.sourceStep literal step ++ text) (Expr.tokensStep step ++ tokens) := by
  have hComma : Punctuation ',' := punctuation_of_mem (by simp)
  cases step with
  | none => exact ⟨hText, h⟩
  | some e => exact ⟨hComma.boundary _, (hStep e rfl hText h).space.char hComma⟩

/-- The lexer finds the tokens of an expression in its text, if what follows is no part of them. -/
theorem spells_source {e : Expr} (hPrintable : e.Printable table literal) :
    ∀ {text : List Char} {tokens : List Token}, Boundary text → Spells text tokens →
      Spells (e.source literal ++ text) (e.tokens ++ tokens) := by
  have hOpen : Punctuation '(' := punctuation_of_mem (by simp)
  have hClose : Punctuation ')' := punctuation_of_mem (by simp)
  have hComma : Punctuation ',' := punctuation_of_mem (by simp)
  have hEquals : Punctuation '=' := punctuation_of_mem (by simp)
  induction hPrintable with
  | ofNumber hReads =>
    intro text tokens hText h
    exact h.literal hReads hText
  | ofVariable hName =>
    intro text tokens hText h
    exact h.name hName hText
  | ofBinary hOperator _ _ ihLeft ihRight =>
    intro text tokens hText h
    have hRight := ihRight (hClose.boundary _) (h.char hClose)
    have hLeft := ihLeft (boundary_space _) (hRight.space.char hOperator.punctuation).space
    simpa [Expr.source, Expr.tokens] using hLeft.char hOpen
  | @ofCall callee args hName _ ih =>
    intro text tokens hText h
    have hArgs : Spells (Expr.sourceAll literal args ++ text) (Expr.tokensAll args ++ tokens) := by
      cases args with
      | nil => exact h.char hClose
      | cons arg rest =>
        obtain ⟨hBoundary, hRest⟩ :=
          spells_sourceMore h fun a ha => ih a (List.mem_cons_of_mem _ ha)
        have hArg := ih arg List.mem_cons_self hBoundary hRest
        simpa [Expr.sourceAll, Expr.tokensAll] using hArg
    simpa [Expr.source, Expr.tokens] using (hArgs.char hOpen).name hName (hOpen.boundary _)
  | ofConditional _ _ _ ihCondition ihTrue ihFalse =>
    intro text tokens hText h
    have hFalse := ihFalse (hClose.boundary _) (h.char hClose)
    have hTrue := ihTrue (boundary_space _) (hFalse.keyword .elseWord).space
    have hCondition := ihCondition (boundary_space _) (hTrue.keyword .thenWord).space
    simpa [Expr.source, Expr.tokens] using (hCondition.keyword .ifWord).char hOpen
  | @ofLoop loopVar start finish step body hName _ _ _ _ ihStart ihFinish ihStep ihBody =>
    intro text tokens hText h
    have hBody := ihBody (hClose.boundary _) (h.char hClose)
    have hIn := (hBody.keyword .inWord).space
    obtain ⟨hBoundary, hStep⟩ := spells_sourceStep ihStep (boundary_space _) hIn
    have hFinish := ihFinish hBoundary hStep
    have hStart := ihStart (hComma.boundary _) (hFinish.space.char hComma)
    have hVar := ((hStart.space.char hEquals).space).name hName (boundary_space _)
    simpa [Expr.source, Expr.tokens] using (hVar.keyword .forWord).char hOpen

/-- The line of an expression with a semicolon behind it. -/
theorem spells_line {e : Expr} (hPrintable : e.Printable table literal) :
    Spells (terminated (e.source literal ++ [';'])) (e.tokens ++ [.char ';']) := by
  have hLine : terminated (e.source literal ++ [';']) = e.source literal ++ [';', '\n'] := by
    simp [terminated]
  have hEnd : Punctuation ';' := punctuation_of_mem (by simp)
  rw [hLine]
  exact spells_source hPrintable (hEnd.boundary _) ((spells_nil _).char hEnd)

end Spelling

/-! ## From tokens to expressions -/

/-- A list of tokens that starts with one of a certain kind. -/
def Begins (kind : Token → Prop) : List Token → Prop
  | [] => False
  | token :: _ => kind token

theorem Begins.imp {kind kind' : Token → Prop} (h : ∀ token, kind token → kind' token) :
    ∀ {tokens : List Token}, Begins kind tokens → Begins kind' tokens
  | _ :: _, hBegins => h _ hBegins

theorem Begins.headD {kind : Token → Prop} {tokens : List Token} (h : Begins kind tokens)
    (next : Token) : kind (tokens.headD next) := by
  cases tokens with
  | nil => exact absurd h id
  | cons token tokens => exact h

theorem Begins.append_right {kind : Token → Prop} {tokens : List Token} (h : Begins kind tokens)
    (more : List Token) : Begins kind (tokens ++ more) := by
  cases tokens with
  | nil => exact absurd h id
  | cons token tokens => exact h

theorem Begins.append {kind : Token → Prop} {rest : List Token} (h : Begins kind rest)
    (tokens : List Token) : Begins (fun _ => True) (tokens ++ rest) := by
  cases tokens with
  | nil => exact h.imp fun _ _ => trivial
  | cons _ _ => trivial

namespace Rule

variable {α β : Type} {kind : Token → Prop} {token : Token} {tokens more : List Token} {a : α}

/-- A rule reads these tokens and gives a value, if a token of a certain kind comes next. -/
def Parses (rule : Rule α) (tokens : List Token) (a : α) (kind : Token → Prop) : Prop :=
  ∀ lexer rest, Begins kind rest → lexer.Shows (tokens ++ rest) →
    ∃ after, rule.run lexer = (.ok a, after) ∧ after.Shows rest

theorem Parses.weaken {kind' : Token → Prop} {rule : Rule α} (h : rule.Parses tokens a kind)
    (hKind : ∀ token, kind' token → kind token) : rule.Parses tokens a kind' :=
  fun lexer rest hRest hShows => h lexer rest (hRest.imp hKind) hShows

theorem parses_pure (a : α) : (pure a : Rule α).Parses [] a kind :=
  fun lexer _ _ hShows => ⟨lexer, rfl, hShows⟩

/-- One rule after another, where the second reads what the first wants to see. -/
theorem Parses.bind {kind' : Token → Prop} {first : Rule α} {next : α → Rule β} {b : β}
    (h : first.Parses tokens a kind') (hNext : (next a).Parses more b kind)
    (hMeet : ∀ rest, Begins kind rest → Begins kind' (more ++ rest)) :
    (first >>= next).Parses (tokens ++ more) b kind := by
  intro lexer rest hRest hShows
  rw [List.append_assoc] at hShows
  obtain ⟨middle, hRun, hMiddle⟩ := h lexer _ (hMeet rest hRest) hShows
  obtain ⟨after, hRunNext, hAfter⟩ := hNext middle rest hRest hMiddle
  exact ⟨after, by rw [run_bind, hRun]; exact hRunNext, hAfter⟩

/-- A rule for one token, and then another rule. -/
theorem Parses.cons {first : Rule α} {next : α → Rule β} {b : β}
    (h : first.Parses [token] a fun _ => True) (hNext : (next a).Parses tokens b kind) :
    (first >>= next).Parses (token :: tokens) b kind :=
  Parses.bind h hNext fun _ hRest => hRest.append _

/-- A rule whose value is made into another one. -/
theorem Parses.map {rule : Rule α} (h : rule.Parses tokens a kind) (f : α → β) :
    (rule >>= fun a => pure (f a)).Parses tokens (f a) kind := by
  intro lexer rest hRest hShows
  obtain ⟨after, hRun, hAfter⟩ := h lexer rest hRest hShows
  exact ⟨after, by rw [run_bind, hRun]; rfl, hAfter⟩

/-- A look at the token ahead. -/
theorem parses_peek {next : Token → Rule α} (h : (next token).Parses (token :: tokens) a kind) :
    (peek >>= next).Parses (token :: tokens) a kind := by
  intro lexer rest hRest hShows
  obtain ⟨after, hRun, hAfter⟩ := h lexer.looked rest hRest hShows.looked
  refine ⟨after, ?_, hAfter⟩
  rw [run_bind, run_peek, show lexer.peek = token from hShows.1]
  exact hRun

/-- A look at a token that is left for later. -/
theorem parses_peek_next {next : Token → Rule α}
    (h : ∀ token, kind token → (next token).Parses [] a (· = token)) :
    (peek >>= next).Parses [] a kind := by
  intro lexer rest hRest hShows
  cases rest with
  | nil => exact absurd hRest id
  | cons token rest =>
    obtain ⟨after, hRun, hAfter⟩ := h token hRest lexer.looked (token :: rest) rfl hShows.looked
    refine ⟨after, ?_, hAfter⟩
    rw [run_bind, run_peek, show lexer.peek = token from hShows.1]
    exact hRun

theorem parses_advance (token : Token) : advance.Parses [token] () fun _ => True :=
  fun lexer _ _ hShows => ⟨lexer.advance, rfl, hShows.2⟩

theorem parses_keyword (word : Keyword) :
    (keyword word).Parses [.keyword word] () fun _ => True := by
  refine parses_peek ?_
  dsimp only
  rw [if_pos rfl]
  exact parses_advance _

theorem parses_char (c : Char) : (char c).Parses [.char c] () fun _ => True := by
  refine parses_peek ?_
  dsimp only
  rw [if_pos rfl]
  exact parses_advance _

theorem parses_identifier (wanted : Expectation) (name : String) :
    (identifier wanted).Parses [.identifier name] name fun _ => True :=
  parses_peek ((parses_advance _).cons (parses_pure name))

/-- A test for a character that is ahead. -/
theorem parses_isAhead {c : Char} {next : Bool → Rule α}
    (h : (next true).Parses (.char c :: tokens) a kind) :
    (isAhead c >>= next).Parses (.char c :: tokens) a kind := by
  rw [isAhead_bind]
  refine parses_peek ?_
  dsimp only
  rw [beq_self_eq_true]
  exact h

/-- A test for a character that is not ahead. -/
theorem parses_not_isAhead {c : Char} {next : Bool → Rule α}
    (h : (next false).Parses tokens a kind)
    (hNot : ∀ rest, Begins kind rest → Begins (· ≠ .char c) (tokens ++ rest)) :
    (isAhead c >>= next).Parses tokens a kind := by
  intro lexer rest hRest hShows
  obtain ⟨after, hRun, hAfter⟩ := h lexer.looked rest hRest hShows.looked
  refine ⟨after, ?_, hAfter⟩
  have hPeek : lexer.peek ≠ .char c := by
    have hFirst := hNot rest hRest
    generalize tokens ++ rest = all at hFirst hShows
    cases all with
    | nil => exact absurd hFirst id
    | cons first all =>
      rw [hShows.1]
      exact hFirst
  rw [isAhead_bind, run_bind, run_peek]
  dsimp only
  split
  · rename_i found hFound
    have hOther : (found == c) = false := by
      refine beq_false_of_ne fun hSame => hPeek ?_
      rw [hFound, hSame]
    rw [hOther]
    exact hRun
  · exact hRun

/-! ### Operators -/

variable {table : OperatorTable} {literal : Float → List Char}

/-- Tokens that end an expression. -/
def Closes : Token → Prop
  | .char c => c ∈ [')', ',', ';']
  | .keyword _ => True
  | _ => False

/-- Where an expression ends there is no operator, so its chain ends too. -/
theorem parses_no_operations (hTable : ∀ c ∈ ['(', ')', ',', ';'], table.get? c = none)
    (levels : Nat) : (operationsWithin table levels).Parses [] [] Closes := by
  have hAhead : ∀ {next : Option (Char × Int32) → Rule (List Operation)},
      (next none).Parses [] [] Closes → (operatorAhead table >>= next).Parses [] [] Closes := by
    intro next h
    rw [operatorAhead_bind]
    refine parses_peek_next fun token hToken => ?_
    have hNext : (next none).Parses [] [] (· = token) := h.weaken fun _ hSame => hSame ▸ hToken
    cases token with
    | char c =>
      have hMem : c ∈ ['(', ')', ',', ';'] := List.mem_cons_of_mem _ hToken
      dsimp only
      rw [hTable c hMem]
      exact hNext
    | _ => exact hNext
  cases levels with
  | zero =>
    rw [operationsWithin]
    exact hAhead (parses_pure _)
  | succ levels =>
    rw [operationsWithin]
    exact hAhead (parses_pure _)

/-- Tokens that end an operand. -/
def ClosesOperand (token : Token) : Prop :=
  token ≠ .char '('

theorem Closes.operand {token : Token} (h : Closes token) : ClosesOperand token := by
  rintro rfl
  revert h
  show '(' ∈ [')', ',', ';'] → False
  decide

/-- An expression of one operand. -/
theorem parses_single {e : Expr} {levels : Nat}
    (hTable : ∀ c ∈ ['(', ')', ',', ';'], table.get? c = none)
    (h : (operand (expressionWithin table levels)).Parses tokens e Closes) :
    (expressionWithin table (levels + 1)).Parses tokens e Closes := by
  rw [expressionWithin, ← List.append_nil tokens]
  exact h.bind ((parses_no_operations hTable levels).map (groupChain e)) fun _ hRest => hRest

/-- An expression of two operands with an operator between them. -/
theorem parses_pair {left right : Expr} {op : Char} {levels : Nat}
    (hTable : ∀ c ∈ ['(', ')', ',', ';'], table.get? c = none) (hOp : table.IsOperator op)
    (hLeft : (operand (expressionWithin table (levels + 1))).Parses tokens left ClosesOperand)
    (hRight : (operand (expressionWithin table levels)).Parses more right ClosesOperand) :
    (expressionWithin table (levels + 2)).Parses (tokens ++ .char op :: more)
      (.binary op left right) Closes := by
  obtain ⟨precedence, hGet⟩ := Option.isSome_iff_exists.mp hOp.known
  have hNotOpen : op ≠ '(' := by
    rintro rfl
    rw [hTable '(' (by simp)] at hGet
    cases hGet
  have hMore := (parses_no_operations hTable levels).map
    (List.cons (⟨op, precedence, right⟩ : Operation))
  have hOperations : (operationsWithin table (levels + 1)).Parses (.char op :: more)
      [⟨op, precedence, right⟩] Closes := by
    rw [operationsWithin, operatorAhead_bind, ← List.append_nil more]
    refine parses_peek ?_
    dsimp only
    rw [hGet]
    exact (parses_advance _).cons
      (hRight.bind hMore fun _ hRest => hRest.imp fun _ => Closes.operand)
  rw [expressionWithin]
  exact hLeft.bind (hOperations.map (groupChain left)) fun _ _ hSame =>
    hNotOpen (Token.char.inj hSame)

/-! ### Operands -/

variable {inner : Rule Expr}

theorem parses_bracketed {e : Expr} (h : inner.Parses tokens e Closes) :
    (operand inner).Parses (.char '(' :: (tokens ++ [.char ')'])) e kind := by
  refine parses_peek ?_
  show (bracketed inner).Parses _ e kind
  have hClose : (char ')' >>= fun _ => (pure e : Rule Expr)).Parses [.char ')'] e kind :=
    (parses_char ')').cons (parses_pure e)
  refine (parses_char '(').cons (h.bind hClose fun _ _ => ?_)
  show ')' ∈ [')', ',', ';']
  decide

theorem tokens_head (e : Expr) : ∀ rest, Begins (· ≠ .char ')') (e.tokens ++ rest) := by
  intro rest
  cases e <;> simp [Expr.tokens, Begins]

/-- The arguments of a call, if each of them is read. -/
theorem parses_items {arg : Expr} {rest : List Expr}
    (h : ∀ e ∈ arg :: rest, inner.Parses e.tokens e Closes) :
    (items inner).Parses (arg.tokens ++ Expr.tokensMore rest) (arg :: rest) kind := by
  induction rest generalizing arg with
  | nil =>
    intro lexer later _ hShows
    rw [Expr.tokensMore, List.append_assoc] at hShows
    obtain ⟨middle, hRun, hClose, hAfter⟩ := h arg List.mem_cons_self lexer _ (by
      show ')' ∈ [')', ',', ';']
      decide) hShows
    exact ⟨middle.advance, (itemsFrom_of_ok hRun).1 hClose, hAfter⟩
  | cons next rest ih =>
    intro lexer later hLater hShows
    rw [Expr.tokensMore, List.append_assoc] at hShows
    obtain ⟨middle, hRun, hComma, hMiddle⟩ := h arg List.mem_cons_self lexer _ (by
      show ',' ∈ [')', ',', ';']
      decide) hShows
    obtain ⟨after, hMore, hAfter⟩ :=
      ih (fun e he => h e (List.mem_cons_of_mem _ he)) middle.advance later hLater hMiddle
    have hMore : itemsFrom inner middle.advance = (.ok (next :: rest), after) := hMore
    refine ⟨after, ?_, hAfter⟩
    show itemsFrom inner lexer = _
    rw [(itemsFrom_of_ok hRun).2.1 hComma, hMore]
    rfl

theorem parses_call {callee : String} {args : List Expr}
    (h : ∀ e ∈ args, inner.Parses e.tokens e Closes) :
    (operand inner).Parses (.identifier callee :: .char '(' :: Expr.tokensAll args)
      (.call callee args) kind := by
  refine parses_peek ((parses_advance _).cons (parses_isAhead ?_))
  rw [if_pos rfl]
  refine (parses_advance _).cons ?_
  cases args with
  | nil =>
    refine parses_isAhead ?_
    rw [if_pos rfl]
    exact (parses_advance _).cons (parses_pure _)
  | cons arg rest =>
    rw [Expr.tokensAll]
    refine parses_not_isAhead ?_ fun later _ => ?_
    · rw [if_neg Bool.false_ne_true]
      exact (parses_items h).map (Expr.call callee)
    · rw [List.append_assoc]
      exact tokens_head arg _

theorem parses_conditional {condition onTrue onFalse : Expr}
    (hCondition : inner.Parses condition.tokens condition Closes)
    (hTrue : inner.Parses onTrue.tokens onTrue Closes)
    (hFalse : inner.Parses onFalse.tokens onFalse Closes) :
    (operand inner).Parses (.keyword .ifWord :: (condition.tokens ++ .keyword .thenWord ::
      (onTrue.tokens ++ .keyword .elseWord :: onFalse.tokens)))
      (.ifThenElse condition onTrue onFalse) Closes := by
  refine parses_peek ?_
  show (conditional inner).Parses _ _ Closes
  refine (parses_keyword _).cons (hCondition.bind ?_ fun _ _ => trivial)
  refine (parses_keyword _).cons (hTrue.bind ?_ fun _ _ => trivial)
  exact (parses_keyword _).cons (hFalse.map (Expr.ifThenElse condition onTrue))

theorem parses_loopStep {step : Option Expr} (h : ∀ e ∈ step, inner.Parses e.tokens e Closes) :
    (loopStep inner).Parses (Expr.tokensStep step) step (· = .keyword .inWord) := by
  have hCloses : ∀ token, token = .keyword .inWord → Closes token := by
    rintro _ rfl
    trivial
  cases step with
  | none =>
    refine parses_not_isAhead (parses_pure _) fun rest hRest => hRest.imp ?_
    rintro _ rfl
    exact nofun
  | some e =>
    refine parses_isAhead ?_
    rw [if_pos rfl]
    refine (parses_advance _).cons ?_
    exact ((h e rfl).weaken hCloses).map some

theorem parses_loop (loopVar : String) {start finish body : Expr} {step : Option Expr}
    (hStart : inner.Parses start.tokens start Closes)
    (hFinish : inner.Parses finish.tokens finish Closes)
    (hStep : ∀ e ∈ step, inner.Parses e.tokens e Closes)
    (hBody : inner.Parses body.tokens body Closes) :
    (operand inner).Parses (.keyword .forWord :: .identifier loopVar :: .char '=' ::
      (start.tokens ++ .char ',' :: (finish.tokens ++ (Expr.tokensStep step ++ .keyword .inWord ::
        body.tokens))))
      (.forLoop loopVar start finish step body) Closes := by
  have hComma : Closes (.char ',') := by
    show ',' ∈ [')', ',', ';']
    decide
  refine parses_peek ?_
  show (loop inner).Parses _ _ Closes
  refine (parses_keyword _).cons ((parses_identifier _ _).cons ((parses_char _).cons ?_))
  refine hStart.bind ?_ fun _ _ => hComma
  refine (parses_char _).cons (hFinish.bind ?_ fun rest _ => ?_)
  · refine (parses_loopStep hStep).bind ?_ fun _ _ => rfl
    exact (parses_keyword _).cons (hBody.map (Expr.forLoop loopVar start finish step))
  · -- The end is followed by the comma of the step or by the keyword.
    cases step with
    | none => trivial
    | some e => exact hComma

/-! ### Expressions -/

theorem height_pos (e : Expr) : 0 < e.height := by
  cases e <;> simp [Expr.height]

theorem height_le_heightAll {args : List Expr} {arg : Expr} (h : arg ∈ args) :
    arg.height ≤ Expr.heightAll args := by
  induction args with
  | nil => cases h
  | cons first rest ih =>
    rw [Expr.heightAll]
    rcases List.mem_cons.mp h with rfl | h
    · exact Nat.le_max_left _ _
    · exact Nat.le_trans (ih h) (Nat.le_max_right _ _)

/-- An operand is read where two levels are left for each level of the tree below its root. -/
theorem parses_operand (hTable : ∀ c ∈ ['(', ')', ',', ';'], table.get? c = none) {e : Expr}
    (h : e.Printable table literal) : ∀ levels : Nat, 2 * e.height ≤ levels + 2 →
      (operand (expressionWithin table levels)).Parses e.tokens e ClosesOperand := by
  -- What is read as an operand with some levels is an expression with one level more.
  have hInner : ∀ {e : Expr}, (∀ levels : Nat, 2 * e.height ≤ levels + 2 →
      (operand (expressionWithin table levels)).Parses e.tokens e ClosesOperand) →
      ∀ {levels : Nat}, 2 * e.height ≤ levels + 1 →
        (expressionWithin table levels).Parses e.tokens e Closes := by
    intro e h levels hLevels
    have hPos := height_pos e
    obtain ⟨fewer, rfl⟩ : ∃ fewer, levels = fewer + 1 := ⟨levels - 1, by omega⟩
    exact parses_single hTable ((h _ (by omega)).weaken fun _ => Closes.operand)
  induction h with
  | ofNumber _ =>
    intro levels _
    exact parses_peek ((parses_advance _).cons (parses_pure _))
  | ofVariable _ =>
    intro levels _
    exact parses_peek ((parses_advance _).cons
      (parses_not_isAhead (parses_pure _) fun _ hRest => hRest))
  | @ofBinary op left right hOperator _ _ ihLeft ihRight =>
    intro levels hLevels
    have hPos := height_pos left
    rw [Expr.height] at hLevels
    obtain ⟨fewer, rfl⟩ : ∃ fewer, levels = fewer + 2 := ⟨levels - 2, by omega⟩
    have hPair := parses_pair hTable hOperator (ihLeft (fewer + 1) (by omega))
      (ihRight fewer (by omega))
    have hBracketed : (operand (expressionWithin table (fewer + 2))).Parses _ _ ClosesOperand :=
      parses_bracketed hPair
    simpa [Expr.tokens] using hBracketed
  | @ofCall callee args _ _ ih =>
    intro levels hLevels
    rw [Expr.height] at hLevels
    refine parses_call fun arg hMem => hInner (ih arg hMem) ?_
    have hLe := height_le_heightAll hMem
    omega
  | @ofConditional condition onTrue onFalse _ _ _ ihCondition ihTrue ihFalse =>
    intro levels hLevels
    have hPos := height_pos condition
    rw [Expr.height] at hLevels
    obtain ⟨fewer, rfl⟩ : ∃ fewer, levels = fewer + 1 := ⟨levels - 1, by omega⟩
    have hConditional : (operand (expressionWithin table fewer)).Parses _ _ Closes :=
      parses_conditional (hInner ihCondition (by omega)) (hInner ihTrue (by omega))
        (hInner ihFalse (by omega))
    have hBracketed : (operand (expressionWithin table (fewer + 1))).Parses _ _ ClosesOperand :=
      parses_bracketed (parses_single hTable hConditional)
    simpa [Expr.tokens] using hBracketed
  | @ofLoop loopVar start finish step body _ _ _ _ _ ihStart ihFinish ihStep ihBody =>
    intro levels hLevels
    have hPos := height_pos start
    rw [Expr.height] at hLevels
    obtain ⟨fewer, rfl⟩ : ∃ fewer, levels = fewer + 1 := ⟨levels - 1, by omega⟩
    have hStep : ∀ e ∈ step, (expressionWithin table fewer).Parses e.tokens e Closes := by
      rintro e rfl
      rw [Expr.heightStep] at hLevels
      exact hInner (ihStep e rfl) (by omega)
    have hLoop := parses_loop loopVar (hInner ihStart (by omega)) (hInner ihFinish (by omega))
      hStep (hInner ihBody (by omega))
    have hBracketed : (operand (expressionWithin table (fewer + 1))).Parses _ _ ClosesOperand :=
      parses_bracketed (parses_single hTable hLoop)
    simpa [Expr.tokens] using hBracketed

/-- An expression is read where there are two levels for each level of its tree. -/
theorem parses_expression (hTable : ∀ c ∈ ['(', ')', ',', ';'], table.get? c = none) {e : Expr}
    (hPrintable : e.Printable table literal) (hHeight : e.height ≤ 128) :
    (expression table).Parses e.tokens e Closes := by
  have hOperand := parses_operand hTable hPrintable 255 (by omega)
  exact parses_single hTable (hOperand.weaken fun _ => Closes.operand)

/-- A rule whose tokens are spelled in the first line, with a semicolon behind them, stops at the
semicolon. -/
theorem Parses.run_line {rule : Rule α} (h : rule.Parses tokens a Closes) {line : List Char}
    (hSpells : Spells (terminated line) (tokens ++ [.char ';'])) (later : List (List Char))
    (failure : Option String) :
    ∃ after, rule.run (Lexer.ofInput { lines := line :: later, failure := failure }) =
      (.ok a, after) ∧ after.peek = .char ';' := by
  have hCloses : Closes (.char ';') := by
    show ';' ∈ [')', ',', ';']
    decide
  obtain ⟨after, hRun, hPeek, -⟩ := h _ [.char ';'] hCloses (hSpells.shows_ofInput later failure)
  exact ⟨after, hRun, hPeek⟩

/-- A printed expression with a semicolon behind it is read back, up to the semicolon. -/
theorem run_expression_source (hTable : ∀ c ∈ ['(', ')', ',', ';'], table.get? c = none) {e : Expr}
    (hPrintable : e.Printable table literal) (hHeight : e.height ≤ 128)
    (later : List (List Char)) (failure : Option String) :
    ∃ after, (expression table).run
        (Lexer.ofInput { lines := (e.source literal ++ [';']) :: later, failure := failure }) =
          (.ok e, after) ∧ after.peek = .char ';' := by
  have hSpells := spells_line hPrintable
  exact (parses_expression hTable hPrintable hHeight).run_line hSpells later failure

/-- A loop with operators, calls and a conditional in it; the line below starts a comment. -/
theorem run_expression_source_loop :
    ∃ after, (expression OperatorTable.standard).run
        (Lexer.ofInput {
          lines := ["(for i = 1, (i < n), next() in (if i then f(i, 1) else 1));".toList, ['#']],
          failure := none }) =
      (.ok (.forLoop "i" (.number (Float.ofScientific 1 false 0))
        (.binary '<' (.variable "i") (.variable "n")) (some (.call "next" []))
        (.ifThenElse (.variable "i")
          (.call "f" [.variable "i", .number (Float.ofScientific 1 false 0)])
          (.number (Float.ofScientific 1 false 0)))), after) ∧
        after.peek = .char ';' := by
  have hNames : IsName "i" ∧ IsName "n" ∧ IsName "f" ∧ IsName "next" := by decide
  obtain ⟨hI, hN, hF, hNext⟩ := hNames
  have hLess : OperatorTable.standard.IsOperator '<' := ⟨by decide, by constructor <;> decide⟩
  have hOne : (Expr.number (Float.ofScientific 1 false 0)).Printable OperatorTable.standard
      fun _ => ['1'] := .ofNumber rfl
  have hArgs : ∀ arg ∈ [Expr.variable "i", .number (Float.ofScientific 1 false 0)],
      arg.Printable OperatorTable.standard fun _ => ['1'] := by
    intro arg hMem
    rcases List.mem_pair.mp hMem with rfl | rfl
    · exact .ofVariable hI
    · exact hOne
  have hStep : ∀ e ∈ some (Expr.call "next" []),
      e.Printable OperatorTable.standard fun _ => ['1'] := by
    rintro _ ⟨⟩
    exact .ofCall hNext nofun
  have hTable : ['(', ')', ',', ';'].all
      (fun c => (OperatorTable.standard.get? c).isNone) = true := by decide
  exact run_expression_source
    (fun c hc => Option.isNone_iff_eq_none.mp (List.all_eq_true.mp hTable c hc))
    (.ofLoop hI hOne (.ofBinary hLess (.ofVariable hI) (.ofVariable hN)) hStep
      (.ofConditional (.ofVariable hI) (.ofCall hF hArgs) hOne))
    (by decide) _ none

/-- Every expression whose numbers are finite and without sign is read back when its numbers are
printed with their exact values. -/
theorem run_expression_exactSource (hTable : ∀ c ∈ ['(', ')', ',', ';'], table.get? c = none)
    {e : Expr} (hWritable : e.Writable table Binary64.IsUnsigned) (hHeight : e.height ≤ 128)
    (later : List (List Char)) (failure : Option String) :
    ∃ after, (expression table).run (Lexer.ofInput {
      lines := (e.source Binary64.exactLiteral ++ [';']) :: later, failure := failure }) =
        (.ok e, after) ∧ after.peek = .char ';' := by
  have hPrintable := hWritable.printable
  exact (parses_expression hTable hPrintable hHeight).run_line (spells_line hPrintable) later failure

end Rule

end LiveCompiler
