import LiveCompiler.Proofs.Grammar.SyntaxTree

/-!
# Reading what is spelled

What the rules read where tokens spell an expression: this expression, if its levels are not above
the limit, and otherwise they find it too deep (`SyntaxTree.Reading.whole`).  The levels that are
counted are those of its tree, but an operand has all the operators of its chain in front of it
counted (`SyntaxTree.levels`).

So what a chain is read to is its ordered tree (`Rule.run_expressionWithin_ordered`).
-/

namespace LiveCompiler

namespace Rule

variable {α β : Type} {enough enough' : Prop} {tokens more : List Token} {token next : Token}
  {a : α} {b : β}

/-- On these tokens, in front of a given token, a rule gives a value and stops in front of that
token if there are enough levels; if there are not, it fails for that reason. -/
def ReadsIf (enough : Prop) (rule : Rule α) (tokens : List Token) (a : α) (next : Token) : Prop :=
  ∀ lexer rest, lexer.Shows (tokens ++ next :: rest) →
    (enough → ∃ after, rule.run lexer = (.ok a, after) ∧ after.Shows (next :: rest)) ∧
      (¬ enough → ∃ e after, rule.run lexer = (.error e, after) ∧ e.fault = .tooDeep)

theorem ReadsIf.congr {rule : Rule α} (h : rule.ReadsIf enough tokens a next)
    (hEnough : enough ↔ enough') : rule.ReadsIf enough' tokens a next :=
  propext hEnough ▸ h

theorem Parses.readsIf {rule : Rule α} {kind : Token → Prop} (h : rule.Parses tokens a kind)
    (hNext : kind next) : rule.ReadsIf True tokens a next :=
  fun lexer rest hShows =>
    ⟨fun _ => h lexer (next :: rest) hNext hShows, fun hNot => (hNot trivial).elim⟩

theorem readsIf_pure (a : α) : (pure a : Rule α).ReadsIf True [] a next :=
  (parses_pure a : (pure a : Rule α).Parses [] a fun _ => True).readsIf trivial

/-- To give a value no level is needed. -/
theorem readsIf_value (a : α) {limit : Nat} : (pure a : Rule α).ReadsIf (0 ≤ limit) [] a next :=
  (readsIf_pure a).congr (iff_of_true trivial (Nat.zero_le limit))

theorem readsIf_tooDeep : (fail .tooDeep : Rule α).ReadsIf False tokens a next :=
  fun _ _ _ => ⟨False.elim, fun _ => ⟨_, _, rfl, rfl⟩⟩

/-- One rule after another. -/
theorem ReadsIf.bind {first : Rule α} {second : α → Rule β}
    (h : first.ReadsIf enough tokens a (more.headD next))
    (hSecond : (second a).ReadsIf enough' more b next) :
    (first >>= second).ReadsIf (enough ∧ enough') (tokens ++ more) b next := by
  intro lexer rest hShows
  obtain ⟨later, hLater⟩ : ∃ later, more ++ next :: rest = more.headD next :: later := by
    cases more with
    | nil => exact ⟨rest, rfl⟩
    | cons token more => exact ⟨_, rfl⟩
  rw [List.append_assoc, hLater] at hShows
  obtain ⟨hOk, hError⟩ := h lexer later hShows
  rw [run_bind]
  by_cases hEnough : enough
  · obtain ⟨middle, hRun, hMiddle⟩ := hOk hEnough
    rw [← hLater] at hMiddle
    rw [hRun]
    simpa [hEnough] using hSecond middle rest hMiddle
  · obtain ⟨e, middle, hRun, hFault⟩ := hError hEnough
    rw [hRun]
    exact ⟨fun hBoth => (hEnough hBoth.1).elim, fun _ => ⟨e, middle, rfl, hFault⟩⟩

/-- A rule for one token, and then another rule. -/
theorem Parses.andThenIf {first : Rule α} {second : α → Rule β}
    (h : first.Parses [token] a fun _ => True) (hSecond : (second a).ReadsIf enough tokens b next) :
    (first >>= second).ReadsIf enough (token :: tokens) b next :=
  (ReadsIf.bind (h.readsIf trivial) hSecond).congr (iff_of_eq (true_and enough))

/-- A rule whose value is made into another one. -/
theorem ReadsIf.map {rule : Rule α} (h : rule.ReadsIf enough tokens a next) (f : α → β) :
    (rule >>= fun a => pure (f a)).ReadsIf enough tokens (f a) next := by
  rw [← List.append_nil tokens]
  refine ReadsIf.congr ?_ (iff_of_eq (and_true enough))
  exact ReadsIf.bind h (readsIf_pure (f a))

/-- A look at the token ahead. -/
theorem readsIf_peek {following : Token → Rule α}
    (h : (following (tokens.headD next)).ReadsIf enough tokens a next) :
    (peek >>= following).ReadsIf enough tokens a next := by
  intro lexer rest hShows
  have hPeek : lexer.peek = tokens.headD next := by
    cases tokens with
    | nil => exact hShows.1
    | cons token tokens => exact hShows.1
  rw [run_bind, run_peek, hPeek]
  exact h lexer.looked rest hShows.looked

/-- A test for a character that is ahead. -/
theorem readsIf_isAhead {c : Char} {following : Bool → Rule α}
    (h : (following true).ReadsIf enough (.char c :: tokens) a next) :
    (isAhead c >>= following).ReadsIf enough (.char c :: tokens) a next := by
  rw [isAhead_bind]
  refine readsIf_peek ?_
  rw [List.headD_cons]
  dsimp only
  rw [beq_self_eq_true]
  exact h

/-- A test for a character that is not ahead. -/
theorem readsIf_not_isAhead {c : Char} {following : Bool → Rule α}
    (hNot : tokens.headD next ≠ .char c) (h : (following false).ReadsIf enough tokens a next) :
    (isAhead c >>= following).ReadsIf enough tokens a next := by
  rw [isAhead_bind]
  refine readsIf_peek ?_
  split
  · rename_i found hFound
    have hOther : (found == c) = false :=
      beq_false_of_ne fun hSame => hNot (hFound.trans (congrArg Token.char hSame))
    rw [hOther]
    exact h
  · exact h

variable {item : Rule α} {all : List α}

theorem readsIf_items_last (h : item.ReadsIf enough tokens a (.char ')')) :
    (items item).ReadsIf enough (tokens ++ [.char ')']) [a] next := by
  intro lexer rest hShows
  rw [List.append_assoc, List.singleton_append] at hShows
  obtain ⟨hOk, hError⟩ := h lexer (next :: rest) hShows
  constructor
  · intro hEnough
    obtain ⟨middle, hItem, hClose, hAfter⟩ := hOk hEnough
    exact ⟨_, (itemsFrom_of_ok hItem).1 hClose, hAfter⟩
  · intro hNot
    obtain ⟨e, middle, hItem, hFault⟩ := hError hNot
    exact ⟨e, middle, itemsFrom_of_error hItem, hFault⟩

theorem readsIf_items_more (h : item.ReadsIf enough tokens a (.char ','))
    (hMore : (items item).ReadsIf enough' more all next) :
    (items item).ReadsIf (enough ∧ enough') (tokens ++ .char ',' :: more) (a :: all) next := by
  intro lexer rest hShows
  rw [List.append_assoc, List.cons_append] at hShows
  obtain ⟨hOk, hError⟩ := h lexer (more ++ next :: rest) hShows
  by_cases hEnough : enough
  · obtain ⟨middle, hItem, hComma, hMiddle⟩ := hOk hEnough
    have hItems := (itemsFrom_of_ok hItem).2.1 hComma
    obtain ⟨hMoreOk, hMoreError⟩ := hMore middle.advance rest hMiddle
    constructor
    · intro hBoth
      obtain ⟨after, hRest, hAfter⟩ := hMoreOk hBoth.2
      exact ⟨after, hItems.trans (by rw [show itemsFrom item _ = _ from hRest]; rfl), hAfter⟩
    · intro hNot
      obtain ⟨e, after, hRest, hFault⟩ := hMoreError fun hEnough' => hNot ⟨hEnough, hEnough'⟩
      exact ⟨e, after, hItems.trans (by rw [show itemsFrom item _ = _ from hRest]; rfl), hFault⟩
  · obtain ⟨e, middle, hItem, hFault⟩ := hError hEnough
    exact ⟨fun hBoth => (hEnough hBoth.1).elim,
      fun _ => ⟨e, middle, itemsFrom_of_error hItem, hFault⟩⟩

variable {table : OperatorTable} {following : Option (Char × Int32) → Rule α}

/-- A look for an operator that is ahead. -/
theorem readsIf_operatorAhead {op : Char} {precedence : Int32}
    (hOp : table.get? op = some precedence)
    (h : (following (some (op, precedence))).ReadsIf enough (.char op :: tokens) a next) :
    (operatorAhead table >>= following).ReadsIf enough (.char op :: tokens) a next := by
  rw [operatorAhead_bind]
  refine readsIf_peek ?_
  rw [List.headD_cons]
  dsimp only
  rw [hOp]
  exact h

/-- A look for an operator where there is none. -/
theorem readsIf_not_operatorAhead (hNext : table.precedence? next = none)
    (h : (following none).ReadsIf enough [] a next) :
    (operatorAhead table >>= following).ReadsIf enough [] a next := by
  rw [operatorAhead_bind]
  refine readsIf_peek ?_
  rw [List.headD_nil]
  cases next with
  | char c =>
    have hGet : table.get? c = none := hNext
    dsimp only
    rw [hGet]
    exact h
  | _ => exact h

end Rule

namespace SyntaxTree

variable {table : OperatorTable} {next : Token}

/-- The operators of the outermost chain. -/
def chainLength : {part : Part} → SyntaxTree part → Nat
  | _, .binary _ _ left right => left.chainLength + 1 + right.chainLength
  | _, _ => 0

/-- The levels that are counted.  An operand has all the operators of its chain in front of it
counted, also those that it does not stand under. -/
def levels : {part : Part} → SyntaxTree part → Nat
  | _, .number _ => 1
  | _, .name _ => 1
  | _, .callNone _ => 1
  | _, .call _ args => args.levels + 1
  | _, .bracketed inner => inner.levels + 1
  | _, .conditional condition onTrue onFalse =>
    max condition.levels (max onTrue.levels onFalse.levels) + 1
  | _, .loop _ start finish step body =>
    max start.levels (max finish.levels (max step.levels body.levels)) + 1
  | _, .binary _ _ left right => max left.levels (left.chainLength + 1 + right.levels)
  | _, .lastArgument e => e.levels
  | _, .argument e more => max e.levels more.levels
  | _, .noStep => 0
  | _, .someStep e => e.levels

variable {part : Part}

/-- Every operator of a chain is counted, and an operand too. -/
theorem chainLength_lt_levels (tree : SyntaxTree part) (h : part = .expression) :
    tree.chainLength < tree.levels := by
  induction tree with
  | binary operator precedence left right ihLeft ihRight =>
    have hRight := ihRight rfl
    rw [chainLength, levels]
    omega
  | lastArgument | argument | noStep | someStep => cases h
  | _ => exact Nat.succ_pos _

open Rule

/-- A chain is read off tokens in front of a given one, with so many levels: the first operand off
the head, and the operators off the tail. -/
def ReadsChain (table : OperatorTable) (first : Expr) (operations : List Operation)
    (tokens : List Token) (levels : Nat) (next : Token) : Prop :=
  ∃ head tail atHead atTail, tokens = head ++ tail ∧ levels = max atHead atTail ∧
    (∀ limit, (operand (expressionWithin table limit)).ReadsIf (atHead ≤ limit + 1) head first
      (tail.headD next)) ∧
    ∀ limit, (operationsWithin table limit).ReadsIf (atTail ≤ limit + 1) tail operations next

variable {first : Expr} {operations : List Operation} {tokens : List Token} {count : Nat}

/-- A chain is an expression. -/
theorem ReadsChain.expression (h : ReadsChain table first operations tokens count next)
    (hPos : 0 < count) (limit : Nat) : (expressionWithin table limit).ReadsIf (count ≤ limit) tokens
      (groupChain first operations) next := by
  obtain ⟨head, tail, atHead, atTail, rfl, rfl, hHead, hTail⟩ := h
  cases limit with
  | zero => exact readsIf_tooDeep.congr (iff_of_false id (by omega))
  | succ limit =>
    refine ReadsIf.congr ?_ (show atHead ≤ limit + 1 ∧ atTail ≤ limit + 1 ↔ _ by omega)
    exact ReadsIf.bind (hHead limit) (ReadsIf.map (hTail limit) _)

/-- An operator takes one level from the chain behind it. -/
theorem ReadsChain.operation (h : ReadsChain table first operations tokens count next)
    (hPos : 0 < count) {op : Char} {precedence : Int32} (hOp : table.get? op = some precedence)
    (limit : Nat) : (operationsWithin table limit).ReadsIf (1 + count ≤ limit + 1)
      (.char op :: tokens) (⟨op, precedence, first⟩ :: operations) next := by
  obtain ⟨head, tail, atHead, atTail, rfl, rfl, hHead, hTail⟩ := h
  cases limit with
  | zero =>
    refine readsIf_operatorAhead hOp ((parses_advance _).andThenIf ?_)
    exact readsIf_tooDeep.congr (iff_of_false id (by omega))
  | succ limit =>
    refine readsIf_operatorAhead hOp ((parses_advance _).andThenIf ?_)
    refine ReadsIf.congr ?_ (show atHead ≤ limit + 1 ∧ atTail ≤ limit + 1 ↔ _ by omega)
    exact ReadsIf.bind (hHead limit) (ReadsIf.map (hTail limit) _)

/-- Where nothing goes on with a chain, no level is needed. -/
theorem readsIf_no_operations (hNext : table.precedence? next = none) (limit : Nat) :
    (operationsWithin table limit).ReadsIf (0 ≤ limit + 1) [] [] next := by
  cases limit <;> exact readsIf_not_operatorAhead hNext (readsIf_value [])

/-- What the rules for a part read in front of a token.  The chain of an expression may go on with
other operators. -/
def Reading (table : OperatorTable) : {part : Part} → SyntaxTree part → Token → Prop
  | .expression, tree, next => tree.value.Ordered ∧
    ∀ (more : List Token) (rest : List Operation) (extra : Nat) (behind : Token),
      more.headD behind = next →
      (∀ limit, (operationsWithin table limit).ReadsIf (extra ≤ limit + 1) more rest behind) →
      ReadsChain table tree.value.first (tree.value.operations ++ rest) (tree.tokens ++ more)
        (max tree.levels (tree.chainLength + extra)) behind
  | .arguments, args, next => ∀ limit,
    (items (expressionWithin table limit)).ReadsIf (args.levels ≤ limit) args.tokens args.value next
  | .step, step, next => ∀ limit,
    (loopStep (expressionWithin table limit)).ReadsIf (step.levels ≤ limit) step.tokens step.value
      next

variable {tree left right : SyntaxTree .expression} {e : Expr}

/-- An operand is a chain without operators. -/
theorem reading_operand {below : Nat} (hValue : tree.value = .operand e)
    (hLength : tree.chainLength = 0) (hLevels : tree.levels = below + 1)
    (h : ∀ limit, (operand (expressionWithin table limit)).ReadsIf (below ≤ limit) tree.tokens e
      next) : tree.Reading table next := by
  rw [Reading, hValue, hLength]
  refine ⟨trivial, fun more rest extra behind hBehind hMore => ?_⟩
  rw [Nat.zero_add]
  refine ⟨tree.tokens, more, tree.levels, extra, rfl, rfl, fun limit => ?_, hMore⟩
  rw [hBehind]
  exact (h limit).congr (by omega)

/-- The chain of the left operand goes on with the operator and the chain of the right one. -/
theorem Reading.binary {op : Char} {precedence : Int32} (hOp : table.get? op = some precedence)
    (hLeft : left.Reading table (.char op)) (hRight : right.Reading table next)
    (hLeftRoot : left.value.Root (precedence ≤ ·))
    (hRightRoot : right.value.Root (precedence < ·)) :
    (SyntaxTree.binary op precedence left right).Reading table next := by
  obtain ⟨hLeftOrdered, hLeftChain⟩ := hLeft
  obtain ⟨hRightOrdered, hRightChain⟩ := hRight
  refine ⟨⟨hLeftRoot, hRightRoot, hLeftOrdered, hRightOrdered⟩, ?_⟩
  intro more rest extra behind hBehind hMore
  have hPos := right.chainLength_lt_levels rfl
  have hBehindOp := (hRightChain more rest extra behind hBehind hMore).operation (by omega) hOp
  have hChain := hLeftChain _ _ _ behind rfl hBehindOp
  have hCount : max (SyntaxTree.binary op precedence left right).levels
      ((SyntaxTree.binary op precedence left right).chainLength + extra) =
        max left.levels (left.chainLength +
          (1 + max right.levels (right.chainLength + extra))) := by
    rw [levels, chainLength]
    omega
  rw [hCount]
  simpa [value, Grouping.first, Grouping.operations, SyntaxTree.tokens] using hChain

/-- Behind a whole expression there is no operator. -/
theorem Reading.whole (h : tree.Reading table next) (hNext : table.precedence? next = none)
    (limit : Nat) : (expressionWithin table limit).ReadsIf (tree.levels ≤ limit) tree.tokens
      tree.value.expr next := by
  obtain ⟨hOrdered, hChain⟩ := h
  have hRead := hChain [] [] 0 next rfl (readsIf_no_operations hNext)
  have hLength := tree.chainLength_lt_levels rfl
  rw [List.append_nil, List.append_nil, Nat.add_zero,
    Nat.max_eq_left (Nat.le_of_lt hLength)] at hRead
  rw [← Grouping.groupChain_of_ordered hOrdered]
  exact hRead.expression (Nat.zero_lt_of_lt hLength) limit

theorem reading_conditional {condition onTrue onFalse : SyntaxTree .expression}
    (hCondition : condition.Reading table (.keyword .thenWord))
    (hTrue : onTrue.Reading table (.keyword .elseWord)) (hFalse : onFalse.Reading table next)
    (hNext : table.precedence? next = none) :
    (SyntaxTree.conditional condition onTrue onFalse).Reading table next := by
  refine reading_operand rfl rfl rfl fun limit => readsIf_peek ?_
  show (Rule.conditional (expressionWithin table limit)).ReadsIf _ _ _ _
  refine ReadsIf.congr ?_ (show (condition.levels ≤ limit ∧ onTrue.levels ≤ limit ∧
    onFalse.levels ≤ limit) ↔ _ by omega)
  refine (parses_keyword _).andThenIf (ReadsIf.bind (hCondition.whole rfl limit) ?_)
  refine (parses_keyword _).andThenIf (ReadsIf.bind (hTrue.whole rfl limit) ?_)
  exact (parses_keyword _).andThenIf (ReadsIf.map (hFalse.whole hNext limit) _)

theorem reading_loop (loopVar : String) {start finish body : SyntaxTree .expression}
    {step : SyntaxTree .step} (hStart : start.Reading table (.char ','))
    (hComma : table.precedence? (.char ',') = none)
    (hFinish : finish.Reading table (step.tokens.headD (.keyword .inWord)))
    (hStep : step.Reading table (.keyword .inWord)) (hBody : body.Reading table next)
    (hNext : table.precedence? next = none) :
    (SyntaxTree.loop loopVar start finish step body).Reading table next := by
  -- The end is followed by the step, if there is one, and else by the keyword.
  have hBehind : (step.tokens ++ .keyword .inWord :: body.tokens).headD next =
      step.tokens.headD (.keyword .inWord) := by
    cases step.tokens <;> rfl
  have hEnd : table.precedence? (step.tokens.headD (.keyword .inWord)) = none := by
    cases step with
    | noStep => rfl
    | someStep e => exact hComma
  refine reading_operand rfl rfl rfl fun limit => readsIf_peek ?_
  show (Rule.loop (expressionWithin table limit)).ReadsIf _ _ _ _
  refine ReadsIf.congr ?_ (show (start.levels ≤ limit ∧ finish.levels ≤ limit ∧
    step.levels ≤ limit ∧ body.levels ≤ limit) ↔ _ by omega)
  refine (parses_keyword _).andThenIf ((parses_identifier _ _).andThenIf
    ((parses_char _).andThenIf (ReadsIf.bind (hStart.whole hComma limit) ?_)))
  refine (parses_char _).andThenIf (ReadsIf.bind (hBehind ▸ hFinish.whole hEnd limit) ?_)
  refine ReadsIf.bind (hStep limit) ?_
  exact (parses_keyword _).andThenIf (ReadsIf.map (hBody.whole hNext limit) _)

/-- Where a tree fits, the rules read it. -/
theorem Fits.reading {tree : SyntaxTree part} (hFits : tree.Fits table next) :
    tree.Reading table next := by
  induction tree generalizing next with
  | number value =>
    refine reading_operand rfl rfl rfl fun limit => ?_
    exact readsIf_peek ((parses_advance _).andThenIf (readsIf_value _))
  | name text =>
    refine reading_operand rfl rfl rfl fun limit => ?_
    exact readsIf_peek ((parses_advance _).andThenIf (readsIf_not_isAhead hFits (readsIf_value _)))
  | callNone callee =>
    refine reading_operand rfl rfl rfl fun limit => ?_
    refine readsIf_peek ((parses_advance _).andThenIf (readsIf_isAhead ?_))
    rw [if_pos rfl]
    refine (parses_advance _).andThenIf (readsIf_isAhead ?_)
    rw [if_pos rfl]
    exact (parses_advance _).andThenIf (readsIf_value _)
  | call callee args ih =>
    refine reading_operand rfl rfl rfl fun limit => ?_
    refine readsIf_peek ((parses_advance _).andThenIf (readsIf_isAhead ?_))
    rw [if_pos rfl]
    -- Arguments begin with a token that is not the closing bracket.
    refine (parses_advance _).andThenIf (readsIf_not_isAhead ?_ ?_)
    · exact Begins.headD (args.begins_tokens nofun) _
    rw [if_neg Bool.false_ne_true]
    exact ReadsIf.map (ih hFits limit) (Expr.call callee)
  | bracketed inner ih =>
    obtain ⟨hInner, hClose⟩ := hFits
    refine reading_operand rfl rfl rfl fun limit => readsIf_peek ?_
    show (Rule.bracketed (expressionWithin table limit)).ReadsIf _ _ _ next
    refine (parses_char '(').andThenIf (ReadsIf.congr ?_ (iff_of_eq (and_true _)))
    exact ReadsIf.bind ((ih hInner).whole hClose limit)
      ((parses_char ')').andThenIf (readsIf_pure _))
  | conditional condition onTrue onFalse ihCondition ihTrue ihFalse =>
    obtain ⟨hCondition, hTrue, hFalse, hNext⟩ := hFits
    exact reading_conditional (ihCondition hCondition) (ihTrue hTrue) (ihFalse hFalse) hNext
  | loop loopVar start finish step body ihStart ihFinish ihStep ihBody =>
    obtain ⟨hStart, hComma, hFinish, hStep, hBody, hNext⟩ := hFits
    exact reading_loop loopVar (ihStart hStart) hComma (ihFinish hFinish) (ihStep hStep)
      (ihBody hBody) hNext
  | binary operator precedence left right ihLeft ihRight =>
    obtain ⟨hOp, hLeft, hRight, hLeftRoot, hRightRoot⟩ := hFits
    exact Reading.binary hOp (ihLeft hLeft) (ihRight hRight) hLeftRoot hRightRoot
  | lastArgument e ih => exact fun limit => readsIf_items_last ((ih hFits.1).whole hFits.2 limit)
  | argument e more ih ihMore =>
    obtain ⟨hFirst, hComma, hMore⟩ := hFits
    intro limit
    refine (readsIf_items_more ((ih hFirst).whole hComma limit) (ihMore hMore limit)).congr ?_
    rw [levels]
    omega
  | noStep => exact fun limit => readsIf_not_isAhead hFits (readsIf_value none)
  | someStep e ih =>
    intro limit
    refine readsIf_isAhead ?_
    rw [if_pos rfl]
    exact (parses_advance _).andThenIf (ReadsIf.map ((ih hFits.1).whole hFits.2 limit) some)

end SyntaxTree

/-! ### Phrases -/

/-- If a rule gives a value on these tokens, in front of a given token, it is this value, and the
rule stops in front of that token. -/
def Rule.Reads (rule : Rule α) (tokens : List Token) (a : α) (next : Token) : Prop :=
  ∀ lexer rest result after, lexer.Shows (tokens ++ next :: rest) →
    rule.run lexer = (.ok result, after) → result = a ∧ after.Shows (next :: rest)

theorem Rule.ReadsIf.reads {enough : Prop} {rule : Rule α} {tokens : List Token} {a : α}
    {next : Token} (h : rule.ReadsIf enough tokens a next) : rule.Reads tokens a next := by
  intro lexer rest result after hShows hRun
  obtain ⟨hOk, hError⟩ := h lexer rest hShows
  by_cases hEnough : enough
  · obtain ⟨after', hRun', hAfter⟩ := hOk hEnough
    obtain ⟨hResult, rfl⟩ := Prod.mk.inj (hRun.symm.trans hRun')
    exact ⟨Except.ok.inj hResult, hAfter⟩
  · obtain ⟨e, after', hRun', -⟩ := hError hEnough
    cases hRun.symm.trans hRun'

/-- Where tokens spell an expression, its rule reads this expression or fails. -/
theorem Phrase.SpelledBy.readWith {table : OperatorTable} {e : Expr} {tokens : List Token}
    {next : Token} (h : (Phrase.expression e).SpelledBy table tokens next) (limit : Nat) :
    (Rule.expressionWithin table limit).Reads tokens e next := by
  obtain ⟨hNext, tree, rfl, rfl, hFits⟩ := h.hasTree
  exact (hFits.reading.whole hNext limit).reads

namespace Rule

variable {table : OperatorTable} {first e : Expr} {operations : List Operation}
  {tokens more : List Token} {next : Token} {levels : Nat} {lexer after : Lexer}

/-- What is read from an operand and the operators behind it, in front of a token that is no
operator, is the one ordered tree of this chain.  Climbing comes to it as well, with no minimum that
overflows. -/
theorem run_expressionWithin_ordered
    (hFirst : (Phrase.operand first).SpelledBy table tokens (more.headD next))
    (hOperations : (Phrase.operations operations).SpelledBy table more next)
    (hShows : lexer.Shows (tokens ++ more ++ [next]))
    (hRun : (expressionWithin table levels).run lexer = (.ok e, after)) :
    after.peek = next ∧
      (∃ g : Grouping, (g.first = first ∧ g.operations = operations ∧ g.Ordered) ∧ g.expr = e ∧
        ∀ other : Grouping, other.first = first → other.operations = operations → other.Ordered →
          other = g) ∧
      ∀ tree rest, Climbs 0 first operations tree rest ↔ tree = e ∧ rest = [] := by
  have hPositive := hOperations.precedence_pos
  obtain ⟨g, ⟨rfl, rfl, hOrdered⟩, hUnique⟩ := Grouping.existsUnique_ordered first operations
  have hSpelled := Phrase.SpelledBy.chain hOrdered hFirst hOperations
  obtain ⟨rfl, hPeek, -⟩ := hSpelled.readWith levels lexer [] e after hShows hRun
  refine ⟨hPeek, ⟨g, ⟨rfl, rfl, hOrdered⟩, rfl, hUnique⟩, fun tree rest => ?_⟩
  rw [climbs_iff fun o ho => Int32.le_of_lt (hPositive o ho),
    Grouping.groupChain_of_ordered hOrdered]

/-- The two highest precedences there are, and an entry that makes no operator. -/
def steep : OperatorTable :=
  ((OperatorTable.empty.insert '^' 2147483647).insert '+' 2147483646).insert '<' (-5)

/-- A chain over that table, and the character at which it ends. -/
def steepInput : Input where
  lines := ["a + b ^ f() + (c ^ d) < 1".toList]
  failure := none

/-- What is read: the operator behind the first `+` binds as tight as any can. -/
theorem run_expressionWithin_ordered_steep :
    ∃ e after, (expression steep).run (Lexer.ofInput steepInput) = (.ok e, after) ∧
      after.peek = .char '<' ∧
      e = .binary '+'
        (.binary '+' (.variable "a") (.binary '^' (.variable "b") (.call "f" [])))
        (.binary '^' (.variable "c") (.variable "d")) ∧
      Climbs 0 (.variable "a")
        [⟨'+', 2147483646, .variable "b"⟩, ⟨'^', 2147483647, .call "f" []⟩,
          ⟨'+', 2147483646, .binary '^' (.variable "c") (.variable "d")⟩] e [] := by
  have hPower : (Phrase.expression (.binary '^' (.variable "c") (.variable "d"))).SpelledBy steep
      ([.identifier "c"] ++ [.char '^', .identifier "d"]) (.char ')') :=
    .chain (g := .node '^' 2147483647 (.operand (.variable "c")) (.operand (.variable "d")))
      ⟨trivial, trivial, trivial, trivial⟩ (.name "c" (by simp))
      (.operation rfl (.name "d" (by simp)) (.noOperations rfl))
  have hOperations : (Phrase.operations [⟨'+', 2147483646, .variable "b"⟩,
      ⟨'^', 2147483647, .call "f" []⟩,
      ⟨'+', 2147483646, .binary '^' (.variable "c") (.variable "d")⟩]).SpelledBy steep
      [.char '+', .identifier "b", .char '^', .identifier "f", .char '(', .char ')', .char '+',
        .char '(', .identifier "c", .char '^', .identifier "d", .char ')'] (.char '<') :=
    .operation rfl (.name "b" (by simp)) (.operation rfl (.callNone "f" _)
      (.operation rfl (.bracketed _ hPower) (.noOperations rfl)))
  have hShows : (Lexer.ofInput steepInput).Shows
      ([.identifier "a"] ++ [.char '+', .identifier "b", .char '^', .identifier "f", .char '(',
        .char ')', .char '+', .char '(', .identifier "c", .char '^', .identifier "d", .char ')'] ++
        [.char '<']) :=
    ⟨rfl, rfl, rfl, rfl, rfl, rfl, rfl, rfl, rfl, rfl, rfl, rfl, rfl, rfl, trivial⟩
  have hRun : (expressionWithin steep maxLevels).run (Lexer.ofInput steepInput) =
      (.ok (.binary '+'
        (.binary '+' (.variable "a") (.binary '^' (.variable "b") (.call "f" [])))
        (.binary '^' (.variable "c") (.variable "d"))), _) := rfl
  obtain ⟨hPeek, -, hClimbs⟩ :=
    run_expressionWithin_ordered (.name "a" (by simp)) hOperations hShows hRun
  exact ⟨_, _, hRun, hPeek, rfl, (hClimbs _ _).mpr ⟨rfl, rfl⟩⟩

end Rule

end LiveCompiler
