import LiveCompiler.Proofs.Grammar.Reading

/-!
# Levels and depth

The levels that are counted for an expression are not the depth of its tree.  An operator of a chain
is counted for all operands behind it, and it stands above them in the tree only if the operators
between bind tighter.  So an expression that is not too deep may be refused
(`Rule.exists_refused_of_depth_le`); what is true of its levels is `Rule.run_expression_levels`.
-/

namespace LiveCompiler

namespace SyntaxTree

variable {part : Part}

/-- The depth of the tree, with a level for each pair of brackets. -/
def depth : {part : Part} → SyntaxTree part → Nat
  | _, .number _ => 1
  | _, .name _ => 1
  | _, .callNone _ => 1
  | _, .call _ args => args.depth + 1
  | _, .bracketed inner => inner.depth + 1
  | _, .conditional condition onTrue onFalse =>
    max condition.depth (max onTrue.depth onFalse.depth) + 1
  | _, .loop _ start finish step body =>
    max start.depth (max finish.depth (max step.depth body.depth)) + 1
  | _, .binary _ _ left right => max left.depth right.depth + 1
  | _, .lastArgument e => e.depth
  | _, .argument e more => max e.depth more.depth
  | _, .noStep => 0
  | _, .someStep e => e.depth

/-- All operators, also those inside brackets, calls, conditionals and loops. -/
def operators : {part : Part} → SyntaxTree part → Nat
  | _, .number _ => 0
  | _, .name _ => 0
  | _, .callNone _ => 0
  | _, .call _ args => args.operators
  | _, .bracketed inner => inner.operators
  | _, .conditional condition onTrue onFalse =>
    condition.operators + onTrue.operators + onFalse.operators
  | _, .loop _ start finish step body =>
    start.operators + finish.operators + step.operators + body.operators
  | _, .binary _ _ left right => left.operators + 1 + right.operators
  | _, .lastArgument e => e.operators
  | _, .argument e more => e.operators + more.operators
  | _, .noStep => 0
  | _, .someStep e => e.operators

/-- In each chain every operator binds tighter than the ones before it. -/
def Rising : {part : Part} → SyntaxTree part → Prop
  | _, .number _ => True
  | _, .name _ => True
  | _, .callNone _ => True
  | _, .call _ args => args.Rising
  | _, .bracketed inner => inner.Rising
  | _, .conditional condition onTrue onFalse =>
    condition.Rising ∧ onTrue.Rising ∧ onFalse.Rising
  | _, .loop _ start finish step body =>
    start.Rising ∧ finish.Rising ∧ step.Rising ∧ body.Rising
  | _, .binary _ _ left right => left.chainLength = 0 ∧ left.Rising ∧ right.Rising
  | _, .lastArgument e => e.Rising
  | _, .argument e more => e.Rising ∧ more.Rising
  | _, .noStep => True
  | _, .someStep e => e.Rising

theorem chainLength_le_operators (tree : SyntaxTree part) : tree.chainLength ≤ tree.operators := by
  induction tree with
  | binary operator precedence left right ihLeft ihRight =>
    rw [chainLength, operators]
    omega
  | _ => exact Nat.zero_le _

/-- Levels beyond the depth are due to operators. -/
theorem levels_le_depth_add (tree : SyntaxTree part) :
    tree.levels ≤ tree.depth + tree.operators := by
  induction tree with
  | binary operator precedence left right ihLeft ihRight =>
    have hChain := left.chainLength_le_operators
    simp only [levels, depth, operators]
    omega
  | _ =>
    simp only [levels, depth, operators]
    omega

/-- Where operators only bind tighter than those before them, each operand stands under all the
operators in front of it. -/
theorem Rising.levels_le_depth {tree : SyntaxTree part} (h : tree.Rising) :
    tree.levels ≤ tree.depth := by
  induction tree with
  | call callee args ih => exact Nat.succ_le_succ (ih h)
  | bracketed inner ih => exact Nat.succ_le_succ (ih h)
  | conditional condition onTrue onFalse ihCondition ihTrue ihFalse =>
    obtain ⟨hCondition, hTrue, hFalse⟩ := h
    specialize ihCondition hCondition
    specialize ihTrue hTrue
    specialize ihFalse hFalse
    rw [levels, depth]
    omega
  | loop loopVar start finish step body ihStart ihFinish ihStep ihBody =>
    obtain ⟨hStart, hFinish, hStep, hBody⟩ := h
    specialize ihStart hStart
    specialize ihFinish hFinish
    specialize ihStep hStep
    specialize ihBody hBody
    rw [levels, depth]
    omega
  | binary operator precedence left right ihLeft ihRight =>
    obtain ⟨hChain, hLeft, hRight⟩ := h
    specialize ihLeft hLeft
    specialize ihRight hRight
    rw [levels, depth]
    omega
  | lastArgument e ih => exact ih h
  | argument e more ih ihMore =>
    obtain ⟨hFirst, hMore⟩ := h
    specialize ih hFirst
    specialize ihMore hMore
    rw [levels, depth]
    omega
  | someStep e ih => exact ih h
  | number | name | callNone | noStep => exact Nat.le_refl _

end SyntaxTree

namespace Rule

open SyntaxTree

variable {table : OperatorTable} {tree : SyntaxTree .expression} {next : Token} {lexer : Lexer}
  {rest : List Token}

/-- An expression is read if its levels are not above the limit, and otherwise refused for that
reason.  Each operator of a chain is a level, so long chains are refused however they are grouped.
There are no more levels than the depth of the tree and its operators together, and no more than its
depth if in each chain every operator binds tighter than the ones before it. -/
theorem run_expression_levels (hFits : tree.Fits table next)
    (hNext : table.precedence? next = none)
    (hShows : lexer.Shows (tree.tokens ++ next :: rest)) :
    (tree.levels ≤ maxLevels → ∃ after,
      (expression table).run lexer = (.ok tree.value.expr, after) ∧ after.Shows (next :: rest)) ∧
    (maxLevels < tree.levels → ∃ e after,
      (expression table).run lexer = (.error e, after) ∧ e.fault = .tooDeep) ∧
    tree.chainLength < tree.levels ∧ tree.levels ≤ tree.depth + tree.operators ∧
    (tree.Rising → tree.levels ≤ tree.depth) := by
  obtain ⟨hOk, hError⟩ := hFits.reading.whole hNext maxLevels lexer rest hShows
  exact ⟨hOk, fun hAbove => hError (Nat.not_le.mpr hAbove), tree.chainLength_lt_levels rfl,
    tree.levels_le_depth_add, Rising.levels_le_depth⟩

/-- A chain in which each operator binds tighter than the ones before it. -/
def risingChain : SyntaxTree .expression :=
  .binary '<' 10 (.name "a") (.binary '+' 20 (.name "b")
    (.binary '*' 40 (.call "f" (.lastArgument (.name "c"))) (.bracketed (.name "d"))))

/-- No level is counted that is not there. -/
theorem run_expression_levels_risingChain : risingChain.levels = 5 ∧ risingChain.depth = 5 ∧
    ∃ after, (expression OperatorTable.standard).run
      (Lexer.ofInput (Input.ofLines ["a < b + f(c) * (d);"] none)) =
        (.ok (.binary '<' (.variable "a") (.binary '+' (.variable "b")
          (.binary '*' (.call "f" [.variable "c"]) (.variable "d")))), after) ∧
      after.peek = .char ';' := by
  have hFits : risingChain.Fits OperatorTable.standard (.char ';') := by
    simp +decide [risingChain, Fits, value, Grouping.Root]
  have hShows : (Lexer.ofInput (Input.ofLines ["a < b + f(c) * (d);"] none)).Shows
      (risingChain.tokens ++ [.char ';']) :=
    ⟨rfl, rfl, rfl, rfl, rfl, rfl, rfl, rfl, rfl, rfl, rfl, rfl, rfl, trivial⟩
  obtain ⟨hOk, -, -, -, hRising⟩ := run_expression_levels hFits rfl hShows
  have hDepth := hRising ⟨rfl, trivial, rfl, trivial, rfl, trivial, trivial⟩
  obtain ⟨after, hRun, hPeek, -⟩ := hOk (Nat.le_trans hDepth (by decide))
  exact ⟨rfl, rfl, after, hRun, hPeek⟩

/-! ## Levels that are not there -/

/-- A product of two variables. -/
def product : SyntaxTree .expression :=
  .binary '*' 40 (.name "a") (.name "a")

/-- So many products added to a product. -/
def productSum : Nat → SyntaxTree .expression
  | 0 => product
  | count + 1 => .binary '+' 20 (productSum count) product

/-- So many products added to a product, as characters. -/
def productSumText : Nat → List Char
  | 0 => ['a', '*', 'a']
  | count + 1 => productSumText count ++ ['+', 'a', '*', 'a']

theorem depth_productSum (count : Nat) : (productSum count).depth = count + 2 := by
  induction count with
  | zero => rfl
  | succ count ih =>
    have hProduct : product.depth = 2 := rfl
    rw [productSum, depth, ih, hProduct]
    omega

/-- Two operators for each product. -/
theorem chainLength_productSum (count : Nat) :
    (productSum count).chainLength = 2 * count + 1 := by
  induction count with
  | zero => rfl
  | succ count ih =>
    have hProduct : product.chainLength = 1 := rfl
    rw [productSum, chainLength, ih, hProduct]
    omega

theorem fits_productSum (count : Nat) : ∀ {next : Token}, next ≠ .char '(' →
    (productSum count).Fits OperatorTable.standard next := by
  have hProduct : ∀ {next : Token}, next ≠ .char '(' →
      product.Fits OperatorTable.standard next :=
    fun hNext => ⟨by decide, by simp [Fits], hNext, trivial, trivial⟩
  induction count with
  | zero => exact hProduct
  | succ count ih =>
    intro next hNext
    refine ⟨by decide, ih (by simp), hProduct hNext, ?_, ?_⟩
    · cases count with
      | zero => exact (by decide : (20 : Int32) ≤ 40)
      | succ count => exact Int32.le_refl 20
    · exact (by decide : (20 : Int32) < 40)

theorem spells_productSum (count : Nat) : ∀ {text : List Char} {tokens : List Token},
    Boundary text → Spells text tokens →
      Spells (productSumText count ++ text) ((productSum count).tokens ++ tokens) := by
  have hName : IsName "a" := by decide
  have hTimes : Punctuation '*' := by constructor <;> decide
  have hPlus : Punctuation '+' := by constructor <;> decide
  have hProduct : ∀ {text : List Char} {tokens : List Token}, Boundary text → Spells text tokens →
      Spells ('a' :: '*' :: 'a' :: text) (product.tokens ++ tokens) :=
    fun hText h => ((h.name hName hText).char hTimes).name hName (hTimes.boundary _)
  induction count with
  | zero => exact hProduct
  | succ count ih =>
    intro text tokens hText h
    rw [productSumText, productSum, SyntaxTree.tokens, List.append_assoc, List.append_assoc]
    exact ih (hPlus.boundary _) ((hProduct hText h).char hPlus)

/-- A line with a sum of products. -/
def productSumLine (count : Nat) : String :=
  String.ofList (productSumText count ++ [';'])

theorem shows_productSumLine (count : Nat) :
    (Lexer.ofInput (Input.ofLines [productSumLine count] none)).Shows
      ((productSum count).tokens ++ [.char ';']) := by
  have hEnd : Punctuation ';' := punctuation_of_mem (by simp)
  have hLine : terminated (productSumText count ++ [';']) =
      productSumText count ++ [';', '\n'] := by
    simp [terminated]
  have hSpells : Spells (terminated (productSumText count ++ [';']))
      ((productSum count).tokens ++ [.char ';']) := by
    rw [hLine]
    exact spells_productSum count (hEnd.boundary _) ((spells_nil _).char hEnd)
  rw [Input.ofLines, List.map_singleton, productSumLine, String.toList_ofList]
  exact hSpells.shows_ofInput [] none

/-- Both operators of each product are counted, so many products are refused however deep they
are. -/
theorem refused_productSum {count : Nat} (h : maxLevels ≤ 2 * count + 1) :
    ∃ (line : String) (tree : SyntaxTree .expression) (e : SyntaxError) (after : Lexer),
      tree.depth = count + 2 ∧ tree.Fits OperatorTable.standard (.char ';') ∧
      (Lexer.ofInput (Input.ofLines [line] none)).Shows (tree.tokens ++ [.char ';']) ∧
      (expression OperatorTable.standard).run (Lexer.ofInput (Input.ofLines [line] none)) =
        (.error e, after) ∧ e.fault = .tooDeep := by
  have hLevels := (productSum count).chainLength_lt_levels rfl
  rw [chainLength_productSum] at hLevels
  have hFits := fits_productSum count (show Token.char ';' ≠ .char '(' by simp)
  have hShows := shows_productSumLine count
  obtain ⟨-, hError⟩ := hFits.reading.whole rfl maxLevels _ [] hShows
  obtain ⟨e, after, hRun, hFault⟩ := hError (Nat.not_le.mpr (Nat.lt_of_le_of_lt h hLevels))
  exact ⟨_, _, e, after, depth_productSum count, hFits, hShows, hRun, hFault⟩

/-- A sum of 129 products is refused as too deep, although its tree is about half as deep as is
allowed. -/
theorem exists_refused_of_depth_le :
    ∃ (line : String) (tree : SyntaxTree .expression) (e : SyntaxError) (after : Lexer),
      tree.depth ≤ maxLevels ∧ tree.Fits OperatorTable.standard (.char ';') ∧
      (Lexer.ofInput (Input.ofLines [line] none)).Shows (tree.tokens ++ [.char ';']) ∧
      (expression OperatorTable.standard).run (Lexer.ofInput (Input.ofLines [line] none)) =
        (.error e, after) ∧ e.fault = .tooDeep := by
  obtain ⟨line, tree, e, after, hDepth, hRefused⟩ :=
    refused_productSum (show maxLevels ≤ 2 * 128 + 1 by decide)
  exact ⟨line, tree, e, after, Nat.le_trans (Nat.le_of_eq hDepth) (by decide), hRefused⟩

end Rule

end LiveCompiler
