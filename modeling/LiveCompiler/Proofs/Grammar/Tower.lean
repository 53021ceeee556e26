import Mathlib.Algebra.GroupWithZero.Nat
import LiveCompiler.Proofs.Grammar.Height

/-!
# Expressions that are as high as the rules allow

A tower is a call around a smaller tower with a chain of sums on top of it.  Each floor costs one
level on the way in, whatever the chain behind it adds, so the heights of the chains add up.
-/

namespace LiveCompiler

/-! ## Standing before characters -/

namespace Lexer

/-- The next token of a lexer starts with the given characters of its line. -/
def StandsAt (lexer : Lexer) (cs : List Char) : Prop :=
  ∃ plain : Lexer, plain.ahead = none ∧ plain.cursor.seek.rest = cs ∧
    (lexer = plain ∨ lexer = plain.looked)

theorem standsAt_ofInput {line : List Char} {c : Char} {cs : List Char}
    (hLine : terminated line = c :: cs) (hBlank : isBlank c = false) (hComment : c ≠ '#') :
    (ofInput { lines := [line], failure := none }).StandsAt (c :: cs) := by
  refine ⟨_, rfl, ?_, .inl rfl⟩
  simp [ofInput, Cursor.ofInput, Cursor.seek, Cursor.seekFrom, Cursor.dropLineBlanks, dropBlanks,
    Cursor.readFrom, hLine, hBlank, hComment]

variable {lexer : Lexer} {c : Char} {cs : List Char}

theorem StandsAt.looked (h : lexer.StandsAt cs) : lexer.looked.StandsAt cs := by
  obtain ⟨plain, hAhead, hRest, rfl | rfl⟩ := h
  · exact ⟨lexer, hAhead, hRest, .inr rfl⟩
  · exact ⟨plain, hAhead, hRest, .inr plain.looked_looked⟩

/-- What is read at some characters. -/
theorem StandsAt.token (h : lexer.StandsAt cs) : ∃ cursor : Cursor, cursor.rest = cs ∧
    lexer.peek = cursor.token.1 ∧ lexer.advance = { cursor := cursor.token.2, ahead := none } := by
  obtain ⟨plain, hAhead, hRest, hEq⟩ := h
  have hPlain : plain.peek = plain.cursor.seek.token.1 ∧
      plain.advance = { cursor := plain.cursor.seek.token.2, ahead := none } := by
    obtain ⟨cursor, ahead⟩ := plain
    obtain rfl : ahead = none := hAhead
    exact ⟨rfl, rfl⟩
  refine ⟨plain.cursor.seek, hRest, ?_⟩
  -- A lexer that has looked ahead answers like the one that has not.
  rcases hEq with rfl | rfl
  · exact hPlain
  · rwa [peek_looked, advance_looked]

/-- A character that can start a token and is no blank. -/
def Solid (c : Char) : Prop :=
  isBlank c = false ∧ c ≠ '#'

theorem standsAt_of_rest {cursor : Cursor} (hRest : cursor.rest = c :: cs) (hSolid : Solid c) :
    StandsAt { cursor := cursor, ahead := none } (c :: cs) := by
  refine ⟨_, rfl, ?_, .inl rfl⟩
  unfold Cursor.seek Cursor.seekFrom
  simp [Cursor.dropLineBlanks, hRest, dropBlanks, hSolid.1, hSolid.2]

/-- A character that is neither letter nor numeral is a token of its own. -/
theorem StandsAt.char (h : lexer.StandsAt (c :: cs)) (hAlpha : c.isAlpha = false)
    (hNumeral : isNumeral c = false) :
    lexer.peek = .char c ∧ ∀ d ds, cs = d :: ds → Solid d → lexer.advance.StandsAt (d :: ds) := by
  obtain ⟨cursor, hRest, hPeek, hAdvance⟩ := h.token
  have hToken : cursor.token = (.char c, cursor.dropChar) := by
    simp [Cursor.token, hRest, hAlpha, hNumeral]
  rw [hPeek, hAdvance, hToken]
  refine ⟨rfl, fun d ds hCs hSolid => standsAt_of_rest ?_ hSolid⟩
  rw [Cursor.dropChar, hRest, hCs]
  rfl

/-- A single letter is an identifier. -/
theorem StandsAt.letter {d : Char} {ds : List Char} (h : lexer.StandsAt ('a' :: d :: ds))
    (hEnd : d.isAlphanum = false) (hSolid : Solid d) :
    lexer.peek = .identifier "a" ∧ lexer.advance.StandsAt (d :: ds) := by
  obtain ⟨cursor, hRest, hPeek, hAdvance⟩ := h.token
  have hAlpha : 'a'.isAlpha = true := by decide
  have hAlphanum : 'a'.isAlphanum = true := by decide
  have hToken : cursor.token = (.identifier "a", (cursor.munch Char.isAlphanum).2) := by
    have hWord : Token.ofWord ['a'] = .identifier "a" := by rfl
    simp [Cursor.token, hRest, hAlpha, Cursor.munch, hAlphanum, hEnd, hWord]
  rw [hPeek, hAdvance, hToken]
  refine ⟨rfl, standsAt_of_rest ?_ hSolid⟩
  simp [Cursor.munch, hRest, hAlphanum, hEnd]

end Lexer

/-! ## Towers -/

/-- So many sums, as characters. -/
def sumsText : Nat → List Char
  | 0 => []
  | count + 1 => '+' :: 'a' :: sumsText count

/-- A tower as characters: for each floor a call, and so many sums behind it. -/
def towerText : List Nat → List Char
  | [] => ['a']
  | sums :: floors => 'a' :: '(' :: (towerText floors ++ ')' :: sumsText sums)

/-- A tree with so many sums on top of it. -/
def sumsOver (e : Expr) : Nat → Expr
  | 0 => e
  | count + 1 => sumsOver (.binary '+' e (.variable "a")) count

/-- A tower as a tree. -/
def towerExpr : List Nat → Expr
  | [] => .variable "a"
  | sums :: floors => sumsOver (.call "a" [towerExpr floors]) sums

/-- The levels that remain on each floor are enough for its sums. -/
def TowerFits : Nat → List Nat → Prop
  | levels, [] => 0 < levels
  | levels, sums :: floors => sums < levels ∧ TowerFits (levels - 1) floors

theorem height_sumsOver (e : Expr) (hPos : 0 < e.height) (count : Nat) :
    (sumsOver e count).height = e.height + count := by
  induction count generalizing e with
  | zero => rfl
  | succ count ih =>
    have hBinary : (Expr.binary '+' e (.variable "a")).height = e.height + 1 := by
      simp only [Expr.height]
      omega
    rw [sumsOver, ih _ (by omega), hBinary]
    omega

theorem height_towerExpr (floors : List Nat) :
    (towerExpr floors).height = floors.length + floors.sum + 1 := by
  induction floors with
  | nil => rfl
  | cons sums floors ih =>
    rw [towerExpr, height_sumsOver _ (by simp [Expr.height])]
    simp only [Expr.height, Expr.heightAll, ih, List.length_cons, List.sum_cons]
    omega

/-! ## Reading a tower -/

namespace Rule

open Lexer

/-- The operation of a sum. -/
def plusOne : Operation where
  operator := '+'
  precedence := 20
  operand := .variable "a"

theorem groupFrom_sums (e : Expr) (count : Nat) :
    groupFrom [{ left := e, operator := '+', precedence := 20 }] (.variable "a")
      (List.replicate count plusOne) = sumsOver e (count + 1) := by
  induction count generalizing e with
  | zero => rfl
  | succ count ih =>
    rw [List.replicate_succ, groupFrom, sumsOver]
    exact ih (.binary '+' e (.variable "a"))

theorem groupChain_sums (e : Expr) (count : Nat) :
    groupChain e (List.replicate count plusOne) = sumsOver e count := by
  cases count with
  | zero => rfl
  | succ count =>
    rw [groupChain, List.replicate_succ, groupFrom]
    exact groupFrom_sums e count

/-- A character that ends an expression: it is no operator and no bracket that opens. -/
structure Stop (c : Char) : Prop where
  solid : Solid c
  no_alpha : c.isAlpha = false
  no_numeral : isNumeral c = false
  no_operator : OperatorTable.standard.get? c = none
  no_bracket : c ≠ '('

theorem stop_bracket : Stop ')' := by
  refine ⟨⟨?_, ?_⟩, ?_, ?_, ?_, ?_⟩ <;> decide

theorem stop_semicolon : Stop ';' := by
  refine ⟨⟨?_, ?_⟩, ?_, ?_, ?_, ?_⟩ <;> decide

theorem solid_plus : Solid '+' := by
  constructor <;> decide

theorem solid_letter : Solid 'a' := by
  constructor <;> decide

theorem solid_open : Solid '(' := by
  constructor <;> decide

theorem Stop.no_alphanum {c : Char} (h : Stop c) : c.isAlphanum = false := by
  have hNumeral := h.no_numeral
  unfold isNumeral at hNumeral
  rw [Bool.or_eq_false_iff] at hNumeral
  rw [Char.isAlphanum, h.no_alpha, hNumeral.1]
  rfl

/-- A rule reads characters off a lexer and gives a value. -/
def ReadsAt {α : Type} (rule : Rule α) (lexer : Lexer) (a : α) (rest : List Char) : Prop :=
  ∃ after, rule.run lexer = (.ok a, after) ∧ after.StandsAt rest

variable {lexer : Lexer} {rest : List Char} {stop : Char}

/-- A letter that no bracket follows is a variable. -/
theorem reads_letter {d : Char} (inner : Rule Expr) (h : lexer.StandsAt ('a' :: d :: rest))
    (hSolid : Solid d) (hAlpha : d.isAlpha = false) (hNumeral : isNumeral d = false)
    (hEnd : d.isAlphanum = false) (hOpen : d ≠ '(') :
    (operand inner).ReadsAt lexer (.variable "a") (d :: rest) := by
  obtain ⟨hPeek, hRest⟩ := h.letter hEnd hSolid
  obtain ⟨hNext, -⟩ := hRest.char hAlpha hNumeral
  refine ⟨lexer.advance.looked, ?_, hRest.looked⟩
  have hNot : (d == '(') = false := by simpa using hOpen
  simp [operand, named, isAhead, run_bind, hPeek, hNext, advance_looked, hNot]

/-- Sums are read one after another. -/
theorem reads_sums (hStop : Stop stop) (count : Nat) :
    ∀ {levels : Nat} {lexer : Lexer}, count ≤ levels →
    lexer.StandsAt (sumsText count ++ stop :: rest) →
    (operationsWithin OperatorTable.standard levels).ReadsAt lexer
      (List.replicate count plusOne) (stop :: rest) := by
  induction count with
  | zero =>
    intro levels lexer _ h
    obtain ⟨hPeek, -⟩ := h.char hStop.no_alpha hStop.no_numeral
    refine ⟨lexer.looked, ?_, h.looked⟩
    cases levels <;>
      simp [operationsWithin, operatorAhead, run_bind, hPeek, hStop.no_operator]
  | succ count ih =>
    intro levels lexer hLe h
    obtain ⟨levels, rfl⟩ : ∃ fewer, levels = fewer + 1 := ⟨levels - 1, by omega⟩
    have hPlus : OperatorTable.standard.get? '+' = some 20 := by decide
    obtain ⟨hPeek, hAdvance⟩ := h.char (by decide) (by decide)
    have hLetter := hAdvance _ _ rfl solid_letter
    -- Behind the letter stands the next sum, or the character that ends the chain.
    have hOperand : (operand (expressionWithin OperatorTable.standard levels)).ReadsAt
        lexer.advance (.variable "a") (sumsText count ++ stop :: rest) := by
      cases count with
      | zero =>
        exact reads_letter _ hLetter hStop.solid hStop.no_alpha hStop.no_numeral
          hStop.no_alphanum hStop.no_bracket
      | succ count =>
        exact reads_letter _ hLetter solid_plus (by decide) (by decide) (by decide) (by decide)
    obtain ⟨middle, hRun, hMiddle⟩ := hOperand
    obtain ⟨after, hMore, hAfter⟩ := ih (Nat.le_of_succ_le_succ hLe) hMiddle
    refine ⟨after, ?_, hAfter⟩
    simp [operationsWithin, operatorAhead, run_bind, hPeek, hPlus, advance_looked, hRun, hMore,
      List.replicate_succ, plusOne]

/-- A single item before a closing bracket. -/
theorem run_items_single {α : Type} {item : Rule α} {a : α} {after : Lexer}
    (hItem : item.run lexer = (.ok a, after)) (hPeek : after.peek = .char ')') :
    (items item).run lexer = (.ok [a], after.advance) := by
  show itemsFrom item lexer = _
  rw [itemsFrom]
  split
  · rename_i hRun
    rw [hItem] at hRun
    cases hRun
  · rename_i hRun
    rw [hItem] at hRun
    cases hRun
    split
    · rfl
    · rename_i hComma
      rw [hPeek] at hComma
      cases hComma
    · rename_i hNot _
      exact absurd hPeek hNot

/-- A call of one argument, which begins with a letter. -/
theorem reads_call (inner : Rule Expr) {e : Expr} {first d : Char} {cs ds : List Char}
    (h : lexer.StandsAt ('a' :: '(' :: 'a' :: first :: cs)) (hEnd : first.isAlphanum = false)
    (hFirst : Solid first)
    (hInner : ∀ before : Lexer, before.StandsAt ('a' :: first :: cs) →
      inner.ReadsAt before e (')' :: d :: ds)) (hSolid : Solid d) :
    (operand inner).ReadsAt lexer (.call "a" [e]) (d :: ds) := by
  obtain ⟨hName, hOpen⟩ := h.letter (by decide) solid_open
  obtain ⟨hBracket, hAdvance⟩ := hOpen.char (by decide) (by decide)
  have hArgument := hAdvance _ _ rfl solid_letter
  obtain ⟨hLetter, -⟩ := hArgument.letter hEnd hFirst
  obtain ⟨after, hRun, hAfter⟩ := hInner _ hArgument.looked
  obtain ⟨hClose, hRest⟩ := hAfter.char (by decide) (by decide)
  have hItems := run_items_single hRun hClose
  refine ⟨after.advance, ?_, hRest d ds rfl hSolid⟩
  simp [operand, named, isAhead, run_bind, hName, hBracket, hLetter, advance_looked, hItems]

theorem sumsText_head {stop : Char} (hStop : Stop stop) (count : Nat) (rest : List Char) :
    ∃ d ds, sumsText count ++ stop :: rest = d :: ds ∧ Solid d := by
  cases count with
  | zero => exact ⟨stop, rest, rfl, hStop.solid⟩
  | succ count => exact ⟨'+', _, rfl, solid_plus⟩

theorem towerText_head (floors : List Nat) (rest : List Char) :
    ∃ d ds, towerText floors ++ ')' :: rest = 'a' :: d :: ds ∧ d.isAlphanum = false ∧ Solid d := by
  cases floors with
  | nil => exact ⟨')', rest, rfl, by decide, stop_bracket.solid⟩
  | cons sums floors => exact ⟨'(', _, rfl, by decide, solid_open⟩

/-- A tower is read where its sums find enough levels. -/
theorem reads_tower (floors : List Nat) :
    ∀ {levels : Nat} {lexer : Lexer} {stop : Char} {rest : List Char}, Stop stop →
    TowerFits levels floors → lexer.StandsAt (towerText floors ++ stop :: rest) →
    (expressionWithin OperatorTable.standard levels).ReadsAt lexer (towerExpr floors)
      (stop :: rest) := by
  induction floors with
  | nil =>
    intro levels lexer stop rest hStop hFits h
    obtain ⟨levels, rfl⟩ := Nat.exists_eq_succ_of_ne_zero (Nat.ne_of_gt hFits)
    obtain ⟨middle, hRun, hMiddle⟩ := reads_letter
      (expressionWithin OperatorTable.standard levels) h hStop.solid hStop.no_alpha
      hStop.no_numeral hStop.no_alphanum hStop.no_bracket
    obtain ⟨after, hMore, hAfter⟩ := reads_sums hStop 0 (Nat.zero_le levels) hMiddle
    refine ⟨after, ?_, hAfter⟩
    have hGroup := groupChain_sums (.variable "a") 0
    rw [List.replicate_zero] at hGroup hMore
    simp [expressionWithin, run_bind, hRun, hMore, hGroup, sumsOver, towerExpr]
  | cons sums floors ih =>
    intro levels lexer stop rest hStop hFits h
    obtain ⟨hSums, hFloors⟩ := hFits
    obtain ⟨levels, rfl⟩ := Nat.exists_eq_succ_of_ne_zero (Nat.ne_of_gt (Nat.zero_lt_of_lt hSums))
    have hText : towerText (sums :: floors) ++ stop :: rest =
        'a' :: '(' :: (towerText floors ++ ')' :: (sumsText sums ++ stop :: rest)) := by
      simp [towerText]
    obtain ⟨d, ds, hTail, hSolid⟩ := sumsText_head hStop sums rest
    obtain ⟨first, cs, hFloor, hEnd, hFirst⟩ := towerText_head floors (d :: ds)
    rw [hText, hTail, hFloor] at h
    -- The floors inside the brackets have one level less; the sums behind them have all the
    -- levels that are left out here.
    obtain ⟨middle, hRun, hMiddle⟩ := reads_call
      (expressionWithin OperatorTable.standard levels) h hEnd hFirst
      (fun before hBefore => ih stop_bracket hFloors (hFloor ▸ hBefore)) hSolid
    rw [← hTail] at hMiddle
    obtain ⟨after, hMore, hAfter⟩ := reads_sums hStop sums (Nat.le_of_lt_succ hSums) hMiddle
    refine ⟨after, ?_, hAfter⟩
    simp [expressionWithin, run_bind, hRun, hMore, groupChain_sums, towerExpr]

/-- What a session reads of a line that holds a tower. -/
theorem exists_run_tower (floors : List Nat) (hFits : TowerFits maxLevels floors) :
    ∃ after, (expression OperatorTable.standard).run
      (Lexer.ofInput (Input.ofLines [String.ofList (towerText floors ++ [';'])] none)) =
        (.ok (towerExpr floors), after) := by
  have hLine : terminated (towerText floors ++ [';']) = towerText floors ++ ';' :: ['\n'] := by
    simp [terminated]
  obtain ⟨cs, hHead⟩ : ∃ cs, towerText floors ++ ';' :: ['\n'] = 'a' :: cs := by
    cases floors <;> exact ⟨_, rfl⟩
  have hStands := standsAt_ofInput (hLine.trans hHead) (by decide) (by decide)
  rw [← hHead] at hStands
  obtain ⟨after, hRun, -⟩ := reads_tower floors stop_semicolon hFits hStands
  refine ⟨after, ?_⟩
  rw [Input.ofLines, List.map_singleton, String.toList_ofList]
  exact hRun

/-- An expression that is read is no higher than the levels of all its chains together: so many
for the outermost, one less on each level below. -/
theorem height_expression_le {table : OperatorTable} {lexer after : Lexer} {e : Expr}
    (h : (expression table).run lexer = (.ok e, after)) :
    e.height ≤ maxLevels * (maxLevels + 1) / 2 := by
  have hHeight := gives_expressionWithin maxLevels lexer e after h
  have hTwice := two_mul_heightWithin maxLevels
  simp only at hHeight
  omega

/-- A tower whose sums leave no level unused. -/
def fullTower : Nat → List Nat
  | 0 => []
  | levels + 1 => (levels + 1) :: fullTower levels

theorem fullTower_fits (levels : Nat) : TowerFits (levels + 1) (fullTower levels) := by
  induction levels with
  | zero => exact Nat.one_pos
  | succ levels ih => exact ⟨Nat.lt_succ_self _, ih⟩

theorem height_fullTower (levels : Nat) :
    (towerExpr (fullTower levels)).height = heightWithin (levels + 1) := by
  rw [height_towerExpr]
  induction levels with
  | zero => rfl
  | succ levels ih =>
    rw [heightWithin, ← ih]
    simp only [fullTower, List.length_cons, List.sum_cons]
    omega

/-- The bound is reached. -/
theorem height_expression_reached : ∃ e after, (expression OperatorTable.standard).run
    (Lexer.ofInput (Input.ofLines [String.ofList (towerText (fullTower 255) ++ [';'])] none)) =
      (.ok e, after) ∧ e.height ≤ maxLevels * (maxLevels + 1) / 2 ∧
      e.height = maxLevels * (maxLevels + 1) / 2 := by
  obtain ⟨after, hRun⟩ := exists_run_tower _ (fullTower_fits 255)
  refine ⟨_, after, hRun, height_expression_le hRun, ?_⟩
  have hTwice := two_mul_heightWithin maxLevels
  have hHeight := height_fullTower 255
  change (towerExpr (fullTower 255)).height = heightWithin maxLevels at hHeight
  omega

/-- An expression of more levels than are counted is read: calls inside one another up to the last
level, and a sum behind the outermost. -/
theorem exists_higher_than_maxLevels : ∃ e after, (expression OperatorTable.standard).run
    (Lexer.ofInput (Input.ofLines
      [String.ofList (towerText (1 :: List.replicate 254 0) ++ [';'])] none)) = (.ok e, after) ∧
      maxLevels < e.height := by
  have hFits : ∀ count, TowerFits (count + 1) (List.replicate count 0) := by
    intro count
    induction count with
    | zero => exact Nat.one_pos
    | succ count ih => exact ⟨Nat.succ_pos _, ih⟩
  obtain ⟨after, hRun⟩ := exists_run_tower (1 :: List.replicate 254 0)
    ⟨by decide, hFits 254⟩
  refine ⟨_, after, hRun, ?_⟩
  rw [height_towerExpr, List.length_cons, List.length_replicate, List.sum_cons,
    List.sum_replicate_nat]
  decide

end Rule

end LiveCompiler
