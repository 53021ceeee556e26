import LiveCompiler.Binary64.Literal
import LiveCompiler.Input
import LiveCompiler.Token
import LiveCompiler.Token.Blank

/-!
# The lexer

A lexer reads its input one line at a time, and only when the current line is used up.
It shows one token ahead.  Reading ends for good at the end of input or at a read
error; from then on the token ahead is the end of input.

`Lexer.remaining` bounds the tokens that are left.  Looking ahead never raises it, and
dropping a token lowers it.
-/

namespace LiveCompiler

/-- A place in the input: the rest of the current line and the lines not yet read. -/
structure Cursor where
  input : Input
  /-- Characters of the current line that are not yet used. -/
  rest : List Char
  /-- Lines delivered so far. -/
  line : Nat
  /-- Column of the first character of `rest`. -/
  column : Nat
  /-- Reads made so far.  The read that finds no line counts as well. -/
  reads : Nat
  /-- No line will be asked for any more. -/
  finished : Bool
  /-- The read error that ended the input. -/
  failure : Option String

/-- A line as the lexer sees it: a newline ends it, one is added if it has none. -/
def terminated (text : List Char) : List Char :=
  if text.getLast? = some '\n' then text else text ++ ['\n']

/-- Drop blanks and comments, counting columns.  The flag tells whether the list starts
inside a comment, which a `#` opens and a newline closes. -/
def dropBlanks : Bool → List Char → Nat → List Char × Nat
  | _, [], column => ([], column)
  | true, c :: rest, column => dropBlanks (c != '\n') rest (column + 1)
  | false, c :: rest, column =>
    if isBlank c then dropBlanks false rest (column + 1)
    else if c = '#' then dropBlanks true rest (column + 1)
    else (c :: rest, column)

/-- Characters that continue a number. -/
def isNumeral (c : Char) : Bool :=
  c.isDigit || c == '.'

namespace Cursor

/-- The start of an input. -/
def ofInput (input : Input) : Cursor where
  input := input
  rest := []
  line := 0
  column := 1
  reads := 0
  finished := false
  failure := none

/-- Ask for a line when the list of lines is known to be `lines`. -/
def readFrom (c : Cursor) : List (List Char) → Cursor
  | [] => { c with reads := c.reads + 1, finished := true, failure := c.input.failure }
  | text :: later =>
    { c with
      input := { c.input with lines := later }
      rest := terminated text
      line := c.line + 1
      column := 1
      reads := c.reads + 1 }

/-- Drop the blanks and comments of the current line. -/
def dropLineBlanks (c : Cursor) : Cursor :=
  let cut := dropBlanks false c.rest c.column
  { c with rest := cut.1, column := cut.2 }

/-- Move to the next character that is neither blank nor comment, reading the given
lines as the current one runs out. -/
def seekFrom (c : Cursor) (lines : List (List Char)) : Cursor :=
  let here := c.dropLineBlanks
  if !here.rest.isEmpty || here.finished then here
  else
    match lines with
    | [] => here.readFrom []
    | text :: later => (here.readFrom (text :: later)).seekFrom later

/-- Move to the next character that is neither blank nor comment. -/
def seek (c : Cursor) : Cursor :=
  c.seekFrom c.input.lines

/-- Take the longest run of characters of one class. -/
def munch (c : Cursor) (p : Char → Bool) : List Char × Cursor :=
  let run := c.rest.takeWhile p
  (run, { c with rest := c.rest.dropWhile p, column := c.column + run.length })

/-- Drop the first character of the line. -/
def dropChar (c : Cursor) : Cursor :=
  { c with rest := c.rest.drop 1, column := c.column + 1 }

/-- The token that starts at the cursor, which stands at no blank. -/
def token (c : Cursor) : Token × Cursor :=
  match c.rest with
  | [] => (.endOfInput, c)
  | ch :: _ =>
    if ch.isAlpha then
      let (word, c) := c.munch Char.isAlphanum
      (Token.ofWord word, c)
    else if isNumeral ch then
      let (text, c) := c.munch isNumeral
      match Binary64.ofLiteral? text with
      | some value => (.number value, c)
      | none => (.malformed (String.ofList text), c)
    else
      (.char ch, c.dropChar)

/-- The next token and where it starts. -/
def next (c : Cursor) : Lexeme × Cursor :=
  let start := c.seek
  let (token, after) := start.token
  ({ token := token, location := { line := start.line, column := start.column } }, after)

/-- The characters of lines, with one for the newline of each. -/
def charCount : List (List Char) → Nat
  | [] => 0
  | line :: later => line.length + 1 + charCount later

/-- A bound on the characters not yet used. -/
def unread (c : Cursor) : Nat :=
  c.rest.length + charCount c.input.lines

end Cursor

/-- A cursor and the token ahead, if it has been looked at. -/
structure Lexer where
  cursor : Cursor
  ahead : Option Lexeme

namespace Lexer

/-- A lexer at the start of an input. -/
def ofInput (input : Input) : Lexer where
  cursor := Cursor.ofInput input
  ahead := none

/-- Look at the token ahead. -/
def look (lexer : Lexer) : Lexeme × Lexer :=
  match lexer.ahead with
  | some lexeme => (lexeme, lexer)
  | none =>
    let (lexeme, cursor) := lexer.cursor.next
    (lexeme, { cursor := cursor, ahead := some lexeme })

/-- The token ahead. -/
def peek (lexer : Lexer) : Token :=
  lexer.look.1.token

/-- The lexer once the token ahead has been looked at. -/
def looked (lexer : Lexer) : Lexer :=
  lexer.look.2

/-- Drop the token ahead. -/
def advance (lexer : Lexer) : Lexer :=
  { lexer.looked with ahead := none }

/-- How many reads have been made. -/
def reads (lexer : Lexer) : Nat :=
  lexer.cursor.reads

/-- Take the read error out, so that a second call finds none. -/
def takeFailure (lexer : Lexer) : Option String × Lexer :=
  (lexer.cursor.failure,
    { lexer with cursor := { lexer.cursor with failure := none } })

/-- A bound on the tokens that are left before the end of input. -/
def remaining (lexer : Lexer) : Nat :=
  lexer.cursor.unread +
    match lexer.ahead with
    | some lexeme => lexeme.token.isInput.toNat
    | none => 0

end Lexer

/-! ## Reading uses up input -/

theorem length_terminated_le (text : List Char) :
    (terminated text).length ≤ text.length + 1 := by
  unfold terminated
  split <;> simp

theorem length_dropBlanks_le (comment : Bool) (cs : List Char) (column : Nat) :
    (dropBlanks comment cs column).1.length ≤ cs.length := by
  induction cs generalizing comment column with
  | nil => cases comment <;> simp [dropBlanks]
  | cons c rest ih =>
    cases comment with
    | true => simpa [dropBlanks] using Nat.le_succ_of_le (ih _ _)
    | false =>
      simp only [dropBlanks]
      split
      · simpa using Nat.le_succ_of_le (ih _ _)
      · split
        · simpa using Nat.le_succ_of_le (ih _ _)
        · simp

namespace Cursor

theorem unread_dropLineBlanks_le (c : Cursor) : c.dropLineBlanks.unread ≤ c.unread := by
  simpa [unread, dropLineBlanks] using length_dropBlanks_le false c.rest c.column

theorem unread_readFrom_cons (c : Cursor) (text : List Char) (later : List (List Char))
    (h : c.input.lines = text :: later) :
    (c.readFrom (text :: later)).unread ≤ c.unread := by
  have hlen := length_terminated_le text
  simp only [readFrom, unread, h, charCount]
  omega

theorem unread_seekFrom_le (lines : List (List Char)) (c : Cursor)
    (h : c.input.lines = lines) : (c.seekFrom lines).unread ≤ c.unread := by
  induction lines generalizing c with
  | nil =>
    have hle := unread_dropLineBlanks_le c
    simp only [seekFrom]
    split
    · exact hle
    · simpa [readFrom, unread] using hle
  | cons text later ih =>
    have hle := unread_dropLineBlanks_le c
    simp only [seekFrom]
    split
    · exact hle
    · have hread := unread_readFrom_cons c.dropLineBlanks text later h
      have hseek := ih (c.dropLineBlanks.readFrom (text :: later)) rfl
      omega

theorem unread_seek_le (c : Cursor) : c.seek.unread ≤ c.unread :=
  unread_seekFrom_le _ c rfl

theorem unread_munch (c : Cursor) (p : Char → Bool) :
    (c.munch p).2.unread + (c.rest.takeWhile p).length = c.unread := by
  have h := congrArg List.length (List.takeWhile_append_dropWhile (p := p) (l := c.rest))
  rw [List.length_append] at h
  simp only [munch, unread]
  omega

theorem unread_token_add_isInput_le (c : Cursor) :
    c.token.2.unread + c.token.1.isInput.toNat ≤ c.unread := by
  unfold token
  split
  · simp [Token.isInput]
  · rename_i ch tail hrest
    split
    · rename_i halpha
      have h := c.unread_munch Char.isAlphanum
      have hfirst : (c.rest.takeWhile Char.isAlphanum).length ≠ 0 := by
        simp [hrest, Char.isAlphanum, halpha]
      have hbool := (Token.ofWord (c.munch Char.isAlphanum).1).isInput.toNat_le
      show (c.munch Char.isAlphanum).2.unread +
        (Token.ofWord (c.munch Char.isAlphanum).1).isInput.toNat ≤ c.unread
      omega
    · split
      · rename_i hnumber
        have h := c.unread_munch isNumeral
        have hfirst : (c.rest.takeWhile isNumeral).length ≠ 0 := by
          simp [hrest, hnumber]
        simp only
        split
        · show (c.munch isNumeral).2.unread + 1 ≤ c.unread
          omega
        · show (c.munch isNumeral).2.unread + 1 ≤ c.unread
          omega
      · show c.dropChar.unread + 1 ≤ c.unread
        have hdrop : (c.rest.drop 1).length + 1 = c.rest.length := by rw [hrest]; rfl
        simp only [dropChar, unread]
        omega

theorem unread_next_add_isInput_le (c : Cursor) :
    c.next.2.unread + c.next.1.token.isInput.toNat ≤ c.unread :=
  Nat.le_trans c.seek.unread_token_add_isInput_le c.unread_seek_le

end Cursor

namespace Lexer

theorem remaining_looked_le (lexer : Lexer) : lexer.looked.remaining ≤ lexer.remaining := by
  unfold looked look
  split
  · exact Nat.le_refl _
  · rename_i h
    simpa [remaining, h] using lexer.cursor.unread_next_add_isInput_le

theorem remaining_advance_add_isInput_le (lexer : Lexer) :
    lexer.advance.remaining + lexer.peek.isInput.toNat ≤ lexer.remaining := by
  unfold advance looked peek look
  split
  · rename_i lexeme h
    simp [remaining, h]
  · rename_i h
    simpa [remaining, h] using lexer.cursor.unread_next_add_isInput_le

theorem remaining_advance_le (lexer : Lexer) :
    lexer.advance.remaining ≤ lexer.remaining :=
  Nat.le_trans (Nat.le_add_right _ _) lexer.remaining_advance_add_isInput_le

theorem remaining_advance_lt (lexer : Lexer) (h : lexer.peek.isInput = true) :
    lexer.advance.remaining < lexer.remaining := by
  have hle := lexer.remaining_advance_add_isInput_le
  rw [h] at hle
  exact hle

end Lexer

end LiveCompiler
