import LiveCompiler.Proofs.Token.Reads

/-!
# The tokens of a whole text

`tokensOf` cuts a text into tokens without regard to lines: it drops blanks and comments and takes
the longest run of one class, again and again.  `Input.lexemes` puts the tokens of all lines of an
input at their places, which `placeIn` counts off in the lines.

A lexer holds one line and looks one token ahead.  None of this shows (`answers_ofInput`): however
one asks for the token ahead, asks where it stands and drops it, the answers are those of the whole
text.  This rests on the newline at the end of every line, as no token and no comment goes on behind
one.  So where lines are cut makes no difference for the tokens.
-/

namespace LiveCompiler

/-! ## Tokens of a text -/

/-- The token of a run of digits and points. -/
def Token.ofNumeral (run : List Char) : Token :=
  match Binary64.ofLiteral? run with
  | some value => number value
  | none => malformed (String.ofList run)

/-- Drop the blanks and comments that a text starts with.  A comment lasts up to a newline. -/
def skipBlanks : List Char → List Char
  | [] => []
  | c :: text =>
    if isBlank c then skipBlanks text
    else if c = '#' then skipBlanks (text.dropWhile (· != '\n'))
    else c :: text
termination_by text => text.length
decreasing_by
  · exact Nat.lt_succ_self _
  · exact Nat.lt_succ_of_le (List.dropWhile_suffix _).length_le

/-- The token that a text starts with, at no blank, and the text behind it: a letter with all
letters and digits that follow, all digits and points, or else one character. -/
def firstToken (c : Char) (text : List Char) : Token × List Char :=
  if c.isAlpha then
    (Token.ofWord (c :: text.takeWhile Char.isAlphanum), text.dropWhile Char.isAlphanum)
  else if isNumeral c then
    (Token.ofNumeral (c :: text.takeWhile isNumeral), text.dropWhile isNumeral)
  else (.char c, text)

theorem length_skipBlanks_le (text : List Char) : (skipBlanks text).length ≤ text.length := by
  fun_induction skipBlanks text with
  | case1 => exact Nat.le_refl _
  | case2 c text _ ih => exact Nat.le_succ_of_le ih
  | case3 text _ ih =>
    exact Nat.le_succ_of_le (Nat.le_trans ih (List.dropWhile_suffix _).length_le)
  | case4 => exact Nat.le_refl _

theorem length_firstToken_le (c : Char) (text : List Char) :
    (firstToken c text).2.length ≤ text.length := by
  unfold firstToken
  split
  · exact (List.dropWhile_suffix _).length_le
  · split
    · exact (List.dropWhile_suffix _).length_le
    · exact Nat.le_refl _

/-- The tokens of a text, each with the text from its first character on.  The last one is the end
of the input. -/
def tokensOf (text : List Char) : List (Token × List Char) :=
  match h : skipBlanks text with
  | [] => [(.endOfInput, [])]
  | c :: more =>
    have : (firstToken c more).2.length < text.length := by
      have hSkip := length_skipBlanks_le text
      have hToken := length_firstToken_le c more
      rw [h, List.length_cons] at hSkip
      omega
    ((firstToken c more).1, c :: more) :: tokensOf (firstToken c more).2
termination_by text.length

theorem tokensOf_of_nil {text : List Char} (h : skipBlanks text = []) :
    tokensOf text = [(.endOfInput, [])] := by
  rw [tokensOf]
  split
  · rfl
  · rename_i hSome
    rw [h] at hSome
    cases hSome

theorem tokensOf_of_cons {text more : List Char} {c : Char} (h : skipBlanks text = c :: more) :
    tokensOf text = ((firstToken c more).1, c :: more) :: tokensOf (firstToken c more).2 := by
  rw [tokensOf]
  split
  · rename_i hNone
    rw [h] at hNone
    cases hNone
  · rename_i hSome
    obtain ⟨rfl, rfl⟩ := List.cons.inj (h.symm.trans hSome)
    rfl

/-- Where the character stands that is so many characters behind the start of some lines.  What is
behind the last character stands on the last line. -/
def placeIn : List (List Char) → Nat → Location
  | [], _ => { line := 0, column := 1 }
  | [_], offset => { line := 1, column := offset + 1 }
  | line :: next :: later, offset =>
    if offset < line.length then { line := 1, column := offset + 1 }
    else
      let place := placeIn (next :: later) (offset - line.length)
      { place with line := place.line + 1 }

namespace Input

/-- The lines of an input, each with a newline at its end. -/
def closedLines (input : Input) : List (List Char) :=
  input.lines.map terminated

/-- All characters of an input. -/
def text (input : Input) : List Char :=
  input.closedLines.flatten

/-- A token with the place where the text from its first character on begins. -/
def placed (input : Input) (token : Token × List Char) : Lexeme where
  token := token.1
  location := placeIn input.closedLines (input.text.length - token.2.length)

/-- The tokens of an input at their places.  The last one is the end of the input. -/
def lexemes (input : Input) : List Lexeme :=
  (tokensOf input.text).map input.placed

/-- The token with a number.  Behind the last one there is only the end of the input. -/
def lexemeAt (input : Input) (n : Nat) : Lexeme :=
  input.lexemes.getD n (input.placed (.endOfInput, []))

end Input

namespace Lexer

/-- What can be asked of a lexer. -/
inductive Request where
  | token
  | location
  | advance
deriving DecidableEq, Repr

/-- What a lexer answers. -/
inductive Answer where
  | token (token : Token)
  | location (location : Location)
  | done

/-- The answer to one request, and the lexer after it. -/
def answer (lexer : Lexer) : Request → Answer × Lexer
  | .token => (.token lexer.peek, lexer.looked)
  | .location => (.location lexer.look.1.location, lexer.looked)
  | .advance => (.done, lexer.advance)

/-- The answers to requests, one after another. -/
def answers (lexer : Lexer) : List Request → List Answer
  | [] => []
  | request :: more => (lexer.answer request).1 :: (lexer.answer request).2.answers more

/-- The answers that numbered tokens give, from a number on. -/
def answersAt (lexemeAt : Nat → Lexeme) : Nat → List Request → List Answer
  | _, [] => []
  | n, .token :: more => .token (lexemeAt n).token :: answersAt lexemeAt n more
  | n, .location :: more => .location (lexemeAt n).location :: answersAt lexemeAt n more
  | n, .advance :: more => .done :: answersAt lexemeAt (n + 1) more

end Lexer

/-! ## Lines and the whole text -/

/-- A text that ends with a newline, or has no character. -/
def Closed (text : List Char) : Prop :=
  ∀ c ∈ text.getLast?, c = '\n'

theorem closed_terminated (text : List Char) : Closed (terminated text) := by
  unfold terminated
  split
  · rename_i hLast
    exact fun c hc => Option.some.inj (hc.symm.trans hLast)
  · intro c hc
    rw [List.getLast?_concat] at hc
    exact (Option.some.inj hc).symm

theorem Closed.of_append {run text : List Char} (h : Closed (run ++ text)) : Closed text := by
  intro c hc
  refine h c ?_
  rw [List.getLast?_append, hc]
  rfl

theorem Closed.of_cons {c : Char} {text : List Char} (h : Closed (c :: text)) : Closed text :=
  @Closed.of_append [c] text h

theorem Closed.newline_mem {text : List Char} (h : Closed text) (hSome : text ≠ []) :
    '\n' ∈ text := by
  obtain ⟨c, hc⟩ := Option.ne_none_iff_exists'.mp (mt List.getLast?_eq_none_iff.mp hSome)
  exact h c hc ▸ List.mem_of_getLast? hc

/-- A run of characters of a class ends with the line, as the newline is not in the class. -/
theorem Closed.munch {text more : List Char} {p : Char → Bool} (h : Closed text)
    (hSome : text ≠ []) (hNewline : p '\n' = false) :
    (text ++ more).takeWhile p = text.takeWhile p ∧
      (text ++ more).dropWhile p = text.dropWhile p ++ more := by
  have hNot : ¬ ∀ c ∈ text, p c = true := fun hAll =>
    Bool.false_ne_true (hNewline.symm.trans (hAll _ (h.newline_mem hSome)))
  constructor
  · rw [List.takeWhile_append, if_neg]
    intro hLength
    have hAll := (List.takeWhile_prefix p).eq_of_length hLength
    exact hNot (List.all_eq_true.mp (hAll ▸ List.all_takeWhile))
  · rw [List.dropWhile_append, if_neg]
    intro hNone
    have hParts := List.takeWhile_append_dropWhile (p := p) (l := text)
    rw [List.isEmpty_iff.mp hNone, List.append_nil] at hParts
    exact hNot (List.all_eq_true.mp (hParts ▸ List.all_takeWhile))

/-- What is dropped from a line is dropped from the text that it starts, up to a comment that is
open: a comment ends with its line. -/
theorem skipBlanks_append {more : List Char} (line : List Char) :
    ∀ (comment : Bool) (column : Nat), Closed line → (comment = true → line ≠ []) →
      skipBlanks (if comment then (line ++ more).dropWhile (· != '\n') else line ++ more) =
        if (dropBlanks comment line column).1 = [] then skipBlanks more
        else (dropBlanks comment line column).1 ++ more := by
  induction line with
  | nil =>
    intro comment column _ hSome
    cases comment with
    | true => exact absurd rfl (hSome rfl)
    | false => rfl
  | cons c line ih =>
    intro comment column hClosed _
    have hRest := hClosed.of_cons
    -- Behind a character that is no newline the line goes on.
    have hLater : c ≠ '\n' → line ≠ [] := by
      rintro hNe rfl
      exact hNe (hClosed c rfl)
    have hNoComment : false = true → line ≠ [] := (absurd · Bool.false_ne_true)
    cases comment with
    | true =>
      rw [dropBlanks, if_pos rfl, List.cons_append, List.dropWhile_cons]
      by_cases hEnd : c = '\n'
      · subst hEnd
        have hBlank : skipBlanks ('\n' :: (line ++ more)) = skipBlanks (line ++ more) := by
          rw [skipBlanks]
          exact if_pos (by decide)
        exact hBlank.trans (ih false (column + 1) hRest hNoComment)
      · have hGoesOn : (c != '\n') = true := bne_iff_ne.mpr hEnd
        rw [hGoesOn, if_pos rfl]
        exact ih true (column + 1) hRest fun _ => hLater hEnd
    | false =>
      rw [dropBlanks, if_neg Bool.false_ne_true, List.cons_append, skipBlanks]
      split
      · exact ih false (column + 1) hRest hNoComment
      · split
        · rename_i hComment
          exact ih true (column + 1) hRest fun _ => hLater (by rw [hComment]; decide)
        · rfl

/-- Dropping blanks counts the columns that are dropped. -/
theorem dropBlanks_suffix (line : List Char) : ∀ (comment : Bool) (column : Nat),
    ∃ run, line = run ++ (dropBlanks comment line column).1 ∧
      (dropBlanks comment line column).2 = column + run.length := by
  have hStep : ∀ (c : Char) {comment : Bool} {line : List Char} {column : Nat},
      (∃ run, line = run ++ (dropBlanks comment line (column + 1)).1 ∧
        (dropBlanks comment line (column + 1)).2 = column + 1 + run.length) →
      ∃ run, c :: line = run ++ (dropBlanks comment line (column + 1)).1 ∧
        (dropBlanks comment line (column + 1)).2 = column + run.length := by
    rintro c comment line column ⟨run, hLine, hColumn⟩
    refine ⟨c :: run, congrArg (c :: ·) hLine, ?_⟩
    rw [hColumn, List.length_cons]
    omega
  induction line with
  | nil => exact fun comment column => ⟨[], by cases comment <;> exact ⟨rfl, rfl⟩⟩
  | cons c line ih =>
    intro comment column
    cases comment with
    | true =>
      rw [dropBlanks]
      exact hStep c (ih _ _)
    | false =>
      rw [dropBlanks]
      split
      · exact hStep c (ih _ _)
      · split
        · exact hStep c (ih _ _)
        · exact ⟨[], rfl, rfl⟩

/-- The place of a character in one of the lines, or behind the last of them. -/
theorem placeIn_append {line : List Char} {later : List (List Char)} {column : Nat}
    (hColumn : column < line.length ∨ later = []) (before : List (List Char)) :
    placeIn (before ++ line :: later) (before.flatten.length + column) =
      { line := before.length + 1, column := column + 1 } := by
  induction before with
  | nil =>
    rw [List.nil_append, List.flatten_nil, List.length_nil, Nat.zero_add]
    cases later with
    | nil => rfl
    | cons next later =>
      rw [placeIn, if_pos (hColumn.resolve_right (List.cons_ne_nil _ _))]
      rfl
  | cons first before ih =>
    have hLast : ∃ next rest, before ++ line :: later = next :: rest := by
      cases before with
      | nil => exact ⟨_, _, rfl⟩
      | cons next before => exact ⟨_, _, rfl⟩
    obtain ⟨next, rest, hNext⟩ := hLast
    rw [List.cons_append, List.flatten_cons, List.length_append, hNext, placeIn, if_neg (by omega),
      Nat.add_assoc, Nat.add_sub_cancel_left, ← hNext, ih]
    rfl

/-! ## A cursor in its input -/

namespace Cursor

variable {input : Input} {c : Cursor}

/-- All characters that a cursor has not yet passed. -/
def left (c : Cursor) : List Char :=
  c.rest ++ (c.input.lines.map terminated).flatten

/-- A cursor stands in front of the first line, or some way into a line that it has read. -/
inductive Stands (input : Input) (c : Cursor) : Prop
  | start (line : c.line = 0) (column : c.column = 1) (rest : c.rest = [])
      (lines : c.input.lines = input.lines)
  | within (before : List (List Char)) (used : List Char) (line : c.line = before.length + 1)
      (column : c.column = used.length + 1)
      (lines : input.closedLines = before ++ (used ++ c.rest) :: c.input.lines.map terminated)

theorem stands_ofInput (input : Input) : Stands input (ofInput input) :=
  .start rfl rfl rfl rfl

theorem Stands.moved (h : Stands input c) {run rest : List Char} (hRest : c.rest = run ++ rest) :
    Stands input { c with rest := rest, column := c.column + run.length } := by
  cases h with
  | start line column none lines =>
    obtain ⟨rfl, rfl⟩ := List.append_eq_nil_iff.mp (hRest.symm.trans none)
    exact .start line column rfl lines
  | within before used line column lines =>
    refine .within before (used ++ run) line ?_ ?_
    · show c.column + run.length = (used ++ run).length + 1
      rw [column, List.length_append, Nat.add_right_comm]
    · rw [lines, hRest, List.append_assoc]

theorem Stands.closed (h : Stands input c) : Closed c.rest := by
  cases h with
  | start _ _ none _ =>
    rw [none]
    exact nofun
  | within before used _ _ lines =>
    have hLine : used ++ c.rest ∈ input.closedLines := by simp [lines]
    obtain ⟨text, -, hText⟩ := List.mem_map.mp hLine
    exact Closed.of_append (hText ▸ closed_terminated text)

theorem Stands.dropLineBlanks (h : Stands input c) : Stands input c.dropLineBlanks := by
  obtain ⟨run, hRest, hColumn⟩ := dropBlanks_suffix c.rest false c.column
  have hMoved := h.moved hRest
  rwa [← hColumn] at hMoved

theorem Stands.readFrom_cons (h : Stands input c) (hRest : c.rest = []) {text : List Char}
    {later : List (List Char)} (hLines : c.input.lines = text :: later) :
    Stands input (c.readFrom (text :: later)) := by
  cases h with
  | start line column _ lines =>
    refine .within [] [] (congrArg (· + 1) line) rfl ?_
    rw [Input.closedLines, ← lines, hLines]
    rfl
  | within before used line column lines =>
    refine .within (before ++ [used]) [] ?_ rfl ?_
    · show c.line + 1 = (before ++ [used]).length + 1
      rw [line, List.length_append]
      rfl
    · rw [lines, hRest, hLines, List.append_nil, List.append_assoc]
      rfl

/-- The place of a cursor, counted off from the end of the text. -/
theorem Stands.place (h : Stands input c) (hHere : c.rest ≠ [] ∨ c.input.lines = []) :
    placeIn input.closedLines (input.text.length - c.left.length) = ⟨c.line, c.column⟩ := by
  cases h with
  | start line column rest lines =>
    have hNone := hHere.resolve_left (fun hSome => hSome rest)
    rw [line, column, Input.text, Input.closedLines, ← lines, hNone]
    rfl
  | within before used line column lines =>
    have hOffset : input.text.length - c.left.length = before.flatten.length + used.length := by
      rw [Input.text, lines, left, List.flatten_append, List.flatten_cons]
      simp only [List.length_append]
      omega
    have hColumn : used.length < (used ++ c.rest).length ∨ c.input.lines.map terminated = [] := by
      rcases hHere with hSome | hNone
      · refine .inl ?_
        have hPos := List.length_pos_iff.mpr hSome
        rw [List.length_append]
        omega
      · exact .inr (by rw [hNone]; rfl)
    rw [hOffset, lines, placeIn_append hColumn, line, column]

/-- A cursor that looks for the next character drops the blanks of the text that is left. -/
theorem left_seekFrom (lines : List (List Char)) : ∀ {c : Cursor}, Stands input c →
    c.input.lines = lines → (c.finished = true → c.input.lines = []) →
    Stands input (c.seekFrom lines) ∧ (c.seekFrom lines).left = skipBlanks c.left := by
  have hStay : ∀ {c : Cursor}, Stands input c →
      (c.dropLineBlanks.rest = [] → c.input.lines = []) →
      c.dropLineBlanks.left = skipBlanks c.left := by
    intro c h hEnd
    refine .trans ?_ (skipBlanks_append c.rest false c.column h.closed nofun).symm
    show (dropBlanks false c.rest c.column).1 ++ (c.input.lines.map terminated).flatten = _
    split
    · rename_i hNone
      rw [hNone, hEnd hNone, List.map_nil, List.flatten_nil, skipBlanks]
      rfl
    · rfl
  induction lines with
  | nil =>
    intro c h hLines hOpen
    rw [seekFrom]
    split
    · exact ⟨h.dropLineBlanks, hStay h fun _ => hLines⟩
    · -- Reading the end of the input changes neither the place nor the text.
      have hHere : Stands input (c.dropLineBlanks.readFrom []) := by
        cases h.dropLineBlanks with
        | start line column rest lines => exact .start line column rest lines
        | within before used line column lines => exact .within before used line column lines
      exact ⟨hHere, hStay h fun _ => hLines⟩
  | cons text later ih =>
    intro c h hLines hOpen
    rw [seekFrom]
    split
    · rename_i hStop
      refine ⟨h.dropLineBlanks, hStay h fun hNone => hOpen ?_⟩
      rw [hNone] at hStop
      exact hStop
    · rename_i hGo
      simp only [Bool.or_eq_true, Bool.not_eq_true', not_or, Bool.not_eq_false,
        Bool.not_eq_true, List.isEmpty_iff] at hGo
      obtain ⟨hStands, hLeft⟩ := ih (h.dropLineBlanks.readFrom_cons hGo.1 hLines) rfl
        fun hFinished => absurd (hGo.2.symm.trans hFinished) Bool.false_ne_true
      refine ⟨hStands, hLeft.trans ?_⟩
      have hSkip := @skipBlanks_append (c.input.lines.map terminated).flatten c.rest false
        c.column h.closed nofun
      rw [if_pos (show (dropBlanks false c.rest c.column).1 = [] from hGo.1), hLines] at hSkip
      show skipBlanks (terminated text ++ (later.map terminated).flatten) = _
      rw [left, hLines]
      exact hSkip.symm

/-- The token at a cursor is the first one of the text that is left. -/
theorem Stands.token (h : Stands input c) {first : Char} {line : List Char}
    (hRest : c.rest = first :: line) :
    Stands input c.token.2 ∧
      (c.token.1, c.token.2.left) =
        firstToken first (line ++ (c.input.lines.map terminated).flatten) := by
  have hMunch : ∀ p : Char → Bool, p '\n' = false → p first = true →
      Stands input (c.munch p).2 ∧
        (c.munch p).1 =
          first :: (line ++ (c.input.lines.map terminated).flatten).takeWhile p ∧
        (c.munch p).2.left = (line ++ (c.input.lines.map terminated).flatten).dropWhile p := by
    intro p hNewline hFirst
    obtain ⟨hTake, hDrop⟩ := @Closed.munch _ (c.input.lines.map terminated).flatten _ h.closed
      (by simp [hRest]) hNewline
    refine ⟨h.moved (List.takeWhile_append_dropWhile (p := p)).symm, ?_, ?_⟩
    · rw [← List.takeWhile_cons_of_pos hFirst, ← List.cons_append, ← hRest, hTake]
      rfl
    · rw [← List.dropWhile_cons_of_pos hFirst, ← List.cons_append, ← hRest, hDrop]
      rfl
  unfold Cursor.token firstToken
  rw [hRest]
  dsimp only
  split
  · rename_i hAlpha
    obtain ⟨hStands, hWord, hLeft⟩ := hMunch Char.isAlphanum (by decide)
      (by rw [Char.isAlphanum, hAlpha, Bool.true_or])
    exact ⟨hStands, Prod.ext (congrArg Token.ofWord hWord) hLeft⟩
  · split
    · rename_i hFirst
      obtain ⟨hStands, hRun, hLeft⟩ := hMunch isNumeral (by decide) hFirst
      rw [← hRun, ← hLeft]
      unfold Token.ofNumeral
      cases Binary64.ofLiteral? (c.munch isNumeral).1 with
      | some _ => exact ⟨hStands, rfl⟩
      | none => exact ⟨hStands, rfl⟩
    · refine ⟨?_, ?_⟩
      · have hMoved := @Stands.moved _ _ h [first] _ hRest
        unfold dropChar
        rwa [hRest]
      · show (_, c.rest.drop 1 ++ _) = _
        rw [hRest]
        rfl

/-- The tokens from a cursor on are those of the text that is left. -/
theorem Stands.lexemes (h : Stands input c) (hReads : OnDemand input c) :
    c.lexemes = (tokensOf c.left).map input.placed := by
  have hFinished : ∀ {c : Cursor}, OnDemand input c → c.finished = true → c.input.lines = [] := by
    intro c hReads hFinished
    rw [hReads.lines_eq, (hReads.finished_eq hFinished).1, List.drop_length]
  fun_induction Cursor.lexemes c with
  | case1 c hInput ih =>
    obtain ⟨hSeek, hLeft⟩ := left_seekFrom c.input.lines h rfl (hFinished hReads)
    rw [← Cursor.seek] at hSeek hLeft
    cases hRest : c.seek.rest with
    | nil =>
      -- Without a character there is no token.
      have hEnd : c.next.1.token = .endOfInput := by
        show c.seek.token.1 = _
        unfold Cursor.token
        rw [hRest]
      rw [hEnd] at hInput
      cases hInput
    | cons first line =>
      obtain ⟨hStands, hToken⟩ := hSeek.token hRest
      have hPlace := hSeek.place (.inl (by rw [hRest]; exact List.cons_ne_nil _ _))
      have hHere : c.seek.left =
          first :: (line ++ (c.seek.input.lines.map terminated).flatten) := by
        rw [left, hRest]
        rfl
      rw [hHere] at hPlace
      rw [tokensOf_of_cons (hLeft.symm.trans hHere), List.map_cons, ← hToken,
        ih hStands hReads.next]
      exact congrArg (· :: _) (congrArg (Lexeme.mk c.seek.token.1) hPlace.symm)
  | case2 c hInput =>
    obtain ⟨hSeek, hLeft⟩ := left_seekFrom c.input.lines h rfl (hFinished hReads)
    rw [← Cursor.seek] at hSeek hLeft
    have hEnd : c.seek.token.1 = .endOfInput :=
      Token.eq_endOfInput_iff.mpr (Bool.eq_false_iff.mpr hInput)
    have hRest := (token_of_end hEnd).1
    have hLines := hFinished hReads.seek (finished_seekFrom _ hRest)
    have hNone : c.seek.left = [] := by
      rw [left, hRest, hLines]
      rfl
    have hPlace := hSeek.place (.inr hLines)
    rw [hNone] at hPlace
    rw [tokensOf_of_nil (hLeft.symm.trans hNone)]
    show [(⟨c.seek.token.1, ⟨c.seek.line, c.seek.column⟩⟩ : Lexeme)] = _
    rw [hEnd, ← hPlace]
    rfl

end Cursor

/-- The tokens that a lexer shows of an input are those of its text, at their places. -/
theorem Lexer.lexemes_ofInput (input : Input) : (ofInput input).lexemes = input.lexemes :=
  (Cursor.stands_ofInput input).lexemes (Cursor.onDemand_ofInput input)

/-! ## Answers -/

theorem getLast?_tokensOf (text : List Char) :
    (tokensOf text).getLast? = some (.endOfInput, []) := by
  fun_induction tokensOf text with
  | case1 => rfl
  | case2 text c more _ _ ih =>
    rw [List.getLast?_cons, ih]
    rfl

namespace Lexer

variable {input : Input} {lexer : Lexer} {n : Nat}

/-- A lexer that has dropped so many tokens of an input shows the next ones, and behind all of them
the end of the input. -/
structure ShowsFrom (input : Input) (n : Nat) (lexer : Lexer) : Prop where
  genuine : lexer.Genuine
  lexemes : lexer.lexemes = input.lexemes.drop n ∨
    input.lexemes.length ≤ n ∧ lexer.lexemes = [input.placed (.endOfInput, [])]

theorem showsFrom_ofInput (input : Input) : ShowsFrom input 0 (ofInput input) :=
  ⟨genuine_ofInput input, .inl (lexemes_ofInput input)⟩

theorem ShowsFrom.look (h : ShowsFrom input n lexer) : lexer.look.1 = input.lexemeAt n := by
  obtain ⟨rest, hRest⟩ := lexer.lexemes_eq_cons
  unfold Input.lexemeAt
  rw [List.getD_eq_getElem?_getD]
  rcases h.lexemes with hDrop | ⟨hLe, hEnd⟩
  · have hAt : input.lexemes[n]? = some lexer.look.1 := by
      rw [← List.head?_drop, ← hDrop, hRest]
      rfl
    rw [hAt]
    rfl
  · rw [List.getElem?_eq_none hLe]
    exact look_of_lexemes hEnd

theorem ShowsFrom.looked (h : ShowsFrom input n lexer) : ShowsFrom input n lexer.looked :=
  ⟨h.genuine.looked, by rw [lexemes_looked]; exact h.lexemes⟩

/-- Dropping the token ahead goes on to the next number, also at the end of the input. -/
theorem ShowsFrom.advance (h : ShowsFrom input n lexer) :
    ShowsFrom input (n + 1) lexer.advance := by
  refine ⟨genuine_advance lexer, ?_⟩
  by_cases hInput : lexer.peek.isInput = true
  · have hCons := lexemes_of_input hInput
    rcases h.lexemes with hDrop | ⟨-, hEnd⟩
    · refine .inl ?_
      rw [← List.tail_drop, ← hDrop, hCons]
      rfl
    · rw [show lexer.peek = .endOfInput from peek_of_lexemes_singleton hEnd] at hInput
      cases hInput
  · have hPeek := Token.eq_endOfInput_iff.mpr (Bool.eq_false_iff.mpr hInput)
    have hStay := lexemes_advance_of_end h.genuine hPeek
    refine .inr ?_
    rw [hStay]
    rcases h.lexemes with hDrop | ⟨hLe, hEnd⟩
    · have hSingle := lexemes_of_end hPeek
      have hLength : input.lexemes.length - n = 1 := by
        rw [← List.length_drop, ← hDrop, hSingle]
        rfl
      have hLast : input.lexemes.getLast? = some lexer.look.1 := by
        have hGet := List.getLast?_drop (l := input.lexemes) (i := n)
        rw [if_neg (by omega), ← hDrop, hSingle] at hGet
        exact hGet.symm
      rw [Input.lexemes, List.getLast?_map, getLast?_tokensOf] at hLast
      exact ⟨by omega, by rw [hSingle, ← Option.some.inj hLast]⟩
    · exact ⟨Nat.le_succ_of_le hLe, hEnd⟩

theorem ShowsFrom.answers (requests : List Request) : ∀ {n : Nat} {lexer : Lexer},
    ShowsFrom input n lexer → lexer.answers requests = answersAt input.lexemeAt n requests := by
  induction requests with
  | nil => exact fun _ => rfl
  | cons request more ih =>
    intro n lexer h
    cases request with
    | token =>
      have hToken : lexer.peek = (input.lexemeAt n).token := congrArg Lexeme.token h.look
      rw [Lexer.answers, answersAt, ← ih h.looked, ← hToken]
      rfl
    | location =>
      rw [Lexer.answers, answersAt, ← ih h.looked, ← h.look]
      rfl
    | advance =>
      rw [Lexer.answers, answersAt, ← ih h.advance]
      rfl

/-- Without the places, only the tokens count. -/
theorem answersAt_congr {lexemeAt other : Nat → Lexeme}
    (hTokens : ∀ n, (lexemeAt n).token = (other n).token) (requests : List Request)
    (hPlaces : Request.location ∉ requests) (n : Nat) :
    answersAt lexemeAt n requests = answersAt other n requests := by
  induction requests generalizing n with
  | nil => rfl
  | cons request more ih =>
    have hMore := ih fun hMem => hPlaces (List.mem_cons_of_mem _ hMem)
    cases request with
    | token => rw [answersAt, answersAt, hMore, hTokens]
    | location => exact absurd List.mem_cons_self hPlaces
    | advance => rw [answersAt, answersAt, hMore]

end Lexer

/-- Lines that have their newline are left as they are. -/
theorem Input.text_of_closed {input : Input}
    (h : ∀ line ∈ input.lines, line.getLast? = some '\n') : input.text = input.lines.flatten := by
  unfold text closedLines
  congr 1
  refine (List.map_congr_left fun line hLine => ?_).trans (List.map_id _)
  exact if_pos (h line hLine)

/-- The tokens of an input are those of its text. -/
theorem Input.token_lexemeAt (input : Input) (n : Nat) :
    (input.lexemeAt n).token = ((tokensOf input.text).getD n (.endOfInput, [])).1 := by
  unfold lexemeAt lexemes
  rw [List.getD_eq_getElem?_getD, List.getElem?_map, List.getD_eq_getElem?_getD]
  cases (tokensOf input.text)[n]? <;> rfl

/-- However requests for the token ahead and for its place and orders to drop it take turns, a lexer
answers with the tokens of the whole text at their places.  So two inputs whose lines all end with a
newline, and that have the same text, give the same tokens wherever their lines are cut. -/
theorem Lexer.answers_ofInput (input : Input) :
    (∀ requests, (ofInput input).answers requests = answersAt input.lexemeAt 0 requests) ∧
    ∀ other : Input, (∀ line ∈ input.lines, line.getLast? = some '\n') →
      (∀ line ∈ other.lines, line.getLast? = some '\n') →
      input.lines.flatten = other.lines.flatten →
      ∀ requests, Request.location ∉ requests →
        (ofInput input).answers requests = (ofInput other).answers requests := by
  have hAnswers : ∀ input : Input, ∀ requests,
      (ofInput input).answers requests = answersAt input.lexemeAt 0 requests :=
    fun input requests => (showsFrom_ofInput input).answers requests
  refine ⟨hAnswers input, fun other hLines hOther hSame requests hPlaces => ?_⟩
  rw [hAnswers, hAnswers]
  refine answersAt_congr (fun n => ?_) requests hPlaces 0
  rw [Input.token_lexemeAt, Input.token_lexemeAt, Input.text_of_closed hLines,
    Input.text_of_closed hOther, hSame]

/-- A comment, an empty line and a number that is none, in three lines. -/
def cutInput : Input :=
  .ofLines ["if x1 # y\n", "\n", " 1.5.2)\n"] none

/-- The same text in one line. -/
def uncutInput : Input :=
  .ofLines ["if x1 # y\n\n 1.5.2)\n"] none

theorem Lexer.answers_cutInput :
    cutInput.lines.flatten = uncutInput.lines.flatten ∧
    (ofInput cutInput).answers [.token, .advance, .token, .token, .advance, .token] =
      (ofInput uncutInput).answers [.token, .advance, .token, .token, .advance, .token] ∧
    answersAt cutInput.lexemeAt 0 [.advance, .advance, .location, .token] =
      [.done, .done, .location ⟨3, 2⟩, .token (.malformed "1.5.2")] ∧
    answersAt uncutInput.lexemeAt 0 [.advance, .advance, .location, .token] =
      [.done, .done, .location ⟨1, 13⟩, .token (.malformed "1.5.2")] := by
  have hSame : cutInput.lines.flatten = uncutInput.lines.flatten := by decide
  obtain ⟨hAnswers, hTokens⟩ := Lexer.answers_ofInput cutInput
  refine ⟨hSame, hTokens uncutInput (by decide) (by decide) hSame _ (by decide), ?_, ?_⟩
  · exact (hAnswers _).symm.trans rfl
  · exact ((Lexer.answers_ofInput uncutInput).1 _).symm.trans rfl

end LiveCompiler
