import LiveCompiler.Grammar.Progress

/-!
# The tokens that a lexer will show

`Lexer.lexemes` lists what a lexer shows if the token ahead is dropped again and again: the tokens
that are left, with their places, and last the end of the input.  Looking at the token ahead
leaves the list as it is, and dropping it takes off the head; at the end nothing changes any more.

The tokens of one input below another (`Input.followedBy`) are those of the first, without its
end, and then those of the second, that many lines further down.
-/

namespace LiveCompiler

/-- The same token at another place. -/
def Lexeme.moved (place : Location → Location) (lexeme : Lexeme) : Lexeme :=
  { lexeme with location := place lexeme.location }

theorem Token.eq_endOfInput_iff {token : Token} : token = .endOfInput ↔ token.isInput = false := by
  cases token <;> simp [isInput]

theorem Token.isInput_ofWord (word : List Char) : (ofWord word).isInput = true := by
  unfold ofWord
  split <;> rfl

/-! ## The end of the input -/

namespace Cursor

/-- A cursor that shows the end of the input has no character left, and stays where it is. -/
theorem token_of_end {c : Cursor} (h : c.token.1 = .endOfInput) :
    c.rest = [] ∧ c.token = (.endOfInput, c) := by
  unfold token at h ⊢
  split at h
  · rename_i hRest
    exact ⟨hRest, rfl⟩
  · -- With a character left there is a token.
    exfalso
    split at h
    · have hInput := Token.isInput_ofWord (c.munch Char.isAlphanum).1
      dsimp only at h
      rw [h] at hInput
      cases hInput
    · split at h
      · dsimp only at h
        split at h <;> cases h
      · cases h

theorem seekFrom_of_finished {c : Cursor} (hRest : c.rest = []) (hFinished : c.finished = true)
    (lines : List (List Char)) : c.seekFrom lines = c := by
  have hHere : c.dropLineBlanks = c := by
    unfold dropLineBlanks
    rw [hRest, dropBlanks]
    dsimp only
    rw [← hRest]
  cases lines <;> simp [seekFrom, hHere, hFinished]

/-- Only at the end of the input no character is found. -/
theorem finished_seekFrom (lines : List (List Char)) : ∀ {c : Cursor},
    (c.seekFrom lines).rest = [] → (c.seekFrom lines).finished = true := by
  induction lines with
  | nil =>
    intro c hRest
    rw [seekFrom] at hRest ⊢
    split at hRest
    · rename_i hStop
      rw [if_pos hStop]
      simpa [hRest] using hStop
    · rename_i hGo
      rw [if_neg hGo]
      rfl
  | cons text later ih =>
    intro c hRest
    rw [seekFrom] at hRest ⊢
    split at hRest
    · rename_i hStop
      rw [if_pos hStop]
      simpa [hRest] using hStop
    · rename_i hGo
      rw [if_neg hGo]
      exact ih hRest

/-- Once a cursor has shown the end of the input it shows it again, at the same place. -/
theorem next_of_end {c : Cursor} (h : c.next.1.token = .endOfInput) : c.next.2.next = c.next := by
  obtain ⟨hRest, hToken⟩ := token_of_end (c := c.seek) h
  have hSeek : c.seek.seek = c.seek := seekFrom_of_finished hRest (finished_seekFrom _ hRest) _
  have hAfter : c.next.2 = c.seek := congrArg Prod.snd hToken
  rw [hAfter]
  unfold next
  rw [hSeek]

/-! ## The stream of tokens -/

/-- The tokens from a cursor on, the last of which is the end of the input. -/
def lexemes (c : Cursor) : List Lexeme :=
  if c.next.1.token.isInput then c.next.1 :: c.next.2.lexemes else [c.next.1]
termination_by c.unread
decreasing_by
  rename_i hInput
  have hLe := c.unread_next_add_isInput_le
  rw [hInput] at hLe
  exact hLe

theorem lexemes_of_input {c : Cursor} (h : c.next.1.token.isInput = true) :
    c.lexemes = c.next.1 :: c.next.2.lexemes := by
  rw [lexemes, if_pos h]

theorem lexemes_of_end {c : Cursor} (h : c.next.1.token = .endOfInput) :
    c.lexemes = [c.next.1] := by
  rw [lexemes, if_neg (by simp [h, Token.isInput])]

end Cursor

namespace Lexer

/-- The tokens that a lexer will show, the last of which is the end of the input. -/
def lexemes (lexer : Lexer) : List Lexeme :=
  match lexer.ahead with
  | none => lexer.cursor.lexemes
  | some lexeme => if lexeme.token.isInput then lexeme :: lexer.cursor.lexemes else [lexeme]

/-- The token that a lexer has looked at is one that its input had there. -/
def Genuine (lexer : Lexer) : Prop :=
  ∀ lexeme, lexer.ahead = some lexeme → ∃ c : Cursor, c.next = (lexeme, lexer.cursor)

theorem genuine_ofInput (input : Input) : (ofInput input).Genuine :=
  nofun

variable {lexer : Lexer}

theorem Genuine.looked (h : lexer.Genuine) : lexer.looked.Genuine := by
  intro lexeme hAhead
  unfold Lexer.looked look at hAhead ⊢
  split at hAhead
  · exact h lexeme hAhead
  · obtain rfl := Option.some.inj hAhead
    exact ⟨lexer.cursor, rfl⟩

theorem genuine_advance (lexer : Lexer) : lexer.advance.Genuine :=
  nofun

theorem lexemes_looked (lexer : Lexer) : lexer.looked.lexemes = lexer.lexemes := by
  obtain ⟨cursor, ahead⟩ := lexer
  cases ahead with
  | some lexeme => rfl
  | none =>
    change (if cursor.next.1.token.isInput then cursor.next.1 :: cursor.next.2.lexemes
      else [cursor.next.1]) = cursor.lexemes
    rw [Cursor.lexemes.eq_1 cursor]

theorem lexemes_of_input (h : lexer.peek.isInput = true) :
    lexer.lexemes = lexer.look.1 :: lexer.advance.lexemes := by
  obtain ⟨cursor, ahead⟩ := lexer
  cases ahead with
  | some lexeme => exact if_pos h
  | none => exact Cursor.lexemes_of_input h

theorem lexemes_of_end (h : lexer.peek = .endOfInput) : lexer.lexemes = [lexer.look.1] := by
  obtain ⟨cursor, ahead⟩ := lexer
  cases ahead with
  | some lexeme => exact if_neg (by rw [show lexeme.token = .endOfInput from h]; decide)
  | none => exact Cursor.lexemes_of_end h

/-- At the end of the input dropping a token changes nothing. -/
theorem lexemes_advance_of_end (hGenuine : lexer.Genuine) (h : lexer.peek = .endOfInput) :
    lexer.advance.lexemes = lexer.lexemes := by
  have hNext : lexer.advance.cursor.next.1 = lexer.look.1 := by
    obtain ⟨cursor, ahead⟩ := lexer
    cases ahead with
    | some lexeme =>
      obtain ⟨c, hc⟩ := hGenuine lexeme rfl
      have hAgain := c.next_of_end (by rw [hc]; exact h)
      rw [hc] at hAgain
      exact congrArg Prod.fst hAgain
    | none => exact congrArg Prod.fst (Cursor.next_of_end h)
  rw [lexemes_of_end h, ← hNext]
  refine Cursor.lexemes_of_end ?_
  rw [hNext]
  exact h

/-- The token ahead is the first one of the stream. -/
theorem lexemes_eq_cons (lexer : Lexer) : ∃ rest, lexer.lexemes = lexer.look.1 :: rest := by
  by_cases hInput : lexer.peek.isInput = true
  · exact ⟨_, lexemes_of_input hInput⟩
  · exact ⟨[], lexemes_of_end (Token.eq_endOfInput_iff.mpr (Bool.eq_false_iff.mpr hInput))⟩

theorem look_of_lexemes {lexeme : Lexeme} {rest : List Lexeme}
    (h : lexer.lexemes = lexeme :: rest) : lexer.look.1 = lexeme := by
  obtain ⟨rest', hRest⟩ := lexer.lexemes_eq_cons
  exact (List.cons.inj (hRest.symm.trans h)).1

/-- If more than one token is shown the first one is none but a token of the input. -/
theorem lexemes_advance {lexeme next : Lexeme} {rest : List Lexeme}
    (h : lexer.lexemes = lexeme :: next :: rest) :
    lexer.peek.isInput = true ∧ lexer.advance.lexemes = next :: rest := by
  by_cases hInput : lexer.peek.isInput = true
  · rw [lexemes_of_input hInput] at h
    exact ⟨hInput, (List.cons.inj h).2⟩
  · rw [lexemes_of_end (Token.eq_endOfInput_iff.mpr (Bool.eq_false_iff.mpr hInput))] at h
    cases (List.cons.inj h).2

theorem peek_of_lexemes_singleton {lexeme : Lexeme} (h : lexer.lexemes = [lexeme]) :
    lexer.peek = .endOfInput := by
  by_cases hInput : lexer.peek.isInput = true
  · rw [lexemes_of_input hInput] at h
    obtain ⟨rest, hRest⟩ := lexer.advance.lexemes_eq_cons
    rw [hRest] at h
    cases (List.cons.inj h).2
  · exact Token.eq_endOfInput_iff.mpr (Bool.eq_false_iff.mpr hInput)

end Lexer

/-! ## One input below another -/

/-- One input, and then another from the next line on. -/
def Input.followedBy (first second : Input) : Input where
  lines := first.lines ++ second.lines
  failure := second.failure

/-- Where a place is if the input starts below the given end of another one.  Line 0 is the place
before the first line. -/
def Location.below (last location : Location) : Location where
  line := last.line + location.line
  column := if location.line = 0 then last.column else location.column

namespace Cursor

/-- A cursor at the same place in an input that starts further down. -/
structure Below (last : Location) (c w : Cursor) : Prop where
  lines_eq : w.input.lines = c.input.lines
  rest_eq : w.rest = c.rest
  finished_eq : w.finished = c.finished
  line_eq : w.line = last.line + c.line
  column_eq : w.column = if c.line = 0 then last.column else c.column
  blank : c.line = 0 → c.rest = []

variable {last : Location} {c w : Cursor}

theorem Below.location (h : Below last c w) :
    (⟨w.line, w.column⟩ : Location) = Location.below last ⟨c.line, c.column⟩ := by
  rw [h.line_eq, h.column_eq]
  rfl

theorem Below.dropLineBlanks (h : Below last c w) :
    Below last c.dropLineBlanks w.dropLineBlanks := by
  by_cases hStart : c.line = 0
  · have hRest := h.blank hStart
    have hSame : w.rest = [] := h.rest_eq.trans hRest
    have hHere : c.dropLineBlanks = c := by
      unfold Cursor.dropLineBlanks
      rw [hRest, dropBlanks, ← hRest]
    have hThere : w.dropLineBlanks = w := by
      unfold Cursor.dropLineBlanks
      rw [hSame, dropBlanks, ← hSame]
    rw [hHere, hThere]
    exact h
  · have hColumn : w.column = c.column := h.column_eq.trans (if_neg hStart)
    unfold Cursor.dropLineBlanks
    rw [h.rest_eq, hColumn]
    exact ⟨h.lines_eq, rfl, h.finished_eq, h.line_eq, (if_neg hStart).symm,
      fun hLine => absurd hLine hStart⟩

theorem Below.readFrom_cons (h : Below last c w) (text : List Char) (later : List (List Char)) :
    Below last (c.readFrom (text :: later)) (w.readFrom (text :: later)) where
  lines_eq := rfl
  rest_eq := rfl
  finished_eq := h.finished_eq
  line_eq := congrArg (· + 1) h.line_eq
  column_eq := (if_neg (Nat.succ_ne_zero _)).symm
  blank hLine := absurd hLine (Nat.succ_ne_zero _)

theorem Below.seekFrom (lines : List (List Char)) : ∀ {c w : Cursor}, Below last c w →
    Below last (c.seekFrom lines) (w.seekFrom lines) := by
  induction lines with
  | nil =>
    intro c w h
    have hHere := h.dropLineBlanks
    rw [Cursor.seekFrom, Cursor.seekFrom, hHere.rest_eq, hHere.finished_eq]
    split
    · exact hHere
    · exact ⟨hHere.lines_eq, hHere.rest_eq, rfl, hHere.line_eq, hHere.column_eq, hHere.blank⟩
  | cons text later ih =>
    intro c w h
    have hHere := h.dropLineBlanks
    rw [Cursor.seekFrom, Cursor.seekFrom, hHere.rest_eq, hHere.finished_eq]
    split
    · exact hHere
    · exact ih (hHere.readFrom_cons text later)

theorem Below.seek (h : Below last c w) : Below last c.seek w.seek := by
  unfold Cursor.seek
  rw [h.lines_eq]
  exact h.seekFrom _

theorem Below.munch (h : Below last c w) (p : Char → Bool) :
    (w.munch p).1 = (c.munch p).1 ∧ Below last (c.munch p).2 (w.munch p).2 := by
  unfold Cursor.munch
  rw [h.rest_eq]
  refine ⟨rfl, h.lines_eq, rfl, h.finished_eq, h.line_eq, ?_, fun hLine => ?_⟩
  · by_cases hStart : c.line = 0
    · simp [h.column_eq, hStart, h.blank hStart]
    · simp [h.column_eq, hStart]
  · simp [h.blank hLine]

theorem Below.token (h : Below last c w) :
    w.token.1 = c.token.1 ∧ Below last c.token.2 w.token.2 := by
  unfold Cursor.token
  rw [h.rest_eq]
  split
  · exact ⟨rfl, h⟩
  · rename_i first rest hRest
    have hStart : c.line ≠ 0 := fun hLine => by simp [h.blank hLine] at hRest
    obtain ⟨hWord, hAfterWord⟩ := h.munch Char.isAlphanum
    obtain ⟨hText, hAfterText⟩ := h.munch isNumeral
    split
    · exact ⟨congrArg Token.ofWord hWord, hAfterWord⟩
    · split
      · dsimp only
        rw [hText]
        split
        · exact ⟨rfl, hAfterText⟩
        · exact ⟨rfl, hAfterText⟩
      · refine ⟨rfl, h.lines_eq, congrArg (List.drop 1) h.rest_eq, h.finished_eq, h.line_eq, ?_,
          fun hLine => absurd hLine hStart⟩
        have hColumn : w.column = c.column := h.column_eq.trans (if_neg hStart)
        exact (congrArg (· + 1) hColumn).trans (if_neg hStart).symm

theorem Below.next (h : Below last c w) :
    w.next.1 = c.next.1.moved (Location.below last) ∧ Below last c.next.2 w.next.2 := by
  obtain ⟨hToken, hAfter⟩ := h.seek.token
  refine ⟨?_, hAfter⟩
  show (⟨w.seek.token.1, ⟨w.seek.line, w.seek.column⟩⟩ : Lexeme) = _
  rw [hToken, h.seek.location]
  rfl

theorem Below.lexemes (h : Below last c w) :
    w.lexemes = c.lexemes.map (Lexeme.moved (Location.below last)) := by
  fun_induction Cursor.lexemes c generalizing w with
  | case1 c hInput ih =>
    obtain ⟨hFirst, hAfter⟩ := h.next
    rw [lexemes_of_input (by rw [hFirst]; exact hInput), hFirst, ih hAfter]
    rfl
  | case2 c hInput =>
    obtain ⟨hFirst, -⟩ := h.next
    have hEnd := Token.eq_endOfInput_iff.mpr (Bool.eq_false_iff.mpr hInput)
    rw [lexemes_of_end (by rw [hFirst]; exact hEnd), hFirst]
    rfl

/-! ### The first input -/

/-- The same place in an input that goes on with another one. -/
def followedBy (c : Cursor) (second : Input) : Cursor :=
  { c with input := c.input.followedBy second }

theorem seekFrom_of_found {c : Cursor} (h : c.dropLineBlanks.rest ≠ [])
    (lines : List (List Char)) : c.seekFrom lines = c.dropLineBlanks := by
  cases lines <;> simp [Cursor.seekFrom, h]

/-- A line with nothing but blanks is left for the next one. -/
theorem seekFrom_cons_of_blank {c : Cursor} (h : c.dropLineBlanks.rest = [])
    (hOpen : c.finished = false) (text : List Char) (later : List (List Char)) :
    c.seekFrom (text :: later) = (c.dropLineBlanks.readFrom (text :: later)).seekFrom later := by
  have hHere : c.dropLineBlanks.finished = false := hOpen
  simp [Cursor.seekFrom, h, hHere]

/-- Dropping the blanks of a line that has nothing else makes no difference for what is found. -/
theorem seekFrom_dropLineBlanks {c : Cursor} (h : c.dropLineBlanks.rest = [])
    (lines : List (List Char)) : c.dropLineBlanks.seekFrom lines = c.seekFrom lines := by
  have hAgain : c.dropLineBlanks.dropLineBlanks = c.dropLineBlanks := by
    rw [Cursor.dropLineBlanks, h, dropBlanks, ← h]
  cases lines <;> rw [Cursor.seekFrom, Cursor.seekFrom, hAgain]

/-- What is found in the first input is found, and where nothing is left of it the search goes on
in the second one. -/
theorem seekFrom_followedBy (second : Input) (lines : List (List Char)) : ∀ {c : Cursor},
    c.input.lines = lines → c.finished = false →
    ((c.seekFrom lines).rest ≠ [] ∧ (c.seekFrom lines).finished = false ∧
      (c.followedBy second).seekFrom (lines ++ second.lines) =
        (c.seekFrom lines).followedBy second) ∨
    ((c.seekFrom lines).rest = [] ∧
      ∃ e : Cursor, Below ⟨(c.seekFrom lines).line, (c.seekFrom lines).column⟩
          (Cursor.ofInput second) e ∧
        (c.followedBy second).seekFrom (lines ++ second.lines) = e.seekFrom second.lines) := by
  induction lines with
  | nil =>
    intro c hLines hOpen
    by_cases hRest : c.dropLineBlanks.rest = []
    · refine .inr ?_
      have hEnd : c.seekFrom [] = c.dropLineBlanks.readFrom [] := by
        have hHere : c.dropLineBlanks.finished = false := hOpen
        simp [Cursor.seekFrom, hRest, hHere]
      rw [hEnd]
      refine ⟨hRest, c.dropLineBlanks.followedBy second, ⟨?_, hRest, hOpen, rfl, rfl, fun _ => rfl⟩,
        (seekFrom_dropLineBlanks (c := c.followedBy second) hRest _).symm⟩
      show c.input.lines ++ second.lines = second.lines
      rw [hLines, List.nil_append]
    · refine .inl ?_
      rw [seekFrom_of_found hRest, seekFrom_of_found (c := c.followedBy second) hRest]
      exact ⟨hRest, hOpen, rfl⟩
  | cons text later ih =>
    intro c hLines hOpen
    by_cases hRest : c.dropLineBlanks.rest = []
    · rw [seekFrom_cons_of_blank hRest hOpen, List.cons_append,
        seekFrom_cons_of_blank (c := c.followedBy second) hRest hOpen]
      exact ih (c := c.dropLineBlanks.readFrom (text :: later)) rfl hOpen
    · refine .inl ?_
      rw [seekFrom_of_found hRest, seekFrom_of_found (c := c.followedBy second) hRest]
      exact ⟨hRest, hOpen, rfl⟩

theorem token_followedBy (c : Cursor) (second : Input) :
    (c.followedBy second).token = (c.token.1, c.token.2.followedBy second) := by
  show Cursor.token { c with input := c.input.followedBy second } = _
  unfold Cursor.token
  dsimp only
  split
  · rfl
  · split
    · rfl
    · split
      · dsimp only [Cursor.munch]
        split <;> rfl
      · rfl

theorem finished_token (c : Cursor) : c.token.2.finished = c.finished := by
  unfold Cursor.token
  split
  · rfl
  · split
    · rfl
    · split
      · dsimp only
        split <;> rfl
      · rfl

theorem lexemes_congr {c w : Cursor} (h : c.seek = w.seek) : c.lexemes = w.lexemes := by
  have hNext : c.next = w.next := by
    unfold Cursor.next
    rw [h]
  rw [Cursor.lexemes.eq_1 c, Cursor.lexemes.eq_1 w, hNext]

theorem lexemes_followedBy (second : Input) {c : Cursor} (hOpen : c.finished = false) :
    ∃ front finish, c.lexemes = front ++ [finish] ∧ (c.followedBy second).lexemes =
      front ++ (Cursor.ofInput second).lexemes.map (Lexeme.moved (Location.below finish.location)) := by
  fun_induction Cursor.lexemes c with
  | case1 c hInput ih =>
    rcases seekFrom_followedBy second c.input.lines rfl hOpen with
      ⟨-, hStillOpen, hSeek⟩ | ⟨hRest, -⟩
    · have hSeek : (c.followedBy second).seek = c.seek.followedBy second := hSeek
      have hNext : (c.followedBy second).next = (c.next.1, c.next.2.followedBy second) := by
        unfold Cursor.next
        dsimp only
        rw [hSeek, token_followedBy]
        rfl
      obtain ⟨front, finish, hFront, hWhole⟩ := ih ((finished_token c.seek).trans hStillOpen)
      refine ⟨c.next.1 :: front, finish, congrArg (c.next.1 :: ·) hFront, ?_⟩
      rw [lexemes_of_input (by rw [hNext]; exact hInput), hNext]
      exact congrArg (c.next.1 :: ·) hWhole
    · -- Without a character there is no token.
      have hEnd : c.seek.token.1 = .endOfInput := by
        unfold Cursor.token
        rw [show c.seek.rest = [] from hRest]
      rw [show c.next.1.token = .endOfInput from hEnd] at hInput
      cases hInput
  | case2 c hInput =>
    have hEnd : c.next.1.token = .endOfInput :=
      Token.eq_endOfInput_iff.mpr (Bool.eq_false_iff.mpr hInput)
    refine ⟨[], c.next.1, rfl, ?_⟩
    rcases seekFrom_followedBy second c.input.lines rfl hOpen with ⟨hRest, -⟩ | ⟨-, e, hBelow, hSeek⟩
    · exact absurd (token_of_end (c := c.seek) hEnd).1 hRest
    · have hSeek : (c.followedBy second).seek = e.seek := by
        unfold Cursor.seek
        rw [hBelow.lines_eq]
        exact hSeek
      rw [lexemes_congr hSeek, hBelow.lexemes]
      rfl

end Cursor

/-- The tokens of one input below another. -/
theorem Lexer.lexemes_followedBy (first second : Input) :
    ∃ front finish, (Lexer.ofInput first).lexemes = front ++ [finish] ∧
      (Lexer.ofInput (first.followedBy second)).lexemes =
        front ++ (Lexer.ofInput second).lexemes.map
          (Lexeme.moved (Location.below finish.location)) :=
  Cursor.lexemes_followedBy second (c := Cursor.ofInput first) rfl

end LiveCompiler
