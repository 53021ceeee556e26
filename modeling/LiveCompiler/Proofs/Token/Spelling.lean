import LiveCompiler.Grammar.Progress

/-!
# The tokens that a text spells

`Spells text tokens` says what a lexer makes of the rest of its line, wherever that line stands.
A text is built from the back: in front of a text that spells some tokens comes a blank, a word, a
number or a single character.  A word or a number must not run on into what follows it, so the text
behind it has to start at a boundary.
-/

namespace LiveCompiler

/-! ## Classes of characters -/

/-- A character that stands for itself: no blank, and it starts no comment, word or number. -/
structure Punctuation (c : Char) : Prop where
  no_blank : isBlank c = false
  no_comment : c ≠ '#'
  no_alpha : c.isAlpha = false
  no_numeral : isNumeral c = false

/-- A text that goes on neither with a word nor with a number. -/
def Boundary (text : List Char) : Prop :=
  ∀ c ∈ text.head?, c.isAlphanum = false ∧ isNumeral c = false

theorem toNat_of_isAlpha {c : Char} (h : c.isAlpha = true) :
    65 ≤ c.toNat ∧ c.toNat ≤ 90 ∨ 97 ≤ c.toNat ∧ c.toNat ≤ 122 := by
  delta Char.isAlpha Char.isUpper Char.isLower at h
  simp only [Bool.or_eq_true, Bool.and_eq_true, decide_eq_true_eq, ge_iff_le,
    UInt32.le_iff_toNat_le] at h
  exact h

theorem toNat_of_isNumeral {c : Char} (h : isNumeral c = true) :
    48 ≤ c.toNat ∧ c.toNat ≤ 57 ∨ c.toNat = 46 := by
  simp only [isNumeral, Char.isDigit, Bool.or_eq_true, Bool.and_eq_true, decide_eq_true_eq,
    ge_iff_le, UInt32.le_iff_toNat_le, beq_iff_eq] at h
  exact h.imp id fun hPoint => by rw [hPoint]; rfl

theorem isAlpha_of_isNumeral {c : Char} (h : isNumeral c = true) : c.isAlpha = false := by
  refine Bool.eq_false_iff.mpr fun hAlpha => ?_
  have hLetter := toNat_of_isAlpha hAlpha
  have hNumeral := toNat_of_isNumeral h
  omega

/-- Words and numbers start with neither a blank nor the sign of a comment. -/
theorem isBlank_of_visible {c : Char} (h : c.isAlpha = true ∨ isNumeral c = true) :
    isBlank c = false ∧ c ≠ '#' := by
  have hRange := h.imp toNat_of_isAlpha toNat_of_isNumeral
  constructor
  · simp only [isBlank, blankRanges, List.any_cons, List.any_nil, Bool.or_false,
      Bool.or_eq_false_iff, decide_eq_false_iff_not]
    omega
  · rintro rfl
    revert hRange
    decide

theorem Punctuation.boundary {c : Char} (h : Punctuation c) (text : List Char) :
    Boundary (c :: text) := by
  intro d hMem
  obtain rfl : c = d := Option.some.inj hMem
  have hDigit : c.isDigit = false := (Bool.or_eq_false_iff.mp h.no_numeral).1
  exact ⟨by rw [Char.isAlphanum, h.no_alpha, hDigit]; rfl, h.no_numeral⟩

theorem boundary_space (text : List Char) : Boundary (' ' :: text) := by
  intro d hMem
  obtain rfl : ' ' = d := Option.some.inj hMem
  decide

/-- A run of characters of one class ends where none of them follows. -/
theorem takeWhile_append_boundary {p : Char → Bool} {run text : List Char}
    (hRun : ∀ c ∈ run, p c = true) (hText : ∀ c ∈ text.head?, p c = false) :
    (run ++ text).takeWhile p = run ∧ (run ++ text).dropWhile p = text := by
  rw [List.takeWhile_append_of_pos hRun, List.dropWhile_append_of_pos hRun]
  cases text with
  | nil => simp
  | cons c text =>
    have hFirst : p c = false := hText c rfl
    simp [hFirst]

namespace Binary64

/-- What a literal is made of. -/
theorem numeral_of_ofLiteral? {text : List Char} {x : Float} (h : ofLiteral? text = some x) :
    text ≠ [] ∧ ∀ c ∈ text, isNumeral c = true := by
  have hDigit : ∀ {c : Char}, c.isDigit = true → isNumeral c = true := fun hDigit => by
    rw [isNumeral, hDigit, Bool.true_or]
  have hWhole : ∀ c ∈ text.takeWhile Char.isDigit, isNumeral c = true := fun c hMem =>
    hDigit (List.all_eq_true.mp List.all_takeWhile c hMem)
  have hParts := List.takeWhile_append_dropWhile (p := Char.isDigit) (l := text)
  unfold ofLiteral? at h
  dsimp only at h
  split at h
  · rename_i hTail
    rw [hTail, List.append_nil] at hParts
    rw [hParts] at h hWhole
    refine ⟨?_, hWhole⟩
    rintro rfl
    cases h
  · rename_i fraction hTail
    rw [hTail] at hParts
    split at h
    · rename_i hOk
      have hFraction := List.all_eq_true.mp (Bool.and_eq_true_iff.mp hOk).1
      rw [← hParts]
      refine ⟨by simp, fun c hMem => ?_⟩
      rcases List.mem_append.mp hMem with hMem | hMem
      · exact hWhole c hMem
      · rcases List.mem_cons.mp hMem with rfl | hMem
        · rfl
        · exact hDigit (hFraction c hMem)
    · cases h
  · cases h

end Binary64

/-! ## What a lexer shows next -/

/-- A lexer shows these tokens, one after another. -/
def Lexer.Shows : Lexer → List Token → Prop
  | _, [] => True
  | lexer, token :: tokens => lexer.peek = token ∧ lexer.advance.Shows tokens

theorem Lexer.Shows.looked {lexer : Lexer} {tokens : List Token} (h : lexer.Shows tokens) :
    lexer.looked.Shows tokens := by
  cases tokens with
  | nil => trivial
  | cons token tokens => exact ⟨lexer.peek_looked.trans h.1, by rw [advance_looked]; exact h.2⟩

/-- A lexer whose line goes on with this text shows these tokens. -/
def Spells (text : List Char) (tokens : List Token) : Prop :=
  ∀ cursor : Cursor, cursor.rest = text → Lexer.Shows { cursor := cursor, ahead := none } tokens

variable {c : Char} {text : List Char} {tokens : List Token} {token : Token}

theorem spells_nil (text : List Char) : Spells text [] :=
  fun _ _ => trivial

/-- At a character that is neither blank nor the start of a comment nothing is skipped. -/
theorem Cursor.seek_of_visible {cursor : Cursor} (hRest : cursor.rest = c :: text)
    (hBlank : isBlank c = false) (hComment : c ≠ '#') : cursor.seek = cursor := by
  have hHere : cursor.dropLineBlanks = cursor := by
    unfold Cursor.dropLineBlanks
    rw [hRest, dropBlanks, if_neg (by simp [hBlank]), if_neg hComment]
    dsimp only
    rw [← hRest]
  unfold Cursor.seek
  cases hLines : cursor.input.lines <;> simp [Cursor.seekFrom, hHere, hRest]

/-- The token at the cursor, and then what the rest of the line spells. -/
theorem spells_cons (run : List Char) (hFirst : isBlank c = false ∧ c ≠ '#')
    (hToken : ∀ cursor : Cursor, cursor.rest = c :: run ++ text →
      cursor.token.1 = token ∧ cursor.token.2.rest = text)
    (hText : Spells text tokens) : Spells (c :: run ++ text) (token :: tokens) := by
  intro cursor hRest
  obtain ⟨hShown, hLeft⟩ := hToken cursor hRest
  have hSeek : cursor.seek = cursor := Cursor.seek_of_visible hRest hFirst.1 hFirst.2
  have hNext : cursor.next.1.token = token ∧ cursor.next.2 = cursor.token.2 := by
    unfold Cursor.next
    rw [hSeek]
    exact ⟨hShown, rfl⟩
  refine ⟨hNext.1, ?_⟩
  show Lexer.Shows { cursor := cursor.next.2, ahead := none } tokens
  rw [hNext.2]
  exact hText _ hLeft

/-- Blanks in front of a text make no difference. -/
theorem Spells.blank (h : Spells text tokens) (hBlank : isBlank c = true) :
    Spells (c :: text) tokens := by
  intro cursor hRest
  cases tokens with
  | nil => trivial
  | cons token tokens =>
    -- A cursor behind the blank finds the same.
    obtain ⟨behind, hBehind, hSame⟩ : ∃ behind : Cursor, behind.rest = text ∧
        cursor.seek = behind.seek := by
      refine ⟨{ cursor with rest := text, column := cursor.column + 1 }, rfl, ?_⟩
      have hHere : cursor.dropLineBlanks =
          Cursor.dropLineBlanks { cursor with rest := text, column := cursor.column + 1 } := by
        unfold Cursor.dropLineBlanks
        rw [hRest, dropBlanks, if_pos hBlank]
      unfold Cursor.seek
      cases hLines : cursor.input.lines <;> simp only [Cursor.seekFrom, hHere]
    have hNext : cursor.next = behind.next := by
      unfold Cursor.next
      rw [hSame]
    obtain ⟨hPeek, hAdvance⟩ := h behind hBehind
    refine ⟨?_, ?_⟩
    · show cursor.next.1.token = token
      rw [hNext]
      exact hPeek
    · show Lexer.Shows { cursor := cursor.next.2, ahead := none } tokens
      rw [hNext]
      exact hAdvance

theorem Spells.space (h : Spells text tokens) : Spells (' ' :: text) tokens :=
  h.blank (by decide)

/-- A character that stands for itself. -/
theorem Spells.char (h : Spells text tokens) (hChar : Punctuation c) :
    Spells (c :: text) (.char c :: tokens) := by
  refine spells_cons [] ⟨hChar.no_blank, hChar.no_comment⟩ (fun cursor hRest => ?_) h
  have hToken : cursor.token = (.char c, cursor.dropChar) := by
    unfold Cursor.token
    rw [hRest]
    simp [hChar.no_alpha, hChar.no_numeral]
  rw [hToken]
  refine ⟨rfl, ?_⟩
  rw [Cursor.dropChar, hRest]
  rfl

/-- A letter, and letters and digits behind it. -/
def IsWord (word : List Char) : Prop :=
  (∃ c ∈ word.head?, c.isAlpha = true) ∧ ∀ c ∈ word, c.isAlphanum = true

instance (word : List Char) : Decidable (IsWord word) :=
  decidable_of_iff (word.head?.any Char.isAlpha = true ∧ word.all Char.isAlphanum = true)
    (by simp [IsWord, Option.any_eq_true, List.all_eq_true])

/-- A word, where none goes on. -/
theorem Spells.word (h : Spells text tokens) {word : List Char} (hWord : IsWord word)
    (hText : Boundary text) : Spells (word ++ text) (Token.ofWord word :: tokens) := by
  obtain ⟨⟨c, hFirst, hAlpha⟩, hAll⟩ := hWord
  obtain ⟨run, rfl⟩ : ∃ run, word = c :: run := List.head?_eq_some_iff.mp hFirst
  refine spells_cons run (isBlank_of_visible (.inl hAlpha)) (fun cursor hRest => ?_) h
  obtain ⟨hTake, hDrop⟩ := takeWhile_append_boundary hAll fun d hd => (hText d hd).1
  have hToken : cursor.token =
      (Token.ofWord (cursor.munch Char.isAlphanum).1, (cursor.munch Char.isAlphanum).2) := by
    unfold Cursor.token
    rw [hRest]
    simp [hAlpha]
  rw [hToken]
  unfold Cursor.munch
  rw [hRest, hTake, hDrop]
  exact ⟨rfl, rfl⟩

/-- A number, where none goes on. -/
theorem Spells.literal (h : Spells text tokens) {digits : List Char} {x : Float}
    (hLiteral : Binary64.ofLiteral? digits = some x) (hText : Boundary text) :
    Spells (digits ++ text) (.number x :: tokens) := by
  obtain ⟨hSome, hAll⟩ := Binary64.numeral_of_ofLiteral? hLiteral
  obtain ⟨c, run, rfl⟩ := List.exists_cons_of_ne_nil hSome
  have hNumeral : isNumeral c = true := hAll c List.mem_cons_self
  refine spells_cons run (isBlank_of_visible (.inr hNumeral)) (fun cursor hRest => ?_) h
  obtain ⟨hTake, hDrop⟩ := takeWhile_append_boundary hAll fun d hd => (hText d hd).2
  have hMunch : cursor.munch isNumeral =
      (c :: run, (cursor.munch isNumeral).2) := by
    unfold Cursor.munch
    rw [hRest, hTake]
  have hToken : cursor.token = (.number x, (cursor.munch isNumeral).2) := by
    unfold Cursor.token
    rw [hRest]
    simp only [List.cons_append, isAlpha_of_isNumeral hNumeral, hNumeral, if_true]
    rw [hMunch]
    simp [hLiteral]
  rw [hToken]
  refine ⟨rfl, ?_⟩
  unfold Cursor.munch
  rw [hRest]
  exact hDrop

/-! ## A line of an input -/

/-- A lexer at the start of an input shows what its first line spells. -/
theorem Spells.shows_ofInput {line : List Char} (h : Spells (terminated line) tokens)
    (later : List (List Char)) (failure : Option String) :
    (Lexer.ofInput { lines := line :: later, failure := failure }).Shows tokens := by
  cases tokens with
  | nil => trivial
  | cons token tokens =>
    let start := Cursor.ofInput { lines := line :: later, failure := failure }
    have hSeek : start.seek = (start.readFrom (line :: later)).seek := rfl
    have hNext : start.next = (start.readFrom (line :: later)).next := by
      unfold Cursor.next
      rw [hSeek]
    obtain ⟨hPeek, hAdvance⟩ := h (start.readFrom (line :: later)) rfl
    refine ⟨?_, ?_⟩
    · show start.next.1.token = token
      rw [hNext]
      exact hPeek
    · show Lexer.Shows { cursor := start.next.2, ahead := none } tokens
      rw [hNext]
      exact hAdvance

end LiveCompiler
