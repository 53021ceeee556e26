import LiveCompiler.Proofs.Grammar.Sight

/-!
# When lines are read

A lexer asks for a line when it has to show a token and the line it has is used up, and for no
other reason.  So the token ahead stands on the line that was read last, and after the read that
found no line there is no other one (`Lexer.OnDemand`).  This holds at every moment, however looking
at tokens and dropping them take turns (`Lexer.Arises`), and the rules of the grammar do nothing
else with a lexer (`Rule.Sees.arises`).
-/

namespace LiveCompiler

/-! ## The cursor -/

namespace Cursor

/-- A cursor has read the lines of an input one after another, and nothing else. -/
structure OnDemand (input : Input) (c : Cursor) : Prop where
  /-- The lines that were delivered were taken off the front. -/
  lines_eq : c.input.lines = input.lines.drop c.line
  line_le : c.line ≤ input.lines.length
  /-- Every read delivered a line, but for the one that found none. -/
  reads_eq : c.reads = c.line + c.finished.toNat
  finished_eq : c.finished = true → c.line = input.lines.length ∧ c.rest = []

variable {input : Input} {c : Cursor}

theorem onDemand_ofInput (input : Input) : OnDemand input (ofInput input) where
  lines_eq := rfl
  line_le := Nat.zero_le _
  reads_eq := rfl
  finished_eq := nofun

/-- Moving on in a line reads nothing. -/
theorem OnDemand.moved (h : OnDemand input c) {rest : List Char} (column : Nat)
    (hRest : c.rest = [] → rest = []) :
    OnDemand input { c with rest := rest, column := column } where
  lines_eq := h.lines_eq
  line_le := h.line_le
  reads_eq := h.reads_eq
  finished_eq hFinished := ⟨(h.finished_eq hFinished).1, hRest (h.finished_eq hFinished).2⟩

theorem OnDemand.dropLineBlanks (h : OnDemand input c) : OnDemand input c.dropLineBlanks := by
  refine h.moved _ fun hRest => ?_
  rw [hRest, dropBlanks]

theorem OnDemand.readFrom_cons (h : OnDemand input c) (hOpen : c.finished = false)
    {text : List Char} {later : List (List Char)} (hLines : c.input.lines = text :: later) :
    OnDemand input (c.readFrom (text :: later)) where
  lines_eq := by
    have hDrop := congrArg List.tail (h.lines_eq.symm.trans hLines)
    rw [List.tail_drop] at hDrop
    exact hDrop.symm
  line_le := by
    have hLength := congrArg List.length (h.lines_eq.symm.trans hLines)
    rw [List.length_drop, List.length_cons] at hLength
    show c.line + 1 ≤ input.lines.length
    omega
  reads_eq := by
    show c.reads + 1 = c.line + 1 + c.finished.toNat
    rw [h.reads_eq, Nat.add_right_comm]
  finished_eq hFinished := absurd (hOpen.symm.trans hFinished) Bool.false_ne_true

theorem OnDemand.readFrom_nil (h : OnDemand input c) (hOpen : c.finished = false)
    (hLines : c.input.lines = []) (hRest : c.rest = []) : OnDemand input (c.readFrom []) where
  lines_eq := h.lines_eq
  line_le := h.line_le
  reads_eq := by
    show c.reads + 1 = c.line + 1
    rw [h.reads_eq, hOpen]
    rfl
  finished_eq _ := by
    have hLength := congrArg List.length (h.lines_eq.symm.trans hLines)
    rw [List.length_drop, List.length_nil] at hLength
    exact ⟨Nat.le_antisymm h.line_le (Nat.le_of_sub_eq_zero hLength), hRest⟩

theorem OnDemand.seekFrom (lines : List (List Char)) : ∀ {c : Cursor}, OnDemand input c →
    c.input.lines = lines →
      OnDemand input (c.seekFrom lines) ∧ c.reads ≤ (c.seekFrom lines).reads := by
  induction lines with
  | nil =>
    intro c h hLines
    rw [Cursor.seekFrom]
    split
    · exact ⟨h.dropLineBlanks, Nat.le_refl _⟩
    · rename_i hGo
      simp only [Bool.or_eq_true, Bool.not_eq_true', not_or, Bool.not_eq_false,
        Bool.not_eq_true, List.isEmpty_iff] at hGo
      exact ⟨h.dropLineBlanks.readFrom_nil hGo.2 hLines hGo.1, Nat.le_succ _⟩
  | cons text later ih =>
    intro c h hLines
    rw [Cursor.seekFrom]
    split
    · exact ⟨h.dropLineBlanks, Nat.le_refl _⟩
    · rename_i hGo
      simp only [Bool.or_eq_true, Bool.not_eq_true', not_or, Bool.not_eq_false,
        Bool.not_eq_true, List.isEmpty_iff] at hGo
      obtain ⟨hThere, hReads⟩ := ih (h.dropLineBlanks.readFrom_cons hGo.2 hLines) rfl
      exact ⟨hThere, Nat.le_of_succ_le hReads⟩

theorem OnDemand.seek (h : OnDemand input c) : OnDemand input c.seek :=
  (h.seekFrom _ rfl).1

/-- A token lies within its line. -/
theorem token_eq (c : Cursor) : ∃ rest column, (c.rest = [] → rest = []) ∧
    c.token.2 = { c with rest := rest, column := column } := by
  unfold token
  split
  · exact ⟨c.rest, c.column, id, rfl⟩
  · rename_i first tail hRest
    have hNot : ∀ {rest : List Char}, c.rest = [] → rest = [] := by simp [hRest]
    split
    · exact ⟨_, _, hNot, rfl⟩
    · split
      · dsimp only
        split <;> exact ⟨_, _, hNot, rfl⟩
      · exact ⟨_, _, hNot, rfl⟩

theorem OnDemand.token (h : OnDemand input c) : OnDemand input c.token.2 := by
  obtain ⟨rest, column, hRest, hToken⟩ := c.token_eq
  rw [hToken]
  exact h.moved column hRest

theorem line_token (c : Cursor) : c.token.2.line = c.line := by
  obtain ⟨rest, column, -, hToken⟩ := c.token_eq
  rw [hToken]

theorem reads_token (c : Cursor) : c.token.2.reads = c.reads := by
  obtain ⟨rest, column, -, hToken⟩ := c.token_eq
  rw [hToken]

theorem OnDemand.next (h : OnDemand input c) : OnDemand input c.next.2 :=
  h.seek.token

theorem OnDemand.reads_le_next (h : OnDemand input c) : c.reads ≤ c.next.2.reads :=
  Nat.le_trans (h.seekFrom _ rfl).2 (Nat.le_of_eq c.seek.reads_token.symm)

/-- The next token stands on the line that was read last, and then there was a line. -/
theorem OnDemand.line_next (h : OnDemand input c) :
    c.next.1.location.line = c.next.2.line ∧
      (c.next.1.token ≠ .endOfInput → c.next.2.finished = false) := by
  refine ⟨c.seek.line_token.symm, fun hToken => Bool.eq_false_iff.mpr fun hFinished => ?_⟩
  rw [show c.next.2.finished = c.seek.finished from c.seek.finished_token] at hFinished
  -- Nothing is left on the line of a cursor that found no other one.
  refine hToken ?_
  show c.seek.token.1 = .endOfInput
  unfold Cursor.token
  rw [(h.seek.finished_eq hFinished).2]

/-- Where no line was found none is asked for. -/
theorem OnDemand.reads_next_of_finished (h : OnDemand input c) (hFinished : c.finished = true) :
    c.next.2.reads = c.reads := by
  refine c.seek.reads_token.trans (congrArg Cursor.reads ?_)
  exact seekFrom_of_finished (h.finished_eq hFinished).2 hFinished _

end Cursor

/-! ## The lexer -/

namespace Lexer

/-- The lexers that an input gives rise to: the token ahead is looked at, or dropped. -/
inductive Arises (input : Input) : Lexer → Prop
  | start : Arises input (ofInput input)
  | looked {l : Lexer} (h : Arises input l) : Arises input l.looked
  | advance {l : Lexer} (h : Arises input l) : Arises input l.advance

/-- A lexer has read the lines of an input up to the one where the token ahead stands. -/
structure OnDemand (input : Input) (l : Lexer) : Prop where
  cursor : l.cursor.OnDemand input
  ahead : ∀ lexeme, l.ahead = some lexeme → lexeme.location.line = l.cursor.line ∧
    (lexeme.token ≠ .endOfInput → l.cursor.finished = false)

variable {input : Input} {l : Lexer}

theorem OnDemand.looked (h : OnDemand input l) : OnDemand input l.looked := by
  unfold Lexer.looked look
  split
  · exact h
  · refine ⟨h.cursor.next, fun lexeme hAhead => ?_⟩
    obtain rfl := Option.some.inj hAhead
    exact h.cursor.line_next

theorem OnDemand.advance (h : OnDemand input l) : OnDemand input l.advance :=
  ⟨h.looked.cursor, nofun⟩

theorem Arises.onDemand (h : Arises input l) : OnDemand input l := by
  induction h with
  | start => exact ⟨Cursor.onDemand_ofInput input, nofun⟩
  | looked _ ih => exact ih.looked
  | advance _ ih => exact ih.advance

theorem OnDemand.reads_le_looked (h : OnDemand input l) : l.reads ≤ l.looked.reads := by
  unfold Lexer.looked look
  split
  · exact Nat.le_refl _
  · exact h.cursor.reads_le_next

theorem ahead_looked (l : Lexer) : l.looked.ahead = some l.look.1 := by
  unfold Lexer.looked look
  split
  · assumption
  · rfl

/-- If a token is ahead there has been one read for each line up to the one of the token, and each of
them delivered a line. -/
theorem OnDemand.reads_eq_line (h : OnDemand input l) {lexeme : Lexeme}
    (hAhead : l.ahead = some lexeme) (hToken : lexeme.token ≠ .endOfInput) :
    l.reads = lexeme.location.line ∧ l.cursor.finished = false ∧
      l.cursor.input.lines = input.lines.drop lexeme.location.line := by
  obtain ⟨hLine, hOpen⟩ := h.ahead lexeme hAhead
  refine ⟨?_, hOpen hToken, hLine ▸ h.cursor.lines_eq⟩
  rw [reads, h.cursor.reads_eq, hOpen hToken, hLine]
  rfl

/-- No line is read before it is needed for the next token. -/
theorem OnDemand.reads_le_line (h : OnDemand input l) (hToken : l.peek ≠ .endOfInput) :
    l.reads ≤ l.look.1.location.line :=
  (h.looked.reads_eq_line l.ahead_looked hToken).1 ▸ h.reads_le_looked

/-- There is one read for each line, and one that finds none. -/
theorem OnDemand.reads_le (h : OnDemand input l) : l.reads ≤ input.lines.length + 1 := by
  have hBool := l.cursor.finished.toNat_le
  have hLine := h.cursor.line_le
  rw [reads, h.cursor.reads_eq]
  omega

/-- After the read that found no line there is no other one. -/
theorem OnDemand.reads_of_finished (h : OnDemand input l) (hFinished : l.cursor.finished = true) :
    l.reads = input.lines.length + 1 ∧ l.looked.reads = l.reads ∧ l.advance.reads = l.reads := by
  have hLooked : l.looked.reads = l.reads := by
    unfold Lexer.looked look
    split
    · rfl
    · exact h.cursor.reads_next_of_finished hFinished
  refine ⟨?_, hLooked, hLooked⟩
  rw [reads, h.cursor.reads_eq, hFinished, (h.cursor.finished_eq hFinished).1]
  rfl

theorem matching_arises (table : OperatorTable) (input : Input) :
    Matching table id fun l w => w = l ∧ Arises input l where
  look := by
    rintro _ w ⟨rfl, -⟩
    rfl
  looked := by
    rintro _ w ⟨rfl, h⟩
    exact ⟨rfl, h.looked⟩
  advance := by
    rintro _ w ⟨rfl, h⟩ _
    exact ⟨rfl, h.advance⟩

end Lexer

/-- A rule looks at tokens and drops them, and does nothing else with its input. -/
theorem Rule.Sees.arises {α : Type} {table : OperatorTable} {rule : Rule α}
    (h : Sees table (fun _ => True) rule) {input : Input} {l : Lexer}
    (hArises : Lexer.Arises input l) : Lexer.Arises input (rule.run l).2 :=
  (h id _ (Lexer.matching_arises table input) l l ⟨rfl, hArises⟩ trivial).2.2

end LiveCompiler
