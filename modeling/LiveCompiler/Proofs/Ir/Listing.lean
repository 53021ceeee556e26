import LiveCompiler.Ir.Listing
import LiveCompiler.Proofs.Binary64.ConstantText

/-!
# A body is told by its listing

Texts are written one behind the other, so it is not enough that no two things have the same text:
where the text of a thing ends must be told by what follows it.  `Tells text stop` says both, for
whatever follows as `stop` says.  Registers, slots and labels end where their digits end, lists of
registers at a bracket, instructions and terminators with their line.  A list of things is told as a
thing is, if what comes behind it is not the beginning of one more (`Tells.join`).

The keyword of an instruction tells its form, and no instruction begins like a terminator.  So the
listing tells everything that is in it, whatever labels the blocks stand under
(`Ir.listing_eq_iff`).  The entry and the number of registers are not in it.
-/

namespace LiveCompiler

namespace Ir

open Binary64

/-! ## Texts and what follows them -/

/-- What a text is the text of, and where it ends, is told by it and what follows, if this is as
`stop` says. -/
structure Tells {α : Type} (text : α → String) (stop : List Char → Prop) : Prop where
  told : ∀ {a b s t}, stop s → stop t → (text a).toList ++ s = (text b).toList ++ t → a = b ∧ s = t

/-- What follows does not go on with characters of a kind. -/
def Ends (p : Char → Bool) (s : List Char) : Prop :=
  ∀ c ∈ s.head?, p c = false

theorem ends_of_head? {p : Char → Bool} {c : Char} {s : List Char} (hHead : s.head? = some c)
    (hNot : p c = false) : Ends p s := by
  intro d hd
  rw [hHead] at hd
  obtain rfl := Option.some.inj hd
  exact hNot

theorem Ends.mono {p q : Char → Bool} {s : List Char} (hEnds : Ends p s)
    (hSub : ∀ c, p c = false → q c = false) : Ends q s :=
  fun c hc => hSub c (hEnds c hc)

/-- Texts that begin differently are different. -/
theorem ne_of_head? {c d : Char} {s t : List Char} (hLeft : s.head? = some c)
    (hRight : t.head? = some d) (hNe : c ≠ d) : s ≠ t := by
  rintro rfl
  exact hNe (Option.some.inj (hLeft.symm.trans hRight))

/-- A text begins as its first part does. -/
theorem head?_behind {c : Char} {before : String} (hBefore : before.toList.head? = some c)
    (after : String) (s : List Char) : ((before ++ after).toList ++ s).head? = some c := by
  rw [String.toList_append, List.append_assoc, List.head?_append, hBefore]
  rfl

/-- A run of characters of a kind is told from what follows it. -/
theorem eq_of_run {p : Char → Bool} {run other s t : List Char} (hRun : ∀ c ∈ run, p c = true)
    (hOther : ∀ c ∈ other, p c = true) (hs : Ends p s) (ht : Ends p t)
    (h : run ++ s = other ++ t) : run = other ∧ s = t := by
  have hTake : ∀ {run s : List Char}, (∀ c ∈ run, p c = true) → Ends p s →
      (run ++ s).takeWhile p = run := by
    intro run s hRun hs
    rw [List.takeWhile_append_of_pos hRun]
    cases s with
    | nil => exact List.append_nil run
    | cons c s => rw [List.takeWhile_cons_of_neg (by simp [hs c rfl]), List.append_nil]
  obtain rfl : run = other := by rw [← hTake hRun hs, h, hTake hOther ht]
  exact ⟨rfl, List.append_cancel_left h⟩

namespace Tells

variable {α : Type} {text : α → String} {stop : List Char → Prop}

/-- The same text before all of a family does not matter. -/
theorem behind (before : String) (hText : Tells text stop) :
    Tells (fun a => before ++ text a) stop where
  told := by
    intro a b s t hs ht h
    rw [String.toList_append, String.toList_append, List.append_assoc, List.append_assoc] at h
    exact hText.told hs ht (List.append_cancel_left h)

/-- Lists of things are told if things are, whatever stands between a thing and the next one. -/
theorem join {stopAll : List Char → Prop} (hText : Tells text stop)
    (hLast : ∀ s, stopAll s → stop s) (hNext : ∀ a s, stop ((text a).toList ++ s))
    (hApart : ∀ a s, ¬ stopAll ((text a).toList ++ s)) :
    Tells (fun as : List α => String.join (as.map text)) stopAll where
  told := by
    have hCons : ∀ a as s, (String.join (List.map text (a :: as))).toList ++ s =
        (text a).toList ++ ((String.join (List.map text as)).toList ++ s) := by
      intro a as s
      rw [List.map_cons, String.join_cons, String.toList_append, List.append_assoc]
    -- What follows the first thing is the next one or what follows all.
    have hStop : ∀ as s, stopAll s → stop ((String.join (List.map text as)).toList ++ s) := by
      intro as s hs
      cases as with
      | nil => exact hLast s hs
      | cons a as =>
        rw [hCons]
        exact hNext a _
    intro as
    induction as with
    | nil =>
      intro bs s t hs ht h
      cases bs with
      | nil => exact ⟨rfl, h⟩
      | cons b bs =>
        obtain rfl : s = _ := h.trans (hCons b bs t)
        exact absurd hs (hApart b _)
    | cons a as ih =>
      intro bs s t hs ht h
      cases bs with
      | nil =>
        obtain rfl : t = _ := h.symm.trans (hCons a as s)
        exact absurd ht (hApart a _)
      | cons b bs =>
        rw [hCons, hCons] at h
        obtain ⟨rfl, hRest⟩ := hText.told (hStop as s hs) (hStop bs t ht) h
        obtain ⟨rfl, hEnd⟩ := ih hs ht hRest
        exact ⟨rfl, hEnd⟩

end Tells

/-! ## Numbers and names -/

theorem tells_number : Tells (fun n : Nat => toString n) (Ends Char.isDigit) where
  told := by
    intro m n s t hs ht h
    simp only [toList_toString] at h
    obtain ⟨hDigits, hEnd⟩ := eq_of_run (allDigits_toDigits m) (allDigits_toDigits n) hs ht h
    refine ⟨?_, hEnd⟩
    rw [← digitsValue_toDigits m, hDigits, digitsValue_toDigits]

theorem tells_reg : Tells regText (Ends Char.isDigit) :=
  tells_number.behind "r"

theorem tells_slot : Tells slotText (Ends Char.isDigit) :=
  tells_number.behind "s"

theorem tells_label : Tells labelText (Ends Char.isDigit) :=
  tells_number.behind "block"

theorem tells_funcId : Tells FuncId.text (Ends Char.isDigit) :=
  tells_number.behind "fn"

/-! ## Lists of registers -/

/-- What stands behind the first register of a list. -/
def laterRegs (regs : List Reg) : String :=
  String.join (regs.map fun r => ", " ++ regText r)

theorem regsText_cons (r : Reg) (regs : List Reg) :
    regsText (r :: regs) = regText r ++ laterRegs regs := by
  unfold regsText laterRegs
  induction regs generalizing r with
  | nil => simp
  | cons next regs ih =>
    rw [List.map_cons, List.map_cons, String.intercalate_cons_cons, ← List.map_cons, ih next,
      List.map_cons, String.join_cons]
    simp only [String.append_assoc]

/-- The bracket that closes a list comes next. -/
abbrev Closes (s : List Char) : Prop :=
  s.head? = some ')'

theorem tells_laterRegs : Tells laterRegs Closes := by
  have hComma : ∀ r s, ((", " ++ regText r).toList ++ s).head? = some ',' :=
    fun r s => head?_behind rfl (regText r) s
  refine (tells_reg.behind ", ").join (fun s hs => ends_of_head? hs rfl)
    (fun r s => ends_of_head? (hComma r s) rfl) fun r s hCloses => ?_
  exact absurd rfl (ne_of_head? hCloses (hComma r s) (by decide))

theorem tells_regs : Tells regsText Closes where
  told := by
    have hFirst : ∀ r regs s, ((regsText (r :: regs)).toList ++ s).head? = some 'r' := by
      intro r regs s
      rw [regsText_cons, regText, String.append_assoc]
      exact head?_behind rfl _ s
    have hLater : ∀ regs s, Closes s → Ends Char.isDigit ((laterRegs regs).toList ++ s) := by
      intro regs s hs
      cases regs with
      | nil => exact ends_of_head? hs rfl
      | cons r regs =>
        rw [laterRegs, List.map_cons, String.join_cons, String.append_assoc]
        exact ends_of_head? (head?_behind rfl _ s) rfl
    intro as bs s t hs ht h
    cases as with
    | nil =>
      cases bs with
      | nil => exact ⟨rfl, h⟩
      | cons b bs => exact absurd h (ne_of_head? hs (hFirst b bs t) (by decide))
    | cons a as =>
      cases bs with
      | nil => exact absurd h (ne_of_head? (hFirst a as s) ht (by decide))
      | cons b bs =>
        simp only [regsText_cons, String.toList_append, List.append_assoc] at h
        obtain ⟨rfl, hRest⟩ := tells_reg.told (hLater as s hs) (hLater bs t ht) h
        obtain ⟨rfl, hEnd⟩ := tells_laterRegs.told hs ht hRest
        exact ⟨rfl, hEnd⟩

theorem toList_bracketedRegs (r : Reg) (regs : List Reg) :
    (bracketedRegs (r :: regs)).toList = '(' :: ((regsText (r :: regs)).toList ++ [')']) := by
  show ("(" ++ regsText (r :: regs) ++ ")").toList = _
  rw [String.toList_append, String.toList_append]
  rfl

/-- A list in brackets is told from no list at all by its bracket. -/
theorem tells_bracketedRegs : Tells bracketedRegs (Ends (· == '(')) where
  told := by
    have hOpens : ∀ r regs s, ¬ Ends (· == '(') ((bracketedRegs (r :: regs)).toList ++ s) := by
      intro r regs s hEnds
      rw [toList_bracketedRegs] at hEnds
      exact absurd (hEnds '(' rfl) (by decide)
    intro as bs s t hs ht h
    cases as with
    | nil =>
      cases bs with
      | nil => exact ⟨rfl, h⟩
      | cons b bs =>
        obtain rfl : s = _ := h
        exact absurd hs (hOpens b bs t)
    | cons a as =>
      cases bs with
      | nil =>
        obtain rfl : _ = t := h
        exact absurd ht (hOpens a as s)
      | cons b bs =>
        rw [toList_bracketedRegs, toList_bracketedRegs, List.cons_append, List.cons_append,
          List.append_assoc, List.append_assoc] at h
        obtain ⟨hRegs, hEnd⟩ := tells_regs.told rfl rfl (List.cons.inj h).2
        exact ⟨hRegs, (List.cons.inj hEnd).2⟩

/-- The characters with which the text of a label and of a list in brackets goes on. -/
def goesOn (c : Char) : Bool :=
  c.isDigit || c == '('

theorem Ends.noDigit {s : List Char} (h : Ends goesOn s) : Ends Char.isDigit s :=
  h.mono fun _ hc => (Bool.or_eq_false_iff.mp hc).1

theorem Ends.noBracket {s : List Char} (h : Ends goesOn s) : Ends (· == '(') s :=
  h.mono fun _ hc => (Bool.or_eq_false_iff.mp hc).2

/-- An edge is a label with registers in brackets, and so is the head of a block. -/
theorem tells_edge : Tells Edge.text (Ends goesOn) where
  told := by
    have hBracket : ∀ regs s, Ends goesOn s →
        Ends Char.isDigit ((bracketedRegs regs).toList ++ s) := by
      intro regs s hs
      cases regs with
      | nil => exact hs.noDigit
      | cons r regs =>
        rw [toList_bracketedRegs]
        exact @ends_of_head? _ '(' _ rfl rfl
    rintro ⟨l, as⟩ ⟨m, bs⟩ s t hs ht h
    simp only [Edge.text, String.toList_append, List.append_assoc] at h
    obtain ⟨rfl, hRest⟩ := tells_label.told (hBracket as s hs) (hBracket bs t ht) h
    obtain ⟨rfl, hEnd⟩ := tells_bracketedRegs.told hs.noBracket ht.noBracket hRest
    exact ⟨rfl, hEnd⟩

/-! ## Instructions -/

/-- The line ends here. -/
abbrev LineEnds (s : List Char) : Prop :=
  s.head? = some '\n'

theorem LineEnds.noDigit {s : List Char} (h : LineEnds s) : Ends Char.isDigit s :=
  ends_of_head? h rfl

theorem LineEnds.goesOn {s : List Char} (h : LineEnds s) : Ends goesOn s :=
  ends_of_head? h rfl

/-- The forms of instructions. -/
inductive Keyword where
  | const
  | param
  | load
  | store
  | arith (op : ArithOp)
  | less
  | call

/-- How a form is written. -/
def Keyword.text : Keyword → String
  | const => "const"
  | param => "param"
  | load => "load"
  | store => "store"
  | arith op => op.mnemonic
  | less => lessThanMnemonic
  | call => "call"

theorem Keyword.text_injective : Function.Injective Keyword.text := by
  rintro (_ | _ | _ | _ | (_ | _ | _) | _ | _) (_ | _ | _ | _ | (_ | _ | _) | _ | _) h <;>
    first | rfl | exact absurd h (by decide)

theorem Keyword.space_notMem (k : Keyword) : ∀ c ∈ k.text.toList, (c != ' ') = true := by
  have hAll : k.text.toList.all (· != ' ') = true := by
    rcases k with _ | _ | _ | _ | (_ | _ | _) | _ | _ <;> decide
  exact List.all_eq_true.mp hAll

namespace Instr

/-- The form of an instruction. -/
def keyword : Instr → Keyword
  | const _ _ => .const
  | param _ _ => .param
  | load _ _ => .load
  | store _ _ => .store
  | arith op _ _ _ => .arith op
  | less _ _ _ => .less
  | call _ _ _ => .call

/-- What stands before the keyword of an instruction. -/
def targetText (i : Instr) : String :=
  match i.dst with
  | none => ""
  | some dst => regText dst ++ " = "

/-- What stands behind the keyword of an instruction. -/
def operandText : Instr → String
  | const _ value => constantText value
  | param _ index => toString index.toNat
  | load _ slot => slotText slot
  | store slot src => slotText slot ++ ", " ++ regText src
  | arith _ _ left right => regText left ++ ", " ++ regText right
  | less _ left right => regText left ++ ", " ++ regText right
  | call _ callee args => FuncId.text callee ++ "(" ++ regsText args ++ ")"

theorem text_eq (i : Instr) :
    i.text = i.targetText ++ i.keyword.text ++ " " ++ i.operandText := by
  cases i <;>
    simp only [text, targetText, dst, keyword, Keyword.text, operandText, String.append_assoc] <;>
    rfl

end Instr

/-- Two operands with a comma between them. -/
theorem told_operands {α : Type} {text : α → String} (hText : Tells text (Ends Char.isDigit))
    {a b : α} {q r : Reg} {s t : List Char} (hs : LineEnds s) (ht : LineEnds t)
    (h : (text a ++ ", " ++ regText q).toList ++ s = (text b ++ ", " ++ regText r).toList ++ t) :
    a = b ∧ q = r ∧ s = t := by
  have hComma : ∀ s, Ends Char.isDigit (", ".toList ++ s) :=
    fun s => @ends_of_head? _ ',' _ rfl rfl
  simp only [String.toList_append, List.append_assoc] at h
  obtain ⟨rfl, hRest⟩ := hText.told (hComma _) (hComma _) h
  obtain ⟨rfl, hEnd⟩ := tells_reg.told hs.noDigit ht.noDigit (List.append_cancel_left hRest)
  exact ⟨rfl, rfl, hEnd⟩

theorem tells_constant : Tells constantText LineEnds where
  told := by
    have hLine : ∀ x, ∀ c ∈ (constantText x).toList, (c != '\n') = true := by
      intro x c hc
      rw [bne_iff_ne]
      rintro rfl
      exact newline_notMem_constantText x hc
    intro x y s t hs ht h
    obtain ⟨hText, hEnd⟩ :=
      eq_of_run (hLine x) (hLine y) (ends_of_head? hs rfl) (ends_of_head? ht rfl) h
    exact ⟨signed_magnitude_injective .constant (String.toList_inj.mp hText), hEnd⟩

/-- A callee and its arguments, which are in brackets even if there are none. -/
theorem told_callee {f g : FuncId} {as bs : List Reg} {s t : List Char}
    (h : (FuncId.text f ++ "(" ++ regsText as ++ ")").toList ++ s =
      (FuncId.text g ++ "(" ++ regsText bs ++ ")").toList ++ t) : f = g ∧ as = bs ∧ s = t := by
  have hBracket : ∀ s, Ends Char.isDigit ("(".toList ++ s) :=
    fun s => @ends_of_head? _ '(' _ rfl rfl
  simp only [String.toList_append, List.append_assoc] at h
  obtain ⟨rfl, hRest⟩ := tells_funcId.told (hBracket _) (hBracket _) h
  obtain ⟨rfl, hEnd⟩ := tells_regs.told rfl rfl (List.append_cancel_left hRest)
  exact ⟨rfl, rfl, List.append_cancel_left hEnd⟩

/-- The keyword is told by the blank behind it. -/
theorem told_keyword {k l : Keyword} {s t : List Char}
    (h : k.text.toList ++ (" ".toList ++ s) = l.text.toList ++ (" ".toList ++ t)) :
    k = l ∧ s = t := by
  have hSpace : ∀ s, Ends (· != ' ') (" ".toList ++ s) :=
    fun s => @ends_of_head? _ ' ' _ rfl rfl
  obtain ⟨hText, hRest⟩ := eq_of_run k.space_notMem l.space_notMem (hSpace _) (hSpace _) h
  exact ⟨Keyword.text_injective (String.toList_inj.mp hText), List.append_cancel_left hRest⟩

theorem Instr.eq_store {i : Instr} (h : i.dst = none) : ∃ slot src, i = .store slot src := by
  cases i with
  | store slot src => exact ⟨slot, src, rfl⟩
  | _ => exact absurd h (Option.some_ne_none _)

theorem Instr.head?_of_dst {i : Instr} {r : Reg} (h : i.dst = some r) (s : List Char) :
    (i.text.toList ++ s).head? = some 'r' := by
  rw [text_eq, targetText, h]
  simp only [regText, String.append_assoc]
  exact head?_behind rfl _ s

theorem Instr.head?_of_no_dst {i : Instr} (h : i.dst = none) (s : List Char) :
    (i.text.toList ++ s).head? = some 's' := by
  obtain ⟨slot, src, rfl⟩ := eq_store h
  simp only [text, String.append_assoc]
  exact head?_behind rfl _ s

/-- What an instruction writes and its keyword are told before its operands. -/
theorem told_form {i j : Instr} {s t : List Char} (h : i.text.toList ++ s = j.text.toList ++ t) :
    i.dst = j.dst ∧ i.keyword = j.keyword ∧
      i.operandText.toList ++ s = j.operandText.toList ++ t := by
  have hEquals : ∀ s, Ends Char.isDigit (" = ".toList ++ s) :=
    fun s => @ends_of_head? _ ' ' _ rfl rfl
  -- Only instructions that write a register begin with it.
  cases hi : i.dst with
  | none =>
    cases hj : j.dst with
    | none =>
      simp only [Instr.text_eq, Instr.targetText, hi, hj, String.toList_append,
        List.append_assoc] at h
      exact ⟨rfl, told_keyword h⟩
    | some r =>
      exact absurd h
        (ne_of_head? (Instr.head?_of_no_dst hi s) (Instr.head?_of_dst hj t) (by decide))
  | some q =>
    cases hj : j.dst with
    | none =>
      exact absurd h
        (ne_of_head? (Instr.head?_of_dst hi s) (Instr.head?_of_no_dst hj t) (by decide))
    | some r =>
      simp only [Instr.text_eq, Instr.targetText, hi, hj, String.toList_append,
        List.append_assoc] at h
      obtain ⟨rfl, hRest⟩ := tells_reg.told (hEquals _) (hEquals _) h
      exact ⟨rfl, told_keyword (List.append_cancel_left hRest)⟩

theorem tells_instr : Tells Instr.text LineEnds where
  told := by
    intro i j s t hs ht h
    obtain ⟨hDst, hForm, hOperands⟩ := told_form h
    -- The forms are the same, so these cases are those of one instruction.
    cases i <;> cases j <;> try (cases hForm; done)
    case const.const d x e y =>
      obtain rfl := Option.some.inj hDst
      obtain ⟨rfl, hEnd⟩ := tells_constant.told hs ht hOperands
      exact ⟨rfl, hEnd⟩
    case param.param d m e n =>
      obtain rfl := Option.some.inj hDst
      obtain ⟨hIndex, hEnd⟩ := tells_number.told hs.noDigit ht.noDigit hOperands
      obtain rfl := UInt16.toNat_inj.mp hIndex
      exact ⟨rfl, hEnd⟩
    case load.load d m e n =>
      obtain rfl := Option.some.inj hDst
      obtain ⟨rfl, hEnd⟩ := tells_slot.told hs.noDigit ht.noDigit hOperands
      exact ⟨rfl, hEnd⟩
    case store.store m x n y =>
      obtain ⟨rfl, rfl, hEnd⟩ := told_operands tells_slot hs ht hOperands
      exact ⟨rfl, hEnd⟩
    case arith.arith op d x y op' e x' y' =>
      obtain rfl := Keyword.arith.inj hForm
      obtain rfl := Option.some.inj hDst
      obtain ⟨rfl, rfl, hEnd⟩ := told_operands tells_reg hs ht hOperands
      exact ⟨rfl, hEnd⟩
    case less.less d x y e x' y' =>
      obtain rfl := Option.some.inj hDst
      obtain ⟨rfl, rfl, hEnd⟩ := told_operands tells_reg hs ht hOperands
      exact ⟨rfl, hEnd⟩
    case call.call d f as e g bs =>
      obtain rfl := Option.some.inj hDst
      obtain ⟨rfl, rfl, hEnd⟩ := told_callee hOperands
      exact ⟨rfl, hEnd⟩

/-! ## Terminators -/

/-- The first character of a terminator. -/
def Terminator.initial : Terminator → Char
  | ret _ => 'r'
  | jump _ => 'j'
  | branch _ _ _ => 'b'
  | unreachable => 'u'

theorem Terminator.head?_text (a : Terminator) (s : List Char) :
    (a.text.toList ++ s).head? = some a.initial := by
  cases a <;> simp only [text, String.append_assoc]
  case unreachable => rfl
  all_goals exact head?_behind rfl _ s

theorem tells_terminator : Tells Terminator.text LineEnds where
  told := by
    have hComma : ∀ s, Ends goesOn (", ".toList ++ s) := fun s => @ends_of_head? _ ',' _ rfl rfl
    intro a b s t hs ht h
    have hInitial : a.initial = b.initial := by
      apply Option.some.inj
      rw [← a.head?_text s, ← b.head?_text t, h]
    -- The first characters are the same, so these cases are those of one terminator.
    cases a <;> cases b <;> try (simp [Terminator.initial] at hInitial; done)
    case ret.ret q r =>
      obtain ⟨rfl, hEnd⟩ := (tells_reg.behind "ret ").told hs.noDigit ht.noDigit h
      exact ⟨rfl, hEnd⟩
    case jump.jump e f =>
      obtain ⟨rfl, hEnd⟩ := (tells_edge.behind "jump ").told hs.goesOn ht.goesOn h
      exact ⟨rfl, hEnd⟩
    case branch.branch q onTrue onFalse r onTrue' onFalse' =>
      simp only [Terminator.text, String.toList_append, List.append_assoc] at h
      obtain ⟨rfl, hEdges⟩ := tells_reg.told (hComma _).noDigit (hComma _).noDigit
        (List.append_cancel_left h)
      obtain ⟨rfl, hEdge⟩ :=
        tells_edge.told (hComma _) (hComma _) (List.append_cancel_left hEdges)
      obtain ⟨rfl, hEnd⟩ := tells_edge.told hs.goesOn ht.goesOn (List.append_cancel_left hEdge)
      exact ⟨rfl, hEnd⟩
    case unreachable.unreachable => exact ⟨rfl, List.append_cancel_left h⟩

/-- No instruction is taken for a terminator: behind an `r` comes a digit in the one and a letter in
the other. -/
theorem instr_ne_terminator (i : Instr) (a : Terminator) (s t : List Char) :
    i.text.toList ++ s ≠ a.text.toList ++ t := by
  intro h
  have hHead := (congrArg List.head? h).trans (a.head?_text t)
  cases hDst : i.dst with
  | none =>
    rw [Instr.head?_of_no_dst hDst] at hHead
    have hInitial : 's' = a.initial := Option.some.inj hHead
    cases a <;> exact absurd hInitial (by simp [Terminator.initial])
  | some dst =>
    rw [Instr.head?_of_dst hDst] at hHead
    have hInitial : 'r' = a.initial := Option.some.inj hHead
    cases a <;> try (simp [Terminator.initial] at hInitial; done)
    case ret value =>
      simp only [Instr.text_eq, Instr.targetText, hDst, regText, Terminator.text,
        String.toList_append, List.append_assoc, toList_toString] at h
      obtain ⟨first, rest, hCons⟩ := List.exists_cons_of_ne_nil (toDigits_ne_nil dst)
      have hDigit := allDigits_toDigits dst first (hCons ▸ List.mem_cons_self)
      rw [hCons] at h
      obtain ⟨rfl, -⟩ := List.cons.inj (congrArg List.tail h)
      exact absurd hDigit (by decide)

/-! ## Blocks -/

/-- A line is told whatever follows it. -/
theorem tells_line {α : Type} {text : α → String} (hText : Tells text LineEnds) :
    Tells (fun a => blockLine (text a)) (fun _ => True) where
  told := by
    intro a b s t _ _ h
    simp only [blockLine, String.toList_append, List.append_assoc] at h
    obtain ⟨rfl, hEnd⟩ := hText.told rfl rfl (List.append_cancel_left h)
    exact ⟨rfl, List.append_cancel_left hEnd⟩

/-- The line of a terminator comes next. -/
def Terminates (s : List Char) : Prop :=
  ∃ (a : Terminator) (rest : List Char), s = (blockLine a.text).toList ++ rest

theorem tells_instrs :
    Tells (fun is : List Instr => String.join (is.map fun i => blockLine i.text)) Terminates := by
  refine (tells_line tells_instr).join (fun _ _ => trivial) (fun _ _ => trivial) ?_
  rintro i s ⟨a, rest, h⟩
  simp only [blockLine, String.toList_append, List.append_assoc] at h
  exact instr_ne_terminator i a _ _ (List.append_cancel_left h)

theorem toList_blockText (b : Block) (l : Label) (s : List Char) :
    (b.text l).toList ++ s = (Edge.text ⟨l, b.params⟩).toList ++ (":\n".toList ++
      ((String.join (b.instrs.map fun i => blockLine i.text)).toList ++
        ((blockLine b.terminator.text).toList ++ s))) := by
  simp only [Block.text, Edge.text, String.toList_append, List.append_assoc]

/-- A block is told with its label. -/
theorem tells_block : Tells (fun b : Block × Label => b.1.text b.2) (fun _ => True) where
  told := by
    have hColon : ∀ s, Ends goesOn (":\n".toList ++ s) :=
      fun s => @ends_of_head? _ ':' _ rfl rfl
    rintro ⟨⟨params, instrs, terminator⟩, l⟩ ⟨⟨params', instrs', terminator'⟩, m⟩ s t - - h
    simp only [toList_blockText] at h
    obtain ⟨hHead, hBody⟩ := tells_edge.told (hColon _) (hColon _) h
    obtain ⟨rfl, rfl⟩ := Edge.mk.inj hHead
    obtain ⟨rfl, hLast⟩ := tells_instrs.told ⟨terminator, s, rfl⟩ ⟨terminator', t, rfl⟩
      (List.append_cancel_left hBody)
    obtain ⟨rfl, hEnd⟩ := (tells_line tells_terminator).told trivial trivial hLast
    exact ⟨rfl, hEnd⟩

/-- The last bracket of a listing comes next. -/
abbrev ListingEnds (s : List Char) : Prop :=
  s.head? = some '\x7d'

theorem head?_block (b : Block) (l : Label) (s : List Char) :
    ((b.text l).toList ++ s).head? = some 'b' := by
  simp only [Block.text, labelText, String.append_assoc]
  exact head?_behind rfl _ s

theorem tells_blocks :
    Tells (fun bs : List (Block × Label) => String.join (bs.map fun b => b.1.text b.2))
      ListingEnds := by
  refine tells_block.join (fun _ _ => trivial) (fun _ _ => trivial) fun b s hEnds => ?_
  exact absurd rfl (ne_of_head? hEnds (head?_block b.1 b.2 s) (by decide))

/-! ## Slots -/

/-- No slot comes next. -/
abbrev NoSlot (s : List Char) : Prop :=
  Ends (· == ' ') s

theorem Ownership.text_injective : Function.Injective Ownership.text := by
  rintro (_ | _ | _) (_ | _ | _) h <;> first | rfl | exact absurd h (by decide)

/-- The line of a slot is told with the number of the slot. -/
theorem tells_slotLine : Tells (fun s : Ownership × Slot => slotLine s.2 s.1) (fun _ => True) where
  told := by
    have hColon : ∀ s, Ends Char.isDigit (": ".toList ++ s) :=
      fun s => @ends_of_head? _ ':' _ rfl rfl
    have hLine : ∀ o : Ownership, ∀ c ∈ o.text.toList, (c != '\n') = true := by
      intro o
      have hAll : o.text.toList.all (· != '\n') = true := by
        rcases o with _ | _ | _ <;> decide
      exact List.all_eq_true.mp hAll
    have hNewline : ∀ s, Ends (· != '\n') ("\n".toList ++ s) :=
      fun s => @ends_of_head? _ '\n' _ rfl rfl
    rintro ⟨o, m⟩ ⟨o', n⟩ s t - - h
    simp only [slotLine, String.toList_append, List.append_assoc] at h
    obtain ⟨rfl, hOwner⟩ := tells_slot.told (hColon _) (hColon _) (List.append_cancel_left h)
    obtain ⟨hText, hEnd⟩ := eq_of_run (hLine o) (hLine o') (hNewline _) (hNewline _)
      (List.append_cancel_left hOwner)
    obtain rfl := Ownership.text_injective (String.toList_inj.mp hText)
    exact ⟨rfl, List.append_cancel_left hEnd⟩

theorem tells_slots :
    Tells (fun ss : List (Ownership × Slot) => String.join (ss.map fun s => slotLine s.2 s.1))
      NoSlot := by
  refine tells_slotLine.join (fun _ _ => trivial) (fun _ _ => trivial) fun s rest hNone => ?_
  simp only [slotLine, String.append_assoc] at hNone
  exact absurd (hNone ' ' (head?_behind rfl _ rest)) (by decide)

/-! ## Listings -/

theorem zipIdx_injective {α : Type} {as bs : List α} (h : as.zipIdx = bs.zipIdx) : as = bs := by
  rw [← List.zipIdx_map_fst 0 as, h, List.zipIdx_map_fst]

/-- The blocks of a body with their labels. -/
def Body.labelled (label : Nat → Label) (body : Body) : List (Block × Label) :=
  body.blocks.mapIdx fun position b => (b, label position)

theorem Body.map_fst_labelled (label : Nat → Label) (body : Body) :
    (body.labelled label).map Prod.fst = body.blocks := by
  rw [labelled, List.mapIdx_eq_zipIdx_map, List.map_map]
  exact List.zipIdx_map_fst 0 body.blocks

/-- Labelled blocks are the same if the blocks are, and the labels that are in use. -/
theorem labelled_eq_iff {f g : Body} {label label' : Nat → Label} :
    f.labelled label = g.labelled label' ↔ f.blocks = g.blocks ∧
      ∀ position < f.blocks.length, label position = label' position := by
  constructor
  · intro h
    have hBlocks : f.blocks = g.blocks := by
      rw [← f.map_fst_labelled label, h, g.map_fst_labelled]
    rw [Body.labelled, Body.labelled, ← hBlocks, List.mapIdx_eq_mapIdx_iff] at h
    exact ⟨hBlocks, fun position hLt => congrArg Prod.snd (h position hLt)⟩
  · rintro ⟨hBlocks, hLabels⟩
    rw [Body.labelled, Body.labelled, ← hBlocks, List.mapIdx_eq_mapIdx_iff]
    exact fun position hLt => congrArg (Prod.mk _) (hLabels position hLt)

/-- What a listing has behind the name. -/
def Body.unnamedListing (label : Nat → Label) (body : Body) : String :=
  "/" ++ toString body.arity ++ " \x7b\n" ++
    String.join (body.slots.zipIdx.map fun s => slotLine s.2 s.1) ++
    String.join ((body.labelled label).map fun b => b.1.text b.2) ++ "\x7d\n"

theorem toList_listingUnder (label : Nat → Label) (body : Body) :
    (body.listingUnder label).toList =
      "function ".toList ++ (body.name.toList ++ (body.unnamedListing label).toList) := by
  unfold Body.listingUnder Body.unnamedListing Body.labelled
  simp only [List.mapIdx_eq_zipIdx_map, List.map_map, Function.comp_def, String.toList_append,
    List.append_assoc]

section Listings

variable {f g : Body} {label label' : Nat → Label}

/-- What is behind the name tells the arity, the slots and the blocks with their labels. -/
theorem eq_of_unnamedListing
    (h : (f.unnamedListing label).toList = (g.unnamedListing label').toList) :
    f.arity = g.arity ∧ f.slots = g.slots ∧ f.labelled label = g.labelled label' := by
  have hBrace : ∀ s, Ends Char.isDigit (" \x7b\n".toList ++ s) :=
    fun s => @ends_of_head? _ ' ' _ rfl rfl
  have hBlocks : ∀ bs : List (Block × Label), NoSlot
      ((String.join (bs.map fun b => b.1.text b.2)).toList ++ "\x7d\n".toList) := by
    intro bs
    cases bs with
    | nil => exact @ends_of_head? _ '\x7d' _ rfl rfl
    | cons b bs =>
      rw [List.map_cons, String.join_cons, String.toList_append, List.append_assoc]
      exact ends_of_head? (head?_block b.1 b.2 _) rfl
  simp only [Body.unnamedListing, String.toList_append, List.append_assoc] at h
  obtain ⟨hArity, hInside⟩ :=
    tells_number.told (hBrace _) (hBrace _) (List.append_cancel_left h)
  obtain ⟨hSlots, hRest⟩ :=
    tells_slots.told (hBlocks _) (hBlocks _) (List.append_cancel_left hInside)
  obtain ⟨hLabelled, -⟩ := tells_blocks.told rfl rfl hRest
  exact ⟨hArity, zipIdx_injective hSlots, hLabelled⟩

theorem unnamedListing_congr (hArity : f.arity = g.arity) (hSlots : f.slots = g.slots)
    (hLabelled : f.labelled label = g.labelled label') :
    f.unnamedListing label = g.unnamedListing label' := by
  rw [Body.unnamedListing, Body.unnamedListing, hArity, hSlots, hLabelled]

/-- The listings of two bodies of one name are the same if and only if the bodies are, but for what
is not listed. -/
theorem listing_eq_iff_of_name (hName : f.name = g.name) :
    f.listing = g.listing ↔ f.arity = g.arity ∧ f.slots = g.slots ∧ f.blocks = g.blocks := by
  rw [Body.listing, Body.listing, ← String.toList_inj, toList_listingUnder, toList_listingUnder,
    hName]
  constructor
  · intro h
    obtain ⟨hArity, hSlots, hLabelled⟩ :=
      eq_of_unnamedListing (List.append_cancel_left (List.append_cancel_left h))
    exact ⟨hArity, hSlots, (labelled_eq_iff.mp hLabelled).1⟩
  · rintro ⟨hArity, hSlots, hBlocks⟩
    rw [unnamedListing_congr hArity hSlots (labelled_eq_iff.mpr ⟨hBlocks, fun _ _ => rfl⟩)]

/-- A listing tells the name, the arity, the slots and the blocks with their labels, whatever labels
the blocks stand under, if there is no slash in the name.  The listing of a body is the one where
the label of a block is its position (`Body.listing`). -/
theorem listing_eq_iff (hName : '/' ∉ f.name.toList) (hName' : '/' ∉ g.name.toList) :
    f.listingUnder label = g.listingUnder label' ↔
      f.name = g.name ∧ f.arity = g.arity ∧ f.slots = g.slots ∧ f.blocks = g.blocks ∧
        ∀ position < f.blocks.length, label position = label' position := by
  have hPlain : ∀ {name : String}, '/' ∉ name.toList → ∀ c ∈ name.toList, (c != '/') = true := by
    intro name hNot c hc
    rw [bne_iff_ne]
    rintro rfl
    exact hNot hc
  have hSlash : ∀ (label : Nat → Label) (body : Body),
      Ends (· != '/') (body.unnamedListing label).toList := by
    intro label body
    simp only [Body.unnamedListing, String.toList_append, List.append_assoc]
    exact @ends_of_head? _ '/' _ rfl rfl
  rw [← String.toList_inj, toList_listingUnder, toList_listingUnder, ← labelled_eq_iff]
  constructor
  · intro h
    obtain ⟨hNames, hRest⟩ := eq_of_run (hPlain hName) (hPlain hName') (hSlash label f)
      (hSlash label' g) (List.append_cancel_left h)
    exact ⟨String.toList_inj.mp hNames, eq_of_unnamedListing hRest⟩
  · rintro ⟨hSame, hArity, hSlots, hLabelled⟩
    rw [hSame, unnamedListing_congr hArity hSlots hLabelled]

end Listings

/-- A body that returns a constant. -/
def returning (value : Float) (regCount : Nat) : Body where
  name := "__anon_expr0"
  arity := 0
  blocks := [⟨[], [.const 0 value], .ret 0⟩]
  entry := 0
  regCount := regCount
  slots := []

/-- The sign of a zero is listed and so is a label, but the number of registers is not. -/
theorem listing_returning :
    '/' ∉ "__anon_expr0".toList ∧
      (returning 0.0 1).listing ≠ (returning (-0.0) 1).listing ∧
      (returning 0.0 1).listing ≠ (returning 0.0 1).listingUnder (· + 1) ∧
      (returning 0.0 1).listing = (returning 0.0 2).listing := by
  have hName : '/' ∉ "__anon_expr0".toList := by decide
  have hPlain : ∀ value regCount, '/' ∉ (returning value regCount).name.toList :=
    fun _ _ => hName
  have hBits : (0.0 : Float).toBits ≠ (-0.0 : Float).toBits := by decide +kernel
  refine ⟨hName, fun hSame => ?_, fun hSame => ?_, ?_⟩
  · obtain ⟨-, -, -, hBlocks, -⟩ := (listing_eq_iff (hPlain _ _) (hPlain _ _)).mp hSame
    have hInstrs := (Block.mk.inj (List.cons.inj hBlocks).1).2.1
    exact hBits (congrArg Float.toBits (Instr.const.inj (List.cons.inj hInstrs).1).2)
  · obtain ⟨-, -, -, -, hLabels⟩ := (listing_eq_iff (hPlain _ _) (hPlain _ _)).mp hSame
    exact absurd (hLabels 0 Nat.zero_lt_one) (by decide)
  · exact (listing_eq_iff (hPlain _ _) (hPlain _ _)).mpr ⟨rfl, rfl, rfl, rfl, fun _ _ => rfl⟩

end Ir

end LiveCompiler
