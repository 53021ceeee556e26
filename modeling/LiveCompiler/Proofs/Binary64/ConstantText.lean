import LiveCompiler.Binary64.Literal
import LiveCompiler.Proofs.Binary64.Identities
import LiveCompiler.Proofs.Binary64.Rounding
import Mathlib.Data.List.TakeWhile

/-!
# A double is told by its text

The text of a finite magnitude is a numeral, wherever the layout puts the point, and stands for the
decimal that was chosen for the double (`numeral_magnitude`).  A numeral stands for one number only,
as it can be read (`Numeral.textValue_eq`), and this number rounds to one double only.  Sign,
infinities and not-a-number show at the first character.  So no two doubles have the same text
(`signed_magnitude_injective`).
-/

namespace LiveCompiler.Binary64

/-! ## Digits -/

theorem digitsValue_toDigits (n : ℕ) : digitsValue (Nat.toDigits 10 n) = n :=
  Nat.ofDigitChars_ten_toDigits

theorem digitsValue_append (cs ds : List Char) :
    digitsValue (cs ++ ds) = digitsValue cs * 10 ^ ds.length + digitsValue ds := by
  show Nat.ofDigitChars 10 (cs ++ ds) 0 = Nat.ofDigitChars 10 cs 0 * _ + Nat.ofDigitChars 10 ds 0
  rw [Nat.ofDigitChars_append, Nat.ofDigitChars_eq_ofDigitChars_zero, Nat.mul_comm]

theorem digitsValue_zeros (n : ℕ) : digitsValue (List.replicate n '0') = 0 := by
  show Nat.ofDigitChars 10 _ 0 = 0
  rw [Nat.ofDigitChars_replicate_zero, Nat.mul_zero]

theorem toList_toString (n : ℕ) : (toString n).toList = Nat.toDigits 10 n := by
  rw [Nat.toString_eq_repr, Nat.toList_repr]

theorem length_toString (n : ℕ) : (toString n).length = (Nat.toDigits 10 n).length := by
  rw [← String.length_toList, toList_toString]

theorem toList_zeros (n : ℕ) : (zeros n).toList = List.replicate n '0' :=
  String.toList_ofList

/-- A text of digits. -/
def AllDigits (cs : List Char) : Prop :=
  ∀ c ∈ cs, c.isDigit = true

theorem allDigits_toDigits (n : ℕ) : AllDigits (Nat.toDigits 10 n) :=
  fun _ hc => Nat.isDigit_of_mem_toDigits (by decide) (by decide) hc

theorem allDigits_zeros (n : ℕ) : AllDigits (List.replicate n '0') := by
  intro c hc
  rw [List.eq_of_mem_replicate hc]
  rfl

theorem AllDigits.append {cs ds : List Char} (hLeft : AllDigits cs) (hRight : AllDigits ds) :
    AllDigits (cs ++ ds) :=
  fun c hc => (List.mem_append.mp hc).elim (hLeft c) (hRight c)

/-! ## Numerals -/

/-- Digits, with or without a point, and what they stand for. -/
inductive Positional : List Char → ℚ → Prop
  | whole {cs : List Char} (some : cs ≠ []) (digits : AllDigits cs) :
      Positional cs (digitsValue cs)
  | point {cs ds : List Char} (some : cs ≠ []) (digits : AllDigits cs) (fraction : AllDigits ds) :
      Positional (cs ++ '.' :: ds) (digitsValue (cs ++ ds) / 10 ^ ds.length)

/-- Digits, and a power of ten that may follow. -/
inductive Numeral : List Char → ℚ → Prop
  | plain {cs : List Char} {v : ℚ} (digits : Positional cs v) : Numeral cs v
  | scaled {cs : List Char} {v : ℚ} (digits : Positional cs v) (e : ℤ) :
      Numeral (cs ++ 'e' :: (toString e).toList) (v * 10 ^ e)

/-- What digits with at most one point among them are read as. -/
def positionalValue (cs : List Char) : ℚ :=
  let whole := cs.takeWhile Char.isDigit
  let fraction := (cs.dropWhile Char.isDigit).drop 1
  digitsValue (whole ++ fraction) / 10 ^ fraction.length

/-- The power of ten that follows the digits, zero if there is none. -/
def exponentValue : List Char → ℤ
  | 'e' :: '-' :: digits => -(digitsValue digits : ℤ)
  | 'e' :: digits => digitsValue digits
  | _ => 0

/-- What a numeral is read as. -/
def textValue (cs : List Char) : ℚ :=
  positionalValue (cs.takeWhile (· != 'e')) * 10 ^ exponentValue (cs.dropWhile (· != 'e'))

/-- An integer is a sign, which is left out if it is positive, and digits. -/
theorem toList_toString_int (e : ℤ) :
    (toString e).toList = (if 0 ≤ e then [] else ['-']) ++ Nat.toDigits 10 e.natAbs := by
  cases e with
  | ofNat n =>
    show (toString n).toList = (if (0 : ℤ) ≤ n then [] else ['-']) ++ Nat.toDigits 10 n
    rw [if_pos (Int.natCast_nonneg n), toList_toString]
    rfl
  | negSucc n =>
    rw [if_neg (Int.not_le.mpr (Int.negSucc_lt_zero n))]
    show ("-" ++ toString (n + 1)).toList = _
    rw [String.toList_append, toList_toString]
    rfl

theorem exponentValue_digits {ds : List Char} (h : AllDigits ds) :
    exponentValue ('e' :: ds) = digitsValue ds := by
  unfold exponentValue
  split
  · rename_i digits hEq
    obtain ⟨-, rfl⟩ := List.cons.inj hEq
    exact absurd (h '-' List.mem_cons_self) (by decide)
  · rename_i digits _ hEq
    obtain ⟨-, rfl⟩ := List.cons.inj hEq
    rfl
  · rename_i hNot
    exact absurd rfl (hNot ds)

theorem exponentValue_toString (e : ℤ) : exponentValue ('e' :: (toString e).toList) = e := by
  rw [toList_toString_int]
  split
  · rw [List.nil_append, exponentValue_digits (allDigits_toDigits _), digitsValue_toDigits]
    omega
  · show -(digitsValue (Nat.toDigits 10 e.natAbs) : ℤ) = e
    rw [digitsValue_toDigits]
    omega

namespace Positional

variable {cs : List Char} {v : ℚ}

theorem digit_or_point (h : Positional cs v) : ∀ c ∈ cs, c.isDigit = true ∨ c = '.' := by
  cases h with
  | whole hSome hDigits => exact fun c hc => .inl (hDigits c hc)
  | point hSome hDigits hFraction =>
    intro c hc
    rcases List.mem_append.mp hc with hWhole | hRest
    · exact .inl (hDigits c hWhole)
    · rcases List.mem_cons.mp hRest with hPoint | hLater
      · exact .inr hPoint
      · exact .inl (hFraction c hLater)

theorem no_exponent (h : Positional cs v) : ∀ c ∈ cs, (c != 'e') = true := by
  intro c hc
  rw [bne_iff_ne]
  rintro rfl
  have hHere := h.digit_or_point 'e' hc
  revert hHere
  decide

theorem positionalValue_eq (h : Positional cs v) : positionalValue cs = v := by
  cases h with
  | whole hSome hDigits =>
    unfold positionalValue
    rw [List.takeWhile_eq_self_iff.mpr hDigits, List.dropWhile_eq_nil_iff.mpr hDigits]
    simp
  | point hSome hDigits hFraction =>
    unfold positionalValue
    rw [List.takeWhile_append_of_pos hDigits, List.takeWhile_cons_of_neg (by decide),
      List.append_nil, List.dropWhile_append_of_pos hDigits,
      List.dropWhile_cons_of_neg (by decide)]
    rfl

theorem eq_cons (h : Positional cs v) :
    ∃ first rest, cs = first :: rest ∧ first.isDigit = true := by
  have hFirst : ∀ {ds : List Char}, ds ≠ [] → AllDigits ds →
      ∃ first rest, ds = first :: rest ∧ first.isDigit = true := by
    intro ds hSome hDigits
    obtain ⟨first, rest, rfl⟩ := List.exists_cons_of_ne_nil hSome
    exact ⟨first, rest, rfl, hDigits first List.mem_cons_self⟩
  cases h with
  | whole hSome hDigits => exact hFirst hSome hDigits
  | point hSome hDigits =>
    obtain ⟨first, rest, rfl, hDigit⟩ := hFirst hSome hDigits
    exact ⟨first, _, rfl, hDigit⟩

end Positional

namespace Numeral

variable {cs : List Char} {v : ℚ}

/-- A numeral is read as what it stands for. -/
theorem textValue_eq (h : Numeral cs v) : textValue cs = v := by
  unfold textValue
  cases h with
  | plain hDigits =>
    have hAll := hDigits.no_exponent
    rw [List.takeWhile_eq_self_iff.mpr hAll, List.dropWhile_eq_nil_iff.mpr hAll,
      hDigits.positionalValue_eq]
    simp [exponentValue]
  | scaled hDigits e =>
    have hAll := hDigits.no_exponent
    rw [List.takeWhile_append_of_pos hAll, List.takeWhile_cons_of_neg (by decide), List.append_nil,
      List.dropWhile_append_of_pos hAll, List.dropWhile_cons_of_neg (by decide),
      hDigits.positionalValue_eq, exponentValue_toString]

/-- A numeral starts with a digit. -/
theorem eq_cons (h : Numeral cs v) : ∃ first rest, cs = first :: rest ∧ first.isDigit = true := by
  cases h with
  | plain hDigits => exact hDigits.eq_cons
  | scaled hDigits e =>
    obtain ⟨first, rest, rfl, hDigit⟩ := hDigits.eq_cons
    exact ⟨first, _, rfl, hDigit⟩

/-- A numeral is written on one line. -/
theorem newline_notMem (h : Numeral cs v) : '\n' ∉ cs := by
  have hDigits : ∀ {ds : List Char} {w : ℚ}, Positional ds w → '\n' ∉ ds := by
    intro ds w hPositional hMem
    have hHere := hPositional.digit_or_point '\n' hMem
    revert hHere
    decide
  cases h with
  | plain hPositional => exact hDigits hPositional
  | scaled hPositional e =>
    have hExponent : '\n' ∉ (toString e).toList := by
      rw [toList_toString_int, List.mem_append, not_or]
      refine ⟨by split <;> decide, fun hMem => ?_⟩
      exact absurd (allDigits_toDigits _ '\n' hMem) (by decide)
    rw [List.mem_append, List.mem_cons, not_or, not_or]
    exact ⟨hDigits hPositional, by decide, hExponent⟩

end Numeral

/-! ## Layouts -/

section Layout

variable (d : Decimal)

theorem toDigits_ne_nil (n : ℕ) : Nat.toDigits 10 n ≠ [] :=
  Nat.toDigits_ne_nil

/-- The value of a decimal whose point stands so many places to the left. -/
theorem Decimal.value_of_neg {d : Decimal} (places : ℕ) (h : d.exponent = -(places : ℤ)) :
    d.value = d.digits / 10 ^ places := by
  rw [value, h, zpow_neg, zpow_natCast, div_eq_mul_inv]

/-- The point stands before all digits. -/
theorem positional_before (gap : ℕ)
    (hGap : d.exponent = -((gap + (Nat.toDigits 10 d.digits).length : ℕ) : ℤ)) :
    Positional ("0." ++ zeros gap ++ toString d.digits).toList d.value := by
  have hText : ("0." ++ zeros gap ++ toString d.digits).toList =
      ['0'] ++ '.' :: (List.replicate gap '0' ++ Nat.toDigits 10 d.digits) := by
    simp only [String.toList_append, toList_zeros, toList_toString, List.append_assoc]
    rfl
  have hValue : digitsValue (['0'] ++ (List.replicate gap '0' ++ Nat.toDigits 10 d.digits)) =
      d.digits := by
    rw [digitsValue_append, digitsValue_append, digitsValue_zeros, digitsValue_toDigits,
      show digitsValue ['0'] = 0 from rfl, Nat.zero_mul, Nat.zero_mul, Nat.zero_add, Nat.zero_add]
  have hPoint := Positional.point (List.cons_ne_nil '0' []) (allDigits_zeros 1)
    ((allDigits_zeros gap).append (allDigits_toDigits d.digits))
  rwa [hValue, List.length_append, List.length_replicate, ← Decimal.value_of_neg _ hGap,
    ← hText] at hPoint

/-- The point stands behind all digits, or there is none. -/
theorem positional_behind (pointZero : Bool) (gap : ℕ) (hGap : d.exponent = (gap : ℤ)) :
    Positional (toString d.digits ++ zeros gap ++ (if pointZero then ".0" else "")).toList
      d.value := by
  have hDigits := (allDigits_toDigits d.digits).append (allDigits_zeros gap)
  have hSome : Nat.toDigits 10 d.digits ++ List.replicate gap '0' ≠ [] :=
    List.append_ne_nil_of_left_ne_nil (toDigits_ne_nil _) _
  have hWhole : (digitsValue (Nat.toDigits 10 d.digits ++ List.replicate gap '0') : ℚ) =
      d.value := by
    rw [digitsValue_append, digitsValue_toDigits, digitsValue_zeros, List.length_replicate,
      Nat.add_zero, Decimal.value, hGap, zpow_natCast]
    push_cast
    rfl
  rw [String.toList_append, String.toList_append, toList_zeros, toList_toString]
  cases pointZero with
  | true =>
    have hPoint := Positional.point hSome hDigits (allDigits_zeros 1)
    have hValue : (digitsValue (Nat.toDigits 10 d.digits ++ List.replicate gap '0' ++
        List.replicate 1 '0') : ℚ) / 10 ^ (List.replicate 1 '0').length = d.value := by
      rw [digitsValue_append, digitsValue_zeros, ← hWhole]
      simp
    rwa [hValue] at hPoint
  | false =>
    rw [show (if false then ".0" else "").toList = [] from rfl, List.append_nil, ← hWhole]
    exact .whole hSome hDigits

/-- The point stands among the digits. -/
theorem positional_among (count : ℕ) (hPos : 0 < count)
    (hCount : d.exponent = -(((Nat.toDigits 10 d.digits).length - count : ℕ) : ℤ)) :
    Positional ((Nat.toDigits 10 d.digits).take count ++
      '.' :: (Nat.toDigits 10 d.digits).drop count) d.value := by
  have hSome : (Nat.toDigits 10 d.digits).take count ≠ [] := by
    rw [Ne, List.take_eq_nil_iff, not_or]
    exact ⟨by omega, toDigits_ne_nil _⟩
  have hFront : AllDigits ((Nat.toDigits 10 d.digits).take count) :=
    fun c hc => allDigits_toDigits d.digits c (List.mem_of_mem_take hc)
  have hBack : AllDigits ((Nat.toDigits 10 d.digits).drop count) :=
    fun c hc => allDigits_toDigits d.digits c (List.mem_of_mem_drop hc)
  have hPoint := Positional.point hSome hFront hBack
  rwa [List.take_append_drop, digitsValue_toDigits, List.length_drop,
    ← Decimal.value_of_neg _ hCount] at hPoint

theorem positional_positionalText (pointZero : Bool) :
    Positional (positionalText pointZero (toString d.digits)
      (d.exponent + ((toString d.digits).length : ℤ))).toList d.value := by
  unfold positionalText
  dsimp only
  rw [length_toString]
  split
  · apply positional_before
    omega
  · split
    · apply positional_behind
      omega
    · simp only [String.toList_append, String.toList_ofList, toList_toString, List.append_assoc]
      apply positional_among <;> omega

/-- With one digit before the point and a power of ten the text stands for the decimal, too. -/
theorem numeral_exponentText :
    Numeral (exponentText (toString d.digits)
      (d.exponent + ((toString d.digits).length : ℤ) - 1)).toList d.value := by
  have hAll := allDigits_toDigits d.digits
  have hValue := digitsValue_toDigits d.digits
  obtain ⟨first, rest, hDigits⟩ := List.exists_cons_of_ne_nil (toDigits_ne_nil d.digits)
  rw [hDigits] at hAll hValue
  have hFirst : AllDigits [first] := by simpa [AllDigits] using hAll first List.mem_cons_self
  have hRest : AllDigits rest := fun c hc => hAll c (List.mem_cons_of_mem first hc)
  have hLength : d.exponent + ((toString d.digits).length : ℤ) - 1 = d.exponent + rest.length := by
    rw [length_toString, hDigits, List.length_cons]
    omega
  have hText : (exponentText (toString d.digits) (d.exponent + rest.length)).toList =
      (if rest = [] then [first] else [first] ++ '.' :: rest) ++
        'e' :: (toString (d.exponent + (rest.length : ℤ))).toList := by
    unfold exponentText
    dsimp only
    rw [toList_toString, hDigits]
    cases rest <;> simp
  -- Without its power of ten the text stands for a decimal with as many places as there are digits
  -- behind the first one.
  have hPositional : Positional (if rest = [] then [first] else [first] ++ '.' :: rest)
      (d.digits / 10 ^ rest.length) := by
    split
    · rename_i hNil
      have hWhole := Positional.whole (List.cons_ne_nil first []) hFirst
      rw [hNil] at hValue ⊢
      rwa [hValue, ← div_one (d.digits : ℚ), ← pow_zero (10 : ℚ)] at hWhole
    · have hPoint := Positional.point (List.cons_ne_nil first []) hFirst hRest
      rwa [show digitsValue ([first] ++ rest) = d.digits from hValue] at hPoint
  have hScale : d.value = d.digits / 10 ^ rest.length * 10 ^ (d.exponent + rest.length) := by
    rw [Decimal.value, zpow_add₀ (by norm_num), zpow_natCast]
    field_simp
  rw [hLength, hText, hScale]
  exact .scaled hPositional _

end Layout

/-- The text of a magnitude is a numeral that stands for a number which rounds to it. -/
theorem numeral_magnitude (style : Style) (x : Magnitude) :
    ∃ v, Numeral (style.magnitude x).toList v ∧ x.Rounds v := by
  unfold Style.magnitude
  split
  · rename_i hZero
    have hSelf := x.rounds_self
    rw [hZero, Nat.cast_zero, zero_mul] at hSelf
    refine ⟨0, .plain ?_, hSelf⟩
    cases style.pointZero with
    | true =>
      have hPoint := Positional.point (List.cons_ne_nil '0' []) (allDigits_zeros 1)
        (allDigits_zeros 1)
      rwa [show digitsValue _ = 0 from rfl, Nat.cast_zero, zero_div] at hPoint
    | false =>
      have hWhole := Positional.whole (List.cons_ne_nil '0' []) (allDigits_zeros 1)
      rwa [show digitsValue _ = 0 from rfl, Nat.cast_zero] at hWhole
  · refine ⟨x.shortest.value, ?_, x.rounds_shortest⟩
    dsimp only
    split
    · exact .plain (positional_positionalText _ _)
    · exact numeral_exponentText _

/-! ## Bits -/

/-- The magnitude of a double leaves nothing open but its sign. -/
theorem toNat_mod_of_ofBits {b c : UInt64}
    (hMantissa : (Magnitude.ofBits b).mantissa = (Magnitude.ofBits c).mantissa)
    (hExponent : (Magnitude.ofBits b).exponent = (Magnitude.ofBits c).exponent) :
    b.toNat % 2 ^ 63 = c.toNat % 2 ^ 63 := by
  have hTwo : powerOfTwo 52 = 2 ^ 52 := rfl
  have hEleven : powerOfTwo 11 = 2 ^ 11 := rfl
  unfold Magnitude.ofBits at hMantissa hExponent
  dsimp only at hMantissa hExponent
  rw [hTwo, hEleven] at hMantissa hExponent
  split at hMantissa <;> split at hMantissa <;> rename_i hBiased hBiased'
  · rw [if_pos hBiased, if_pos hBiased'] at hExponent
    dsimp only at hMantissa hExponent
    omega
  · rw [if_pos hBiased, if_neg hBiased'] at hExponent
    dsimp only at hMantissa hExponent
    omega
  · rw [if_neg hBiased, if_pos hBiased'] at hExponent
    dsimp only at hMantissa hExponent
    omega
  · rw [if_neg hBiased, if_neg hBiased'] at hExponent
    dsimp only at hMantissa hExponent
    omega

theorem eq_of_sign_of_magnitude {x y : Float} (hSign : isNegative x = isNegative y)
    (hMantissa : (Magnitude.ofBits x.toBits).mantissa = (Magnitude.ofBits y.toBits).mantissa)
    (hExponent : (Magnitude.ofBits x.toBits).exponent = (Magnitude.ofBits y.toBits).exponent) :
    x = y := by
  have hLow := toNat_mod_of_ofBits hMantissa hExponent
  have hHigh : powerOfTwo 63 ≤ x.toBits.toNat ↔ powerOfTwo 63 ≤ y.toBits.toNat := by
    simpa [isNegative] using hSign
  have hTwo : powerOfTwo 63 = 2 ^ 63 := rfl
  have hx := x.toBits.toNat_lt
  have hy := y.toBits.toNat_lt
  apply toBits_inj
  apply UInt64.toNat_inj.mp
  omega

theorem eq_of_isNaN {x y : Float} (hx : x.isNaN = true) (hy : y.isNaN = true) : x = y := by
  have hNaN : ∀ {z : Float}, z.isNaN = true → z.toModel.unpack = .notANumber := by
    intro z hz
    have hUnpack : z.toModel.unpack.isNaN = true := hz
    cases hCases : z.toModel.unpack <;> rw [hCases] at hUnpack <;> first | rfl | cases hUnpack
  exact unpack_inj ((hNaN hx).trans (hNaN hy).symm)

/-- There is one infinity of each sign. -/
theorem eq_of_isInf {x y : Float} (hx : x.isInf = true) (hy : y.isInf = true)
    (hSign : isNegative x = isNegative y) : x = y := by
  have hInf : ∀ {z : Float}, z.isInf = true →
      z = Float.ofModel (Float.Model.pack (.infinity .positive)) ∧ isNegative z = false ∨
        z = Float.ofModel (Float.Model.pack (.infinity .negative)) ∧ isNegative z = true := by
    intro z hz
    have hUnpack : z.toModel.unpack.isInf = true := hz
    cases hCases : z.toModel.unpack with
    | infinity s =>
      have hSame : z = Float.ofModel (Float.Model.pack (.infinity s)) :=
        unpack_inj (hCases.trans (by cases s <;> rfl))
      cases s with
      | positive => exact .inl ⟨hSame, hSame ▸ by decide +kernel⟩
      | negative => exact .inr ⟨hSame, hSame ▸ by decide +kernel⟩
    | _ =>
      rw [hCases] at hUnpack
      cases hUnpack
  rcases hInf hx with ⟨hSame, hNegative⟩ | ⟨hSame, hNegative⟩ <;>
    rcases hInf hy with ⟨hSame', hNegative'⟩ | ⟨hSame', hNegative'⟩
  · exact hSame.trans hSame'.symm
  · exact absurd (hNegative.symm.trans (hSign.trans hNegative')) Bool.false_ne_true
  · exact absurd (hNegative'.symm.trans (hSign.symm.trans hNegative)) Bool.false_ne_true
  · exact hSame.trans hSame'.symm

/-! ## Texts -/

/-- The text of a double that is a number, without its sign. -/
def unsignedText (style : Style) (x : Float) : List Char :=
  if x.isInf then "inf".toList else (style.magnitude (Magnitude.ofBits x.toBits)).toList

/-- The sign of a double in its text. -/
def signText (x : Float) : List Char :=
  if isNegative x then ['-'] else []

theorem toList_signed (style : Style) (x : Float) : (signed style.magnitude x).toList =
    if x.isNaN then "NaN".toList else signText x ++ unsignedText style x := by
  unfold signed signText unsignedText
  cases x.isNaN <;> cases isNegative x <;> cases x.isInf <;> simp

/-- The first character behind the sign is a digit, or a letter if the double is infinite. -/
theorem unsignedText_eq_cons (style : Style) (x : Float) :
    ∃ first rest, unsignedText style x = first :: rest ∧
      (x.isInf = true ∧ first = 'i' ∨ x.isInf = false ∧ first.isDigit = true) := by
  unfold unsignedText
  cases x.isInf with
  | true => exact ⟨'i', ['n', 'f'], rfl, .inl ⟨rfl, rfl⟩⟩
  | false =>
    obtain ⟨v, hNumeral, -⟩ := numeral_magnitude style (Magnitude.ofBits x.toBits)
    obtain ⟨first, rest, hCons, hDigit⟩ := hNumeral.eq_cons
    exact ⟨first, rest, hCons, .inr ⟨rfl, hDigit⟩⟩

theorem head?_unsignedText (style : Style) (x : Float) {c : Char} (hDigit : c.isDigit = false)
    (hLetter : c ≠ 'i') : (unsignedText style x).head? ≠ some c := by
  obtain ⟨first, rest, hCons, hFirst⟩ := unsignedText_eq_cons style x
  rw [hCons, List.head?_cons]
  intro hEq
  obtain rfl := Option.some.inj hEq
  rcases hFirst with ⟨-, hLetter'⟩ | ⟨-, hDigit'⟩
  · exact hLetter hLetter'
  · exact absurd (hDigit.symm.trans hDigit') Bool.false_ne_true

/-- The sign can be told from what follows it. -/
theorem sign_eq {style : Style} {x y : Float}
    (h : signText x ++ unsignedText style x = signText y ++ unsignedText style y) :
    isNegative x = isNegative y ∧ unsignedText style x = unsignedText style y := by
  have hHead := fun z => @head?_unsignedText style z '-' rfl (by decide)
  unfold signText at h
  cases hx : isNegative x <;> cases hy : isNegative y <;> rw [hx, hy] at h
  · exact ⟨rfl, h⟩
  · exact absurd (congrArg List.head? h) (hHead x)
  · exact absurd (congrArg List.head? h.symm) (hHead y)
  · exact ⟨rfl, (List.cons.inj h).2⟩

/-- What stands behind the sign tells infinities, and otherwise the magnitude. -/
theorem eq_of_unsignedText {style : Style} {x y : Float} (hSign : isNegative x = isNegative y)
    (h : unsignedText style x = unsignedText style y) : x = y := by
  obtain ⟨first, rest, hCons, hFirst⟩ := unsignedText_eq_cons style x
  obtain ⟨first', rest', hCons', hFirst'⟩ := unsignedText_eq_cons style y
  obtain ⟨rfl, -⟩ := List.cons.inj (hCons.symm.trans (h.trans hCons'))
  rcases hFirst with ⟨hx, hLetter⟩ | ⟨hx, hDigit⟩ <;>
    rcases hFirst' with ⟨hy, hLetter'⟩ | ⟨hy, hDigit'⟩
  · exact eq_of_isInf hx hy hSign
  · rw [hLetter] at hDigit'
    cases hDigit'
  · rw [hLetter'] at hDigit
    cases hDigit
  · unfold unsignedText at h
    rw [hx, hy] at h
    obtain ⟨v, hNumeral, hRounds⟩ := numeral_magnitude style (Magnitude.ofBits x.toBits)
    obtain ⟨w, hNumeral', hRounds'⟩ := numeral_magnitude style (Magnitude.ofBits y.toBits)
    have hValue : v = w := by
      rw [← hNumeral.textValue_eq, ← hNumeral'.textValue_eq]
      exact congrArg textValue h
    obtain ⟨hMantissa, hExponent⟩ := (Magnitude.canonical_ofBits x.toBits).eq_of_rounds
      (Magnitude.canonical_ofBits y.toBits) hRounds (hValue ▸ hRounds')
    exact eq_of_sign_of_magnitude hSign hMantissa hExponent

/-- The text of not-a-number is the text of no number. -/
theorem signed_ne_nan (style : Style) (x : Float) :
    signText x ++ unsignedText style x ≠ "NaN".toList := by
  intro h
  have hHead := congrArg List.head? h
  unfold signText at hHead
  split at hHead
  · exact absurd hHead (by simp)
  · exact @head?_unsignedText style x 'N' rfl (by decide) hHead

/-- No two doubles have the same text. -/
theorem signed_magnitude_injective (style : Style) :
    Function.Injective (signed style.magnitude) := by
  intro x y hText
  have hLists := congrArg String.toList hText
  rw [toList_signed, toList_signed] at hLists
  cases hx : x.isNaN <;> cases hy : y.isNaN <;> rw [hx, hy] at hLists
  · obtain ⟨hSign, hUnsigned⟩ := sign_eq hLists
    exact eq_of_unsignedText hSign hUnsigned
  · exact absurd hLists (signed_ne_nan style x)
  · exact absurd hLists.symm (signed_ne_nan style y)
  · exact eq_of_isNaN hx hy

/-- The text of a constant is on one line. -/
theorem newline_notMem_constantText (x : Float) : '\n' ∉ (constantText x).toList := by
  unfold constantText
  rw [toList_signed]
  split
  · decide
  · unfold signText unsignedText
    rw [List.mem_append, not_or]
    refine ⟨by split <;> decide, ?_⟩
    split
    · decide
    · obtain ⟨v, hNumeral, -⟩ := numeral_magnitude .constant (Magnitude.ofBits x.toBits)
      exact hNumeral.newline_notMem

end LiveCompiler.Binary64
