import LiveCompiler.Binary64.Literal
import LiveCompiler.Binary64.Text
import LiveCompiler.Proofs.Binary64.Identities

/-!
# Literals of doubles

Every finite double whose sign bit is clear has a decimal literal that reads back to it: its exact
value, with as many digits behind the point as the least exponent asks for (`exactLiteral`).
Reading divides by a power of ten, and where the quotient is exact nothing is rounded
(`unpacked_ofScientific`).
-/

namespace LiveCompiler.Binary64

open Float.Model (UnpackedFloat)

/-- The product of two numbers has at most one bit more than the two have above their highest. -/
theorem log2_mul_le {m n : Nat} (hm : 0 < m) (hn : 0 < n) : (m * n).log2 ≤ m.log2 + n.log2 + 1 := by
  have hLt : m * n < 2 ^ (m.log2 + n.log2 + 2) := by
    have hBoth : m * n < 2 ^ (m.log2 + 1) * 2 ^ (n.log2 + 1) :=
      Nat.mul_lt_mul_of_lt_of_le Nat.lt_log2_self (Nat.le_of_lt Nat.lt_log2_self)
        (Nat.two_pow_pos _)
    rwa [← Nat.pow_add, show m.log2 + 1 + (n.log2 + 1) = m.log2 + n.log2 + 2 by omega] at hBoth
  have hPos : m * n ≠ 0 := Nat.mul_ne_zero (by omega) (by omega)
  have hLog := (Nat.log2_lt hPos).mpr hLt
  omega

/-- The quotient of what is read and a power of ten is cut no higher than the last place of the
number. -/
theorem exists_cut {m : Nat} {e : Int} {hm : 0 < m} (h : Canonical (.finite .positive m e hm))
    {places shift : Nat} (hShift : (shift : Int) = e + places) :
    ∃ low : Nat, -(low : Int) ≤ e ∧
      min (0 - 0) (format.targetExponent
        (Float.Model.totalExponent (m * 2 ^ shift * 5 ^ places) 0 -
          Float.Model.totalExponent (10 ^ places) 0)) = -(low : Int) := by
  obtain ⟨hLt, hLeast, -, -⟩ := h
  have hFive : 0 < 5 ^ places := Nat.pow_pos (by decide)
  have hLog : m.log2 < 53 := (Nat.log2_lt (by omega)).mpr hLt
  have hMantissaBits : (format.mantissaBits : Int) = 53 := rfl
  have hMin : format.minExponent = -1074 := rfl
  have hProduct : (m * 2 ^ shift * 5 ^ places).log2 ≤ m.log2 + (5 ^ places).log2 + 1 + shift := by
    rw [Nat.mul_right_comm, log2_mul_pow (Nat.mul_pos hm hFive)]
    have hLe := log2_mul_le hm hFive
    omega
  have hDivisor : (10 ^ places).log2 = (5 ^ places).log2 + places := by
    rw [show 10 ^ places = 5 ^ places * 2 ^ places from Nat.mul_pow 5 2 places, log2_mul_pow hFive]
  unfold Float.Model.Format.targetExponent Float.Model.totalExponent
  rw [hMantissaBits, hMin, hDivisor]
  refine ⟨(-min (0 - 0) (max (((m * 2 ^ shift * 5 ^ places).log2 + 1 + (0 : Int) -
    (((5 ^ places).log2 + places : Nat) + 1 + 0)) - 53) (-1074))).toNat, ?_, ?_⟩ <;> omega

/-- Where it is cut there, the division leaves no remainder. -/
theorem divCore_exact {m places shift low zeros : Nat} (hExponents : shift + low = zeros + places)
    (hCut : min (0 - 0) (format.targetExponent
      (Float.Model.totalExponent (m * 2 ^ shift * 5 ^ places) 0 -
        Float.Model.totalExponent (10 ^ places) 0)) = -(low : Int)) :
    UnpackedFloat.divCore format (m * 2 ^ shift * 5 ^ places) 0 (10 ^ places) 0 =
      (m * 2 ^ zeros, -(low : Int), .exact) := by
  have hProduct : m * 2 ^ shift * 5 ^ places * 2 ^ low = m * 2 ^ zeros * 10 ^ places := by
    rw [show 10 ^ places = 5 ^ places * 2 ^ places from Nat.mul_pow 5 2 places,
      Nat.mul_right_comm, Nat.mul_assoc m, ← Nat.pow_add, hExponents, Nat.pow_add]
    simp only [Nat.mul_assoc, Nat.mul_comm (2 ^ places)]
  have hTenPos : 0 < 10 ^ places := Nat.pow_pos (by decide)
  unfold UnpackedFloat.divCore
  rw [hCut]
  dsimp only
  rw [show ((0 : Int) - 0 - -(low : Int)).toNat = low by omega, Nat.shiftLeft_eq, hProduct,
    Nat.mul_div_cancel _ hTenPos, Nat.mul_mod_left]
  rfl

/-- A number that is written with enough decimal places is read without rounding. -/
theorem unpacked_ofScientific {m : Nat} {e : Int} {hm : 0 < m}
    (h : Canonical (.finite .positive m e hm)) {places shift : Nat} (hMany : 0 < places)
    (hFew : places ≤ 2048) (hShift : (shift : Int) = e + places) :
    UnpackedFloat.ofScientific format (m * 2 ^ shift * 5 ^ places) (-places) =
      .finite .positive m e hm := by
  have hFive : 0 < 5 ^ places := Nat.pow_pos (by decide)
  have hBits : format.exponentBits = 11 := rfl
  have hPos : m * 2 ^ shift * 5 ^ places ≠ 0 :=
    Nat.mul_ne_zero (Nat.mul_ne_zero (by omega) (Nat.ne_of_gt (Nat.two_pow_pos _))) (by omega)
  obtain ⟨low, hLow, hCut⟩ := exists_cut h hShift
  obtain ⟨zeros, hZeros⟩ : ∃ zeros : Nat, (zeros : Int) = e + low := ⟨(e + low).toNat, by omega⟩
  unfold UnpackedFloat.ofScientific
  rw [dif_neg hPos, if_neg (by rw [hBits]; omega), if_neg (by rw [hBits]; omega),
    if_neg (by omega)]
  show (match UnpackedFloat.divCore format (m * 2 ^ shift * 5 ^ places) 0
      (10 ^ (- -(places : Int)).toNat) 0 with
    | (m, e, accuracy) => UnpackedFloat.roundWithAccuracy format .positive m e accuracy) = _
  rw [show (- -(places : Int)).toNat = places by omega,
    divCore_exact (show shift + low = zeros + places by omega) hCut]
  exact roundWithAccuracy_shifted h (by omega)

/-- What a literal with a point is read as. -/
theorem ofLiteral?_point {whole fraction : List Char} (hWhole : ∀ c ∈ whole, c.isDigit = true)
    (hFraction : ∀ c ∈ fraction, c.isDigit = true) (hSome : whole ≠ []) :
    ofLiteral? (whole ++ '.' :: fraction) =
      some (Float.ofScientific (digitsValue (whole ++ fraction)) true fraction.length) := by
  have hTake : (whole ++ '.' :: fraction).takeWhile Char.isDigit = whole := by
    rw [List.takeWhile_append_of_pos hWhole, List.takeWhile_cons_of_neg (by decide),
      List.append_nil]
  have hDrop : (whole ++ '.' :: fraction).dropWhile Char.isDigit = '.' :: fraction := by
    rw [List.dropWhile_append_of_pos hWhole, List.dropWhile_cons_of_neg (by decide)]
  unfold ofLiteral?
  rw [hTake, hDrop]
  refine if_pos ?_
  rw [List.all_eq_true.mpr hFraction]
  simp [hSome]

/-- The literal with these digits and so many places behind the point. -/
def fixedLiteral (places n : Nat) : List Char :=
  Nat.toDigits 10 (n / 10 ^ places) ++
    '.' :: (List.replicate (places - (Nat.toDigits 10 (n % 10 ^ places)).length) '0' ++
      Nat.toDigits 10 (n % 10 ^ places))

theorem ofLiteral?_fixedLiteral {places : Nat} (hMany : 0 < places) (n : Nat) :
    ofLiteral? (fixedLiteral places n) = some (Float.ofScientific n true places) := by
  have hDigits : ∀ m, ∀ c ∈ Nat.toDigits 10 m, c.isDigit = true := fun m c hc =>
    Nat.isDigit_of_mem_toDigits (by decide) (by decide) hc
  have hLength : (Nat.toDigits 10 (n % 10 ^ places)).length ≤ places :=
    (Nat.length_toDigits_le_iff (by decide) hMany).mpr (Nat.mod_lt _ (Nat.pow_pos (by decide)))
  have hFraction : ∀ c ∈ List.replicate (places - (Nat.toDigits 10 (n % 10 ^ places)).length) '0' ++
      Nat.toDigits 10 (n % 10 ^ places), c.isDigit = true := by
    intro c hc
    rcases List.mem_append.mp hc with hc | hc
    · rw [List.eq_of_mem_replicate hc]
      decide
    · exact hDigits _ c hc
  have hValue : digitsValue (Nat.toDigits 10 (n / 10 ^ places) ++
      (List.replicate (places - (Nat.toDigits 10 (n % 10 ^ places)).length) '0' ++
        Nat.toDigits 10 (n % 10 ^ places))) = n := by
    show Nat.ofDigitChars 10 _ 0 = n
    rw [Nat.ofDigitChars_append, Nat.ofDigitChars_append, Nat.ofDigitChars_ten_toDigits,
      Nat.ofDigitChars_replicate_zero, Nat.ofDigitChars_eq_ofDigitChars_zero,
      Nat.ofDigitChars_ten_toDigits, ← Nat.mul_assoc, ← Nat.pow_add, Nat.add_sub_cancel' hLength]
    exact Nat.div_add_mod n (10 ^ places)
  unfold fixedLiteral
  rw [ofLiteral?_point (hDigits _) hFraction Nat.toDigits_ne_nil, hValue, List.length_append,
    List.length_replicate, Nat.sub_add_cancel hLength]

/-- A finite double without sign is zero or positive. -/
theorem unpack_of_isFinite {x : Float} (hFinite : x.isFinite = true)
    (hSign : isNegative x = false) : x.toModel.unpack = .zero .positive ∨
      ∃ m e, ∃ hm : 0 < m, x.toModel.unpack = .finite .positive m e hm := by
  have hBit : UnpackedFloat.Sign.ofBitVec
      (@UnpackedFloat.unpackSign format x.toModel.toBits.toBitVec) = .positive := by
    have hLow : x.toModel.toBits.toBitVec.toNat < 2 ^ 63 :=
      Nat.lt_of_not_le (of_decide_eq_false hSign)
    have hZero : @UnpackedFloat.unpackSign format x.toModel.toBits.toBitVec = 0#1 := by
      refine BitVec.eq_of_toNat_eq ?_
      show (BitVec.extractLsb 63 63 x.toModel.toBits.toBitVec).toNat = 0
      rw [BitVec.extractLsb_toNat, Nat.shiftRight_eq_div_pow, Nat.div_eq_of_lt hLow]
    rw [hZero]
    rfl
  have hFinite : x.toModel.unpack.isFinite = true := hFinite
  have hUnpack : x.toModel.unpack = UnpackedFloat.unpack format x.toModel.toBits.toBitVec := rfl
  rcases @unpack_cases x.toModel.toBits.toBitVec with ⟨-, ⟨-, h⟩ | ⟨-, h⟩⟩ |
    ⟨-, ⟨-, h⟩ | ⟨-, _, h⟩⟩ | ⟨-, -, _, h⟩
  · rw [hUnpack, h] at hFinite
    cases hFinite
  · rw [hUnpack, h] at hFinite
    cases hFinite
  · exact .inl (by rw [hUnpack, h, hBit])
  · exact .inr ⟨_, _, _, by rw [hUnpack, h, hBit]⟩
  · exact .inr ⟨_, _, _, by rw [hUnpack, h, hBit]⟩

/-- A finite double whose sign bit is clear. -/
structure IsUnsigned (x : Float) : Prop where
  finite : x.isFinite = true
  unsigned : isNegative x = false

/-- The literal with the exact value of an unsigned double.  Every double is a multiple of the least
one, two to the power of minus 1074, so 1074 places behind the point are enough. -/
def exactLiteral (x : Float) : List Char :=
  match x.toModel.unpack with
  | .finite _ m e _ => fixedLiteral 1074 (m * 2 ^ (e + 1074).toNat * 5 ^ 1074)
  | _ => fixedLiteral 1074 0

/-- A number with so many places is read as the double that it is unpacked to. -/
theorem ofScientific_eq_of_unpack {x : Float} {n places : Nat} (hMany : 22 < places)
    (hSame : UnpackedFloat.ofScientific format n (-places) = x.toModel.unpack) :
    Float.ofScientific n true places = x := by
  have hFew : ¬ (n < 2 ^ 53 ∧ places ≤ 22) := fun h => absurd h.2 (by omega)
  have hModel : Float.Model.ofScientific n (-places) = x.toModel := by
    unfold Float.Model.ofScientific
    rw [hSame, pack_unpack]
  unfold Float.ofScientific
  rw [dif_neg hFew, if_pos rfl, Int.negOfNat_eq]
  exact congrArg Float.ofModel hModel

/-- The exact value of an unsigned double reads back to it. -/
theorem ofLiteral?_exactLiteral {x : Float} (h : IsUnsigned x) :
    ofLiteral? (exactLiteral x) = some x := by
  unfold exactLiteral
  rcases unpack_of_isFinite h.finite h.unsigned with hZero | ⟨m, e, hm, hFinite⟩
  · rw [hZero]
    dsimp only
    rw [ofLiteral?_fixedLiteral (by decide), ofScientific_eq_of_unpack (by decide)]
    rw [hZero]
    rfl
  · have hCanonical : Canonical x.toModel.unpack := canonical_unpack _
    rw [hFinite] at hCanonical ⊢
    have hLeast : -1074 ≤ e := hCanonical.2.1
    dsimp only
    rw [ofLiteral?_fixedLiteral (by decide), ofScientific_eq_of_unpack (by decide)]
    rw [hFinite]
    exact unpacked_ofScientific hCanonical (by decide) (by decide) (by omega)

end LiveCompiler.Binary64
