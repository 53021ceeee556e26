import LiveCompiler.Ir.Basic
import Mathlib.Algebra.Group.Nat.Defs

/-!
# Exact identities of doubles

Sums and products do not depend on the order of their operands, and three operations give
back their left operand whatever it is: `x * 1`, `x - 0` and `x + -0`.  Signed zeros,
infinities and not-a-number are included, as all not-a-numbers are one value.

A double is a pattern of bits; an operation unpacks it, works on sign, mantissa and
exponent, rounds, and packs the result.  Packing undoes unpacking (`pack_unpack`), and what
was unpacked is already rounded (`Canonical`), which is why these operations are exact.
-/

namespace LiveCompiler

namespace Binary64

open Float.Model (UnpackedFloat)
open Float.Model.UnpackedFloat (Sign)

/-- The format of doubles. -/
abbrev format : Float.Model.Format := Float.Model.Format.binary64

/-! ## Packing -/

theorem ofBitVec_toBitVec (b : BitVec 1) : (Sign.ofBitVec b).toBitVec = b := by
  revert b
  decide

/-- A pattern is put together from its three parts. -/
theorem packComponents_unpack (b : BitVec format.numBits) :
    UnpackedFloat.packComponents format (Sign.ofBitVec (UnpackedFloat.unpackSign b))
      (UnpackedFloat.unpackExponent b) (UnpackedFloat.unpackMantissa b) = b := by
  unfold UnpackedFloat.packComponents
  rw [ofBitVec_toBitVec]
  refine BitVec.eq_of_getLsbD_eq fun i hi => ?_
  have hi64 : i < 64 := hi
  delta UnpackedFloat.unpackSign UnpackedFloat.unpackExponent UnpackedFloat.unpackMantissa
  simp only [BitVec.getLsbD_append, BitVec.getLsbD_cast, BitVec.getLsbD_extractLsb]
  by_cases hMantissa : i < 52
  · simp [hMantissa]
  · by_cases hExponent : i - 52 < 11
    · simp [hMantissa, hExponent, show 52 + (i - 52) = i by omega]
    · have hSign : i = 63 := by omega
      subst hSign
      simp only [hMantissa, hExponent, if_false]
      rfl

theorem toNat_append_one (m : BitVec 52) : (1#1 ++ m).toNat = 2 ^ 52 + m.toNat := by
  rw [BitVec.toNat_append]
  have hLt := m.isLt
  rw [Nat.shiftLeft_eq, Nat.mul_comm, ← Nat.two_pow_add_eq_or_of_lt hLt]
  rfl

theorem log2_normal (m : BitVec 52) : (2 ^ 52 + m.toNat).log2 = 52 := by
  have hLt := m.isLt
  rw [Nat.log2_eq_iff (by omega)]
  omega

/-- What a double is unpacked to: an exponent in range, and a mantissa with its highest bit
set unless the exponent is the least. -/
def Canonical : UnpackedFloat → Prop
  | .finite _ m e _ => m < 2 ^ 53 ∧ -1074 ≤ e ∧ e ≤ 971 ∧ (2 ^ 52 ≤ m ∨ e = -1074)
  | _ => True

/-- What the parts of a pattern say about the double that it is unpacked to. -/
theorem unpack_cases (b : BitVec format.numBits) :
    let sign := Sign.ofBitVec (UnpackedFloat.unpackSign b)
    let exponent := ((UnpackedFloat.unpackExponent b).toNat : Int) -
      (format.exponentBias + format.mantissaBitsWithoutImplicit)
    UnpackedFloat.unpackExponent b = -1 ∧
      (UnpackedFloat.unpackMantissa b = 0 ∧ UnpackedFloat.unpack format b = .infinity sign ∨
        UnpackedFloat.unpackMantissa b ≠ 0 ∧ UnpackedFloat.unpack format b = .notANumber) ∨
    UnpackedFloat.unpackExponent b = 0 ∧
      (UnpackedFloat.unpackMantissa b = 0 ∧ UnpackedFloat.unpack format b = .zero sign ∨
        UnpackedFloat.unpackMantissa b ≠ 0 ∧ ∃ hPos, UnpackedFloat.unpack format b =
          .finite sign (UnpackedFloat.unpackMantissa b).toNat (exponent + 1) hPos) ∨
    UnpackedFloat.unpackExponent b ≠ -1 ∧ UnpackedFloat.unpackExponent b ≠ 0 ∧
      ∃ hPos, UnpackedFloat.unpack format b =
        .finite sign (1#1 ++ UnpackedFloat.unpackMantissa b).toNat exponent hPos := by
  by_cases hAll : UnpackedFloat.unpackExponent b = -1
  · refine .inl ⟨hAll, ?_⟩
    by_cases hNone : UnpackedFloat.unpackMantissa b = 0
    · exact .inl ⟨hNone, (if_pos hAll).trans (if_pos hNone)⟩
    · exact .inr ⟨hNone, (if_pos hAll).trans (if_neg hNone)⟩
  · by_cases hZero : UnpackedFloat.unpackExponent b = 0
    · refine .inr (.inl ⟨hZero, ?_⟩)
      by_cases hNone : UnpackedFloat.unpackMantissa b = 0
      · exact .inl ⟨hNone, (if_neg hAll).trans ((if_pos hZero).trans (dif_pos hNone))⟩
      · exact .inr ⟨hNone, _, (if_neg hAll).trans ((if_pos hZero).trans (dif_neg hNone))⟩
    · exact .inr (.inr ⟨hAll, hZero, _, (if_neg hAll).trans (if_neg hZero)⟩)

theorem canonical_unpack (b : BitVec format.numBits) :
    Canonical (UnpackedFloat.unpack format b) := by
  have hMantissa : (UnpackedFloat.unpackMantissa b).toNat < 2 ^ 52 :=
    (UnpackedFloat.unpackMantissa b).isLt
  have hExponent : (UnpackedFloat.unpackExponent b).toNat < 2 ^ 11 :=
    (UnpackedFloat.unpackExponent b).isLt
  have hBias : (format.exponentBias : Int) = 1023 := rfl
  have hBits : (format.mantissaBitsWithoutImplicit : Int) = 52 := rfl
  rcases unpack_cases b with ⟨-, ⟨-, hUnpack⟩ | ⟨-, hUnpack⟩⟩ |
    ⟨hZero, ⟨-, hUnpack⟩ | ⟨hSome, _, hUnpack⟩⟩ | ⟨hNotAll, hNotZero, _, hUnpack⟩ <;> rw [hUnpack]
  · trivial
  · trivial
  · trivial
  · rw [hZero, hBias, hBits]
    refine ⟨by omega, ?_, ?_, .inr ?_⟩ <;> decide
  · have hNotAll' : (UnpackedFloat.unpackExponent b).toNat ≠ 2047 := fun h =>
      hNotAll (BitVec.eq_of_toNat_eq h)
    have hNotZero' : (UnpackedFloat.unpackExponent b).toNat ≠ 0 := fun h =>
      hNotZero (BitVec.eq_of_toNat_eq h)
    refine ⟨?_, ?_, ?_, .inl ?_⟩
    · rw [toNat_append_one]
      omega
    · rw [hBias, hBits]
      omega
    · rw [hBias, hBits]
      omega
    · rw [toNat_append_one]
      omega

/-- Packing the parts of a pattern gives the pattern back. -/
theorem pack_unpack_of_valid {b : BitVec format.numBits} (hValid : format.Valid b) :
    UnpackedFloat.pack format (UnpackedFloat.unpack format b) = b := by
  have hParts := packComponents_unpack b
  have hBias : (format.exponentBias : Int) = 1023 := rfl
  have hBits : (format.mantissaBitsWithoutImplicit : Int) = 52 := rfl
  have hMantissa : (UnpackedFloat.unpackMantissa b).toNat < 2 ^ 52 :=
    (UnpackedFloat.unpackMantissa b).isLt
  have hExponent : (UnpackedFloat.unpackExponent b).toNat < 2 ^ 11 :=
    (UnpackedFloat.unpackExponent b).isLt
  rcases unpack_cases b with ⟨hAll, ⟨hNone, hUnpack⟩ | ⟨hSome, hUnpack⟩⟩ |
    ⟨hZero, ⟨hNone, hUnpack⟩ | ⟨hSome, _, hUnpack⟩⟩ | ⟨hNotAll, hNotZero, _, hUnpack⟩ <;>
    rw [hUnpack]
  · rw [hAll, hNone] at hParts
    exact hParts
  · exact (hValid.eq_packedNaN hAll hSome).symm
  · rw [hZero, hNone] at hParts
    exact hParts
  · -- The mantissa has fewer bits than a normal number has.
    have hPos : (UnpackedFloat.unpackMantissa b).toNat ≠ 0 := fun h =>
      hSome (BitVec.eq_of_toNat_eq h)
    have hLog : (UnpackedFloat.unpackMantissa b).toNat.log2 < 52 :=
      (Nat.log2_lt hPos).mpr hMantissa
    unfold UnpackedFloat.pack
    dsimp only
    rw [if_neg (by rw [hZero, hBias, hBits]; decide), if_neg (by
      show ¬ _ = 53
      omega), BitVec.ofNat_toNat, BitVec.setWidth_eq]
    rw [hZero] at hParts
    exact hParts
  · have hNotAll' : (UnpackedFloat.unpackExponent b).toNat ≠ 2047 := fun h =>
      hNotAll (BitVec.eq_of_toNat_eq h)
    have hNotZero' : (UnpackedFloat.unpackExponent b).toNat ≠ 0 := fun h =>
      hNotZero (BitVec.eq_of_toNat_eq h)
    have hBiased : ((UnpackedFloat.unpackExponent b).toNat -
        (format.exponentBias + format.mantissaBitsWithoutImplicit : Int) + format.exponentBias +
        format.mantissaBitsWithoutImplicit).toNat = (UnpackedFloat.unpackExponent b).toNat := by
      omega
    unfold UnpackedFloat.pack
    dsimp only
    rw [hBiased, if_neg (by
      show ¬ 2 ^ 11 ≤ _
      omega), if_pos (by rw [toNat_append_one, log2_normal]; rfl)]
    have hLow : BitVec.ofNat 52 (1#1 ++ UnpackedFloat.unpackMantissa b).toNat =
        UnpackedFloat.unpackMantissa b := by
      rw [toNat_append_one]
      refine BitVec.eq_of_toNat_eq ?_
      rw [BitVec.toNat_ofNat]
      omega
    rw [hLow, BitVec.ofNat_toNat, BitVec.setWidth_eq]
    exact hParts

/-- Packing undoes unpacking. -/
theorem pack_unpack (x : Float.Model) : Float.Model.pack x.unpack = x := by
  obtain ⟨bits, hValid⟩ := x
  have hPattern := pack_unpack_of_valid hValid
  unfold Float.Model.pack Float.Model.unpack
  congr 1
  exact UInt64.toBitVec_inj.mp hPattern

/-- Two doubles that are unpacked alike are the same. -/
theorem unpack_inj {x y : Float} (h : x.toModel.unpack = y.toModel.unpack) : x = y := by
  have hModel : x.toModel = y.toModel := by
    rw [← pack_unpack x.toModel, h, pack_unpack]
  cases x
  cases y
  exact congrArg Float.ofModel hModel

theorem toBits_inj {x y : Float} (h : x.toBits = y.toBits) : x = y := by
  obtain ⟨⟨bits, hValid⟩⟩ := x
  obtain ⟨⟨bits', hValid'⟩⟩ := y
  obtain rfl : bits = bits' := h
  rfl

/-! ## Operands in another order -/

theorem sign_beq_comm (s t : Sign) : (s == t) = (t == s) := by
  cases s <;> cases t <;> rfl

theorem sign_mul_comm (s t : Sign) : s * t = t * s := by
  cases s <;> cases t <;> rfl

theorem sign_eq_of_beq {s t : Sign} (h : (s == t) = true) : s = t := by
  cases s <;> cases t <;> first | rfl | exact absurd h Bool.false_ne_true

theorem unpacked_add_comm (x y : UnpackedFloat) :
    UnpackedFloat.add format x y = UnpackedFloat.add format y x := by
  delta UnpackedFloat.add
  cases x with
  | infinity s =>
    cases y with
    | infinity t =>
      dsimp only
      rw [sign_beq_comm t s]
      split
      · rename_i h
        rw [sign_eq_of_beq h]
      · rfl
    | _ => rfl
  | notANumber => cases y <;> rfl
  | zero s =>
    cases y with
    | zero t =>
      dsimp only
      rw [sign_beq_comm t s]
      split
      · rename_i h
        rw [sign_eq_of_beq h]
      · rfl
    | _ => rfl
  | finite s m e hm =>
    cases y with
    | finite t n f hn =>
      dsimp only
      rw [Int.min_comm f e, Int.add_comm]
    | _ => rfl

theorem unpacked_mul_comm (x y : UnpackedFloat) :
    UnpackedFloat.mul format x y = UnpackedFloat.mul format y x := by
  delta UnpackedFloat.mul
  cases x <;> cases y <;> dsimp only <;> simp only [sign_mul_comm, Nat.mul_comm, Int.add_comm]

theorem add_comm (x y : Float) : x + y = y + x :=
  congrArg (fun z => Float.ofModel (Float.Model.pack z)) (unpacked_add_comm _ _)

theorem mul_comm (x y : Float) : x * y = y * x :=
  congrArg (fun z => Float.ofModel (Float.Model.pack z)) (unpacked_mul_comm _ _)

/-! ## Neutral operands -/

theorem unpack_zero : (0.0 : Float).toModel.unpack = .zero .positive := rfl

theorem unpack_negZero : (-0.0 : Float).toModel.unpack = .zero .negative := rfl

theorem unpack_one : (1.0 : Float).toModel.unpack = .finite .positive (2 ^ 52) (-52) (by decide) :=
  rfl

theorem unpacked_sub_zero (x : UnpackedFloat) :
    UnpackedFloat.sub format x (.zero .positive) = x := by
  cases x with
  | zero s => cases s <;> rfl
  | _ => rfl

theorem unpacked_add_negZero (x : UnpackedFloat) :
    UnpackedFloat.add format x (.zero .negative) = x := by
  cases x with
  | zero s => cases s <;> rfl
  | _ => rfl

theorem sub_zero (x : Float) : x - 0.0 = x := by
  show Float.ofModel (Float.Model.pack
    (UnpackedFloat.sub format x.toModel.unpack (0.0 : Float).toModel.unpack)) = x
  rw [unpack_zero, unpacked_sub_zero, pack_unpack]

theorem add_negZero (x : Float) : x + -0.0 = x := by
  show Float.ofModel (Float.Model.pack
    (UnpackedFloat.add format x.toModel.unpack (-0.0 : Float).toModel.unpack)) = x
  rw [unpack_negZero, unpacked_add_negZero, pack_unpack]

/-- Zeros behind a mantissa are shifted out without a trace. -/
theorem shiftRight_pow (m n : Nat) :
    (⟨m * 2 ^ n, false, false⟩ : UnpackedFloat.ExtendedMantissa) >>> n = ⟨m, false, false⟩ := by
  induction n generalizing m with
  | zero =>
    rw [Nat.pow_zero, Nat.mul_one]
    rfl
  | succ n ih =>
    have hDouble : m * 2 ^ (n + 1) = m * 2 * 2 ^ n := by
      rw [Nat.pow_succ, Nat.mul_assoc, Nat.mul_comm 2]
    show ((⟨m * 2 ^ (n + 1), false, false⟩ : UnpackedFloat.ExtendedMantissa) >>> n).shiftRightOne = _
    rw [hDouble, ih]
    simp [UnpackedFloat.ExtendedMantissa.shiftRightOne]

theorem log2_mul_pow {m : Nat} (hm : 0 < m) (n : Nat) : (m * 2 ^ n).log2 = m.log2 + n := by
  have hPos : m * 2 ^ n ≠ 0 := Nat.mul_ne_zero (Nat.ne_of_gt hm) (Nat.ne_of_gt (Nat.two_pow_pos n))
  rw [Nat.log2_eq_iff hPos, Nat.pow_add, Nat.add_right_comm, Nat.pow_add 2 (m.log2 + 1)]
  exact ⟨Nat.mul_le_mul_right _ (Nat.log2_self_le (Nat.ne_of_gt hm)),
    (Nat.mul_lt_mul_right (Nat.two_pow_pos n)).mpr Nat.lt_log2_self⟩

/-- A rounded number has the exponent that rounding aims at. -/
theorem targetExponent_eq {s : Sign} {m : Nat} {e : Int} {hm : 0 < m}
    (h : Canonical (.finite s m e hm)) :
    format.targetExponent (Float.Model.totalExponent m e) = e := by
  obtain ⟨hLt, hLow, -, hNormal⟩ := h
  have hLog : m.log2 < 53 := (Nat.log2_lt (by omega)).mpr hLt
  have hBits : (format.mantissaBits : Int) = 53 := rfl
  have hMin : format.minExponent = -1074 := rfl
  unfold Float.Model.Format.targetExponent Float.Model.totalExponent
  rw [hBits, hMin]
  rcases hNormal with hHigh | rfl
  · have hLe : 52 ≤ m.log2 := (Nat.le_log2 (by omega)).mpr hHigh
    omega
  · omega

/-- Rounding an exact number with zeros behind its mantissa only drops the zeros. -/
theorem roundWithAccuracy_shifted {s : Sign} {m : Nat} {e : Int} {hm : 0 < m}
    (h : Canonical (.finite s m e hm)) {low : Int} {n : Nat} (hLow : low + n = e) :
    UnpackedFloat.roundWithAccuracy format s (m * 2 ^ n) low .exact = .finite s m e hm := by
  have hTotal : Float.Model.totalExponent (m * 2 ^ n) low = Float.Model.totalExponent m e := by
    unfold Float.Model.totalExponent
    rw [log2_mul_pow hm]
    omega
  have hFirst : UnpackedFloat.shiftToTargetExponent format (m * 2 ^ n) low .exact =
      (⟨m, false, false⟩, e) := by
    unfold UnpackedFloat.shiftToTargetExponent UnpackedFloat.shiftToExponent
    have hShift : (e - low).toNat = n := by omega
    rw [hTotal, targetExponent_eq h]
    dsimp only
    rw [hShift]
    exact Prod.ext (shiftRight_pow m n) hLow
  have hSecond : UnpackedFloat.shiftToTargetExponent format m e .exact =
      (⟨m, false, false⟩, e) := by
    unfold UnpackedFloat.shiftToTargetExponent UnpackedFloat.shiftToExponent
    rw [targetExponent_eq h]
    dsimp only
    rw [Int.sub_self]
    exact Prod.ext rfl (Int.add_zero e)
  delta UnpackedFloat.roundWithAccuracy
  rw [hFirst]
  show (match UnpackedFloat.shiftToTargetExponent format m e .exact with
    | (em, e) => if h : em.mantissa = 0 then UnpackedFloat.zero s
      else UnpackedFloat.finite s em.mantissa e (Nat.pos_of_ne_zero h)) = _
  rw [hSecond]
  exact dif_neg (Nat.pos_iff_ne_zero.mp hm)

theorem unpacked_mul_one {x : UnpackedFloat} (h : Canonical x) (hOne : 0 < 2 ^ 52) :
    UnpackedFloat.mul format x (.finite .positive (2 ^ 52) (-52) hOne) = x := by
  cases x with
  | infinity s => cases s <;> rfl
  | notANumber => rfl
  | zero s => cases s <;> rfl
  | finite s m e hm =>
    have hSign : s * .positive = s := by cases s <;> rfl
    show UnpackedFloat.roundWithAccuracy format (s * .positive) (m * 2 ^ 52) (e + -52) .exact = _
    rw [hSign]
    exact roundWithAccuracy_shifted h (by omega)

theorem mul_one (x : Float) : x * 1.0 = x := by
  show Float.ofModel (Float.Model.pack
    (UnpackedFloat.mul format x.toModel.unpack (1.0 : Float).toModel.unpack)) = x
  have hCanonical : Canonical x.toModel.unpack := canonical_unpack _
  rw [unpack_one, unpacked_mul_one hCanonical, pack_unpack]

/-- Only one double compares equal to one. -/
theorem eq_one_of_beq {c : Float} (h : (c == 1.0) = true) : c = 1.0 := by
  refine unpack_inj ?_
  have hCompare : UnpackedFloat.beq c.toModel.unpack (1.0 : Float).toModel.unpack = true := h
  rw [unpack_one] at hCompare ⊢
  generalize c.toModel.unpack = x at hCompare ⊢
  cases x with
  | infinity s => cases s <;> exact absurd hCompare Bool.false_ne_true
  | notANumber => exact absurd hCompare Bool.false_ne_true
  | zero s => exact absurd hCompare Bool.false_ne_true
  | finite s m e hm =>
    cases s with
    | negative => exact absurd hCompare Bool.false_ne_true
    | positive =>
      have hThen : (compare e (-52)).then (compare m (2 ^ 52)) = .eq := by
        have hSome : (some ((compare e (-52)).then (compare m (2 ^ 52))) == some Ordering.eq) = true :=
          hCompare
        simpa using hSome
      obtain ⟨hExponent, hMantissa⟩ := Ordering.then_eq_eq.mp hThen
      rw [Std.compare_eq_iff_eq] at hExponent hMantissa
      subst hExponent hMantissa
      rfl

end Binary64

/-- Operands that may change places do not matter in which order. -/
theorem Ir.ArithOp.apply_comm {op : ArithOp} (h : op.isCommutative = true) (x y : Float) :
    op.apply x y = op.apply y x := by
  cases op with
  | add => exact Binary64.add_comm x y
  | sub => exact absurd h Bool.false_ne_true
  | mul => exact Binary64.mul_comm x y

end LiveCompiler
