import LiveCompiler.Binary64.Text
import Mathlib.Algebra.Order.Field.Power
import Mathlib.Algebra.Order.Field.Rat
import Mathlib.Tactic.FieldSimp
import Mathlib.Tactic.Linarith
import Mathlib.Tactic.Positivity
import Mathlib.Tactic.Ring

/-!
# Decimals that read back to one double

A decimal reads back to a double if it lies in the interval of the numbers that round to it
(`readsBack_iff`).  The intervals of two doubles have at most an end in common, and then one of the
two mantissas is odd, so that its interval has no ends.  So no decimal reads back to two doubles
(`Canonical.eq_of_rounds`), and the decimal that is chosen for a double tells which one it is
(`rounds_shortest`).
-/

namespace LiveCompiler.Binary64

/-- The number that a decimal stands for. -/
def Decimal.value (d : Decimal) : ℚ :=
  d.digits * 10 ^ d.exponent

/-! ## Comparing -/

theorem zpow_mul_pow_toNat_neg {base : ℚ} (hBase : base ≠ 0) (i : ℤ) :
    base ^ i * base ^ (-i).toNat = base ^ i.toNat := by
  rw [← zpow_natCast, ← zpow_natCast, ← zpow_add₀ hBase]
  congr 1
  omega

/-- The two numbers that are compared, with their denominators taken away. -/
theorem compareScaled_scale (a b : ℕ) (i j : ℤ) :
    ∃ scale : ℚ, 0 < scale ∧
      ((a * powerOfTen i.toNat * powerOfTwo (-j).toNat : ℕ) : ℚ) = a * 10 ^ i * scale ∧
      ((b * powerOfTwo j.toNat * powerOfTen (-i).toNat : ℕ) : ℚ) = b * 2 ^ j * scale := by
  refine ⟨10 ^ (-i).toNat * 2 ^ (-j).toNat, by positivity, ?_, ?_⟩
  · have hTen := zpow_mul_pow_toNat_neg (show (10 : ℚ) ≠ 0 by norm_num) i
    calc ((a * powerOfTen i.toNat * powerOfTwo (-j).toNat : ℕ) : ℚ)
        = a * 10 ^ i.toNat * 2 ^ (-j).toNat := by
          simp [powerOfTen, powerOfTwo]
      _ = a * 10 ^ i * (10 ^ (-i).toNat * 2 ^ (-j).toNat) := by
          rw [← hTen]
          ring
  · have hTwo := zpow_mul_pow_toNat_neg (show (2 : ℚ) ≠ 0 by norm_num) j
    calc ((b * powerOfTwo j.toNat * powerOfTen (-i).toNat : ℕ) : ℚ)
        = b * 2 ^ j.toNat * 10 ^ (-i).toNat := by
          simp [powerOfTen, powerOfTwo]
      _ = b * 2 ^ j * (10 ^ (-i).toNat * 2 ^ (-j).toNat) := by
          rw [← hTwo]
          ring

theorem compareScaled_eq_lt_iff {a b : ℕ} {i j : ℤ} :
    compareScaled a i b j = .lt ↔ (a : ℚ) * 10 ^ i < b * 2 ^ j := by
  obtain ⟨scale, hPos, hLeft, hRight⟩ := compareScaled_scale a b i j
  rw [compareScaled, Nat.compare_eq_lt, ← Nat.cast_lt (α := ℚ), hLeft, hRight,
    mul_lt_mul_iff_of_pos_right hPos]

theorem compareScaled_eq_gt_iff {a b : ℕ} {i j : ℤ} :
    compareScaled a i b j = .gt ↔ (b : ℚ) * 2 ^ j < a * 10 ^ i := by
  obtain ⟨scale, hPos, hLeft, hRight⟩ := compareScaled_scale a b i j
  rw [compareScaled, Nat.compare_eq_gt, ← Nat.cast_lt (α := ℚ), hLeft, hRight,
    mul_lt_mul_iff_of_pos_right hPos]

theorem compareScaled_eq_eq_iff {a b : ℕ} {i j : ℤ} :
    compareScaled a i b j = .eq ↔ (a : ℚ) * 10 ^ i = b * 2 ^ j := by
  obtain ⟨scale, hPos, hLeft, hRight⟩ := compareScaled_scale a b i j
  rw [compareScaled, Nat.compare_eq_eq, ← Nat.cast_inj (R := ℚ), hLeft, hRight,
    mul_left_inj' hPos.ne']

/-! ## Intervals -/

namespace Magnitude

/-- The lower end of the interval of a double, in quarters of its last place. -/
def low (x : Magnitude) : ℕ :=
  if x.narrowBelow then 4 * x.mantissa - 1 else 4 * x.mantissa - 2

/-- The upper end of the interval of a double, in quarters of its last place. -/
def high (x : Magnitude) : ℕ :=
  4 * x.mantissa + 2

/-- A quarter of the last place. -/
def unit (x : Magnitude) : ℚ :=
  2 ^ (x.exponent - 2)

theorem unit_pos (x : Magnitude) : 0 < x.unit := by
  unfold unit
  positivity

/-- A number rounds to a double: it lies in the interval of the double, which has its ends if the
mantissa is even. -/
structure Rounds (x : Magnitude) (v : ℚ) : Prop where
  above : x.low * x.unit < v ∨ x.mantissa % 2 = 0 ∧ v = x.low * x.unit
  below : v < x.high * x.unit ∨ x.mantissa % 2 = 0 ∧ v = x.high * x.unit

theorem readsBack_iff {x : Magnitude} {d : Decimal} :
    x.readsBack d = true ↔ x.Rounds d.value := by
  unfold readsBack
  simp only [Bool.and_eq_true, Bool.or_eq_true, beq_iff_eq, compareScaled_eq_lt_iff,
    compareScaled_eq_gt_iff, compareScaled_eq_eq_iff]
  exact ⟨fun h => ⟨h.1, h.2⟩, fun h => ⟨h.above, h.below⟩⟩

/-- The magnitudes of doubles: a mantissa of at most 53 bits, which has its highest bit set unless
the exponent is the least.  The gap below is narrow where the exponent goes up. -/
structure Canonical (x : Magnitude) : Prop where
  mantissa_lt : x.mantissa < 2 ^ 53
  least_le : -1074 ≤ x.exponent
  normal : 2 ^ 52 ≤ x.mantissa ∨ x.exponent = -1074
  narrow : x.narrowBelow = true ↔ x.mantissa = 2 ^ 52 ∧ x.exponent ≠ -1074

theorem canonical_ofBits (bits : UInt64) : (ofBits bits).Canonical := by
  have hFraction : bits.toNat % powerOfTwo 52 < 2 ^ 52 := Nat.mod_lt _ (by decide)
  have hTwo : powerOfTwo 52 = 2 ^ 52 := rfl
  unfold ofBits
  dsimp only
  split
  · constructor <;> dsimp only
    · omega
    · omega
    · exact .inr rfl
    · simp
  · rename_i hBiased
    constructor <;> dsimp only
    · omega
    · omega
    · left
      omega
    · simp only [Bool.and_eq_true, beq_iff_eq, bne_iff_ne]
      omega

variable {x y : Magnitude} {v : ℚ}

/-- Where the interval of one double ends another one begins, or later.  If they have this end in
common, one of the mantissas is odd. -/
theorem Canonical.high_le_low (hx : x.Canonical) (hy : y.Canonical)
    (hLess : x.exponent < y.exponent ∨ x.exponent = y.exponent ∧ x.mantissa < y.mantissa) :
    x.high * x.unit ≤ y.low * y.unit ∧ (x.high * x.unit = y.low * y.unit →
      ¬ (x.mantissa % 2 = 0 ∧ y.mantissa % 2 = 0)) := by
  have hUnit := x.unit_pos
  rcases hLess with hExponent | ⟨hExponent, hMantissa⟩
  · -- The last place of the greater one is at least twice as much.
    have hPlaces : 2 * x.unit ≤ y.unit := by
      unfold unit
      calc (2 : ℚ) * 2 ^ (x.exponent - 2) = 2 ^ (x.exponent - 2 + 1) := by
            rw [zpow_add_one₀ (by norm_num), Rat.mul_comm]
        _ ≤ 2 ^ (y.exponent - 2) := zpow_le_zpow_right₀ (by norm_num) (by omega)
    have hQuarters : x.high ≤ 2 * y.low ∧ (x.high = 2 * y.low → x.mantissa = 2 ^ 53 - 1) := by
      have hTop := hx.mantissa_lt
      have hLeast := hx.least_le
      have hNormal := hy.normal
      have hNarrow := hy.narrow
      unfold high low
      split
      · rename_i hBelow
        have hOnly := (hNarrow.mp hBelow).1
        omega
      · rename_i hBelow
        have hMore : y.mantissa ≠ 2 ^ 52 := fun hEq => hBelow (hNarrow.mpr ⟨hEq, by omega⟩)
        omega
    have hCast : (x.high : ℚ) ≤ 2 * y.low := by exact_mod_cast hQuarters.1
    have hLow : (0 : ℚ) ≤ y.low := Nat.cast_nonneg _
    have hDoubled : x.high * x.unit ≤ y.low * (2 * x.unit) := by nlinarith
    refine ⟨hDoubled.trans (mul_le_mul_of_nonneg_left hPlaces hLow), fun hEq hEven => ?_⟩
    have hSame : (x.high : ℚ) * x.unit = 2 * y.low * x.unit := by nlinarith
    have hTwice : (x.high : ℚ) = 2 * y.low := mul_right_cancel₀ hUnit.ne' hSame
    have hOdd := hQuarters.2 (by exact_mod_cast hTwice)
    omega
  · have hSame : y.unit = x.unit := by rw [unit, unit, hExponent]
    have hQuarters : x.high ≤ y.low ∧ (x.high = y.low → y.mantissa = x.mantissa + 1) := by
      unfold high low
      split <;> omega
    have hCast : (x.high : ℚ) ≤ y.low := by exact_mod_cast hQuarters.1
    rw [hSame]
    refine ⟨mul_le_mul_of_nonneg_right hCast hUnit.le, fun hEq hEven => ?_⟩
    have hEnds : (x.high : ℚ) = y.low := mul_right_cancel₀ hUnit.ne' hEq
    have hNext := hQuarters.2 (by exact_mod_cast hEnds)
    omega

theorem Rounds.le_high (h : x.Rounds v) : v ≤ x.high * x.unit :=
  h.below.elim le_of_lt fun hEnd => hEnd.2.le

theorem Rounds.low_le (h : x.Rounds v) : x.low * x.unit ≤ v :=
  h.above.elim le_of_lt fun hEnd => hEnd.2.ge

theorem Canonical.not_rounds_both (hx : x.Canonical) (hy : y.Canonical)
    (hLess : x.exponent < y.exponent ∨ x.exponent = y.exponent ∧ x.mantissa < y.mantissa)
    (h : x.Rounds v) : ¬ y.Rounds v := by
  intro h'
  obtain ⟨hEnds, hOdd⟩ := hx.high_le_low hy hLess
  have hHigh : v = x.high * x.unit := le_antisymm h.le_high (hEnds.trans h'.low_le)
  have hLow : v = y.low * y.unit := le_antisymm (h.le_high.trans hEnds) h'.low_le
  have hEven : x.mantissa % 2 = 0 := h.below.elim (fun hLt => absurd hHigh hLt.ne) And.left
  have hEven' : y.mantissa % 2 = 0 := h'.above.elim (fun hLt => absurd hLow hLt.ne') And.left
  exact hOdd (hHigh.symm.trans hLow) ⟨hEven, hEven'⟩

/-- A number rounds to one double only. -/
theorem Canonical.eq_of_rounds (hx : x.Canonical) (hy : y.Canonical) (h : x.Rounds v)
    (h' : y.Rounds v) : x.mantissa = y.mantissa ∧ x.exponent = y.exponent := by
  have hNotBelow : ¬ (x.exponent < y.exponent ∨
      x.exponent = y.exponent ∧ x.mantissa < y.mantissa) :=
    fun hLess => hx.not_rounds_both hy hLess h h'
  have hNotAbove : ¬ (y.exponent < x.exponent ∨
      y.exponent = x.exponent ∧ y.mantissa < x.mantissa) :=
    fun hLess => hy.not_rounds_both hx hLess h' h
  omega

/-! ## The decimal that is chosen -/

theorem value_dropZeros (d : Decimal) : d.dropZeros.value = d.value := by
  fun_induction Decimal.dropZeros d with
  | case1 d => rfl
  | case2 d hNot ih =>
    rw [ih]
    have hTen : d.digits = 10 * (d.digits / 10) := by omega
    unfold Decimal.value
    dsimp only
    rw [zpow_add_one₀ (by norm_num)]
    calc ((d.digits / 10 : ℕ) : ℚ) * (10 ^ d.exponent * 10)
        = ((10 * (d.digits / 10) : ℕ) : ℚ) * 10 ^ d.exponent := by
          push_cast
          ring
      _ = d.digits * 10 ^ d.exponent := by rw [← hTen]

theorem value_exactDecimal (x : Magnitude) :
    x.exactDecimal.value = x.mantissa * 2 ^ x.exponent := by
  have hTwo := zpow_mul_pow_toNat_neg (show (2 : ℚ) ≠ 0 by norm_num) x.exponent
  have hTen := zpow_mul_pow_toNat_neg (show (10 : ℚ) ≠ 0 by norm_num) (min x.exponent 0)
  have hPlaces : (-min x.exponent 0).toNat = (-x.exponent).toNat := by omega
  have hNone : (min x.exponent 0).toNat = 0 := by omega
  rw [hPlaces, hNone, pow_zero, show (10 : ℚ) = 2 * 5 by norm_num, mul_pow] at hTen
  unfold Decimal.value exactDecimal
  dsimp only
  calc ((x.mantissa * powerOfTwo x.exponent.toNat * Nat.pow 5 (-x.exponent).toNat : ℕ) : ℚ) *
        10 ^ min x.exponent 0
      = x.mantissa * 2 ^ x.exponent.toNat * 5 ^ (-x.exponent).toNat *
          (2 * 5) ^ min x.exponent 0 := by
        norm_num [powerOfTwo]
    _ = x.mantissa * 2 ^ x.exponent * ((2 * 5) ^ min x.exponent 0 *
          (2 ^ (-x.exponent).toNat * 5 ^ (-x.exponent).toNat)) := by
        rw [← hTwo]
        ring
    _ = x.mantissa * 2 ^ x.exponent := by rw [hTen, Rat.mul_one]

/-- A double lies in its own interval. -/
theorem rounds_self (x : Magnitude) : x.Rounds (x.mantissa * 2 ^ x.exponent) := by
  have hUnit := x.unit_pos
  have hQuarters : (x.mantissa : ℚ) * 2 ^ x.exponent = (4 * x.mantissa : ℕ) * x.unit := by
    have hPlace : (2 : ℚ) ^ x.exponent = 4 * x.unit := by
      unfold unit
      rw [zpow_sub₀ (by norm_num)]
      norm_num
      ring
    rw [hPlace]
    push_cast
    ring
  have hHigh : (4 * x.mantissa : ℕ) < x.high := Nat.lt_add_of_pos_right (by decide)
  rw [hQuarters]
  constructor
  · rcases Nat.eq_zero_or_pos x.mantissa with hZero | hPos
    · right
      have hLow : x.low = 0 := by
        unfold low
        split <;> omega
      rw [hLow, hZero]
      exact ⟨rfl, rfl⟩
    · left
      have hLow : x.low < 4 * x.mantissa := by
        unfold low
        split <;> omega
      exact mul_lt_mul_of_pos_right (by exact_mod_cast hLow) hUnit
  · left
    exact mul_lt_mul_of_pos_right (by exact_mod_cast hHigh) hUnit

theorem rounds_onGrid {grid : ℤ} {d : Decimal} (h : x.onGrid? grid = some d) :
    x.Rounds d.value := by
  rw [← readsBack_iff]
  unfold onGrid? at h
  dsimp only at h
  split at h
  · rename_i hLower hUpper
    split at h <;> obtain rfl := Option.some.inj h
    · exact hLower
    · exact hUpper
  · rename_i hLower _
    obtain rfl := Option.some.inj h
    exact hLower
  · rename_i _ hUpper
    obtain rfl := Option.some.inj h
    exact hUpper
  · cases h

/-- The decimal that is chosen for a double rounds to it. -/
theorem rounds_shortest (x : Magnitude) : x.Rounds x.shortest.value := by
  unfold shortest
  dsimp only
  rw [value_dropZeros]
  cases hFind :
      ((List.range 17).map fun n => x.pointPlace - (Int.ofNat n + 1)).findSome? x.onGrid? with
  | none =>
    rw [Option.getD_none, value_exactDecimal]
    exact x.rounds_self
  | some d =>
    obtain ⟨grid, -, hGrid⟩ := List.exists_of_findSome?_eq_some hFind
    exact rounds_onGrid hGrid

end Magnitude

end LiveCompiler.Binary64
