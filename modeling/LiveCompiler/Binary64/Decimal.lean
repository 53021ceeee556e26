/-!
# Decimals for doubles

A finite double is `mantissa · 2 ^ exponent`.  This module selects the decimal that
stands for it in text: the shortest one that reads back to the same double, and of the
shortest ones the nearest.  It also rounds a double to a fixed number of places.  All
of it is exact arithmetic on naturals; no floating-point operation is used.
-/

namespace LiveCompiler.Binary64

/-- A power of two. -/
def powerOfTwo (n : Nat) : Nat :=
  Nat.pow 2 n

/-- A power of ten. -/
def powerOfTen (n : Nat) : Nat :=
  Nat.pow 10 n

/-- The size of a finite double, as `mantissa · 2 ^ exponent`. -/
structure Magnitude where
  mantissa : Nat
  exponent : Int
  /-- The gap to the double below is half the gap to the one above. -/
  narrowBelow : Bool
deriving DecidableEq, Repr

/-- The number `digits · 10 ^ exponent`. -/
structure Decimal where
  digits : Nat
  exponent : Int
deriving DecidableEq, Repr

/-- Read the size off the bits of a finite double; the sign bit is ignored. -/
def Magnitude.ofBits (bits : UInt64) : Magnitude :=
  let biased : Nat := bits.toNat / powerOfTwo 52 % powerOfTwo 11
  let fraction : Nat := bits.toNat % powerOfTwo 52
  if biased = 0 then
    { mantissa := fraction, exponent := -1074, narrowBelow := false }
  else
    { mantissa := powerOfTwo 52 + fraction, exponent := (biased : Int) - 1075,
      narrowBelow := fraction == 0 && biased != 1 }

/-- Compare `a · 10 ^ i` with `b · 2 ^ j` by cross-multiplication. -/
def compareScaled (a : Nat) (i : Int) (b : Nat) (j : Int) : Ordering :=
  compare (a * powerOfTen i.toNat * powerOfTwo (-j).toNat)
    (b * powerOfTwo j.toNat * powerOfTen (-i).toNat)

namespace Magnitude

/-- Whether a decimal lies among the reals that round to `x`: from halfway to the
double below up to halfway to the one above, ends included iff the mantissa is even. -/
def readsBack (x : Magnitude) (d : Decimal) : Bool :=
  -- All three numbers are in units of a quarter of the last place.
  let low := if x.narrowBelow then 4 * x.mantissa - 1 else 4 * x.mantissa - 2
  let high := 4 * x.mantissa + 2
  let even := x.mantissa % 2 == 0
  let fromLow := compareScaled d.digits d.exponent low (x.exponent - 2)
  let toHigh := compareScaled d.digits d.exponent high (x.exponent - 2)
  (fromLow == .gt || (even && fromLow == .eq)) &&
    (toHigh == .lt || (even && toHigh == .eq))

/-- The largest multiple of `10 ^ grid` that is at most `x`, counted in the grid. -/
def floorOnGrid (x : Magnitude) (grid : Int) : Nat :=
  (x.mantissa * powerOfTwo x.exponent.toNat * powerOfTen (-grid).toNat) /
    (powerOfTwo (-x.exponent).toNat * powerOfTen grid.toNat)

/-- The number of decimal places before the point: the least `k` with `x < 10 ^ k`.
The binary logarithm gives a value that is at most three too small. -/
def pointPlace (x : Magnitude) : Int :=
  -- The quotient 30103 / 100000 is close to the decimal logarithm of two.
  let start := ((Nat.log2 x.mantissa : Int) + x.exponent) * 30103 / 100000
  let below (k : Int) : Bool := compareScaled 1 k x.mantissa x.exponent == .gt
  (([0, 1, 2].map (start + ·)).find? below).getD (start + 3)

/-- The decimal of the grid `10 ^ grid` that stands for `x`, if one reads back.  Only
the two neighbours of `x` need a look.  Of two the nearer wins and a tie goes up. -/
def onGrid? (x : Magnitude) (grid : Int) : Option Decimal :=
  let floor := x.floorOnGrid grid
  let lower : Decimal := { digits := floor, exponent := grid }
  let upper : Decimal := { digits := floor + 1, exponent := grid }
  match x.readsBack lower, x.readsBack upper with
  | true, true =>
    if compareScaled (2 * floor + 1) grid (2 * x.mantissa) x.exponent == .gt then some lower
    else some upper
  | true, false => some lower
  | false, true => some upper
  | false, false => none

/-- The exact decimal value of `x`. -/
def exactDecimal (x : Magnitude) : Decimal :=
  { digits := x.mantissa * powerOfTwo x.exponent.toNat * Nat.pow 5 (-x.exponent).toNat,
    exponent := min x.exponent 0 }

end Magnitude

/-- Move the trailing zeros of the digits into the exponent. -/
def Decimal.dropZeros (d : Decimal) : Decimal :=
  if d.digits = 0 ∨ d.digits % 10 ≠ 0 then d
  else Decimal.dropZeros { digits := d.digits / 10, exponent := d.exponent + 1 }
termination_by d.digits
decreasing_by omega

/-- The shortest decimal that reads back to `x`, without trailing zeros.  Grids of one
to seventeen digits are tried in turn. -/
def Magnitude.shortest (x : Magnitude) : Decimal :=
  let place := x.pointPlace
  let grids := (List.range 17).map fun n => place - (Int.ofNat n + 1)
  ((grids.findSome? x.onGrid?).getD x.exactDecimal).dropZeros

/-- The integer nearest to `num / den`, a half going to the even neighbour. -/
def roundDiv (num den : Nat) : Nat :=
  let floor := num / den
  match compare (2 * (num % den)) den with
  | .lt => floor
  | .gt => floor + 1
  | .eq => floor + floor % 2

/-- The magnitude in units of `10 ^ -places`, rounded to the nearest. -/
def Magnitude.roundToPlaces (x : Magnitude) (places : Nat) : Nat :=
  roundDiv (x.mantissa * powerOfTwo x.exponent.toNat * powerOfTen places)
    (powerOfTwo (-x.exponent).toNat)

end LiveCompiler.Binary64
