import LiveCompiler.Binary64.Decimal

/-!
# The text of a double

Three forms are written.  A constant in a listing always shows a point or an exponent.
A value shown to the user is always positional and shows no needless point.  A printed
number has six places.  Not-a-number has no sign in any of them.
-/

namespace LiveCompiler.Binary64

/-- How the shortest decimal of a double is laid out. -/
structure Style where
  /-- Write `12.0` rather than `12`. -/
  pointZero : Bool
  /-- Which exponents of the leading digit are written positionally. -/
  positional : Int → Bool

/-- Constants in listings: positional from `1e-4` up to below `1e16`. -/
def Style.constant : Style where
  pointZero := true
  positional := fun leading => decide (-4 ≤ leading ∧ leading < 16)

/-- Values shown to the user: never an exponent, never a needless point. -/
def Style.value : Style where
  pointZero := false
  positional := fun _ => true

/-- A text of `n` zeros. -/
def zeros (n : Nat) : String :=
  String.ofList (List.replicate n '0')

/-- Lay out digits whose decimal point stands after the first `place` of them. -/
def positionalText (pointZero : Bool) (digits : String) (place : Int) : String :=
  let count := digits.length
  if place ≤ 0 then
    "0." ++ zeros (-place).toNat ++ digits
  else if (count : Int) ≤ place then
    digits ++ zeros (place.toNat - count) ++ (if pointZero then ".0" else "")
  else
    let cs := digits.toList
    String.ofList (cs.take place.toNat) ++ "." ++ String.ofList (cs.drop place.toNat)

/-- One digit, a point if more follow, and the power of ten of the leading digit. -/
def exponentText (digits : String) (leading : Int) : String :=
  let cs := digits.toList
  let tail := String.ofList (cs.drop 1)
  String.ofList (cs.take 1) ++ (if tail.isEmpty then "" else "." ++ tail) ++
    "e" ++ toString leading

/-- The text of the magnitude of a finite double. -/
def Style.magnitude (style : Style) (x : Magnitude) : String :=
  if x.mantissa = 0 then
    if style.pointZero then "0.0" else "0"
  else
    let d := x.shortest
    let digits := toString d.digits
    let place := d.exponent + (digits.length : Int)
    if style.positional (place - 1) then positionalText style.pointZero digits place
    else exponentText digits (place - 1)

/-- Whether the sign bit is set. -/
def isNegative (x : Float) : Bool :=
  decide (powerOfTwo 63 ≤ x.toBits.toNat)

/-- Put the sign and the special values around a text for finite magnitudes. -/
def signed (finite : Magnitude → String) (x : Float) : String :=
  if x.isNaN then "NaN"
  else
    let sign := if isNegative x then "-" else ""
    if x.isInf then sign ++ "inf" else sign ++ finite (Magnitude.ofBits x.toBits)

/-- The text of a constant in a listing: `1.0`, `-0.0`, `1e16`, `1e-5`. -/
def constantText (x : Float) : String :=
  signed Style.constant.magnitude x

/-- The text of a value shown to the user: `1`, `-0`, `0.00001`. -/
def valueText (x : Float) : String :=
  signed Style.value.magnitude x

/-- The text of a printed number: six places, a half going to the even neighbour. -/
def printedText (x : Float) : String :=
  signed
    (fun m =>
      let units := m.roundToPlaces 6
      let fraction := toString (units % powerOfTen 6)
      toString (units / powerOfTen 6) ++ "." ++ zeros (6 - fraction.length) ++ fraction)
    x

end LiveCompiler.Binary64
