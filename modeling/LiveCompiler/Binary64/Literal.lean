/-!
# Decimal literals

A literal is a run of digits with at most one point among them and at least one digit.
It stands for the double nearest to its exact value.
-/

namespace LiveCompiler.Binary64

/-- The number that a list of decimal digits spells. -/
def digitsValue (cs : List Char) : Nat :=
  cs.foldl (fun n c => 10 * n + (c.toNat - '0'.toNat)) 0

/-- The double that a literal stands for, or nothing if the text is no literal. -/
def ofLiteral? (text : List Char) : Option Float :=
  let whole := text.takeWhile Char.isDigit
  let tail := text.dropWhile Char.isDigit
  match tail with
  | [] =>
    if whole.isEmpty then none else some (Float.ofScientific (digitsValue whole) false 0)
  | '.' :: fraction =>
    if fraction.all Char.isDigit && !(whole.isEmpty && fraction.isEmpty) then
      some (Float.ofScientific (digitsValue (whole ++ fraction)) true fraction.length)
    else none
  | _ => none

end LiveCompiler.Binary64
