import AsmListing.Decimal.Shortest

/-!
Numbers that are no integers, as JSON texts show them: with the fewest digits that read back, and
with an exponent only where the leading digit stands far from the point.
-/
namespace AsmListing.Json

/-- A decimal number without an exponent; `point` digits stand before the point. -/
def positional (digits : Text) (point : Int) : Text :=
  if point ≤ 0 then "0." ++ List.replicate (-point).toNat '0' ++ digits
  else
    let front := point.toNat
    let filled := digits ++ List.replicate (front - digits.length) '0'
    let places : Text := if front < digits.length then digits.drop front else ['0']
    filled.take front ++ '.' :: places

/-- A decimal number with its leading digit before the point, which stands only where more digits
follow, and an exponent of two digits at least. -/
def scientific (digits : Text) (exponent : Int) : Text :=
  let places : Text := if digits.length ≤ 1 then [] else '.' :: digits.drop 1
  let sign : Char := if exponent < 0 then '-' else '+'
  let power := Text.ofNat exponent.natAbs
  digits.take 1 ++ places ++ 'e' :: sign :: (List.replicate (2 - power.length) '0' ++ power)

/-- A positive decimal number: without an exponent from the fourth place behind the point up to
sixteen digits before it. -/
def decimal (x : Decimal) : Text :=
  let digits := Text.ofNat x.digits
  let point := digits.length + x.exponent
  if -4 < point ∧ point ≤ 16 then positional digits point else scientific digits (point - 1)

/-- The text of a number of binary64 precision. -/
def numeral : Binary64 → Text
  | .notANumber => "NaN"
  | .infinite negative => if negative then "-Infinity" else "Infinity"
  | .finite negative m e =>
    let size : Text := if m = 0 then "0.0" else decimal (Binary64.shortest m e)
    if negative then '-' :: size else size

end AsmListing.Json
