import AsmListing.Text.Basic

/-!
Numbers of binary64 precision, as exact integers: a finite one is its significand times a power of
two. Rounding a decimal number to the nearest of them needs no approximation on the way.
-/
namespace AsmListing

/-- The number `digits * 10 ^ exponent`. -/
structure Decimal where
  digits : Nat
  exponent : Int
  deriving DecidableEq, Repr, Inhabited

/-- A number of binary64 precision. A finite one is `significand * 2 ^ exponent`, with a sign that
zero has too. -/
inductive Binary64 where
  | finite (negative : Bool) (significand : Nat) (exponent : Int)
  | infinite (negative : Bool)
  | notANumber
  deriving DecidableEq, Repr, Inhabited

/-- The number of decimal digits; zero has one. -/
def Decimal.digitCount (n : Nat) : Nat := (Text.ofNat n).length

namespace Binary64

/-- The exponent of the smallest numbers. -/
def minExponent : Int := -1074

/-- The exponent of the largest numbers. -/
def maxExponent : Int := 971

/-- Every significand is smaller. -/
def significandLimit : Nat := Nat.pow 2 53

/-- The quotient rounded to the nearest natural number, half-way cases to the even one. -/
def roundedQuotient (n d : Nat) : Nat :=
  let q := n / d
  let r := n % d
  if 2 * r < d ∨ (2 * r = d ∧ q % 2 = 0) then q else q + 1

/-- The largest power of two that is at most `n / d`, by its exponent. -/
def leadingExponent (n d : Nat) : Int :=
  let e : Int := (n.log2 : Int) - d.log2
  if d * Nat.pow 2 e.toNat ≤ n * Nat.pow 2 (-e).toNat then e else e - 1

/-- The number nearest to `n / d`. -/
def ofRatio (negative : Bool) (n d : Nat) : Binary64 :=
  let e := max (leadingExponent n d - 52) minExponent
  let m := roundedQuotient (n * Nat.pow 2 (-e).toNat) (d * Nat.pow 2 e.toNat)
  let (m, e) := if m = significandLimit then (m / 2, e + 1) else (m, e)
  if maxExponent < e then .infinite negative else .finite negative m e

def zero (negative : Bool) : Binary64 := .finite negative 0 minExponent

/-- The number nearest to a decimal one. Where the magnitude alone settles the answer, no power of
ten is computed. -/
def ofDecimal (negative : Bool) (x : Decimal) : Binary64 :=
  let magnitude := Decimal.digitCount x.digits + x.exponent
  if x.digits = 0 ∨ magnitude < -330 then zero negative
  else if 310 < magnitude then .infinite negative
  else ofRatio negative (x.digits * Nat.pow 10 x.exponent.toNat) (Nat.pow 10 (-x.exponent).toNat)

end Binary64

end AsmListing
