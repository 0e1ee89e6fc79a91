import AsmListing.Decimal.Binary64

/-!
The shortest decimal number that reads back to a given number of binary64 precision. The decimal
numbers that read back fill an interval around the number; its ends belong to it where the
significand is even. Ever finer decimal grids are tried until a neighbour of the number on the grid
lies in the interval.
-/
namespace AsmListing.Binary64

/-- The order of `a * 10 ^ i` and `b * 2 ^ j`. -/
def compareScaled (a : Nat) (i : Int) (b : Nat) (j : Int) : Ordering :=
  compare (a * Nat.pow 10 i.toNat * Nat.pow 2 (-j).toNat)
    (b * Nat.pow 2 j.toNat * Nat.pow 10 (-i).toNat)

/-- The lower end of the interval around `m * 2 ^ e`, in quarters of `2 ^ e`. Just below a power of
two the numbers lie closer together. -/
def lowerEnd (m : Nat) (e : Int) : Nat :=
  if m = significandLimit / 2 ∧ minExponent < e then 4 * m - 1 else 4 * m - 2

/-- The upper end of the interval around `m * 2 ^ e`, in quarters of `2 ^ e`. -/
def upperEnd (m : Nat) : Nat := 4 * m + 2

/-- A decimal number reads back to `m * 2 ^ e`. -/
def readsBack (m : Nat) (e : Int) (x : Decimal) : Bool :=
  let low := compareScaled x.digits x.exponent (lowerEnd m e) (e - 2)
  let high := compareScaled x.digits x.exponent (upperEnd m) (e - 2)
  (low == .gt && high == .lt) || (m % 2 == 0 && (low == .eq || high == .eq))

/-- The least exponent of a power of ten that is larger than `m * 2 ^ e`. -/
def scale (m : Nat) (e : Int) : Int :=
  let n := m * Nat.pow 2 e.toNat
  let d := Nat.pow 2 (-e).toNat
  if d ≤ n then Decimal.digitCount (n / d) else 1 - (Decimal.digitCount ((d - 1) / n) : Int)

/-- The neighbour of `m * 2 ^ e` that reads back, on the grid of the multiples of `10 ^ k`; the
closer one where both do, and of equally close ones the even one. -/
def onGrid? (m : Nat) (e k : Int) : Option Decimal :=
  let below :=
    m * Nat.pow 2 e.toNat * Nat.pow 10 (-k).toNat / (Nat.pow 2 (-e).toNat * Nat.pow 10 k.toNat)
  let low : Decimal := ⟨below, k⟩
  let high : Decimal := ⟨below + 1, k⟩
  match readsBack m e low, readsBack m e high with
  | true, false => some low
  | false, true => some high
  | false, false => none
  | true, true =>
    match compareScaled (2 * below + 1) k (2 * m) e with
    | .gt => some low
    | .lt => some high
    | .eq => some (if below % 2 = 0 then low else high)

/-- All digits of `m * 2 ^ e`. -/
def exactly (m : Nat) (e : Int) : Decimal :=
  if e < 0 then ⟨m * Nat.pow 5 (-e).toNat, e⟩ else ⟨m * Nat.pow 2 e.toNat, 0⟩

/-- The largest number of digits that a shortest decimal number has. -/
def digitLimit : Nat := 17

/-- The same number without zeros at its end, of which it has `count` at most. -/
def dropZeros : Nat → Decimal → Decimal
  | 0, x => x
  | count + 1, x =>
    if x.digits % 10 = 0 then dropZeros count ⟨x.digits / 10, x.exponent + 1⟩ else x

/-- The shortest decimal number that reads back to `m * 2 ^ e`, where `m` is not zero. -/
def shortest (m : Nat) (e : Int) : Decimal :=
  let k := scale m e
  let found := (List.range digitLimit).findSome? fun (n : Nat) => onGrid? m e (k - (n + 1))
  dropZeros digitLimit (found.getD (exactly m e))

end AsmListing.Binary64
