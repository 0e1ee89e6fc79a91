/-!
Texts as lists of characters: numerals, joining, and names in order. What listings hold and name is
made of characters; what may hold a surrogate that stands alone is a `LooseText`.
-/
namespace AsmListing

/-- A text is the list of its characters, the code points but for the surrogates. -/
abbrev Text := List Char

instance : Coe String Text := ⟨String.toList⟩

/-- The order of lists by the first elements that differ, which `le` compares; a list stands behind
its own beginnings. -/
def lexLe {α : Type} [DecidableEq α] (le : α → α → Bool) : List α → List α → Bool
  | [], _ => true
  | _ :: _, [] => false
  | a :: s, b :: t => if a = b then lexLe le s t else le a b

namespace Text

/-- The order of texts by code points. -/
def le : Text → Text → Bool := lexLe fun c d => decide (c.toNat ≤ d.toNat)

/-- Decimal digits without leading zeros. -/
def ofNat (n : Nat) : Text := Nat.toDigits 10 n

/-- Decimal digits, with a minus sign in front of a negative number. -/
def ofInt : Int → Text
  | .ofNat n => ofNat n
  | .negSucc n => '-' :: ofNat (n + 1)

/-- Lower-case hexadecimal digits, filled up with zeros to `width`. -/
def ofHex (width n : Nat) : Text :=
  let digits := Nat.toDigits 16 n
  List.replicate (width - digits.length) '0' ++ digits

/-- The parts with `sep` between neighbours. -/
def joinWith (sep : Text) (parts : List Text) : Text := List.intercalate sep parts

/-- In code-point order. -/
def sort (names : List Text) : List Text := names.mergeSort le

/-- Each name once, in code-point order. -/
def sortUnique (names : List Text) : List Text := sort names.eraseDups

end Text

end AsmListing
