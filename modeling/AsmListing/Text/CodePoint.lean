import AsmListing.Text.Basic

/-!
Code points. Escapes can write a surrogate that stands alone, and so does a name that is not UTF-8
when it is shown: a text that comes from a user or from the system may hold code points that are no
characters.
-/
namespace AsmListing

/-- A code point: a character, or a surrogate, which is none. -/
inductive CodePoint where
  | char (c : Char)
  | surrogate (i : Fin 0x800)
  deriving DecidableEq, Repr

/-- A text in which surrogates may stand alone. -/
abbrev LooseText := List CodePoint

namespace CodePoint

/-- The number of a code point. -/
def value : CodePoint → Nat
  | .char c => c.toNat
  | .surrogate i => 0xd800 + i

instance : LT CodePoint := ⟨fun a b => a.value < b.value⟩

instance : LE CodePoint := ⟨fun a b => a.value ≤ b.value⟩

instance : DecidableLT CodePoint := fun a b => inferInstanceAs (Decidable (a.value < b.value))

instance : DecidableLE CodePoint := fun a b => inferInstanceAs (Decidable (a.value ≤ b.value))

/-- The code point of a number below `0x10000`. -/
def ofUnit (n : Nat) : CodePoint :=
  if h : 0xd800 ≤ n ∧ n < 0xe000 then .surrogate ⟨n - 0xd800, by omega⟩ else .char (Char.ofNat n)

def char? : CodePoint → Option Char
  | .char c => some c
  | .surrogate _ => none

def isChar (p : CodePoint) : Bool := p.char?.isSome

/-- A character as it is, and the escape of a surrogate. -/
def escaped : CodePoint → Text
  | .char c => [c]
  | .surrogate i => "\\u" ++ Text.ofHex 4 (0xd800 + i)

end CodePoint

/-- The text as code points. -/
def Text.loose (t : Text) : LooseText := t.map .char

instance : Coe Text LooseText := ⟨Text.loose⟩

namespace LooseText

/-- The characters, where there are no surrogates. -/
def text? (t : LooseText) : Option Text := t.mapM CodePoint.char?

/-- The characters alone. -/
def characters (t : LooseText) : Text := t.filterMap CodePoint.char?

/-- The text with escapes in place of its surrogates. -/
def escaped (t : LooseText) : Text := t.flatMap CodePoint.escaped

/-- The parts with `sep` between neighbours. -/
def joinWith (sep : Text) (parts : List LooseText) : LooseText := List.intercalate sep parts

/-- Filled up with blanks on the right to `width`. -/
def padRight (width : Nat) (t : LooseText) : LooseText :=
  t ++ List.replicate (width - t.length) (.char ' ')

/-- The order of texts by code points. -/
def le : LooseText → LooseText → Bool := lexLe fun p q => decide (p ≤ q)

/-- In code-point order. -/
def sort (names : List LooseText) : List LooseText := names.mergeSort le

end LooseText

end AsmListing
