import AsmListing.Codec.Encoding

/-!
Names of files. A disk takes any bytes for a name. Those that are no UTF-8 are shown as surrogates,
one for each byte, and such a surrogate stands for its byte again where the name is used. The other
surrogates stand for nothing.
-/
namespace AsmListing

namespace CodePoint

/-- The surrogate that shows a byte beyond ASCII. -/
def ofByte (b : UInt8) : CodePoint := .surrogate ⟨0x400 + b.toNat, by have := b.toNat_lt; omega⟩

/-- The byte that a surrogate stands for. -/
def byte? : CodePoint → Option UInt8
  | .char _ => none
  | .surrogate i => if 0x480 ≤ i.val ∧ i.val < 0x500 then some (UInt8.ofNat (i - 0x400)) else none

/-- The code point may stand in a name. -/
def isNameable (p : CodePoint) : Bool := p.isChar || p.byte?.isSome

end CodePoint

/-- Why no disk takes a path. -/
inductive PathFlaw where
  | null
  | unencodable (fault : EncodeFault)
  deriving DecidableEq, Repr

def PathFlaw.message : PathFlaw → Text
  | .null => "embedded null byte"
  | .unencodable fault => fault.message

namespace FileName

/-- The bytes of a code point. -/
def pointBytes : CodePoint → Bytes
  | .char c => Utf8.encodeChar c
  | p => p.byte?.toList

/-- The bytes of a name. -/
def bytes (t : LooseText) : Bytes := t.flatMap pointBytes

/-- The text of some bytes; `bad` shows a sequence that is no character. -/
def textOf (bad : Bytes → LooseText) : Bytes → LooseText
  | [] => []
  | a :: tail =>
    match Utf8.front a tail with
    | .char c more => .char c :: textOf bad (tail.drop more)
    | .bad _ width => bad ((a :: tail).take width) ++ textOf bad (tail.drop (width - 1))
termination_by bytes => bytes.length
decreasing_by all_goals simp only [List.length_drop, List.length_cons]; omega

/-- The name under which a disk knows `t`: where surrogates stand for the bytes of a character, it
is that character. -/
def known (t : LooseText) : LooseText :=
  if t.all CodePoint.isChar || !t.all CodePoint.isNameable then t
  else textOf (·.map CodePoint.ofByte) (bytes t)

/-- The name as it is told to a reader who knows no surrogates. -/
def readable (t : LooseText) : LooseText := textOf (fun _ => [.char '\uFFFD']) (bytes t)

end FileName

/-- Why no disk takes the text for a path. -/
def LooseText.pathFlaw? (t : LooseText) : Option PathFlaw :=
  match t.misfit? .unicode CodePoint.isNameable CodePoint.isChar with
  | some fault => some (.unencodable fault)
  | none => if t.contains (.char (Char.ofNat 0)) then some .null else none

end AsmListing
