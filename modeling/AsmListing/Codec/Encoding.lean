import AsmListing.Codec.Utf8
import AsmListing.Text.CodePoint

/-!
The encodings of listings. Bytes that are UTF-8, with or without a mark in front, are read as such,
and all others one byte a character, so that every file can be read and written back unchanged.
-/
namespace AsmListing

/-- UTF-8 without and with a byte order mark, and one byte a character. -/
inductive Encoding where
  | utf8
  | utf8Marked
  | latin1
  deriving DecidableEq, Repr, Inhabited

/-- What there can be bytes for: all characters, or the first 256 of them. -/
inductive Charset where
  | unicode
  | latin1
  deriving DecidableEq, Repr

/-- A run of code points without bytes, from `first` at `position` up to before `stop`. -/
structure EncodeFault where
  charset : Charset
  first : CodePoint
  position : Nat
  stop : Nat
  deriving DecidableEq, Repr

namespace EncodeFault

/-- The code points that the fault is about. -/
def run (f : EncodeFault) : Text :=
  let n := f.first.value
  let escaped : Text := if n < 0x10000 then "\\u" ++ Text.ofHex 4 n else "\\U" ++ Text.ofHex 8 n
  if f.stop = f.position + 1 then
    "character '" ++ escaped ++ "' in position " ++ Text.ofNat f.position
  else "characters in position " ++ Text.ofNat f.position ++ "-" ++ Text.ofNat (f.stop - 1)

def message (f : EncodeFault) : Text :=
  match f.charset with
  | .unicode => "'utf-8' codec can't encode " ++ f.run ++ ": surrogates not allowed"
  | .latin1 => "'latin-1' codec can't encode " ++ f.run ++ ": ordinal not in range(256)"

end EncodeFault

namespace LooseText

/-- The first run of code points without bytes: it begins with one that does not pass `fits`, and
what does not pass `ends` belongs to it. -/
def misfit? (charset : Charset) (fits ends : CodePoint → Bool) (t : LooseText) :
    Option EncodeFault :=
  match t.dropWhile fits with
  | [] => none
  | p :: rest =>
    let position := (t.takeWhile fits).length
    some ⟨charset, p, position, position + 1 + (rest.takeWhile fun q => !ends q).length⟩

/-- The first run of surrogates in a text, which UTF-8 has no bytes for. -/
def encodeFault? (t : LooseText) : Option EncodeFault :=
  t.misfit? .unicode CodePoint.isChar CodePoint.isChar

end LooseText

/-- The mark that may stand in front of UTF-8. -/
def byteOrderMark : Bytes := [0xEF, 0xBB, 0xBF]

namespace Latin1

def decode (bytes : Bytes) : Text := bytes.map fun b => Char.ofNat b.toNat

/-- A code point that one byte can hold. -/
def fits (p : CodePoint) : Bool := decide (p.value < 256)

/-- One byte a character, unless some code point does not fit. -/
def encode (t : LooseText) : Except EncodeFault Bytes :=
  match t.misfit? .latin1 fits fits with
  | some fault => .error fault
  | none => .ok (t.map fun p => UInt8.ofNat p.value)

end Latin1

namespace Encoding

def name : Encoding → Text
  | .utf8 => "utf-8"
  | .utf8Marked => "utf-8-sig"
  | .latin1 => "latin-1"

/-- UTF-8 behind `mark`, unless there is a surrogate in the text. -/
def encodeUnicode (mark : Bytes) (t : LooseText) : Except EncodeFault Bytes :=
  match t.encodeFault? with
  | some fault => .error fault
  | none => .ok (mark ++ Utf8.encode t.characters)

/-- The bytes of a text. -/
def encode (e : Encoding) (t : LooseText) : Except EncodeFault Bytes :=
  match e with
  | .utf8 => encodeUnicode [] t
  | .utf8Marked => encodeUnicode byteOrderMark t
  | .latin1 => Latin1.encode t

/-- The text of some bytes, and the encoding that gives these bytes back. -/
def detect (bytes : Bytes) : Text × Encoding :=
  let (body, guess) :=
    if byteOrderMark.isPrefixOf bytes then (bytes.drop byteOrderMark.length, utf8Marked)
    else (bytes, utf8)
  match Utf8.decode body with
  | .ok t => (t, guess)
  | .error _ => (Latin1.decode bytes, latin1)

end Encoding

end AsmListing
