import AsmListing.Text.Basic

/-!
UTF-8, read strictly: no overlong forms, no surrogates, nothing beyond the last code point. Bytes
that are no UTF-8 are refused with the first bad sequence.
-/
namespace AsmListing

abbrev Bytes := List UInt8

/-- Why a byte sequence is no character. -/
inductive Utf8Flaw where
  | invalidStart
  | invalidContinuation
  | truncated
  deriving DecidableEq, Repr

/-- A bad sequence of `width` bytes at `position`, the first of which is `byte`. -/
structure Utf8Fault where
  flaw : Utf8Flaw
  byte : UInt8
  position : Nat
  width : Nat
  deriving DecidableEq, Repr

def Utf8Flaw.message : Utf8Flaw → Text
  | .invalidStart => "invalid start byte"
  | .invalidContinuation => "invalid continuation byte"
  | .truncated => "unexpected end of data"

def Utf8Fault.message (f : Utf8Fault) : Text :=
  let place : Text :=
    if f.width = 1 then
      "byte 0x" ++ Text.ofHex 2 f.byte.toNat ++ " in position " ++ Text.ofNat f.position
    else "bytes in position " ++ Text.ofNat f.position ++ "-" ++
      Text.ofNat (f.position + f.width - 1)
  "'utf-8' codec can't decode " ++ place ++ ": " ++ f.flaw.message

namespace Utf8

/-- The bytes of a character. -/
def encodeChar (c : Char) : Bytes := String.utf8EncodeChar c

def encode (t : Text) : Bytes := t.flatMap encodeChar

/-- A byte that continues a character: it adds six bits. -/
def isContinuation (b : UInt8) : Bool := decide (0x80 ≤ b) && decide (b < 0xC0)

def bits (b : UInt8) : Nat := b.toNat % 64

/-- What stands at the beginning of some bytes: a character that takes `more` bytes behind the
first one, or a bad sequence. -/
inductive Front where
  | char (c : Char) (more : Nat)
  | bad (flaw : Utf8Flaw) (width : Nat)
  deriving DecidableEq, Repr

/-- The second byte of three may not make the form overlong, nor the character a surrogate. -/
def secondOfThree (first second : UInt8) : Bool :=
  isContinuation second && !(first == 0xE0 && decide (second < 0xA0)) &&
    !(first == 0xED && decide (0xA0 ≤ second))

/-- The second byte of four may not make the form overlong, nor the character too large. -/
def secondOfFour (first second : UInt8) : Bool :=
  isContinuation second && !(first == 0xF0 && decide (second < 0x90)) &&
    !(first == 0xF4 && decide (0x90 ≤ second))

/-- The front of bytes that begin with `a`. -/
def front (a : UInt8) (tail : Bytes) : Front :=
  if a < 0x80 then .char (Char.ofNat a.toNat) 0
  else if a < 0xC2 then .bad .invalidStart 1
  else if a < 0xE0 then
    match tail with
    | [] => .bad .truncated 1
    | b :: _ =>
      if isContinuation b then .char (Char.ofNat ((a.toNat - 0xC0) * 64 + bits b)) 1
      else .bad .invalidContinuation 1
  else if a < 0xF0 then
    match tail with
    | [] => .bad .truncated 1
    | b :: tail =>
      if secondOfThree a b then
        match tail with
        | [] => .bad .truncated 2
        | c :: _ =>
          if isContinuation c then
            .char (Char.ofNat (((a.toNat - 0xE0) * 64 + bits b) * 64 + bits c)) 2
          else .bad .invalidContinuation 2
      else .bad .invalidContinuation 1
  else if a < 0xF5 then
    match tail with
    | [] => .bad .truncated 1
    | b :: tail =>
      if secondOfFour a b then
        match tail with
        | [] => .bad .truncated 2
        | c :: tail =>
          if isContinuation c then
            match tail with
            | [] => .bad .truncated 3
            | d :: _ =>
              if isContinuation d then
                .char (Char.ofNat
                  ((((a.toNat - 0xF0) * 64 + bits b) * 64 + bits c) * 64 + bits d)) 3
              else .bad .invalidContinuation 3
          else .bad .invalidContinuation 2
      else .bad .invalidContinuation 1
  else .bad .invalidStart 1

/-- The characters of bytes that stand at `position`, behind the characters `read`, which are in
reverse order. -/
def decodeFrom (position : Nat) (read : Text) : Bytes → Except Utf8Fault Text
  | [] => .ok read.reverse
  | a :: tail =>
    match front a tail with
    | .bad flaw width => .error ⟨flaw, a, position, width⟩
    | .char c more => decodeFrom (position + 1 + more) (c :: read) (tail.drop more)
termination_by bytes => bytes.length
decreasing_by simp only [List.length_drop, List.length_cons]; omega

/-- The characters that the bytes write. -/
def decode (bytes : Bytes) : Except Utf8Fault Text := decodeFrom 0 [] bytes

end Utf8

end AsmListing
