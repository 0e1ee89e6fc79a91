import AsmListing.Json.Basic
import AsmListing.Listing.Basic

/-!
Reading JSON. A text that is no JSON value is refused with the first thing that is wrong and the
place of it. Places are found from the end: what a reader has not consumed yet tells where it is.
A value may also go beyond the limits of the reader.
-/
namespace AsmListing

/-- What is wrong with a text that should be JSON. -/
inductive JsonFlaw where
  | byteOrderMark
  | expectingValue
  | expectingName
  | expectingColon
  | expectingComma
  | extraData
  | unterminatedText
  | controlCharacter
  | unknownEscape
  | brokenUnitEscape
  deriving DecidableEq, Repr

/-- A flaw with the number of characters from its place to the end of the text. -/
structure JsonFault where
  flaw : JsonFlaw
  remaining : Nat
  deriving DecidableEq, Repr

/-- How many lists and objects may stand inside one another: as many as the calls under way when the
reader is called leave room for. -/
class NestingLimit where
  levels : Nat
  /-- There is room for the settings and for the reports on them. -/
  three_le : 3 ≤ levels

/-- The room that a shallow run leaves. -/
instance NestingLimit.shallow : NestingLimit := ⟨985, by decide⟩

/-- A limit of the reader that a text goes beyond. -/
inductive JsonExcess where
  | integer (digits : Nat)
  | nestedList
  | nestedObject
  deriving DecidableEq, Repr

/-- Why a text is not read as JSON. -/
inductive JsonRefusal where
  | fault (f : JsonFault)
  | excess (e : JsonExcess)
  deriving DecidableEq, Repr

namespace JsonFlaw

def message : JsonFlaw → Text
  | .byteOrderMark => "Unexpected UTF-8 BOM (decode using utf-8-sig)"
  | .expectingValue => "Expecting value"
  | .expectingName => "Expecting property name enclosed in double quotes"
  | .expectingColon => "Expecting ':' delimiter"
  | .expectingComma => "Expecting ',' delimiter"
  | .extraData => "Extra data"
  | .unterminatedText => "Unterminated string starting at"
  | .controlCharacter => "Invalid control character at"
  | .unknownEscape => "Invalid \\escape"
  | .brokenUnitEscape => "Invalid \\uXXXX escape"

end JsonFlaw

/-- The flaw and its place in the text: line and column from one, offset from zero. -/
def JsonFault.message (f : JsonFault) (source : Text) : Text :=
  let offset := source.length - f.remaining
  let before := source.take offset
  let column := (before.reverse.takeWhile fun c => c != '\n').length + 1
  f.flaw.message ++ ": line " ++ Text.ofNat (before.count '\n' + 1) ++ " column " ++
    Text.ofNat column ++ " (char " ++ Text.ofNat offset ++ ")"

namespace JsonExcess

/-- The largest number of digits in an integer. -/
def digitLimit : Nat := 4300

/-- A nesting that is too deep, by what was to be read there. -/
def tooDeep (kind : Text) : Text :=
  "maximum recursion depth exceeded while decoding a JSON " ++ kind ++ " from a unicode string"

def message : JsonExcess → Text
  | .integer digits =>
    "Exceeds the limit (" ++ Text.ofNat digitLimit ++
      " digits) for integer string conversion: value has " ++ Text.ofNat digits ++
      " digits; use sys.set_int_max_str_digits() to increase the limit"
  | .nestedList => tooDeep "array"
  | .nestedObject => tooDeep "object"

end JsonExcess

namespace Json.Reader

/-- The refusal for a flaw with `remaining` characters behind its place. -/
def refuseAt {α : Type} (flaw : JsonFlaw) (remaining : Nat) : Except JsonRefusal α :=
  .error (.fault ⟨flaw, remaining⟩)

/-- The refusal for a flaw at the place where `rest` begins. -/
def refuse {α : Type} (flaw : JsonFlaw) (rest : Text) : Except JsonRefusal α :=
  refuseAt flaw rest.length

/-- The blanks that JSON allows between its tokens. -/
def isSpace (c : Char) : Bool := c == ' ' || c == '\t' || c == '\n' || c == '\r'

def skipSpace (t : Text) : Text := t.dropWhile isSpace

/-- The value of a hexadecimal digit. -/
def hexDigit? (c : Char) : Option Nat :=
  if '0' ≤ c ∧ c ≤ '9' then some (c.toNat - 48)
  else if 'a' ≤ c ∧ c ≤ 'f' then some (c.toNat - 87)
  else if 'A' ≤ c ∧ c ≤ 'F' then some (c.toNat - 55)
  else none

/-- The UTF-16 unit that four hexadecimal digits write. -/
def unit? (a b c d : Char) : Option Nat := do
  let a ← hexDigit? a
  let b ← hexDigit? b
  let c ← hexDigit? c
  let d ← hexDigit? d
  some (((a * 16 + b) * 16 + c) * 16 + d)

def isHighUnit (n : Nat) : Bool := decide (0xd800 ≤ n) && decide (n < 0xdc00)

def isLowUnit (n : Nat) : Bool := decide (0xdc00 ≤ n) && decide (n < 0xe000)

/-- The character of two units that belong together. -/
def ofPair (high low : Nat) : Char :=
  Char.ofNat (0x10000 + (high - 0xd800) * 0x400 + (low - 0xdc00))

/-- The character behind a backslash that stands for another one. -/
def simpleEscape? : Char → Option Char
  | '"' => some '"'
  | '\\' => some '\\'
  | '/' => some '/'
  | 'b' => some (Char.ofNat 8)
  | 'f' => some (Char.ofNat 12)
  | 'n' => some '\n'
  | 'r' => some '\r'
  | 't' => some '\t'
  | _ => none

/-- The code point that a unit escape behind `\u` begins, and what follows. A high unit takes a low
one that follows as a unit escape of its own; at least one character has to follow each unit. -/
def unitEscape (t : Text) : Except JsonRefusal (CodePoint × Text) :=
  match t with
  | a :: b :: c :: d :: e :: rest =>
    match unit? a b c d with
    | none => refuseAt .brokenUnitEscape (t.length + 1)
    | some high =>
      match isHighUnit high, e :: rest with
      | true, '\\' :: 'u' :: a' :: b' :: c' :: d' :: e' :: rest' =>
        match unit? a' b' c' d' with
        | none => refuseAt .brokenUnitEscape (rest'.length + 6)
        | some low =>
          if isLowUnit low then .ok (.char (ofPair high low), e' :: rest')
          else .ok (.ofUnit high, e :: rest)
      | _, _ => .ok (.ofUnit high, e :: rest)
  | _ => refuseAt .brokenUnitEscape (t.length + 1)

/-- The rest of a quoted text behind its opening mark, `read` holding the code points so far, the
last one first; `opening` characters were left at the opening mark. -/
def quotedRest (opening : Nat) : Nat → LooseText → Text → Except JsonRefusal (LooseText × Text)
  | 0, _, _ => refuseAt .unterminatedText opening
  | _, _, [] => refuseAt .unterminatedText opening
  | fuel + 1, read, c :: rest =>
    if c = '"' then .ok (read.reverse, rest)
    else if c = '\\' then
      match rest with
      | [] => refuseAt .unterminatedText opening
      | 'u' :: digits =>
        match unitEscape digits with
        | .ok (d, after) => quotedRest opening fuel (d :: read) after
        | .error e => .error e
      | d :: after =>
        match simpleEscape? d with
        | some e => quotedRest opening fuel (.char e :: read) after
        | none => refuse .unknownEscape (c :: rest)
    else if c.toNat < 32 then refuse .controlCharacter (c :: rest)
    else quotedRest opening fuel (.char c :: read) rest

/-- A quoted text behind its opening mark, and what follows it. -/
def quoted (t : Text) : Except JsonRefusal (LooseText × Text) :=
  quotedRest (t.length + 1) (t.length + 1) [] t

def isDigit (c : Char) : Bool := decide ('0' ≤ c) && decide (c ≤ '9')

/-- The digits of an integer, without leading zeros, and what follows. -/
def integerDigits? (t : Text) : Option (Text × Text) :=
  match t with
  | '0' :: rest => some (['0'], rest)
  | c :: _ => if isDigit c then some (t.takeWhile isDigit, t.dropWhile isDigit) else none
  | [] => none

/-- A point with digits, if it follows. -/
def fraction (t : Text) : Text × Text :=
  match t with
  | '.' :: rest =>
    match rest.takeWhile isDigit with
    | [] => ([], t)
    | digits => ('.' :: digits, rest.dropWhile isDigit)
  | _ => ([], t)

/-- An exponent with digits, if it follows. -/
def exponent (t : Text) : Text × Text :=
  match t with
  | e :: rest =>
    if e = 'e' ∨ e = 'E' then
      let (sign, digits) := match rest with
        | '+' :: after => (['+'], after)
        | '-' :: after => (['-'], after)
        | _ => ([], rest)
      match digits.takeWhile isDigit with
      | [] => ([], t)
      | ds => (e :: sign ++ ds, digits.dropWhile isDigit)
    else ([], t)
  | [] => ([], t)

/-- The number that decimal digits write. -/
def ofDigits (digits : Text) : Nat := Nat.ofDigitChars 10 digits 0

/-- An integer of the given sign, unless it has too many digits. -/
def integer (negative : Bool) (digits : Text) : Except JsonRefusal Json :=
  if JsonExcess.digitLimit < digits.length then .error (.excess (.integer digits.length))
  else
    let n : Int := ofDigits digits
    .ok (.int (if negative then -n else n))

/-- The power of ten that an exponent writes. -/
def powerOf (exponent : Text) : Int :=
  match exponent.drop 1 with
  | '-' :: digits => -(ofDigits digits : Int)
  | '+' :: digits => ofDigits digits
  | digits => ofDigits digits

/-- A number of the given sign with a point or an exponent in it. -/
def approximate (negative : Bool) (digits point power : Text) : Json :=
  let places := point.drop 1
  .real (Binary64.ofDecimal negative
    ⟨ofDigits (digits ++ places), powerOf power - places.length⟩)

/-- A number and what follows it. -/
def number (t : Text) : Except JsonRefusal (Json × Text) :=
  let (negative, unsigned) := match t with
    | '-' :: rest => (true, rest)
    | _ => (false, t)
  match integerDigits? unsigned with
  | none => refuse .expectingValue t
  | some (digits, rest) =>
    let (point, rest) := fraction rest
    let (power, rest) := exponent rest
    if point.isEmpty && power.isEmpty then (integer negative digits).map fun j => (j, rest)
    else .ok (approximate negative digits point power, rest)

/-- The words that are values. -/
def words : List (Text × Json) :=
  [("null", .null), ("true", .bool true), ("false", .bool false), ("NaN", .real .notANumber),
    ("Infinity", .real (.infinite false)), ("-Infinity", .real (.infinite true))]

/-- A word that is a value and what follows it. -/
def word? (t : Text) : Option (Json × Text) :=
  (words.find? fun w => w.1.isPrefixOf t).map fun w => (w.2, t.drop w.1.length)

mutual

/-- A value that begins right here, and what follows it. Each level of `fuel` allows one more
value inside or behind another one, each level of `depth` one more list or object around it. -/
def value : Nat → Nat → Text → Except JsonRefusal (Json × Text)
  | 0, _, t => refuse .expectingValue t
  | fuel + 1, depth, t =>
    match t with
    | '"' :: rest =>
      match quoted rest with
      | .ok (s, after) => .ok (.string s, after)
      | .error e => .error e
    | '{' :: rest =>
      match depth with
      | 0 => .error (.excess .nestedObject)
      | depth + 1 =>
        match skipSpace rest with
        | '}' :: after => .ok (.object [], after)
        | first => fields fuel depth [] first
    | '[' :: rest =>
      match depth with
      | 0 => .error (.excess .nestedList)
      | depth + 1 =>
        match skipSpace rest with
        | ']' :: after => .ok (.list [], after)
        | first => items fuel depth [] first
    | _ =>
      match word? t with
      | some found => .ok found
      | none => number t

/-- The items of a list from the next one on, `read` holding those so far, the last one first. -/
def items : Nat → Nat → List Json → Text → Except JsonRefusal (Json × Text)
  | 0, _, _, t => refuse .expectingValue t
  | fuel + 1, depth, read, t =>
    match value fuel depth t with
    | .error e => .error e
    | .ok (x, rest) =>
      match skipSpace rest with
      | ']' :: after => .ok (.list (x :: read).reverse, after)
      | ',' :: after => items fuel depth (x :: read) (skipSpace after)
      | other => refuse .expectingComma other

/-- The fields of an object from the next one on, `read` holding those so far. -/
def fields : Nat → Nat → Fields → Text → Except JsonRefusal (Json × Text)
  | 0, _, _, t => refuse .expectingValue t
  | fuel + 1, depth, read, t =>
    match t with
    | '"' :: rest =>
      match quoted rest with
      | .error e => .error e
      | .ok (key, rest) =>
        match skipSpace rest with
        | ':' :: rest =>
          match value fuel depth (skipSpace rest) with
          | .error e => .error e
          | .ok (x, rest) =>
            match skipSpace rest with
            | '}' :: after => .ok (.object (read.put key x), after)
            | ',' :: after => fields fuel depth (read.put key x) (skipSpace after)
            | other => refuse .expectingComma other
        | other => refuse .expectingColon other
    | other => refuse .expectingName other

end

end Json.Reader

/-- The JSON value that a text holds, blanks around it allowed. -/
def Json.ofText [NestingLimit] (t : Text) : Except JsonRefusal Json :=
  match t with
  | '\uFEFF' :: _ => Json.Reader.refuse .byteOrderMark t
  | _ =>
    let fuel := 2 * t.length + 2
    match Json.Reader.value fuel NestingLimit.levels (Json.Reader.skipSpace t) with
    | .error e => .error e
    | .ok (j, rest) =>
      match Json.Reader.skipSpace rest with
      | [] => .ok j
      | other => Json.Reader.refuse .extraData other

/-- The text with every line break as a single line feed. -/
def Text.withLineFeeds (t : Text) : Text := Text.joinWith ['\n'] (Listing.ofText t).contents

end AsmListing
