import AsmListing.Json.Numeral
import AsmListing.Json.Basic

/-!
JSON values as ASCII text, one item or field a line, indented by two blanks a level. Empty lists
and objects stay on their line.
-/
namespace AsmListing.Json

/-- The escape of a UTF-16 unit. -/
def unitEscape (n : Nat) : Text := "\\u" ++ Text.ofHex 4 n

/-- A character inside a quoted JSON text: printable ASCII as it is, the rest escaped, beyond the
first plane as two units. -/
def quotedChar (c : Char) : Text :=
  let n := c.toNat
  if c = '"' then "\\\""
  else if c = '\\' then "\\\\"
  else if c = '\n' then "\\n"
  else if c = '\r' then "\\r"
  else if c = '\t' then "\\t"
  else if n = 8 then "\\b"
  else if n = 12 then "\\f"
  else if 32 ≤ n ∧ n < 127 then [c]
  else if n < 0x10000 then unitEscape n
  else unitEscape (0xd800 + (n - 0x10000) / 0x400) ++ unitEscape (0xdc00 + (n - 0x10000) % 0x400)

/-- A code point inside a quoted JSON text. -/
def quotedPoint : CodePoint → Text
  | .char c => quotedChar c
  | .surrogate i => unitEscape (CodePoint.surrogate i).value

def quotedText (t : LooseText) : Text := '"' :: t.flatMap quotedPoint ++ ['"']

/-- A new line at nesting `depth`. -/
def newLine (depth : Nat) : Text := '\n' :: List.replicate (2 * depth) ' '

mutual

/-- The value at nesting `depth`. -/
def print (depth : Nat) : Json → Text
  | .null => "null"
  | .bool true => "true"
  | .bool false => "false"
  | .int i => Text.ofInt i
  | .real x => numeral x
  | .string t => quotedText t
  | .list [] => ['[', ']']
  | .list (x :: xs) =>
    '[' :: newLine (depth + 1) ++ print (depth + 1) x ++ printItems (depth + 1) xs ++
      newLine depth ++ [']']
  | .object [] => ['{', '}']
  | .object ((key, x) :: rest) =>
    '{' :: newLine (depth + 1) ++ quotedText key ++ ": " ++ print (depth + 1) x ++
      printFields (depth + 1) rest ++ newLine depth ++ ['}']

/-- The items of a list behind the first one. -/
def printItems (depth : Nat) : List Json → Text
  | [] => []
  | x :: xs => ',' :: newLine depth ++ print depth x ++ printItems depth xs

/-- The fields of an object behind the first one. -/
def printFields (depth : Nat) : List (LooseText × Json) → Text
  | [] => []
  | (key, x) :: rest =>
    ',' :: newLine depth ++ quotedText key ++ ": " ++ print depth x ++ printFields depth rest

end

/-- The text of a value. -/
def toText (j : Json) : Text := print 0 j

mutual

/-- The same value with the fields of every object in the order of their keys. -/
def sortKeys : Json → Json
  | .list items => .list (sortKeysItems items)
  | .object fields => .object ((sortKeysFields fields).mergeSort fun a b => LooseText.le a.1 b.1)
  | other => other

def sortKeysItems : List Json → List Json
  | [] => []
  | x :: xs => sortKeys x :: sortKeysItems xs

def sortKeysFields : List (LooseText × Json) → List (LooseText × Json)
  | [] => []
  | (key, x) :: rest => (key, sortKeys x) :: sortKeysFields rest

end

/-- The text of a value that does not depend on the order of fields. -/
def toSortedText (j : Json) : Text := j.sortKeys.toText

end AsmListing.Json
