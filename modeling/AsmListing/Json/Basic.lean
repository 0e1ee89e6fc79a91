import AsmListing.Decimal.Binary64
import AsmListing.Text.CodePoint

/-!
JSON values. Texts and keys are made of code points, since escapes can write any of them. An object
keeps the order of its fields, and no key occurs in it twice when it is built with `put`.
-/
namespace AsmListing

/-- A JSON value. A number that is written with a point or an exponent is no integer, whatever its
size. -/
inductive Json where
  | null
  | bool (b : Bool)
  | int (i : Int)
  | real (x : Binary64)
  | string (t : LooseText)
  | list (items : List Json)
  | object (fields : List (LooseText × Json))
  deriving Repr, Inhabited

/-- The fields of an object. -/
abbrev Fields := List (LooseText × Json)

namespace Fields

def get? (fields : Fields) (key : LooseText) : Option Json := fields.lookup key

/-- Gives `key` a value; a key that is there keeps its place, a new one comes last. -/
def put (fields : Fields) (key : LooseText) (value : Json) : Fields :=
  match fields with
  | [] => [(key, value)]
  | (k, v) :: rest => if k = key then (key, value) :: rest else (k, v) :: put rest key value

/-- Puts all of `updates`, one after the other. -/
def putAll (fields updates : Fields) : Fields :=
  updates.foldl (fun acc (key, value) => acc.put key value) fields

def keys (fields : Fields) : List LooseText := fields.map Prod.fst

end Fields

namespace Json

def text (t : Text) : Json := .string t

def texts (ts : List Text) : Json := .list (ts.map text)

def strings (ts : List LooseText) : Json := .list (ts.map .string)

def nat (n : Nat) : Json := .int n

/-- The texts of a list that holds nothing else. -/
def asTexts? : Json → Option (List LooseText)
  | .list items => items.mapM fun
    | .string t => some t
    | _ => none
  | _ => none

def asBool? : Json → Option Bool
  | .bool b => some b
  | _ => none

end Json

end AsmListing
