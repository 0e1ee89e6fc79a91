import AsmListing.Listing.BlankRun
import AsmListing.Listing.Resolution
import AsmListing.Listing.Catalog

/-!
Removal of a routine from a text: its lines are found, and the first place where their text occurs
is cut out. On request the gap is closed by collapsing runs of line breaks.
-/
namespace AsmListing

namespace Text

/-- The first place from which on `pattern` can be read, counted from `i`. -/
def indexOfFrom (pattern : Text) (i : Nat) : Text → Option Nat
  | [] => if pattern.isEmpty then some i else none
  | c :: rest =>
    if pattern.isPrefixOf (c :: rest) then some i else indexOfFrom pattern (i + 1) rest

/-- The first place where `pattern` occurs in the text. -/
def indexOf? (t pattern : Text) : Option Nat := indexOfFrom pattern 0 t

/-- Without the first occurrence of `pattern`. -/
def eraseFirst (t pattern : Text) : Text :=
  match t.indexOf? pattern with
  | some i => t.take i ++ t.drop (i + pattern.length)
  | none => t

end Text

/-- A planned removal: the lines and the text that go, and the text that stays. -/
structure Removal where
  name : Text
  span : Span
  code : Text
  text : Text
  deriving DecidableEq, Repr

namespace Removal

/-- What the text becomes without the excerpt `code`. -/
def remainder (collapse : Bool) (t code : Text) : Text :=
  let left := t.eraseFirst code
  if collapse then left.collapse else left

/-- The removal of the routine that the lines `span` of the text hold. -/
def ofSpan? (collapse : Bool) (t name : Text) (span : Span) : Option Removal :=
  ((Listing.ofText t).block? span.first span.last).map fun code =>
    ⟨name, span, code, remainder collapse t code⟩

/-- The removal of routine `name` from a text, if it can be found there. -/
def plan? (collapse : Bool) (t name : Text) : Option Removal :=
  ((Listing.ofText t).span? name).bind (ofSpan? collapse t name)

end Removal

/-- The text without routine `name`, runs of line breaks collapsed. -/
def Text.removeRoutine? (t name : Text) : Option Text := (Removal.plan? true t name).map (·.text)

end AsmListing
