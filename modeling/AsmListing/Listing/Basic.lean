import AsmListing.Text.Word

/-!
Listings: a text as its lines, each with the line break that ends it. Nothing of the text is lost,
so any range of lines can be handed back exactly as it stands in the text.
-/
namespace AsmListing

/-- What ends a line: one of the three line breaks, or nothing where the text ends. -/
inductive Ending where
  | none
  | lf
  | cr
  | crlf
  deriving DecidableEq, Repr, Inhabited

def Ending.toText : Ending → Text
  | .none => []
  | .lf => ['\n']
  | .cr => ['\r']
  | .crlf => ['\r', '\n']

/-- A line: its characters, none of which is a line break, and its ending. -/
structure Line where
  content : Text
  ending : Ending
  deriving DecidableEq, Repr, Inhabited

/-- The line as it stands in the text. -/
def Line.toText (l : Line) : Text := l.content ++ l.ending.toText

/-- The lines of a text in order; only the last one has no ending. -/
abbrev Listing := List Line

namespace Listing

/-- The lines of `c` followed by a text with the given lines. A carriage return in front of a bare
line feed joins it to one break. -/
def prepend (c : Char) : Listing → Listing
  | [] => []
  | l :: rest =>
    if c = '\n' then ⟨[], .lf⟩ :: l :: rest
    else if c = '\r' then
      if l = ⟨[], .lf⟩ then ⟨[], .crlf⟩ :: rest else ⟨[], .cr⟩ :: l :: rest
    else ⟨c :: l.content, l.ending⟩ :: rest

/-- The lines of a text. The empty text has one empty line, as has the end of a text behind its
last line break. -/
def ofText (t : Text) : Listing := t.foldr prepend [⟨[], .none⟩]

def toText (ls : Listing) : Text := ls.flatMap Line.toText

@[simp] theorem ofText_nil : ofText [] = [⟨[], .none⟩] := rfl

@[simp] theorem ofText_cons (c : Char) (t : Text) : ofText (c :: t) = prepend c (ofText t) := rfl

theorem prepend_ne_nil (c : Char) {ls : Listing} (h : ls ≠ []) : prepend c ls ≠ [] := by
  obtain _ | ⟨l, rest⟩ := ls
  · exact absurd rfl h
  · simp only [prepend]
    split
    · simp
    · split
      · split <;> simp
      · simp

/-- Every text has at least one line. -/
theorem ofText_ne_nil (t : Text) : ofText t ≠ [] := by
  induction t with
  | nil => simp
  | cons c t ih => exact prepend_ne_nil c ih

theorem toText_prepend (c : Char) {ls : Listing} (h : ls ≠ []) :
    (prepend c ls).toText = c :: ls.toText := by
  obtain _ | ⟨l, rest⟩ := ls
  · exact absurd rfl h
  · by_cases hn : c = '\n'
    · subst hn
      rfl
    · by_cases hr : c = '\r'
      · subst hr
        by_cases hl : l = ⟨[], .lf⟩
        · subst hl
          rfl
        · simp [prepend, hl, toText, Line.toText, Ending.toText]
      · simp [prepend, hn, hr, toText, Line.toText]

/-- Nothing of a text is lost in its lines. -/
theorem toText_ofText (t : Text) : (ofText t).toText = t := by
  induction t with
  | nil => rfl
  | cons c t ih => rw [ofText_cons, toText_prepend c (ofText_ne_nil t), ih]

/-- The lines without their endings. -/
def contents (ls : Listing) : List Text := ls.map Line.content

/-- The text of these lines without the ending of the last one. -/
def excerpt (ls : Listing) : Text :=
  toText ls.dropLast ++ match ls.getLast? with
    | some l => l.content
    | none => []

/-- The text of the lines `first` to `last`, both included, without the ending of the last one. -/
def block (ls : Listing) (first last : Nat) : Text := excerpt ((ls.take (last + 1)).drop first)

/-- The text of the lines `first` to `last`, where these are lines of the listing in order. -/
def block? (ls : Listing) (first last : Int) : Option Text :=
  if 0 ≤ first ∧ first ≤ last ∧ last < ls.length then some (ls.block first.toNat last.toNat)
  else none

/-- What is said about a range of lines that `block?` refuses. -/
def rangeMessage (ls : Listing) (first last : Int) : Text :=
  "invalid line range " ++ Text.ofInt first ++ ".." ++ Text.ofInt last ++ " for " ++
    Text.ofNat ls.length ++ " lines"

end Listing

/-- Why there is no element at an index. -/
inductive IndexFault where
  | outOfRange
  /-- No sequence can be so long. -/
  | beyondWord
  deriving DecidableEq, Repr

namespace IndexFault

/-- The fault of an index at which there is no element: indices have 64 bits. -/
def ofIndex (i : Int) : IndexFault :=
  if -0x8000000000000000 ≤ i ∧ i < 0x8000000000000000 then .outOfRange else .beyondWord

/-- The fault in a sequence of the given kind. -/
def message (kind : Text) : IndexFault → Text
  | .outOfRange => kind ++ " index out of range"
  | .beyondWord => "cannot fit 'int' into an index-sized integer"

end IndexFault

/-- The element at an index that counts from the end where it is negative. -/
def wrappedGet {α : Type} (xs : List α) (i : Int) : Except IndexFault α :=
  let place := if 0 ≤ i then i else xs.length + i
  match if 0 ≤ place then xs[place.toNat]? else none with
  | some x => .ok x
  | none => .error (.ofIndex i)

end AsmListing
