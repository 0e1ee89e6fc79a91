import AsmListing.Listing.Marker

/-!
The range of lines of one named routine. A routine begins at its declaration, or at its label where
it is declared nowhere. It ends at its own size directive; where another routine is declared first,
its end is the last line before that declaration which looks like one.
-/
namespace AsmListing

/-- A range of lines, both ends included. -/
structure Span where
  first : Nat
  last : Nat
  deriving DecidableEq, Repr, Inhabited

def Span.lineCount (s : Span) : Nat := s.last - s.first + 1

/-- A line as the search for an end sees it. -/
structure Cell where
  marker : Marker
  trimmed : Text
  deriving DecidableEq, Repr, Inhabited

/-- Blank or an alignment directive of any width: it does not end the data behind a routine. -/
def Cell.isFiller (c : Cell) : Bool :=
  c.trimmed.isEmpty || List.isPrefixOf (".align" : Text) c.trimmed

def Listing.cells (ls : Listing) : List Cell :=
  ls.map fun l => ⟨Marker.ofLine l.content, l.content.trim⟩

/-- The kinds of line that the search for an end accepts. -/
inductive Tier where
  /-- A size or alignment directive, which is the end itself. -/
  | data
  /-- A jump to a register; data directly behind it still belongs to the routine. -/
  | ret
  deriving DecidableEq, Repr, Inhabited

def Tier.accepts : Tier → Marker → Bool
  | .data, m => m.isData
  | .ret, m => m.isRet

namespace Terminator

/-- The tiers in the order in which they are tried. -/
def allTiers : List Tier := [.data, .ret]

/-- How many of the lines behind a jump still belong to its routine, when `seen` of them have been
passed and `kept` of these belong to it: all up to the last size or alignment directive that only
fillers separate from the jump. -/
def trailingFrom (seen kept : Nat) : List Cell → Nat
  | [] => kept
  | c :: rest =>
    if c.marker.isData then trailingFrom (seen + 1) (seen + 1) rest
    else if c.isFiller then trailingFrom (seen + 1) kept rest
    else kept

/-- The lines behind a jump that still belong to its routine. -/
def trailing (later : List Cell) : Nat := trailingFrom 0 0 later

/-- Where a search ended: `behind` lines of the searched ones follow the accepted line, of which
`extension` belong to the routine. -/
structure Hit where
  tier : Tier
  behind : Nat
  extension : Nat
  deriving DecidableEq, Repr

/-- Walks backwards through `before`, nearest line first, and stops at the first line that a tier
accepts; `later` holds the lines already passed, in order. -/
def seek (tiers : List Tier) (later : List Cell) : List Cell → Option Hit
  | [] => none
  | c :: before =>
    match tiers.find? (·.accepts c.marker) with
    | some .data => some ⟨.data, later.length, 0⟩
    | some .ret => some ⟨.ret, later.length, trailing later⟩
    | none => seek tiers (c :: later) before

/-- The search through the lines from `start` up to the one before `next`. -/
def between (tiers : List Tier) (cells : List Cell) (start next : Nat) : Option Hit :=
  seek tiers [] ((cells.take next).drop start).reverse

/-- The accepted line, if any, and the end of a routine that is open from `start` when another one
begins at `next`: without an accepted line it ends right before `next`. -/
def locate (tiers : List Tier) (cells : List Cell) (start next : Nat) :
    Option (Tier × Nat) × Nat :=
  match between tiers cells start next with
  | some hit => (some (hit.tier, next - 1 - hit.behind), next - 1 - hit.behind + hit.extension)
  | none => (none, next - 1)

/-- The end of a routine that is open from `start` when another one begins at `next`. -/
def endLine (tiers : List Tier) (cells : List Cell) (start next : Nat) : Nat :=
  (locate tiers cells start next).2

/-- The same search for any two integers. Lines count from the end where their number is negative,
and the search fails when it has to look at a line that does not exist. -/
def wrappedEndLine (tiers : List Tier) (cells : List Cell) (start next : Int) :
    Except IndexFault Int :=
  let count : Int := cells.length
  let top := next - 1
  if top < start then .ok top
  else if count ≤ top ∨ top < -count then .error (.ofIndex top)
  else
    let bottom := max start (-count)
    let window := ((cells ++ cells).take (next + count).toNat).drop (bottom + count).toNat
    match seek tiers [] window.reverse with
    | some hit => .ok (top - hit.behind + hit.extension)
    | none => if -count ≤ start then .ok top else .error .outOfRange

end Terminator

/-- How the start of a routine was recognised. -/
inductive Opening where
  | declaration
  | label
  deriving DecidableEq, Repr, Inhabited

/-- How the end of a routine was recognised. -/
inductive Closing where
  /-- Its own size directive. -/
  | ownSize
  /-- Another declaration comes first; the line that the search for an end accepted, if any. -/
  | beforeNext (accepted : Option (Tier × Nat))
  deriving DecidableEq, Repr, Inhabited

/-- The answer to the question where a routine stands. -/
inductive Resolution where
  | absent
  | unclosed (opening : Opening) (start : Nat)
  | found (opening : Opening) (span : Span) (closing : Closing)
  deriving DecidableEq, Repr, Inhabited

namespace Resolution

def span? : Resolution → Option Span
  | .found _ s _ => some s
  | _ => none

/-- The first line that declares the name or, only where none does, the first line that has it as
a label. -/
def start? (markers : List Marker) (name : Text) : Option (Nat × Opening) :=
  match markers.findIdx? (· == .start name) with
  | some i => some (i, .declaration)
  | none => (markers.findIdx? (· == .label name)).map fun i => (i, .label)

/-- The first line that decides where an open routine ends: its own size or a declaration. -/
def decides (name : Text) (m : Marker) : Bool := m.isStart || m == .size name

/-- Looks a name up among the lines of a listing. -/
def ofCells (cells : List Cell) (name : Text) : Resolution :=
  let markers := cells.map Cell.marker
  match start? markers name with
  | none => .absent
  | some (start, opening) =>
    match (markers.drop (start + 1)).findIdx? (decides name) with
    | none => .unclosed opening start
    | some k =>
      let i := start + 1 + k
      if markers[i]? = some (.size name) then .found opening ⟨start, i⟩ .ownSize
      else
        let (accepted, last) := Terminator.locate Terminator.allTiers cells start i
        .found opening ⟨start, last⟩ (.beforeNext accepted)

end Resolution

namespace Listing

/-- Where the routine `name` stands. -/
def resolve (ls : Listing) (name : Text) : Resolution := Resolution.ofCells ls.cells name

/-- The lines of the routine `name`, if it can be found. -/
def span? (ls : Listing) (name : Text) : Option Span := (ls.resolve name).span?

/-- The text of the routine `name` as it stands in the listing. -/
def extract? (ls : Listing) (name : Text) : Option Text :=
  (ls.span? name).bind fun s => ls.block? s.first s.last

end Listing

end AsmListing
