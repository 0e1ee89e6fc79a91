import AsmListing.Listing.Resolution

/-!
The catalog of a listing: its routines in the order of their declarations. One pass over the markers
keeps at most one routine open. It closes at its own size directive, in front of the next
declaration, or at the end of the listing.
-/
namespace AsmListing

/-- A routine of a listing with its lines and its text. -/
structure Routine where
  name : Text
  span : Span
  code : Text
  deriving DecidableEq, Repr, Inhabited

/-- A pass over a listing on its way: the routines closed so far, and the name and the first line of
the open one. -/
structure CatalogPass where
  closed : List Routine
  current : Option (Text × Nat)
  deriving DecidableEq, Repr

namespace CatalogPass

variable (ls : Listing) (p : CatalogPass)

def start : CatalogPass := ⟨[], none⟩

/-- The routines when the open one, if there is one, ends with line `last`. -/
def close (last : Nat) : List Routine :=
  match p.current with
  | none => p.closed
  | some (name, first) => p.closed ++ [⟨name, ⟨first, last⟩, ls.block first last⟩]

/-- Goes over line `i` with this marker. A size closes only the routine that it names. -/
def step (m : Marker) (i : Nat) : CatalogPass :=
  match m, p.current with
  | .start name, _ => ⟨p.close ls (i - 1), some (name, i)⟩
  | .size name, some (current, _) => if name = current then ⟨p.close ls i, none⟩ else p
  | _, _ => p

/-- Goes over these markers, of which the first one stands on line `i`. -/
def run (i : Nat) (ms : List Marker) : CatalogPass :=
  (ms.zipIdx i).foldl (fun p m => p.step ls m.1 m.2) p

end CatalogPass

namespace Listing

/-- The routines in file order; a name that is declared twice gives two of them. -/
def routines (ls : Listing) : List Routine :=
  (CatalogPass.start.run ls 0 ls.markers).close ls (ls.length - 1)

/-- The names of the routines in file order. -/
def routineNames (ls : Listing) : List Text := ls.routines.map Routine.name

end Listing

end AsmListing
