import AsmListing.Text.CodePoint

/-!
Glob patterns over whole texts: `*` stands for any characters, `?` for one, and a bracket for one
out of a set. Slashes are nothing special.
-/
namespace AsmListing

/-- A set of characters, or all others: closed intervals between brackets. -/
structure CharSet where
  negated : Bool
  intervals : List (CodePoint × CodePoint)
  deriving DecidableEq, Repr

def CharSet.accepts (s : CharSet) (p : CodePoint) : Bool :=
  (s.intervals.any fun (a, b) => decide (a ≤ p) && decide (p ≤ b)) != s.negated

/-- One element of a pattern. -/
inductive GlobToken where
  | anything
  | anyChar
  | point (p : CodePoint)
  | oneOf (s : CharSet)
  deriving DecidableEq, Repr

namespace Glob

/-- The place of the first hyphen that at least `skip` characters stand before. -/
def hyphenAfter? (skip : Nat) (t : LooseText) : Option Nat :=
  ((t.drop skip).findIdx? (· == .char '-')).map (· + skip)

/-- Cuts the inside of a bracket at the hyphens that join intervals. A hyphen at the very end joins
nothing. -/
def pieces : Nat → Nat → LooseText → List LooseText
  | 0, _, t => [t]
  | fuel + 1, skip, t =>
    match hyphenAfter? skip t with
    | none => [t]
    | some k =>
      match t.drop (k + 1) with
      | [] => [t]
      | rest => t.take k :: pieces fuel 2 rest

/-- Puts a piece in front; an interval that would run backwards vanishes with both its ends. -/
def joinPiece (piece : LooseText) : List LooseText → List LooseText
  | [] => [piece]
  | next :: rest =>
    match piece.getLast?, next.head? with
    | some a, some b =>
      if b < a then (piece.dropLast ++ next.tail) :: rest else piece :: next :: rest
    | _, _ => piece :: next :: rest

/-- The code points of the pieces, with a mark on the hyphens between them. -/
def marked : List LooseText → List (CodePoint × Bool)
  | [] => []
  | [piece] => piece.map fun c => (c, false)
  | piece :: rest => (piece.map fun c => (c, false)) ++ (.char '-', true) :: marked rest

/-- A marked hyphen with code points on both sides makes an interval. -/
def intervals : List (CodePoint × Bool) → List (CodePoint × CodePoint)
  | (a, _) :: (_, true) :: (b, _) :: rest => (a, b) :: intervals rest
  | (a, _) :: rest => (a, a) :: intervals rest
  | [] => []

/-- The set that the inside of a bracket describes; an exclamation mark in front negates it. -/
def charSet (inside : LooseText) : CharSet :=
  let skip := if inside.head? = some (.char '!') then 2 else 1
  match marked ((pieces inside.length skip inside).foldr joinPiece []) with
  | (.char '!', false) :: rest => ⟨true, intervals rest⟩
  | all => ⟨false, intervals all⟩

/-- The inside of a bracket and the pattern behind it. A closing bracket right at the beginning
belongs to the inside. -/
def bracket? (t : LooseText) : Option (LooseText × LooseText) :=
  let negation := t.takeWhile fun c => c == .char '!'
  let lead := if negation.isEmpty then 0 else 1
  let skip := if (t.drop lead).head? = some (.char ']') then lead + 1 else lead
  ((t.drop skip).findIdx? (· == .char ']')).map fun k => (t.take (skip + k), t.drop (skip + k + 1))

/-- The elements of a pattern; a bracket that is never closed stands for itself. -/
def tokens : Nat → LooseText → List GlobToken
  | 0, _ => []
  | _, [] => []
  | fuel + 1, p :: rest =>
    if p = .char '*' then .anything :: tokens fuel rest
    else if p = .char '?' then .anyChar :: tokens fuel rest
    else if p = .char '[' then
      match bracket? rest with
      | some (inside, after) => .oneOf (charSet inside) :: tokens fuel after
      | none => .point p :: tokens fuel rest
    else .point p :: tokens fuel rest

def ofPattern (pattern : LooseText) : List GlobToken := tokens pattern.length pattern

def accepts : GlobToken → CodePoint → Bool
  | .anything, _ => true
  | .anyChar, _ => true
  | .point p, q => p == q
  | .oneOf s, q => s.accepts q

/-- All ends of a text, the longest first. -/
def ends (t : LooseText) : List LooseText :=
  match t with
  | [] => [[]]
  | _ :: rest => t :: ends rest

/-- What may be left of a text behind one more element, when `left` is what may be left before it;
longer remainders come first. -/
def advance (left : List LooseText) : GlobToken → List LooseText
  | .anything =>
    match left with
    | [] => []
    | longest :: _ => ends longest
  | token => left.filterMap fun
    | [] => none
    | p :: rest => if accepts token p then some rest else none

/-- The pattern describes the whole text. -/
def describes (pattern t : LooseText) : Bool :=
  ((ofPattern pattern).foldl advance [t]).contains []

end Glob

end AsmListing
