import AsmListing.Text.CodePoint

/-!
Close names: how alike two names are, and the few candidates closest to a wanted name. Likeness
counts the code points in common runs: the longest common run, then again on both sides of it.
-/
namespace AsmListing

namespace Likeness

/-- A run that two texts have in common: where it begins in each of them, and its length. -/
structure CommonRun where
  left : Nat
  right : Nat
  length : Nat
  deriving DecidableEq, Repr

/-- The characters that a wanted name of 200 characters or more holds too often to be anchors:
more than once, and once more for each hundred of its length. -/
def popular (wanted : LooseText) : List CodePoint :=
  if wanted.length < 200 then []
  else wanted.eraseDups.filter fun c => decide (wanted.length / 100 + 1 < wanted.count c)

/-- For each place of `right`, the length of the common run of anchors that ends there and at the
end of the left text so far, when `previous` holds these lengths for one character less. -/
def runLengths (anchor : CodePoint → Bool) (x : CodePoint) (right : LooseText)
    (previous : List Nat) : List Nat :=
  List.zipWith (fun y k => if x == y && anchor y then k + 1 else 0) right (0 :: previous)

/-- The first longest run among those that end at place `i` of the left text. -/
def longestEndingAt (i : Nat) (best : CommonRun) (lengths : List Nat) : CommonRun :=
  (lengths.zipIdx).foldl (fun best (k, j) =>
    if best.length < k then ⟨i + 1 - k, j + 1 - k, k⟩ else best) best

/-- The first longest common run of anchor characters. -/
def longestAnchored (anchor : CodePoint → Bool) (left right : LooseText) : CommonRun :=
  ((left.zipIdx).foldl (fun (state : CommonRun × List Nat) (x, i) =>
    let lengths := runLengths anchor x right state.2
    (longestEndingAt i state.1 lengths, lengths)) (⟨0, 0, 0⟩, right.map fun _ => 0)).1

/-- How far two texts agree from their beginnings. -/
def agreement : LooseText → LooseText → Nat
  | x :: xs, y :: ys => if x = y then agreement xs ys + 1 else 0
  | _, _ => 0

/-- The run extended on both sides as far as the texts agree, whatever the characters are. -/
def extend (left right : LooseText) (r : CommonRun) : CommonRun :=
  let before := agreement (left.take r.left).reverse (right.take r.right).reverse
  let after := agreement (left.drop (r.left + r.length)) (right.drop (r.right + r.length))
  ⟨r.left - before, r.right - before, before + r.length + after⟩

def longest (anchor : CodePoint → Bool) (left right : LooseText) : CommonRun :=
  extend left right (longestAnchored anchor left right)

/-- The number of characters in common runs; `depth` bounds how often a side is split again. -/
def common (anchor : CodePoint → Bool) : Nat → LooseText → LooseText → Nat
  | 0, _, _ => 0
  | depth + 1, left, right =>
    let r := longest anchor left right
    if r.length = 0 then 0
    else
      common anchor depth (left.take r.left) (right.take r.right) + r.length
        + common anchor depth (left.drop (r.left + r.length)) (right.drop (r.right + r.length))

/-- The characters that a candidate shares with the wanted name, out of the lengths of both; twice
the first number divided by the second is their likeness. -/
def score (wanted candidate : LooseText) : Nat × Nat :=
  let frequent := popular wanted
  (common (fun c => !frequent.contains c) (candidate.length + 1) candidate wanted,
    candidate.length + wanted.length)

end Likeness

namespace Suggestion

/-- At least three fifths alike. Two empty names are. -/
def isClose (score : Nat × Nat) : Bool := decide (3 * score.2 ≤ 10 * score.1)

/-- The order of suggestions: the more alike first, of equally alike ones the later name. -/
def scoredLe (a b : (Nat × Nat) × LooseText) : Bool :=
  if a.1.1 * b.1.2 = b.1.1 * a.1.2 then LooseText.le b.2 a.2
  else decide (b.1.1 * a.1.2 ≤ a.1.1 * b.1.2)

/-- The candidates closest to the wanted name, `limit` of them at most, the closest first. -/
def closest (limit : Nat) (wanted : LooseText) (candidates : List LooseText) : List LooseText :=
  let scored := candidates.map fun c => (Likeness.score wanted c, c)
  (((scored.filter fun s => isClose s.1).mergeSort scoredLe).take limit).map Prod.snd

end Suggestion

end AsmListing
