import AsmListing.Text.CodePoint

/-!
Control sequences of terminals: an escape character and an opening bracket, then parameters,
intermediate characters and a final one. A text that does not go to a terminal is shown without
them; what only begins like one stays.
-/
namespace AsmListing

namespace ControlSequence

/-- The character that every sequence begins with. -/
def escape : Char := Char.ofNat 27

/-- The digits and signs that may follow the bracket. -/
def isParameter (c : Char) : Bool := decide ('0' ≤ c) && decide (c ≤ '?')

/-- The signs that may stand between the parameters and the end. -/
def isIntermediate (c : Char) : Bool := decide (' ' ≤ c) && decide (c ≤ '/')

/-- The characters that end a sequence. -/
def isFinal (c : Char) : Bool := decide ('@' ≤ c) && decide (c ≤ '~')

/-- The number of characters behind a bracket up to the end of the sequence, if it has one. -/
def lengthBehindBracket? (t : Text) : Option Nat :=
  let parameters := t.takeWhile isParameter
  let intermediates := (t.drop parameters.length).takeWhile isIntermediate
  let length := parameters.length + intermediates.length
  match t.drop length with
  | c :: _ => if isFinal c then some (length + 1) else none
  | [] => none

/-- The number of characters of the sequence that a text begins with, its first one left out. -/
def lengthBehindEscape? : Text → Option Nat
  | '[' :: rest => (lengthBehindBracket? rest).map (· + 1)
  | _ => none

/-- The rest of a text without its sequences, `kept` holding what has been kept so far, the last
character first; the next `skipped` characters belong to a sequence. -/
def stripFrom : Nat → Text → Text → Text
  | _, kept, [] => kept.reverse
  | skipped + 1, kept, _ :: rest => stripFrom skipped kept rest
  | 0, kept, c :: rest =>
    match if c = escape then lengthBehindEscape? rest else none with
    | some length => stripFrom length kept rest
    | none => stripFrom 0 (c :: kept) rest

end ControlSequence

/-- The text without the control sequences in it. -/
def Text.withoutControlSequences (t : Text) : Text := ControlSequence.stripFrom 0 [] t

namespace LooseText

/-- The rest of a text without control sequences, `run` holding the characters since the last
surrogate, the last one first. A surrogate belongs to no sequence. -/
def stripRuns (run : Text) : LooseText → LooseText
  | [] => Text.withoutControlSequences run.reverse
  | .char c :: rest => stripRuns (c :: run) rest
  | .surrogate i :: rest =>
    Text.loose (Text.withoutControlSequences run.reverse) ++ .surrogate i :: stripRuns [] rest

/-- The text without the control sequences in it. -/
def withoutControlSequences (t : LooseText) : LooseText := stripRuns [] t

end LooseText

end AsmListing
