import AsmListing.Text.Basic

/-!
Runs of line breaks. Removing a routine leaves a gap; collapsing a text shortens every run of at
least three break characters to two line breaks of the kind that begins the run.
-/
namespace AsmListing

/-- A carriage return or a line feed. -/
def isBreak (c : Char) : Bool := c == '\n' || c == '\r'

namespace BlankRun

/-- The line break at the beginning of a run; carriage return and line feed together are one. -/
def firstBreak : Text → Text
  | '\r' :: '\n' :: _ => ['\r', '\n']
  | c :: _ => [c]
  | [] => []

/-- What a maximal run of break characters becomes. -/
def settle (run : Text) : Text :=
  if run.length < 3 then run else firstBreak run ++ firstBreak run

/-- A text that is being collapsed from its end: the run of breaks in front, and the collapsed rest
behind it. -/
structure Progress where
  run : Text
  rest : Text
  deriving DecidableEq, Repr

def Progress.prepend (c : Char) (p : Progress) : Progress :=
  if isBreak c then ⟨c :: p.run, p.rest⟩ else ⟨[], c :: (settle p.run ++ p.rest)⟩

def Progress.finish (p : Progress) : Text := settle p.run ++ p.rest

/-- The progress on a whole text. -/
def Progress.ofText (t : Text) : Progress := t.foldr Progress.prepend ⟨[], []⟩

end BlankRun

/-- The text with every run of at least three break characters shortened to two line breaks. -/
def Text.collapse (t : Text) : Text := (BlankRun.Progress.ofText t).finish

namespace BlankRun

theorem ofText_cons_of_isBreak {c : Char} (t : Text) (h : isBreak c = true) :
    Progress.ofText (c :: t) = ⟨c :: (Progress.ofText t).run, (Progress.ofText t).rest⟩ := by
  simp [Progress.ofText, Progress.prepend, h]

theorem ofText_cons_of_not_isBreak {c : Char} (t : Text) (h : isBreak c = false) :
    Progress.ofText (c :: t) = ⟨[], c :: t.collapse⟩ := by
  simp [Progress.ofText, Progress.prepend, Progress.finish, Text.collapse, h]

theorem run_ofText (t : Text) : (Progress.ofText t).run = t.takeWhile isBreak := by
  induction t with
  | nil => rfl
  | cons c t ih =>
    cases h : isBreak c
    · simp [ofText_cons_of_not_isBreak t h, h]
    · simp [ofText_cons_of_isBreak t h, ih, h]

theorem rest_ofText (t : Text) :
    (Progress.ofText t).rest = Text.collapse (t.dropWhile isBreak) := by
  induction t with
  | nil => rfl
  | cons c t ih =>
    cases h : isBreak c
    · rw [List.dropWhile_cons_of_neg (by simp [h]), Text.collapse,
        ofText_cons_of_not_isBreak t h]
      rfl
    · simp [ofText_cons_of_isBreak t h, ih, h]

end BlankRun

/-- A text collapses run by run. -/
theorem Text.collapse_eq (t : Text) :
    t.collapse =
      BlankRun.settle (t.takeWhile isBreak) ++ Text.collapse (t.dropWhile isBreak) := by
  rw [← BlankRun.run_ofText, ← BlankRun.rest_ofText]
  rfl

theorem Text.collapse_cons_of_not_isBreak {c : Char} (t : Text) (h : isBreak c = false) :
    Text.collapse (c :: t) = c :: t.collapse := by
  rw [Text.collapse, BlankRun.ofText_cons_of_not_isBreak t h]
  rfl

end AsmListing
