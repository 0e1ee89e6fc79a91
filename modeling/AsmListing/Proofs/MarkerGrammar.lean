import AsmListing.Proofs.FirstFound

/-! The grammar of markers. Each kind of marker has a shape of its own, and the marker of a line is
the first kind, in a fixed order, whose shape the line has. -/
namespace AsmListing

namespace Marker

variable {t name : Text} {m : Marker}

/-- The shape that a line without blanks at its ends has for a marker, whatever other shapes it
has. -/
def Fits (t : Text) : Marker → Prop
  | .start name =>
    IsFirstFound (fun before rest found => IsEdge before ∧ IsOperand "glabel" found rest) name t
  | .size name => IsFirstFound (fun _ rest found => IsOperand ".size" found rest) name t
  | .align => t = (".align 3" : Text)
  | .ret => ("jr " : Text) <+: t
  | .label name => name ≠ [] ∧ (∀ c ∈ name, isWord c = true) ∧ ∃ rest, t = name ++ ':' :: rest
  | .plain => True

/-- The place of a kind of marker in the order in which the shapes are tried. -/
def rank : Marker → Nat
  | .start _ => 0
  | .size _ => 1
  | .align => 2
  | .ret => 3
  | .label _ => 4
  | .plain => 5

theorem startName?_eq_some_iff : startName? t = some name ↔ Fits t (.start name) := by
  rw [startName?, firstFoundAtEdge_eq_some_iff (by decide)]
  simp only [operand?_eq_some_iff, Fits]

theorem sizeName?_eq_some_iff : sizeName? t = some name ↔ Fits t (.size name) := by
  rw [sizeName?, firstFound_eq_some_iff (by decide)]
  simp only [operand?_eq_some_iff, Fits]

theorem isAlignLine_iff : isAlignLine t = true ↔ Fits t .align := by
  simp [isAlignLine, Fits]

theorem isRetLine_iff : isRetLine t = true ↔ Fits t .ret := by
  simp [isRetLine, Fits]

theorem labelName?_eq_some_iff : labelName? t = some name ↔ Fits t (.label name) := by
  constructor
  · intro h
    unfold labelName? at h
    split at h
    · next rest hrest =>
      obtain ⟨hne, hname, after, rfl, hafter⟩ := leadingWord?_eq_some_iff.mp h
      rw [dropWhile_isWord hname hafter] at hrest
      exact ⟨hne, hname, rest, by rw [hrest]⟩
    · cases h
  · rintro ⟨hne, hname, rest, rfl⟩
    have hcolon : ∀ c ∈ (':' :: rest).head?, isWord c = false := by
      rintro c ⟨⟩
      decide
    unfold labelName?
    rw [dropWhile_isWord hname hcolon]
    exact leadingWord?_eq_some_iff.mpr ⟨hne, hname, _, rfl, hcolon⟩

/-- A line has the shape of its marker. -/
theorem fits_ofTrimmed (t : Text) : Fits t (ofTrimmed t) := by
  unfold ofTrimmed
  split
  · next name h => exact startName?_eq_some_iff.mp h
  · split
    · next name h => exact sizeName?_eq_some_iff.mp h
    · split
      · next h => exact isAlignLine_iff.mp h
      · split
        · next h => exact isRetLine_iff.mp h
        · split
          · next name h => exact labelName?_eq_some_iff.mp h
          · trivial

/-- A line that has the shape of a marker has no marker of a later kind, and no other one of that
kind. -/
theorem eq_or_rank_lt_of_fits (h : Fits t m) : ofTrimmed t = m ∨ (ofTrimmed t).rank < m.rank := by
  unfold ofTrimmed
  cases m with
  | start name =>
    rw [startName?_eq_some_iff.mpr h]
    exact .inl rfl
  | size name =>
    rw [sizeName?_eq_some_iff.mpr h]
    cases startName? t <;> simp [rank]
  | align =>
    rw [isAlignLine_iff.mpr h]
    cases startName? t <;> cases sizeName? t <;> simp [rank]
  | ret =>
    rw [isRetLine_iff.mpr h]
    cases startName? t <;> cases sizeName? t <;> cases isAlignLine t <;> simp [rank]
  | label name =>
    rw [labelName?_eq_some_iff.mpr h]
    cases startName? t <;> cases sizeName? t <;> cases isAlignLine t <;> cases isRetLine t <;>
      simp [rank]
  | plain =>
    cases startName? t <;> cases sizeName? t <;> cases isAlignLine t <;> cases isRetLine t <;>
      cases labelName? t <;> simp [rank]

/-- A marker is that of a line exactly if the line has its shape, and the shape of no marker of an
earlier kind. Blanks at the ends of the line do not matter. -/
theorem ofLine_eq_iff (line : Text) (m : Marker) : ofLine line = m ↔
    Fits line.trim m ∧ ∀ other, other.rank < m.rank → ¬ Fits line.trim other := by
  constructor
  · rintro rfl
    refine ⟨fits_ofTrimmed _, fun other hlt hother => ?_⟩
    rcases eq_or_rank_lt_of_fits hother with heq | hrank
    · rw [ofLine, heq] at hlt
      exact Nat.lt_irrefl _ hlt
    · exact Nat.lt_asymm hlt hrank
  · rintro ⟨hm, hfirst⟩
    refine (eq_or_rank_lt_of_fits hm).resolve_right fun hlt => ?_
    exact hfirst _ hlt (fits_ofTrimmed _)

end Marker

end AsmListing
