import AsmListing.Proofs.Lines

/-! The lines of a text that are not empty. They do not depend on the breaks between them, so they
stay when texts are joined at breaks and when runs of breaks collapse. -/
namespace AsmListing.Text

variable {t u run : Text}

/-- The lines that are not empty. -/
def solidLines (t : Text) : List Text := (t.splitOnP isBreak).filter fun l => !l.isEmpty

@[simp] theorem solidLines_nil : solidLines [] = [] := by
  simp [solidLines, List.splitOnP_nil]

/-- No line goes on over a break. -/
theorem solidLines_append_break {c : Char} (hc : isBreak c = true) (t u : Text) :
    solidLines (t ++ c :: u) = solidLines t ++ solidLines u := by
  rw [solidLines, List.splitOnP_append_cons t u hc, List.filter_append]
  rfl

theorem solidLines_cons_break {c : Char} (hc : isBreak c = true) (t : Text) :
    solidLines (c :: t) = solidLines t := by
  simpa using solidLines_append_break hc [] t

theorem solidLines_append_of_beginsAtBreak (h : u.BeginsAtBreak) :
    solidLines (t ++ u) = solidLines t ++ solidLines u := by
  cases u with
  | nil => simp
  | cons c u =>
    have hc : isBreak c = true := h c rfl
    rw [solidLines_append_break hc, solidLines_cons_break hc]

theorem solidLines_append_of_endsAtBreak (h : t.EndsAtBreak) :
    solidLines (t ++ u) = solidLines t ++ solidLines u := by
  rcases List.eq_nil_or_concat t with rfl | ⟨t, c, rfl⟩
  · simp
  · have hc : isBreak c = true := h c (by simp)
    have hlast : solidLines (t ++ [c]) = solidLines t := by
      simpa using solidLines_append_break hc t []
    simp only [List.concat_eq_append, List.append_assoc, List.singleton_append]
    rw [solidLines_append_break hc, hlast]

theorem solidLines_append_breaks (h : ∀ c ∈ run, isBreak c = true) (t : Text) :
    solidLines (run ++ t) = solidLines t := by
  induction run with
  | nil => rfl
  | cons c run ih =>
    rw [List.forall_mem_cons] at h
    rw [List.cons_append, solidLines_cons_break h.1, ih h.2]

theorem solidLines_of_not_isBreak (hne : t ≠ []) (h : ∀ c ∈ t, isBreak c = false) :
    solidLines t = [t] := by
  simp [solidLines, List.splitOnP_eq_singleton h, hne]

/-- The content of one line, as a text of its own. -/
theorem solidLines_content (h : ∀ c ∈ t, isBreak c = false) :
    solidLines t = [t].filter fun l => !l.isEmpty := by
  cases t with
  | nil => simp
  | cons c t => simpa using solidLines_of_not_isBreak (by simp) h

/-- The lines of a text that are not empty are those of its listing. -/
theorem solidLines_toText {ls : Listing} (h : ls.IsSplit) :
    solidLines ls.toText = ls.contents.filter fun l => !l.isEmpty := by
  induction ls with
  | nil => simp [Listing.contents]
  | cons l ls ih =>
    have hcontent := solidLines_content (h.solid l (by simp))
    rw [Listing.toText_cons, solidLines_append_of_beginsAtBreak h.beginsAtBreak,
      solidLines_append_breaks Ending.isBreak_of_mem, ih (h.of_suffix (List.suffix_cons l ls)),
      hcontent, ← List.filter_append]
    rfl

theorem solidLines_eq (t : Text) :
    solidLines t = (Listing.ofText t).contents.filter fun l => !l.isEmpty := by
  rw [← solidLines_toText (Listing.isSplit_ofText t), Listing.toText_ofText]

end AsmListing.Text
