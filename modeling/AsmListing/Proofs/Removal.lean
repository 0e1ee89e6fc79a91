import AsmListing.Proofs.Resolution
import AsmListing.Listing.Removal

/-! What a removal cuts out of a text: the first place where the lines of the routine occur. -/
namespace AsmListing

variable {t pattern before behind name : Text} {s e i j : Nat}

/-- The pattern occurs in the text behind `before`, and nowhere earlier. -/
structure FirstOccurrence (pattern t before behind : Text) : Prop where
  text_eq : t = before ++ (pattern ++ behind)
  least : ∀ p q, t = p ++ (pattern ++ q) → before.length ≤ p.length

namespace Text

theorem occurs_cons {c : Char} {p q : Text} (hno : ¬ pattern <+: c :: t)
    (h : c :: t = p ++ (pattern ++ q)) : ∃ p', p = c :: p' ∧ t = p' ++ (pattern ++ q) := by
  cases p with
  | nil => exact (hno ⟨q, h.symm⟩).elim
  | cons d p =>
    obtain ⟨rfl, ht⟩ := List.cons.inj h
    exact ⟨p, rfl, ht⟩

theorem indexOfFrom_eq_some (h : indexOfFrom pattern i t = some j) :
    ∃ before behind, FirstOccurrence pattern t before behind ∧ j = i + before.length := by
  induction t generalizing i with
  | nil =>
    cases pattern with
    | nil =>
      simp only [indexOfFrom, List.isEmpty_nil, if_true, Option.some.injEq] at h
      exact ⟨[], [], ⟨rfl, by simp⟩, by simp [h]⟩
    | cons => simp [indexOfFrom] at h
  | cons c t ih =>
    by_cases hp : pattern <+: c :: t
    · simp only [indexOfFrom, List.isPrefixOf_iff_prefix, if_pos hp, Option.some.injEq] at h
      obtain ⟨behind, hb⟩ := hp
      exact ⟨[], behind, ⟨hb.symm, by simp⟩, by simp [h]⟩
    · simp only [indexOfFrom, List.isPrefixOf_iff_prefix, if_neg hp] at h
      obtain ⟨before, behind, hfirst, hj⟩ := ih h
      refine ⟨c :: before, behind, ⟨by simp [hfirst.text_eq], ?_⟩, by simp [hj]; omega⟩
      intro p q hpq
      obtain ⟨p', rfl, hp'⟩ := occurs_cons hp hpq
      simpa using hfirst.least p' q hp'

theorem indexOfFrom_eq_none (h : indexOfFrom pattern i t = none) (p q : Text) :
    t ≠ p ++ (pattern ++ q) := by
  induction t generalizing i p with
  | nil =>
    cases pattern with
    | nil => simp [indexOfFrom] at h
    | cons => simp
  | cons c t ih =>
    by_cases hp : pattern <+: c :: t
    · simp [indexOfFrom, List.isPrefixOf_iff_prefix, hp] at h
    · simp only [indexOfFrom, List.isPrefixOf_iff_prefix, if_neg hp] at h
      intro hpq
      obtain ⟨p', rfl, hp'⟩ := occurs_cons hp hpq
      exact ih h p' hp'

/-- Where a pattern occurs, its first occurrence is cut out and all else stays. -/
theorem exists_eraseFirst_eq {p q : Text} (h : t = p ++ (pattern ++ q)) :
    ∃ before behind, FirstOccurrence pattern t before behind ∧
      t.eraseFirst pattern = before ++ behind := by
  cases hi : t.indexOf? pattern with
  | none => exact (indexOfFrom_eq_none hi p q h).elim
  | some k =>
    obtain ⟨before, behind, hfirst, hk⟩ := indexOfFrom_eq_some hi
    refine ⟨before, behind, hfirst, ?_⟩
    have hk : k = before.length := by omega
    have hcut : t.drop (before.length + pattern.length) = behind := by
      rw [hfirst.text_eq, ← List.append_assoc, ← List.length_append, List.drop_left]
    rw [eraseFirst, hi]
    simp only [hk, hcut]
    rw [hfirst.text_eq, List.take_left]

end Text

/-- Cutting a text at its first occurrence of a pattern or at another one comes to the same exactly
where what lies between the two places commutes with the pattern. -/
theorem FirstOccurrence.cut_eq_iff {p q : Text} (h : FirstOccurrence pattern t before behind)
    (hpq : t = p ++ (pattern ++ q)) :
    before ++ behind = p ++ q ↔
      ∃ between, p = before ++ between ∧ between ++ pattern = pattern ++ between := by
  have hpre : before <+: p :=
    List.prefix_of_prefix_length_le ⟨_, h.text_eq.symm⟩ ⟨_, hpq.symm⟩ (h.least p q hpq)
  obtain ⟨between, rfl⟩ := hpre
  have hrest : pattern ++ behind = between ++ (pattern ++ q) := by
    have heq := h.text_eq.symm.trans hpq
    rwa [List.append_assoc, List.append_cancel_left_eq] at heq
  constructor
  · intro heq
    rw [List.append_assoc, List.append_cancel_left_eq] at heq
    refine ⟨between, rfl, ?_⟩
    rw [heq, ← List.append_assoc, ← List.append_assoc, List.append_cancel_right_eq] at hrest
    exact hrest.symm
  · rintro ⟨other, hother, hcomm⟩
    rw [List.append_cancel_left_eq] at hother
    subst hother
    rw [← List.append_assoc, hcomm, List.append_assoc, List.append_cancel_left_eq] at hrest
    rw [hrest, List.append_assoc]

theorem FirstOccurrence.cut_eq {p q : Text} (h : FirstOccurrence pattern t before behind)
    (hpq : FirstOccurrence pattern t p q) : before ++ behind = p ++ q := by
  rw [h.cut_eq_iff hpq.text_eq]
  have hle := hpq.least before behind h.text_eq
  have hpre : p <+: before :=
    List.prefix_of_prefix_length_le ⟨_, hpq.text_eq.symm⟩ ⟨_, h.text_eq.symm⟩ hle
  have heq := hpre.eq_of_length_le (h.least p q hpq.text_eq)
  exact ⟨[], by simp [heq], by simp⟩

namespace Removal

open Listing

/-- Without collapsing, a removal reports the lines that were found and their block, and cuts out
the first place where this block occurs in the text. This leaves what stands before and behind the
lines exactly where what lies between the two places commutes with the block, so at least where the
block occurs nowhere earlier. -/
theorem plan?_cuts_first_occurrence (h : (ofText t).span? name = some ⟨s, e⟩) :
    ∃ r before behind, plan? false t name = some r ∧ r.name = name ∧ r.span = ⟨s, e⟩ ∧
      r.code = (ofText t).block s e ∧
      FirstOccurrence r.code t before behind ∧ r.text = before ++ behind ∧
      (r.text = (ofText t).textBefore s ++ (ofText t).textBehind e ↔
        ∃ between, (ofText t).textBefore s = before ++ between ∧
          between ++ r.code = r.code ++ between) ∧
      (FirstOccurrence r.code t ((ofText t).textBefore s) ((ofText t).textBehind e) →
        r.text = (ofText t).textBefore s ++ (ofText t).textBehind e) := by
  have htext := text_eq_block (le_of_span? h) (lt_length_of_span? h)
  obtain ⟨before, behind, hfirst, herase⟩ := Text.exists_eraseFirst_eq htext
  have hplan : plan? false t name =
      some ⟨name, ⟨s, e⟩, (ofText t).block s e, before ++ behind⟩ := by
    simp [plan?, h, ofSpan?, block?_of_span? h, remainder, herase]
  exact ⟨_, before, behind, hplan, rfl, rfl, rfl, hfirst, rfl, hfirst.cut_eq_iff htext,
    hfirst.cut_eq⟩

/-- A routine whose only line begins the line of another routine. -/
theorem plan?_cuts_first_occurrence_of_longer_name :
    (ofText "glabel foo\n  jr $ra\nglabel f\nglabel g").span? "f" = some ⟨2, 2⟩ ∧
    ∃ r before behind,
      plan? false "glabel foo\n  jr $ra\nglabel f\nglabel g" "f" = some r ∧ r.span = ⟨2, 2⟩ ∧
      FirstOccurrence r.code "glabel foo\n  jr $ra\nglabel f\nglabel g" before behind ∧
      r.text = before ++ behind := by
  have hspan : (ofText "glabel foo\n  jr $ra\nglabel f\nglabel g").span? "f" = some ⟨2, 2⟩ := by
    decide +kernel
  obtain ⟨r, before, behind, hr, _, hs, _, hfirst, htext, _⟩ := plan?_cuts_first_occurrence hspan
  exact ⟨hspan, r, before, behind, hr, hs, hfirst, htext⟩

/-- The lines that were found need not be the ones that go: here another declaration is cut. -/
theorem not_plan?_cuts_found_lines :
    ¬ ∀ (t name : Text) (s e : Nat) (r : Removal), (ofText t).span? name = some ⟨s, e⟩ →
      plan? false t name = some r →
      r.text = (ofText t).textBefore s ++ (ofText t).textBehind e := by
  intro h
  have hcut := h "glabel foo\n  jr $ra\nglabel f\nglabel g" "f" 2 2
    ⟨"f", ⟨2, 2⟩, "glabel f", "oo\n  jr $ra\nglabel f\nglabel g"⟩
    (by decide +kernel) (by decide +kernel)
  exact absurd hcut (by decide +kernel)

end Removal

end AsmListing
