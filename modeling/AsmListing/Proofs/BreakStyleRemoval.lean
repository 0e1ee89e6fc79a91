import AsmListing.Proofs.BreakStyle
import AsmListing.Proofs.Remainder

/-! Removals do not depend on the kind of line break. A routine is cut out of a text as a piece of
that text, and so it has to be shown that another break gives the piece no new place in it; runs of
breaks are told by their characters, of which the breaks may have more or fewer. -/
namespace AsmListing

variable {t u p run code : Text} {k : Ending} {c : Char}

/-- The removal with another line break for each line feed. -/
def Removal.withBreaks (k : Ending) (r : Removal) : Removal :=
  { r with code := r.code.withBreaks k, text := r.text.withBreaks k }

/-! Occurrences of a text in another one. -/
namespace Text

/-- Where the new text can be cut in front of a character that is no break, so can the old one. -/
theorem exists_of_withBreaks_eq {x z : Text} (hz : ∀ a ∈ z.head?, isBreak a = false)
    (h : t.withBreaks k = x ++ z) :
    ∃ u w, t = u ++ w ∧ u.withBreaks k = x ∧ w.withBreaks k = z := by
  induction t generalizing x with
  | nil =>
    obtain ⟨rfl, rfl⟩ := List.append_eq_nil_iff.mp h.symm
    exact ⟨[], [], rfl, rfl, rfl⟩
  | cons c t ih =>
    by_cases hx : x = []
    · exact ⟨[], c :: t, rfl, hx.symm, by simpa [hx] using h⟩
    by_cases hc : c = '\n'
    · subst hc
      rw [withBreaks_lf] at h
      rcases List.append_eq_append_iff.mp h with ⟨x', rfl, hrest⟩ | ⟨d, hd, rfl⟩
      · obtain ⟨u, w, rfl, hu, hw⟩ := ih hrest
        exact ⟨'\n' :: u, w, rfl, by rw [withBreaks_lf, hu], hw⟩
      · -- the cut falls behind the whole break, as what follows begins within a line
        obtain rfl : d = [] := by
          by_contra hne
          obtain ⟨a, d, rfl⟩ := List.exists_cons_of_ne_nil hne
          have hbreak := Ending.isBreak_of_mem a (k := k) (by simp [hd])
          simp [hz a rfl] at hbreak
        exact ⟨['\n'], t, rfl, by simpa using hd, rfl⟩
    · rw [withBreaks_cons hc] at h
      obtain ⟨a, x, rfl⟩ := List.exists_cons_of_ne_nil hx
      obtain ⟨rfl, hrest⟩ := List.cons.inj h
      obtain ⟨u, w, rfl, hu, hw⟩ := ih hrest
      exact ⟨c :: u, w, rfl, by rw [withBreaks_cons hc, hu], hw⟩

theorem ending_append_ne (hk : k ≠ .none) (hc : isBreak c = false) :
    k.toText ++ t ≠ c :: u := by
  intro h
  have hbreak := Ending.beginsAtBreak hk t c (by rw [h]; rfl)
  simp [hc] at hbreak

/-- What a new text begins with, the old one did. -/
theorem exists_of_withBreaks_append {y : Text} (hk : k ≠ .none) (ht : '\r' ∉ t) (hp : '\r' ∉ p)
    (h : t.withBreaks k = p.withBreaks k ++ y) : ∃ v, t = p ++ v := by
  induction p generalizing t with
  | nil => exact ⟨t, rfl⟩
  | cons c p ih =>
    rw [List.mem_cons, not_or] at hp
    cases t with
    | nil =>
      have hnil := withBreaks_eq_nil hk (List.append_eq_nil_iff.mp h.symm).1
      cases hnil
    | cons d t =>
      rw [List.mem_cons, not_or] at ht
      by_cases hc : c = '\n' <;> by_cases hd : d = '\n'
      · subst hc hd
        rw [withBreaks_lf, withBreaks_lf, List.append_assoc, List.append_cancel_left_eq] at h
        obtain ⟨v, rfl⟩ := ih ht.2 hp.2 h
        exact ⟨v, rfl⟩
      · subst hc
        rw [withBreaks_lf, withBreaks_cons hd, List.append_assoc] at h
        exact (ending_append_ne hk (not_isBreak_iff.mpr ⟨hd, Ne.symm ht.1⟩) h.symm).elim
      · subst hd
        rw [withBreaks_lf, withBreaks_cons hc] at h
        exact (ending_append_ne hk (not_isBreak_iff.mpr ⟨hc, Ne.symm hp.1⟩) h).elim
      · rw [withBreaks_cons hc, withBreaks_cons hd, List.cons_append] at h
        obtain ⟨rfl, hrest⟩ := List.cons.inj h
        obtain ⟨v, rfl⟩ := ih ht.2 hp.2 hrest
        exact ⟨v, rfl⟩

end Text

/-- The pattern begins within a line, so that no break can be cut by it. -/
theorem FirstOccurrence.withBreaks {before behind : Text} (h : FirstOccurrence p t before behind)
    (hk : k ≠ .none) (ht : '\r' ∉ t) (hp : ∃ a, p.head? = some a ∧ isBreak a = false) :
    FirstOccurrence (p.withBreaks k) (t.withBreaks k) (before.withBreaks k)
      (behind.withBreaks k) := by
  obtain ⟨a, ha, hab⟩ := hp
  obtain ⟨p, rfl⟩ := List.head?_eq_some_iff.mp ha
  have hcode : '\r' ∉ a :: p := by
    intro hmem
    rw [h.text_eq] at ht
    exact ht (List.mem_append_right _ (List.mem_append_left _ hmem))
  refine ⟨by rw [h.text_eq, Text.withBreaks_append, Text.withBreaks_append], fun x y hxy => ?_⟩
  have hhead : ∀ b ∈ (Text.withBreaks k (a :: p) ++ y).head?, isBreak b = false := by
    simpa [List.head?_append, Text.head?_withBreaks hab] using hab
  obtain ⟨u, w, htext, rfl, hw⟩ := Text.exists_of_withBreaks_eq hhead hxy
  have hrest : '\r' ∉ w := fun hmem => ht (by rw [htext]; simp [hmem])
  obtain ⟨v, rfl⟩ := Text.exists_of_withBreaks_append hk hrest hcode hw
  obtain ⟨between, rfl⟩ : before <+: u :=
    List.prefix_of_prefix_length_le ⟨_, h.text_eq.symm⟩ ⟨_, htext.symm⟩ (h.least u v htext)
  simp

theorem Text.eraseFirst_withBreaks {before behind : Text} (hk : k ≠ .none)
    (h : t = before ++ (p ++ behind)) (ht : '\r' ∉ t)
    (hp : ∃ a, p.head? = some a ∧ isBreak a = false) :
    (t.withBreaks k).eraseFirst (p.withBreaks k) = (t.eraseFirst p).withBreaks k := by
  obtain ⟨a, b, hfirst, herase⟩ := exists_eraseFirst_eq h
  have hnew := hfirst.withBreaks hk ht hp
  obtain ⟨a', b', hfirst', herase'⟩ := exists_eraseFirst_eq hnew.text_eq
  rw [herase, herase', withBreaks_append]
  exact hfirst'.cut_eq hnew

/-! Runs of line breaks. -/
namespace BlankRun

theorem settle_withBreaks (hk : k ≠ .none) (h : ∀ c ∈ run, c = '\n') :
    settle (run.withBreaks k) = (settle run).withBreaks k := by
  match run with
  | [] => rfl
  | [c] =>
    obtain rfl := h c (by simp)
    cases k <;> rfl
  | [c, d] =>
    obtain rfl := h c (by simp)
    obtain rfl := h d (by simp)
    cases k <;> rfl
  | c :: d :: e :: run =>
    obtain rfl := h c (by simp)
    obtain rfl := h d (by simp)
    have hne : Text.withBreaks k (e :: run) ≠ [] :=
      fun hnil => List.cons_ne_nil _ _ (Text.withBreaks_eq_nil hk hnil)
    rw [Text.withBreaks_lf, Text.withBreaks_lf, settle_endings hk hne,
      settle_cons_cons (List.cons_ne_nil _ _)]
    simp [firstBreak, Text.withBreaks]

end BlankRun

theorem Text.collapse_withBreaks (hk : k ≠ .none) (ht : '\r' ∉ t) :
    (t.withBreaks k).collapse = t.collapse.withBreaks k := by
  induction t using runs_induction with
  | nil => rfl
  | breaks run rest _ hb hr ih =>
    rw [List.mem_append, not_or] at ht
    have hlf : ∀ c ∈ run, c = '\n' := by
      intro c hc
      rcases isBreak_iff.mp (hb c hc) with rfl | rfl
      · rfl
      · exact (ht.1 hc).elim
    have hhead : ∀ c ∈ (withBreaks k rest).head?, isBreak c = false := by
      cases rest with
      | nil => simp
      | cons a rest =>
        have ha : isBreak a = false := hr a rfl
        simpa [head?_withBreaks ha] using ha
    rw [withBreaks_append, collapse_breaks_append (isBreak_of_mem_withBreaks hb) hhead,
      collapse_breaks_append hb hr, withBreaks_append,
      BlankRun.settle_withBreaks hk hlf, ih ht.2]
  | line word rest _ hl _ ih =>
    rw [List.mem_append, not_or] at ht
    have hword : '\n' ∉ word := fun hmem => (not_isBreak_iff.mp (hl _ hmem)).1 rfl
    rw [withBreaks_append, withBreaks_eq_self hword, collapse_line_append hl,
      collapse_line_append hl, withBreaks_append, withBreaks_eq_self hword, ih ht.2]

namespace Removal

open Listing

/-- What is left of a text is the same with other breaks, the runs of breaks collapsed or not. -/
theorem remainder_withBreaks {before behind : Text} (hk : k ≠ .none) (ht : '\r' ∉ t)
    (h : t = before ++ (code ++ behind)) (hc : ∃ a, code.head? = some a ∧ isBreak a = false)
    (collapse : Bool) :
    remainder collapse (t.withBreaks k) (code.withBreaks k) =
      (remainder collapse t code).withBreaks k := by
  obtain ⟨a, b, hfirst, herase⟩ := Text.exists_eraseFirst_eq h
  have hleft : '\r' ∉ t.eraseFirst code := by
    rw [hfirst.text_eq] at ht
    rw [herase]
    simp_all
  cases collapse with
  | false => exact Text.eraseFirst_withBreaks hk h ht hc
  | true =>
    have hcollapse := Text.collapse_withBreaks hk hleft
    rw [← Text.eraseFirst_withBreaks hk h ht hc] at hcollapse
    exact hcollapse

theorem plan?_withBreaks (hk : k ≠ .none) (ht : '\r' ∉ t) (collapse : Bool) (name : Text) :
    plan? collapse (t.withBreaks k) name = (plan? collapse t name).map (Removal.withBreaks k) := by
  have hplain : ∀ l ∈ ofText t, l.IsPlain := fun l hl => isPlain_of_mem ht hl
  have hlines := ofText_withBreaks hk ht
  have hspan' : (ofText (t.withBreaks k)).span? name = (ofText t).span? name := by
    rw [hlines, span?_withBreaks]
  rcases hspan : (ofText t).span? name with _ | ⟨s, e⟩
  · rw [plan?_eq_none (hspan'.trans hspan), plan?_eq_none hspan]
    rfl
  · have htext := text_eq_block (le_of_span? hspan) (lt_length_of_span? hspan)
    have hleft := remainder_withBreaks hk ht htext (exists_head?_block hspan) collapse
    rw [plan?_eq (hspan'.trans hspan), plan?_eq hspan, hlines, block_withBreaks hplain, hleft]
    rfl

end Removal

/-- The kind of the line breaks does not matter: where a text has line feeds only, any other break
in place of them gives the same markers and routines on the same lines, the same range and the same
references for every name, and the same removals, each text in them with that break. -/
theorem Listing.answers_withBreaks (hk : k ≠ .none) (ht : '\r' ∉ t) :
    (ofText (t.withBreaks k)).markers = (ofText t).markers ∧
    (ofText (t.withBreaks k)).firstName? = (ofText t).firstName? ∧
    (ofText (t.withBreaks k)).routines = (ofText t).routines.map (Routine.withBreaks k) ∧
    (∀ name, (ofText (t.withBreaks k)).span? name = (ofText t).span? name) ∧
    (t.withBreaks k).references = t.references ∧
    (ofText (t.withBreaks k)).routineReferences = (ofText t).routineReferences ∧
    ∀ collapse name, Removal.plan? collapse (t.withBreaks k) name =
      (Removal.plan? collapse t name).map (Removal.withBreaks k) := by
  have hlines := ofText_withBreaks hk ht
  have hplain : ∀ l ∈ ofText t, l.IsPlain := fun l hl => isPlain_of_mem ht hl
  refine ⟨?_, ?_, ?_, fun name => ?_, Text.references_withBreaks hk ht, ?_,
    Removal.plan?_withBreaks hk ht⟩
  · rw [hlines, markers_withBreaks]
  · rw [hlines, firstName?, markers_withBreaks]
    rfl
  · rw [hlines, routines_withBreaks hplain]
  · rw [hlines, span?_withBreaks]
  · rw [hlines, routineReferences_withBreaks hk ht]

/-- A removal between blank lines, which carriage returns with line feeds close as line feeds do. -/
theorem Listing.answers_withBreaks_crlf :
    Removal.plan? true (Text.withBreaks .crlf "\n\nglabel f\n.size f, .-f\n\n") "f" =
      some ⟨"f", ⟨2, 3⟩, "glabel f\r\n.size f, .-f", "\r\n\r\n"⟩ := by
  obtain ⟨_, _, _, _, _, _, hplan⟩ := answers_withBreaks (k := .crlf)
    (t := "\n\nglabel f\n.size f, .-f\n\n") (by decide) (by decide)
  rw [hplan]
  decide +kernel

end AsmListing
