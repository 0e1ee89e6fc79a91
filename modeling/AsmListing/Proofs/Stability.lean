import AsmListing.Proofs.Declarations

/-! What keeps a listing well-formed: empty lines and endings do not matter, so that runs of line
breaks may collapse, and routines may be cut out. -/
namespace AsmListing

variable {content name other c : Text} {cs ds : List Text} {ls ms front mid back : Listing}
  {l first final : Line} {k : Ending}

namespace Listing

/-- The contents of the lines that are not empty. -/
def solidLines (ls : Listing) : List Text := ls.contents.filter fun c => !c.isEmpty

theorem solidLines_ofText (t : Text) : (ofText t).solidLines = t.solidLines :=
  (Text.solidLines_eq t).symm

theorem mem_solidLines : c ∈ ls.solidLines ↔ (∃ l ∈ ls, l.content = c) ∧ c ≠ [] := by
  simp [solidLines, contents]

theorem solidLines_append (ls ms : Listing) :
    (ls ++ ms).solidLines = ls.solidLines ++ ms.solidLines := by
  simp [solidLines, contents]

theorem solidLines_cons_of_ne (h : l.content ≠ []) (ls : Listing) :
    solidLines (l :: ls) = l.content :: ls.solidLines := by
  simp [solidLines, contents, h]

theorem solidLines_cons_of_eq (h : l.content = []) (ls : Listing) :
    solidLines (l :: ls) = ls.solidLines := by
  simp [solidLines, contents, h]

/-- A line that is not empty, and the lines before and behind it. -/
theorem exists_of_solidLines_eq (h : ls.solidLines = cs ++ c :: ds) :
    ∃ (front : Listing) (l : Line) (back : Listing), ls = front ++ l :: back ∧ l.content = c ∧
      front.solidLines = cs ∧ back.solidLines = ds := by
  induction ls generalizing cs with
  | nil => simp [solidLines, contents] at h
  | cons l ls ih =>
    by_cases hl : l.content = []
    · rw [solidLines_cons_of_eq hl] at h
      obtain ⟨front, m, back, rfl, hm, hfront, hback⟩ := ih h
      exact ⟨l :: front, m, back, rfl, hm, by rw [solidLines_cons_of_eq hl, hfront], hback⟩
    · rw [solidLines_cons_of_ne hl] at h
      cases cs with
      | nil =>
        obtain ⟨hc, hds⟩ := List.cons.inj h
        exact ⟨[], l, ls, rfl, hc, rfl, hds⟩
      | cons d cs =>
        obtain ⟨hd, htail⟩ := List.cons.inj h
        obtain ⟨front, m, back, rfl, hm, hfront, hback⟩ := ih htail
        exact ⟨l :: front, m, back, rfl, hm, by rw [solidLines_cons_of_ne hl, hd, hfront], hback⟩

theorem exists_mem_of_solidLines_eq (h : ms.solidLines = ls.solidLines) (hl : l ∈ ms)
    (hne : l.content ≠ []) : ∃ m ∈ ls, m.content = l.content := by
  have hmem : l.content ∈ ls.solidLines := h ▸ mem_solidLines.mpr ⟨⟨l, hl, rfl⟩, hne⟩
  exact (mem_solidLines.mp hmem).1

end Listing

theorem MentionsKeyword.ne_nil (h : MentionsKeyword content) : content ≠ [] := by
  rintro rfl
  exact absurd h (by decide)

/-- What a routine needs does not reach over the declaration of another one. -/
theorem exists_eq_append_of_start {quiet rest : Listing} {size : Line}
    (heq : front ++ first :: back = quiet ++ size :: rest)
    (hfirst : Marker.ofLine first.content = .start name)
    (hsize : Marker.ofLine size.content = .size other)
    (hquiet : ∀ m ∈ quiet, ¬ MentionsKeyword m.content) :
    ∃ rest', front = quiet ++ size :: rest' := by
  have hne : first ≠ size := by
    rintro rfl
    simp [hfirst] at hsize
  rcases List.append_eq_append_iff.mp heq with ⟨as, rfl, has⟩ | ⟨bs, rfl, hbs⟩
  · cases as with
    | nil => exact (hne (List.cons.inj has).1).elim
    | cons x as =>
      obtain ⟨rfl, _⟩ := List.cons.inj has
      exact (hquiet first (by simp) (mentionsKeyword_of_start hfirst)).elim
  · cases bs with
    | nil => exact (hne (List.cons.inj hbs).1.symm).elim
    | cons x bs =>
      obtain ⟨rfl, _⟩ := List.cons.inj hbs
      exact ⟨bs, rfl⟩

namespace WellFormed

open Listing

/-- Only the lines that are not empty matter, and not their endings. -/
theorem of_solidLines (h : WellFormed ls) (heq : ms.solidLines = ls.solidLines) :
    WellFormed ms := by
  induction ms generalizing ls with
  | nil => exact .nil
  | cons l ms ih =>
    by_cases hl : l.content = []
    · rw [solidLines_cons_of_eq hl] at heq
      exact (ih h heq).cons fun hk => hk.ne_nil hl
    · rw [solidLines_cons_of_ne hl] at heq
      have hls : solidLines ls = [] ++ l.content :: solidLines ms := heq.symm
      -- `m` is the line that `l` stands for, and `back` what `ms` stands for
      obtain ⟨front, m, back, rfl, hm, _, hback⟩ := exists_of_solidLines_eq hls
      have hrest : WellFormed (m :: back) := h.of_suffix (List.suffix_append _ _)
      have hms : WellFormed ms := ih (hrest.of_suffix (List.suffix_cons _ _)) hback.symm
      by_cases hk : MentionsKeyword l.content
      · obtain ⟨name, hd⟩ := hrest.sole m (by simp) (hm ▸ hk)
        obtain ⟨mid, final, rest, hmid, hsize, hquiet⟩ :=
          hrest.sized m back name List.suffix_rfl hd
        have hfinal : final.content ≠ [] := by
          intro hnil
          simp [hnil, Marker.ofLine_nil] at hsize
        have hsplit : solidLines ms = solidLines mid ++ final.content :: solidLines rest := by
          rw [← hback, hmid, solidLines_append, solidLines_cons_of_ne hfinal]
        obtain ⟨mid', final', rest', hms', hfinal', hmid', _⟩ := exists_of_solidLines_eq hsplit
        refine hms.cons_declaration hms' (hm ▸ hd) ?_ ?_ (hfinal'.symm ▸ hsize)
        · intro x hx hstart
          have hxk := mentionsKeyword_of_start hstart
          obtain ⟨y, hy, hyx⟩ := exists_mem_of_solidLines_eq hback.symm hx hxk.ne_nil
          have hdy := hrest.declares_of_start (List.mem_cons_of_mem m hy) (hyx.symm ▸ hstart)
          exact (List.pairwise_cons.mp hrest.distinct).1 y hy name hd hdy
        · intro x hx hxk
          obtain ⟨y, hy, hyx⟩ := exists_mem_of_solidLines_eq hmid' hx hxk.ne_nil
          exact hquiet y hy (hyx.symm ▸ hxk)
      · exact hms.cons hk

/-- A routine may be cut out. -/
theorem cut_out (h : WellFormed (front ++ (first :: mid ++ final :: back)))
    (hfirst : Marker.ofLine first.content = .start name) :
    WellFormed (front ++ ⟨[], k⟩ :: back) := by
  induction front with
  | nil =>
    have hsuffix : back <:+ first :: mid ++ final :: back := ⟨first :: mid ++ [final], by simp⟩
    exact (h.of_suffix hsuffix).cons fun hk => hk.ne_nil rfl
  | cons l front ih =>
    have hcut := ih (h.of_suffix (List.suffix_cons _ _))
    by_cases hk : MentionsKeyword l.content
    · obtain ⟨other, hd⟩ := h.sole l (by simp) hk
      obtain ⟨quiet, size, rest, heq, hsize, hquiet⟩ := h.sized l _ other List.suffix_rfl hd
      -- the size of `other` stands before the routine that goes
      obtain ⟨rest', rfl⟩ := exists_eq_append_of_start heq hfirst hsize hquiet
      refine hcut.cons_declaration (List.append_assoc ..) hd ?_ hquiet hsize
      intro m hm hstart
      have hmem : m ∈ (quiet ++ size :: rest') ++ (first :: mid ++ final :: back) := by
        simp only [List.mem_append, List.mem_cons] at hm ⊢
        rcases hm with hm | rfl | hm
        · exact .inl hm
        · simp [Marker.ofLine_nil] at hstart
        · exact .inr (.inr (.inr hm))
      have hdm := h.declares_of_start (List.mem_cons_of_mem l hmem) hstart
      exact (List.pairwise_cons.mp h.distinct).1 m hmem other hd hdm
    · exact hcut.cons hk

/-- The text of a well-formed listing stays well-formed when runs of line breaks collapse. -/
theorem collapse_toText (h : WellFormed ls) (hsplit : ls.IsSplit) :
    WellFormed (ofText ls.toText.collapse) := by
  apply h.of_solidLines
  calc
    (ofText ls.toText.collapse).solidLines = ls.toText.collapse.solidLines := solidLines_ofText _
    _ = ls.toText.solidLines := Text.solidLines_collapse _
    _ = ls.solidLines := Text.solidLines_toText hsplit

end WellFormed

end AsmListing
