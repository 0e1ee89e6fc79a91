import AsmListing.Proofs.Declarations
import AsmListing.Proofs.Removal

/-! What a removal leaves of a text: no new characters, and less of the text than there was. -/
namespace AsmListing

variable {ls : Listing} {t name : Text} {collapse : Bool} {r : Removal} {s e : Nat}

/-- The characters that are no line breaks. -/
def Text.solid (t : Text) : Text := t.filter fun c => !isBreak c

@[simp] theorem Text.solid_append (t u : Text) : (t ++ u).solid = t.solid ++ u.solid :=
  List.filter_append t u

theorem Text.solid_of_not_isBreak (h : ∀ c ∈ t, isBreak c = false) : t.solid = t :=
  List.filter_eq_self.mpr (by simpa using h)

/-- The line that opens a routine is longer than its name. -/
theorem Opens.length_lt (h : Opens ls.markers name s) (hs : s < ls.length) :
    name.length < ls[s].content.length := by
  have hat : ls.markers[s]? = some (Marker.ofLine ls[s].content) := by
    simp [Listing.markers, List.getElem?_eq_getElem hs]
  apply length_lt_of_ofLine
  rcases h with h | ⟨_, h⟩
  · obtain ⟨m, hm, rfl⟩ := h.holds
    exact Or.inl (Option.some.inj (hat.symm.trans hm))
  · obtain ⟨m, hm, rfl⟩ := h.holds
    exact Or.inr (Option.some.inj (hat.symm.trans hm))

namespace Listing

theorem block_self (hs : s < ls.length) : ls.block s s = ls[s].content := by
  rw [block_eq (Nat.le_refl s) hs, List.drop_of_length_le (List.length_take_le s ls), toText_nil,
    List.nil_append]

/-- The lines that are found begin with a line that is longer than the name. -/
theorem exists_block_eq (h : (ofText t).span? name = some ⟨s, e⟩) :
    ∃ first rest : Text, (ofText t).block s e = first ++ rest ∧
      (∀ c ∈ first, isBreak c = false) ∧ name.length < first.length := by
  have hle := le_of_span? h
  have hlast := lt_length_of_span? h
  have hs : s < (ofText t).length := Nat.lt_of_le_of_lt hle hlast
  obtain ⟨rest, hblock, _⟩ :=
    exists_block_eq_append (isSplit_ofText t) (Nat.le_refl s) hle hlast
  rw [block_self hs] at hblock
  exact ⟨_, rest, hblock, not_isBreak_of_mem (List.getElem_mem hs),
    (span?_eq_some_iff.mp h).1.length_lt hs⟩

/-- The lines that are found begin within a line. -/
theorem exists_head?_block (h : (ofText t).span? name = some ⟨s, e⟩) :
    ∃ c, ((ofText t).block s e).head? = some c ∧ isBreak c = false := by
  obtain ⟨first, rest, hblock, hfirst, hlength⟩ := exists_block_eq h
  obtain ⟨c, first, rfl⟩ := List.exists_cons_of_length_pos (Nat.zero_lt_of_lt hlength)
  exact ⟨c, by simp [hblock], hfirst c List.mem_cons_self⟩

/-- The lines that are found hold more characters than the name, line breaks apart. -/
theorem length_lt_solid_block (h : (ofText t).span? name = some ⟨s, e⟩) :
    name.length < ((ofText t).block s e).solid.length := by
  obtain ⟨first, rest, hblock, hfirst, hlength⟩ := exists_block_eq h
  rw [hblock, Text.solid_append, Text.solid_of_not_isBreak hfirst, List.length_append]
  omega

end Listing

namespace Removal

open Listing

/-- The removal of the lines that are found. -/
theorem plan?_eq (h : (ofText t).span? name = some ⟨s, e⟩) (collapse : Bool) :
    plan? collapse t name = some ⟨name, ⟨s, e⟩, (ofText t).block s e,
      remainder collapse t ((ofText t).block s e)⟩ := by
  simp [plan?, h, ofSpan?, block?_of_span? h]

theorem plan?_eq_none (h : (ofText t).span? name = none) (collapse : Bool) :
    plan? collapse t name = none := by
  simp [plan?, h]

/-- A removal cuts its code out of the text and may collapse what is left. -/
theorem exists_of_plan? (h : plan? collapse t name = some r) :
    ∃ before behind, t = before ++ (r.code ++ behind) ∧ name.length < r.code.solid.length ∧
      r.text = if collapse then (before ++ behind).collapse else before ++ behind := by
  obtain ⟨⟨s, e⟩, hspan, hof⟩ := Option.bind_eq_some_iff.mp h
  obtain ⟨code, hcode, rfl⟩ := Option.map_eq_some_iff.mp hof
  obtain rfl : (ofText t).block s e = code := by simpa [block?_of_span? hspan] using hcode
  have htext := text_eq_block (le_of_span? hspan) (lt_length_of_span? hspan)
  obtain ⟨before, behind, hfirst, herase⟩ := Text.exists_eraseFirst_eq htext
  refine ⟨before, behind, hfirst.text_eq, length_lt_solid_block hspan, ?_⟩
  simp only [remainder, herase]

theorem mem_of_mem_text (h : plan? collapse t name = some r) {c : Char} (hc : c ∈ r.text) :
    c ∈ t := by
  obtain ⟨before, behind, rfl, _, htext⟩ := exists_of_plan? h
  have hmem : c ∈ before ++ behind := by
    rw [htext] at hc
    split at hc
    · exact Text.mem_of_mem_collapse hc
    · exact hc
  simp only [List.mem_append] at hmem ⊢
  exact hmem.imp_right Or.inr

/-- What is left has fewer characters that are no breaks, by more than the name has. -/
theorem length_solid_text_add_lt (h : plan? collapse t name = some r) :
    r.text.solid.length + name.length < t.solid.length := by
  obtain ⟨before, behind, rfl, hsolid, htext⟩ := exists_of_plan? h
  have hleft : r.text.solid = (before ++ behind).solid := by
    rw [htext]
    split
    · exact Text.filter_collapse _
    · rfl
  rw [hleft]
  simp only [Text.solid_append, List.length_append]
  omega

theorem text_ne (h : plan? collapse t name = some r) : r.text ≠ t := by
  intro heq
  have hlt := length_solid_text_add_lt h
  rw [heq] at hlt
  omega

end Removal

end AsmListing
