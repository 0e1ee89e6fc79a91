import AsmListing.Proofs.Attribution

/-! A routine stands alone. Its text, cut into lines again, has the lines that the routine has in
the listing, and so it is the listing of this one routine. -/
namespace AsmListing

variable {ls before behind : Listing} {l : Line} {ch : Chapter} {r : Routine} {t name : Text}

namespace Listing

theorem excerpt_ofText (t : Text) : excerpt (ofText t) = t := by
  obtain ⟨ls, c, ht, _⟩ := exists_ofText_eq t
  have htext := toText_ofText t
  rw [ht] at htext ⊢
  simpa [Ending.toText] using htext

theorem markers_eq_map_contents (ls : Listing) : ls.markers = ls.contents.map Marker.ofLine := by
  simp [markers, contents]

/-- Only the declaration in the first line counts where no other line declares anything. -/
theorem routines_cons_of_isQuiet (hl : Marker.ofLine l.content = .start name) (hls : ls.IsQuiet) :
    routines (l :: ls) = [Chapter.routine 0 ⟨name, l, ls⟩] := by
  have hcut : Chapter.cut ls = (ls, []) := by
    simpa [Chapter.cut] using Chapter.cut_append hls []
  rw [routines_eq, Chapter.cut_cons_of_start hl, hcut]
  rfl

end Listing

namespace Chapter

/-- Without the lines behind its routine, a chapter has the same routine. -/
theorem extent_of_markers {ms : Listing}
    (h : Listing.markers ms = (Listing.markers ch.body).take ch.extent) :
    extent ⟨ch.name, l, ms⟩ = ms.length := by
  have hlength : ms.length = min ch.extent ch.body.length := by
    simpa using congrArg List.length h
  rw [extent_eq, h, List.findIdx?_take]
  have hextent := extent_eq ch
  cases hsize : (Listing.markers ch.body).findIdx? (· == .size ch.name) with
  | none => rfl
  | some k =>
    have hlt := (List.findIdx?_eq_some_iff_getElem.mp hsize).1
    rw [Listing.length_markers] at hlt
    simp only [hsize] at hextent
    rw [hextent, Nat.min_eq_left hlt] at hlength
    simp [hextent, hlength]

end Chapter

namespace Listing

/-- The lines of the text of a routine are those of the routine, but for the last ending. -/
theorem contents_ofText_code (h : Chapter.Stands ch (ofText t) before behind) :
    (ofText (excerpt ch.lines)).contents = contents ch.lines := by
  rw [← h.block_eq, ofText_block (Nat.le_add_right _ _) h.last_lt,
    contents_clip h.last_lt (Nat.le_add_right _ _), ← Chapter.drop_take_eq ch h.eq]
  simp [contents, List.map_drop, List.map_take]

theorem routines_ofText_code (h : Chapter.Stands ch (ofText t) before behind) :
    (ofText (excerpt ch.lines)).routines =
      [⟨ch.name, ⟨0, ch.extent⟩, excerpt ch.lines⟩] := by
  have hcontents := contents_ofText_code h
  have hexcerpt := excerpt_ofText (excerpt ch.lines)
  obtain ⟨l, ms, hlines⟩ := List.exists_cons_of_ne_nil (ofText_ne_nil (excerpt ch.lines))
  rw [hlines] at hcontents hexcerpt ⊢
  obtain ⟨hl, hms⟩ : l.content = ch.head.content ∧
      contents ms = contents (ch.body.take ch.extent) := by
    simpa [contents, Chapter.lines] using hcontents
  have hmarkers : markers ms = (markers ch.body).take ch.extent := by
    rw [markers_eq_map_contents, hms, ← markers_eq_map_contents, markers, markers, List.map_take]
  have hquiet : IsQuiet ms := by
    intro m hm f hf
    have hmem : Marker.ofLine m.content ∈ markers ms := List.mem_map_of_mem hm
    rw [hmarkers, hf] at hmem
    obtain ⟨m', hm', hf'⟩ := List.mem_map.mp (List.mem_of_mem_take hmem)
    exact h.proper.body m' hm' f hf'
  have hlength : ms.length = ch.extent := by
    have hle := ch.extent_le
    have := congrArg List.length hmarkers
    simp only [length_markers, List.length_take] at this
    omega
  rw [routines_cons_of_isQuiet (hl ▸ h.proper.head) hquiet, Chapter.routine, Chapter.lines,
    Chapter.extent_of_markers hmarkers, List.take_length, hexcerpt, hlength, Nat.zero_add]

theorem markers_ofText_code (h : Chapter.Stands ch (ofText t) before behind) :
    (ofText (excerpt ch.lines)).markers[ch.extent]? =
      (ofText t).markers[before.length + ch.extent]? := by
  rw [markers_eq_map_contents, contents_ofText_code h, ← markers_eq_map_contents,
    ← Chapter.drop_take_eq ch h.eq]
  simp [markers, List.getElem?_drop, List.getElem?_take_of_lt]

/-- What ends with its own size is found as a whole. -/
theorem extract?_of_routines_eq (h : ls.routines = [r])
    (hsize : ls.markers[r.span.last]? = some (.size r.name)) :
    ls.extract? r.name = some r.code := by
  have hr : r ∈ ls.routines := by simp [h]
  obtain ⟨hle, _, hcode⟩ := block_of_mem_routines hr
  have hstart := marker_of_mem_routines hr
  have hfind : ls.routines.find? (·.name == r.name) = some r := by simp [h]
  rcases span?_of_find? hfind with ⟨_, hspan⟩ | ⟨hno, _⟩
  · rw [extract?_eq, hspan, Option.map_some, hcode]
  · rcases Nat.eq_or_lt_of_le hle with heq | hlt
    · simp [heq, hsize] at hstart
    · exact (hno r.span.last hlt (Nat.le_refl _) hsize).elim

/-- A routine stands alone. Its text is the listing of one routine, which has the name, the text and
all of the lines; and where the routine ends with its own size, the search finds all of its text
again. -/
theorem routines_code (hr : r ∈ (ofText t).routines) :
    (ofText r.code).routines = [⟨r.name, ⟨0, r.span.lineCount - 1⟩, r.code⟩] ∧
    ((ofText t).markers[r.span.last]? = some (.size r.name) →
      (ofText r.code).extract? r.name = some r.code) := by
  obtain ⟨j, hj⟩ := List.mem_iff_getElem?.mp hr
  obtain ⟨ch, before, behind, h, rfl, _⟩ := exists_stands hj
  have hroutines := routines_ofText_code h
  have hcount : (ch.routine before.length).span.lineCount - 1 = ch.extent := by
    simp [Chapter.routine, Span.lineCount]
  have hextract := extract?_of_routines_eq hroutines
  rw [hcount]
  exact ⟨hroutines, fun hsize => hextract ((markers_ofText_code h).trans hsize)⟩

/-- Two routines, of which the second one holds the size of the first and ends with the text. -/
def foreignSize : Text := "glabel f\r\n.size f, .-f\r\n\nglabel g\r.size f, .-f\n\r\n"

/-- The blank line behind the second routine belongs to it, in its own text too. -/
theorem routines_code_of_foreignSize :
    (ofText foreignSize).routines =
      [⟨"f", ⟨0, 1⟩, "glabel f\r\n.size f, .-f"⟩,
        ⟨"g", ⟨3, 6⟩, "glabel g\r.size f, .-f\n\r\n"⟩] ∧
    (ofText "glabel g\r.size f, .-f\n\r\n").routines =
      [⟨"g", ⟨0, 3⟩, "glabel g\r.size f, .-f\n\r\n"⟩] ∧
    (ofText foreignSize).markers[1]? = some (.size "f") ∧
    (ofText "glabel f\r\n.size f, .-f").extract? "f" = some "glabel f\r\n.size f, .-f".toList := by
  have hroutines : (ofText foreignSize).routines =
      [⟨"f", ⟨0, 1⟩, "glabel f\r\n.size f, .-f"⟩,
        ⟨"g", ⟨3, 6⟩, "glabel g\r.size f, .-f\n\r\n"⟩] := by
    decide +kernel
  have hsize : (ofText foreignSize).markers[1]? = some (.size "f") := by decide +kernel
  have hf : (⟨"f", ⟨0, 1⟩, "glabel f\r\n.size f, .-f"⟩ : Routine) ∈
      (ofText foreignSize).routines := by
    simp [hroutines]
  have hg : (⟨"g", ⟨3, 6⟩, "glabel g\r.size f, .-f\n\r\n"⟩ : Routine) ∈
      (ofText foreignSize).routines := by
    simp [hroutines]
  exact ⟨hroutines, (routines_code hg).1, hsize, (routines_code hf).2 hsize⟩

end Listing

end AsmListing
