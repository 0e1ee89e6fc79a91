import AsmListing.Proofs.SolidCatalog

/-! The listing of a collapsed text. Only the gaps between its lines are smaller: the lines that are
not empty, the names of the routines and all references stay, and a routine that ends with its own
size collapses for itself. -/
namespace AsmListing

open Listing

variable {ls ms before behind : Listing} {l : Line} {ch : Chapter} {r : Routine}
  {t a b run rest code name : Text} {j : Nat}

/-- How many breaks the line ends with: one, or none where the text ends. -/
def Line.breaks (l : Line) : Nat := if l.ending = .none then 0 else 1

namespace Listing

/-- How many breaks stand before the first line that is not empty, between each two of these lines,
and behind the last one. -/
def gaps : Listing → List Nat
  | [] => [0]
  | l :: ls =>
    let later := (gaps ls).modifyHead (· + l.breaks)
    if l.content = [] then later else 0 :: later

theorem gaps_cons_of_eq (h : l.content = []) (ls : Listing) :
    gaps (l :: ls) = ls.gaps.modifyHead (· + l.breaks) := if_pos h

/-- The gap in front of a line that is not empty has ended. -/
theorem gaps_cons_of_ne {content : Text} (h : content ≠ []) (k : Ending) (ls : Listing) :
    gaps (⟨content, k⟩ :: ls) = 0 :: gaps (⟨[], k⟩ :: ls) := if_neg h

/-- Empty lines make the first gap larger. -/
theorem gaps_append (h : ∀ l ∈ ls, l.IsBreak) (ms : Listing) :
    gaps (ls ++ ms) = ms.gaps.modifyHead (· + ls.length) := by
  induction ls with
  | nil => exact (congrFun List.modifyHead_id ms.gaps).symm
  | cons l ls ih =>
    rw [List.forall_mem_cons] at h
    have hone : l.breaks = 1 := if_neg h.1.ending
    rw [List.cons_append, gaps_cons_of_eq h.1.content, ih h.2, List.modifyHead_modifyHead, hone]
    rfl

/-- No gap stands in front of a text that begins within a line. -/
theorem exists_gaps_eq (h : ∀ c ∈ t.head?, isBreak c = false) :
    ∃ later, (ofText t).gaps = 0 :: later := by
  cases t with
  | nil => exact ⟨[], rfl⟩
  | cons c t =>
    obtain ⟨l, ls, hl⟩ := List.exists_cons_of_ne_nil (ofText_ne_nil t)
    rw [ofText_cons, hl, prepend_of_not_isBreak (h c rfl), gaps_cons_of_ne (List.cons_ne_nil _ _)]
    exact ⟨_, rfl⟩

/-- A run of breaks is a gap. -/
theorem gaps_breaks_append (hls : ofText run = ls ++ [⟨[], .none⟩]) (h : ∀ l ∈ ls, l.IsBreak)
    (hr : ∀ c ∈ rest.head?, isBreak c = false) :
    (ofText (run ++ rest)).gaps = (ofText rest).gaps.modifyHead (· + ls.length) := by
  obtain ⟨⟨d, k⟩, ms, hms⟩ := List.exists_cons_of_ne_nil (ofText_ne_nil rest)
  have hseam : run.getLast? = some '\r' → rest.head? ≠ some '\n' :=
    fun _ hlf => absurd (hr '\n' hlf) (by decide)
  rw [ofText_append hls hms hseam, List.nil_append, gaps_append h, ← hms]

/-- Each break of a run has one or two of its characters. -/
theorem length_toText_of_isBreak (h : ∀ l ∈ ls, l.IsBreak) :
    ls.length ≤ ls.toText.length ∧ ls.toText.length ≤ 2 * ls.length := by
  induction ls with
  | nil => simp
  | cons l ls ih =>
    rw [List.forall_mem_cons] at h
    have hone : 1 ≤ l.ending.toText.length ∧ l.ending.toText.length ≤ 2 := by
      have hending := h.1.ending
      cases hk : l.ending <;> simp_all [Ending.toText]
    have hrest := ih h.2
    rw [toText_cons, h.1.content, List.nil_append, List.length_append, List.length_cons]
    omega

end Listing

namespace BlankRun

/-- A run begins with one break. -/
theorem exists_firstBreak_eq (hne : run ≠ []) (h : ∀ c ∈ run, isBreak c = true) :
    ∃ k, k ≠ Ending.none ∧ firstBreak run = k.toText := by
  obtain ⟨c, run, rfl⟩ := List.exists_cons_of_ne_nil hne
  rcases isBreak_iff.mp (h c List.mem_cons_self) with rfl | rfl
  · exact ⟨.lf, by simp, rfl⟩
  · cases run with
    | nil => exact ⟨.cr, by simp, rfl⟩
    | cons d run =>
      rw [firstBreak_cons_cons]
      split
      · exact ⟨.crlf, by simp, rfl⟩
      · exact ⟨.cr, by simp, rfl⟩

/-- A run of breaks becomes two breaks at most. -/
theorem exists_ofText_settle (hb : ∀ c ∈ run, isBreak c = true)
    (hls : ofText run = ls ++ [⟨[], .none⟩]) (h : ∀ l ∈ ls, l.IsBreak) :
    ∃ ms, ofText (settle run) = ms ++ [⟨[], .none⟩] ∧ (∀ l ∈ ms, l.IsBreak) ∧
      ms.length = min ls.length 2 := by
  have hrun : run = ls.toText := by simpa [hls, Ending.toText] using (toText_ofText run).symm
  have hlength := length_toText_of_isBreak h
  rw [← hrun] at hlength
  by_cases hshort : run.length < 3
  · rw [settle, if_pos hshort]
    exact ⟨ls, hls, h, by omega⟩
  · obtain ⟨k, hk, hfirst⟩ := exists_firstBreak_eq (List.ne_nil_of_length_pos (by omega)) hb
    have hbreak : Line.IsBreak ⟨[], k⟩ := ⟨rfl, hk⟩
    refine ⟨[⟨[], k⟩, ⟨[], k⟩], ?_, by simp [hbreak], ?_⟩
    · rw [settle, if_neg hshort, hfirst]
      cases k <;> first | rfl | exact (hk rfl).elim
    · simp only [List.length_cons, List.length_nil]
      omega

end BlankRun

namespace Listing

/-- A gap of more than two breaks becomes one of two breaks. -/
theorem gaps_collapse (t : Text) : (ofText t.collapse).gaps = (ofText t).gaps.map (min · 2) := by
  induction t using Text.runs_induction with
  | nil => rfl
  | breaks run rest _ hb hr ih =>
    obtain ⟨ls, hls, h⟩ := exists_ofText_of_breaks hb
    obtain ⟨ms, hms, h', hlength⟩ := BlankRun.exists_ofText_settle hb hls h
    have hr' : ∀ c ∈ rest.collapse.head?, isBreak c = false := by
      rwa [Text.head?_collapse]
    obtain ⟨later, hlater⟩ := exists_gaps_eq hr
    rw [Text.collapse_breaks_append hb hr, gaps_breaks_append hms h' hr', ih,
      gaps_breaks_append hls h hr, hlater, hlength]
    simp
  | line word rest hne hl hr ih =>
    obtain ⟨k, ms, hms⟩ := ofText_of_beginsAtBreak hr
    obtain ⟨k', ms', hms'⟩ := ofText_of_beginsAtBreak hr.collapse
    rw [Text.collapse_line_append hl, ofText_content_append hl hms, ofText_content_append hl hms',
      gaps_cons_of_ne hne, gaps_cons_of_ne hne, ← hms, ← hms', ih]
    rfl

/-- A run of three breaks of two kinds. -/
example : (ofText "la\r\n\r\r\nsw\n").gaps = [0, 3, 1] ∧
    (ofText (Text.collapse "la\r\n\r\r\nsw\n")).gaps = [0, 2, 1] := by
  decide

/-! Routines that end with their own size. -/

theorem nodup_declarations (ls : Listing) : ls.declarations.Nodup := by
  rw [← map_routines_eq_declarations, List.Nodup, List.pairwise_map]
  refine (pairwise_routines ls).imp_of_mem fun {r r'} hr _ hlt heq => ?_
  have hle := first_le_last_of_mem_routines hr
  have hfirst := (Prod.mk.inj heq).1
  omega

end Listing

namespace Chapter

theorem cut_append_start (h : Marker.ofLine l.content = .start name) (ls ms : Listing) :
    cut (ls ++ l :: ms) = ((cut ls).1, (cut ls).2 ++ ⟨name, l, (cut ms).1⟩ :: (cut ms).2) := by
  induction ls with
  | nil => exact cut_cons_of_start h ms
  | cons m ls ih =>
    rw [List.cons_append]
    by_cases hm : ∃ f, Marker.ofLine m.content = .start f
    · obtain ⟨f, hf⟩ := hm
      rw [cut_cons_of_start hf, cut_cons_of_start hf, ih, List.cons_append]
    · rw [not_exists] at hm
      rw [cut_cons_of_not_start hm, cut_cons_of_not_start hm, ih]

namespace Stands

variable (h : Stands ch ls before behind)
include h

/-- The lines of a routine that ends with its own size, which is the first one. -/
theorem exists_lines_of_size
    (hsize : ls.markers[before.length + ch.extent]? = some (.size ch.name)) :
    ∃ mid final, ch.lines = ch.head :: mid ++ [final] ∧
      Marker.ofLine final.content = .size ch.name ∧
      ∀ l ∈ mid, (∀ f, Marker.ofLine l.content ≠ .start f) ∧
        Marker.ofLine l.content ≠ .size ch.name := by
  cases hfind : ch.body.findIdx? fun l => Marker.ofLine l.content == .size ch.name with
  | some k =>
    obtain ⟨hk, hfinal, hmid⟩ := List.findIdx?_eq_some_iff_getElem.mp hfind
    refine ⟨ch.body.take k, ch.body[k], ?_, by simpa using hfinal, fun l hl => ?_⟩
    · simp [lines, extent, extentIn, hfind]
    · obtain ⟨i, hi, rfl⟩ := List.mem_take_iff_getElem.mp hl
      exact ⟨h.proper.body _ (List.getElem_mem _), by simpa using hmid i (by omega)⟩
  | none =>
    have hextent : ch.extent = ch.body.length := by simp [extent, extentIn, hfind]
    rw [hextent, h.markers_eq, List.append_assoc, ← List.append_assoc [_]] at hsize
    have hmem := mem_of_getElem?_middle hsize (by simp) (by simp)
    rw [List.mem_append, List.mem_singleton] at hmem
    rcases hmem with heq | hmem
    · cases heq
    · obtain ⟨l, hl, hls⟩ := List.mem_map.mp hmem
      have := List.findIdx?_eq_none_iff.mp hfind l hl
      simp [hls] at this

/-- So the routine is closed, and its text stands between breaks. -/
theorem exists_frame_of_size (hsplit : ls.IsSplit)
    (hsize : ls.markers[before.length + ch.extent]? = some (.size ch.name)) :
    IsClosed ch.name (excerpt ch.lines) ∧ ∃ b : Text,
      ls.toText = before.toText ++ (excerpt ch.lines ++ b) ∧ b.BeginsAtBreak := by
  obtain ⟨mid, final, hlines, hfinal, hmid⟩ := h.exists_lines_of_size hsize
  have heq := h.eq
  rw [toListing_eq, List.append_assoc] at heq
  have hlast : IsSplit (ch.lines ++ (ch.body.drop ch.extent ++ behind)) :=
    hsplit.of_suffix ⟨before, heq.symm⟩
  have hinner := hlast.left
  have hcode : excerpt ch.lines = toText (ch.head :: mid) ++ final.content := by
    rw [hlines, excerpt_append_singleton]
  rw [hlines] at hinner
  rw [hlines, List.append_assoc, List.singleton_append] at heq hlast
  have hbehind := (hlast.of_suffix (List.suffix_append _ _)).beginsAtBreak
  refine ⟨hcode ▸ isClosed_of_lines hinner h.proper.head hfinal hmid, _, ?_, hbehind⟩
  rw [heq, hcode]
  simp

/-- The routines before the one of a chapter are those that are declared before it. -/
theorem length_routineNames (hr : ls.routines[j]? = some (ch.routine before.length)) :
    before.routineNames.length = j := by
  have hlength : before.declarations.length = before.routineNames.length := by
    rw [← map_routines_eq_declarations, routineNames, List.length_map, List.length_map]
  have hdecl : ls.declarations = before.declarations ++ (before.length, ch.name) ::
      declarationsFrom (before.length + 1) (ch.body ++ behind) := by
    rw [h.eq, declarations, declarationsFrom_append, Nat.zero_add, toListing, List.cons_append,
      declarationsFrom_cons_start h.proper.head]
    rfl
  have hat : ls.declarations[before.declarations.length]? = some (before.length, ch.name) := by
    simp [hdecl]
  have hat' : ls.declarations[j]? = some (before.length, ch.name) := by
    rw [← map_routines_eq_declarations, List.getElem?_map, hr]
    rfl
  rw [← hlength]
  exact (List.getElem?_inj (by simp [hdecl]) (nodup_declarations ls)).mp (hat.trans hat'.symm)

end Stands

end Chapter

/-- A closed routine is listed behind those that are declared before it. -/
theorem IsClosed.entries_getElem? (ha : a.EndsAtBreak) (hc : IsClosed name code)
    (hb : b.BeginsAtBreak) :
    (ofText (a ++ (code ++ b))).entries[(ofText a).routineNames.length]? = some (name, code) := by
  obtain ⟨before, first, mid, final, k, behind, hbefore, _, hcode, hall, hfirst, hfinal, hmid⟩ :=
    hc.exists_ofText_eq ha hb
  have hsize : ∀ f, Marker.ofLine final ≠ .start f := by simp [hfinal]
  have hsolid : (ofText a).solidLines = before.solidLines := by
    simp [hbefore, solidLines, contents]
  have hlength : (ofText a).routineNames.length = (Chapter.cut before).2.length := by
    rw [routineNames_congr hsolid, routineNames_eq, entries_eq, List.length_map, List.length_map]
  rw [hlength, entries_eq, hall, List.cons_append, Chapter.cut_append_start hfirst,
    Chapter.cut_append fun l hl => (hmid l hl).1, Chapter.cut_cons_of_not_start hsize]
  simp [Chapter.entry_of_closed hfinal fun l hl => (hmid l hl).2, hcode]

namespace Listing

/-- A routine that ends with its own size stays in its place and collapses for itself. -/
theorem exists_routine_collapse (hr : (ofText t).routines[j]? = some r)
    (hsize : (ofText t).markers[r.span.last]? = some (.size r.name)) :
    ∃ r', (ofText t.collapse).routines[j]? = some r' ∧ r'.name = r.name ∧
      r'.code = r.code.collapse := by
  obtain ⟨ch, before, behind, h, rfl, _⟩ := exists_stands hr
  have hsplit := isSplit_ofText t
  obtain ⟨hc, b, ht, hb⟩ := h.exists_frame_of_size hsplit hsize
  rw [toText_ofText] at ht
  have hbefore : (before ++ (ch.toListing ++ behind)).IsSplit := h.eq ▸ hsplit
  have ha : before.toText.EndsAtBreak :=
    endsAtBreak_toText (hbefore.ended_left (by simp [Chapter.toListing]))
  have hentry := hc.collapse.entries_getElem? ha.collapse hb.collapse
  have hnames : (ofText before.toText.collapse).routineNames = before.routineNames := by
    refine routineNames_congr ?_
    rw [solidLines_ofText, Text.solidLines_collapse, Text.solidLines_toText hbefore.left]
    rfl
  rw [hnames, h.length_routineNames hr, ← Text.collapse_frame hc.toIsFramed, ← ht, entries,
    List.getElem?_map, Option.map_eq_some_iff] at hentry
  obtain ⟨r', hr', heq⟩ := hentry
  exact ⟨r', hr', (Prod.mk.inj heq).1, (Prod.mk.inj heq).2⟩

/-- A collapsed text has the same listing, but for its gaps. The lines that are not empty stay in
order, and a gap of more than two breaks becomes one of two; collapsing once more changes nothing.
The names of the routines and what they and the text refer to stay, and each routine that ends with
its own size stands in the same place with its text collapsed. -/
theorem listing_collapse (t : Text) :
    (ofText t.collapse).solidLines = (ofText t).solidLines ∧
    (ofText t.collapse).gaps = (ofText t).gaps.map (min · 2) ∧
    t.collapse.collapse = t.collapse ∧
    (ofText t.collapse).routineNames = (ofText t).routineNames ∧
    t.collapse.references = t.references ∧
    (ofText t.collapse).routineReferences = (ofText t).routineReferences ∧
    ∀ (j : Nat) (r : Routine), (ofText t).routines[j]? = some r →
      (ofText t).markers[r.span.last]? = some (.size r.name) →
      ∃ r', (ofText t.collapse).routines[j]? = some r' ∧ r'.name = r.name ∧
        r'.code = r.code.collapse := by
  have hsolid : (ofText t.collapse).solidLines = (ofText t).solidLines := by
    rw [solidLines_ofText, solidLines_ofText, Text.solidLines_collapse]
  exact ⟨hsolid, gaps_collapse t, Text.collapse_collapse t, routineNames_congr hsolid,
    Text.references_eq_of_solidLines (Text.solidLines_collapse t),
    routineReferences_congr (Text.solidLines_collapse t),
    fun j r hr hsize => exists_routine_collapse hr hsize⟩

end Listing

end AsmListing
