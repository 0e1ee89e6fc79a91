import AsmListing.Proofs.Attribution
import AsmListing.Proofs.Stability

/-! The catalog without empty lines. Which routines a listing has, which lines that are not empty
they have, and what they refer to, does not depend on empty lines and on endings: without these, the
declarations cut the listing at the same lines. -/
namespace AsmListing

variable {ls ms : Listing} {l : Line} {ch : Chapter} {t u x name : Text}

namespace Listing

/-- The lines that are not empty, without their endings. -/
def bare (ls : Listing) : Listing := ls.solidLines.map fun c => ⟨c, .none⟩

theorem bare_cons_of_eq (h : l.content = []) (ls : Listing) : bare (l :: ls) = ls.bare := by
  rw [bare, solidLines_cons_of_eq h]
  rfl

theorem bare_cons_of_ne (h : l.content ≠ []) (ls : Listing) :
    bare (l :: ls) = ⟨l.content, .none⟩ :: ls.bare := by
  rw [bare, solidLines_cons_of_ne h]
  rfl

end Listing

open Listing

namespace Chapter

/-- The chapter without empty lines and endings. -/
def bare (ch : Chapter) : Chapter := ⟨ch.name, ⟨ch.head.content, .none⟩, Listing.bare ch.body⟩

theorem cut_bare (ls : Listing) : cut ls.bare = (Listing.bare (cut ls).1, (cut ls).2.map bare) := by
  induction ls with
  | nil => rfl
  | cons l ls ih =>
    by_cases hl : l.content = []
    · have hplain : ∀ f, Marker.ofLine l.content ≠ .start f := by simp [hl, Marker.ofLine_nil]
      rw [bare_cons_of_eq hl, ih, cut_cons_of_not_start hplain, bare_cons_of_eq hl]
    · rw [bare_cons_of_ne hl]
      by_cases hs : ∃ f, Marker.ofLine l.content = .start f
      · obtain ⟨f, hf⟩ := hs
        rw [cut_cons_of_start hf, cut_cons_of_start (l := ⟨l.content, .none⟩) hf, ih]
        rfl
      · rw [not_exists] at hs
        rw [cut_cons_of_not_start hs, cut_cons_of_not_start (l := ⟨l.content, .none⟩) hs, ih,
          bare_cons_of_ne hl]

/-- The lines up to the first one that gives the size of the name. -/
def through (name : Text) : Listing → Listing
  | [] => []
  | l :: ls => if Marker.ofLine l.content = .size name then [l] else l :: through name ls

theorem take_extentIn (name : Text) (body : Listing) :
    body.take (extentIn name body) = through name body := by
  induction body with
  | nil => rfl
  | cons l body ih =>
    by_cases hl : Marker.ofLine l.content = .size name
    · rw [extentIn_cons_of_size hl, through, if_pos hl]
      rfl
    · rw [extentIn_cons_of_ne hl, through, if_neg hl, List.take_succ_cons, ih]

theorem lines_eq (ch : Chapter) : ch.lines = ch.head :: through ch.name ch.body :=
  congrArg (ch.head :: ·) (take_extentIn ch.name ch.body)

theorem solidLines_through_bare (name : Text) (ls : Listing) :
    (through name ls.bare).solidLines = (through name ls).solidLines := by
  induction ls with
  | nil => rfl
  | cons l ls ih =>
    by_cases hl : l.content = []
    · have hplain : Marker.ofLine l.content ≠ .size name := by simp [hl, Marker.ofLine_nil]
      rw [bare_cons_of_eq hl, ih, through, if_neg hplain, solidLines_cons_of_eq hl]
    · have hl' : (⟨l.content, .none⟩ : Line).content ≠ [] := hl
      rw [bare_cons_of_ne hl, through, through]
      split
      · rw [solidLines_cons_of_ne hl, solidLines_cons_of_ne hl']
      · rw [solidLines_cons_of_ne hl, solidLines_cons_of_ne hl', ih]

theorem solidLines_lines_bare (h : ch.head.content ≠ []) :
    solidLines ch.bare.lines = solidLines ch.lines := by
  have h' : ch.bare.head.content ≠ [] := h
  rw [lines_eq, lines_eq, solidLines_cons_of_ne h, solidLines_cons_of_ne h']
  exact congrArg (ch.head.content :: ·) (solidLines_through_bare ch.name ch.body)

theorem IsProper.head_ne_nil (h : ch.IsProper) : ch.head.content ≠ [] := by
  intro hnil
  simpa [hnil, Marker.ofLine_nil] using h.head

theorem toListing_eq (ch : Chapter) : ch.toListing = ch.lines ++ ch.body.drop ch.extent := by
  simp [toListing, lines]

/-- The lines of a routine stand together in the listing that has been cut. -/
theorem exists_eq_append_of_mem_cut (h : ch ∈ (cut ls).2) :
    ∃ before behind, ls = before ++ (ch.lines ++ behind) := by
  obtain ⟨xs, ys, hxs⟩ := List.append_of_mem h
  refine ⟨(cut ls).1 ++ xs.flatMap toListing,
    ch.body.drop ch.extent ++ ys.flatMap toListing, ?_⟩
  calc ls = (cut ls).1 ++ (cut ls).2.flatMap toListing := (cut_spec ls).1
    _ = (cut ls).1 ++ (xs.flatMap toListing ++ (ch.toListing ++ ys.flatMap toListing)) := by
      rw [hxs, List.flatMap_append, List.flatMap_cons]
    _ = _ := by rw [toListing_eq, List.append_assoc, List.append_assoc]

end Chapter

namespace Listing

theorem solidLines_excerpt (h : ls.IsSplit) : (excerpt ls).solidLines = ls.solidLines := by
  rcases List.eq_nil_or_concat ls with rfl | ⟨ls, l, rfl⟩
  · simp [excerpt, solidLines, contents]
  · rw [List.concat_eq_append] at h ⊢
    have hends : (toText ls).EndsAtBreak := endsAtBreak_toText (h.ended_left (by simp))
    rw [excerpt_append_singleton, Text.solidLines_append_of_endsAtBreak hends,
      Text.solidLines_toText h.left, Text.solidLines_content (h.solid l (by simp)),
      solidLines_append]
    rfl

/-- The names of the routines, each with the lines of the routine that are not empty. -/
def roster (ls : Listing) : List (Text × List Text) :=
  (Chapter.cut ls).2.map fun ch => (ch.name, solidLines ch.lines)

theorem roster_bare (ls : Listing) : ls.bare.roster = ls.roster := by
  rw [roster, roster, Chapter.cut_bare, List.map_map]
  refine List.map_congr_left fun ch hch => ?_
  have hproper := (Chapter.cut_spec ls).2.2 ch hch
  exact congrArg (ch.name, ·) (Chapter.solidLines_lines_bare hproper.head_ne_nil)

theorem roster_congr (h : ms.solidLines = ls.solidLines) : ms.roster = ls.roster := by
  rw [← roster_bare ms, ← roster_bare ls, bare, bare, h]

theorem map_fst_roster (ls : Listing) : ls.roster.map Prod.fst = ls.routineNames := by
  rw [routineNames_eq, entries_eq, roster, List.map_map, List.map_map]
  rfl

theorem routineNames_congr (h : ms.solidLines = ls.solidLines) :
    ms.routineNames = ls.routineNames := by
  rw [← map_fst_roster, ← map_fst_roster, roster_congr h]

/-- The texts of the routines have these lines. -/
theorem map_routines_eq_roster (t : Text) :
    (ofText t).routines.map (fun r => (r.name, r.code.solidLines)) = (ofText t).roster := by
  have hentries := congrArg (List.map fun e => (e.1, e.2.solidLines)) (entries_eq (ofText t))
  rw [entries, List.map_map, List.map_map] at hentries
  refine hentries.trans (List.map_congr_left fun ch hch => ?_)
  obtain ⟨before, behind, heq⟩ := Chapter.exists_eq_append_of_mem_cut hch
  have hsplit : IsSplit (ch.lines ++ behind) :=
    (isSplit_ofText t).of_suffix ⟨before, heq.symm⟩
  exact congrArg (ch.name, ·) (solidLines_excerpt hsplit.left)

/-- Texts with the same lines, empty ones apart, have the same routines, apart from empty lines. -/
theorem map_routines_congr (h : u.solidLines = t.solidLines) :
    (ofText u).routines.map (fun r => (r.name, r.code.solidLines)) =
      (ofText t).routines.map fun r => (r.name, r.code.solidLines) := by
  rw [map_routines_eq_roster, map_routines_eq_roster]
  exact roster_congr (by rw [solidLines_ofText, solidLines_ofText, h])

/-- The references of a name, from the lines of its routines. -/
theorem mem_referencesOf_iff {routines : List Routine} : x ∈ referencesOf routines name ↔
    ∃ cs, (name, cs) ∈ routines.map (fun r => (r.name, r.code.solidLines)) ∧
      ∃ c ∈ cs, x ∈ Reference.ofLine c := by
  rw [mem_referencesOf]
  constructor
  · rintro ⟨r, hr, rfl, hx⟩
    exact ⟨r.code.solidLines, List.mem_map_of_mem hr, Text.mem_references.mp hx⟩
  · rintro ⟨cs, hcs, hx⟩
    obtain ⟨r, hr, heq⟩ := List.mem_map.mp hcs
    obtain ⟨rfl, rfl⟩ := Prod.mk.inj heq
    exact ⟨r, hr, rfl, Text.mem_references.mpr hx⟩

theorem routineReferences_congr (h : u.solidLines = t.solidLines) :
    (ofText u).routineReferences = (ofText t).routineReferences := by
  have hnames : (ofText u).routines.map Routine.name = (ofText t).routines.map Routine.name :=
    routineNames_congr (by rw [solidLines_ofText, solidLines_ofText, h])
  rw [routineReferences, routineReferences, hnames]
  refine List.map_congr_left fun name _ => congrArg (name, ·) ?_
  refine (Text.pairwise_sortUnique _).eq_of_mem_iff (Text.pairwise_sortUnique _) fun x => ?_
  exact mem_referencesOf_iff.trans (map_routines_congr h ▸ mem_referencesOf_iff.symm)

end Listing

theorem Text.references_eq_of_solidLines (h : u.solidLines = t.solidLines) :
    u.references = t.references := by
  refine references_congr fun c hc => ?_
  have hmem (v : Text) : c ∈ (ofText v).contents ↔ c ∈ v.solidLines := by
    simp [Text.solidLines_eq, hc]
  rw [hmem, hmem, h]

end AsmListing
