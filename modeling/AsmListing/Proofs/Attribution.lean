import AsmListing.Proofs.Agreement
import AsmListing.Proofs.Blocks
import AsmListing.Proofs.TextOrder

/-! Which routines a reference belongs to. The text of a routine, cut into lines again, has the
lines of the routine, so that the catalog gives to each name what the lines of its routines refer
to, and nothing else. -/
namespace AsmListing

variable {ls : Listing} {t u x name : Text} {r : Routine} {refs : List Text} {i s e : Nat}

/-- The line is one of the span. -/
def Span.Covers (span : Span) (i : Nat) : Prop := span.first ≤ i ∧ i ≤ span.last

namespace Listing

/-- Line `i` refers to the symbol. -/
def RefersTo (ls : Listing) (i : Nat) (symbol : Text) : Prop :=
  ∃ c, ls.contents[i]? = some c ∧ symbol ∈ Reference.ofLine c

theorem mem_references : x ∈ ls.references ↔ ∃ i, ls.RefersTo i x := by
  rw [references, Text.mem_sortUnique, List.mem_flatMap]
  constructor
  · rintro ⟨l, hl, hx⟩
    obtain ⟨i, hi⟩ := List.mem_iff_getElem?.mp hl
    exact ⟨i, l.content, by simp [contents, hi], hx⟩
  · rintro ⟨i, c, hi, hx⟩
    obtain ⟨l, hl, rfl⟩ := List.mem_map.mp (List.mem_of_getElem? hi)
    exact ⟨l, hl, hx⟩

/-! The references of a routine. -/

/-- The lines of a block are those of the range, whatever their endings. -/
theorem contents_clip (he : e < ls.length) (hs : s ≤ e) :
    (ls.clip s e).contents = (ls.contents.take (e + 1)).drop s := by
  have hlen : s ≤ (ls.contents.take e).length := by
    simp [contents]
    omega
  rw [List.take_succ_eq_append_getElem (by simpa [contents] using he),
    List.drop_append_of_le_length hlen, clip_eq he]
  simp [contents, List.map_drop, List.map_take]

theorem refersTo_clip (he : e < ls.length) (hs : s ≤ e) :
    (∃ i, (ls.clip s e).RefersTo i x) ↔ ∃ i, (s ≤ i ∧ i ≤ e) ∧ ls.RefersTo i x := by
  simp only [RefersTo, contents_clip he hs, List.getElem?_drop]
  constructor
  · rintro ⟨i, c, hi, hx⟩
    rw [List.getElem?_take] at hi
    split at hi
    · exact ⟨s + i, ⟨by omega, by omega⟩, c, hi, hx⟩
    · cases hi
  · rintro ⟨i, ⟨hsi, hie⟩, c, hc, hx⟩
    refine ⟨i - s, c, ?_, hx⟩
    rw [Nat.add_sub_cancel' hsi, List.getElem?_take_of_lt (by omega), hc]

/-- A routine refers to what its lines in the text refer to. -/
theorem mem_references_code (hr : r ∈ (ofText t).routines) :
    x ∈ r.code.references ↔ ∃ i, r.span.Covers i ∧ (ofText t).RefersTo i x := by
  obtain ⟨hle, hlast, hcode⟩ := block_of_mem_routines hr
  rw [Text.references, hcode, ofText_block hle hlast, mem_references, refersTo_clip hlast hle]
  rfl

/-! The references of a name. -/

theorem mem_referencesOf {routines : List Routine} : x ∈ referencesOf routines name ↔
    ∃ r ∈ routines, r.name = name ∧ x ∈ r.code.references := by
  simp [referencesOf, Text.mem_sortUnique, and_assoc]

theorem map_fst_routineReferences (ls : Listing) :
    ls.routineReferences.map Prod.fst = ls.routineNames.eraseDups := by
  simp [routineReferences, routineNames, Function.comp_def]

theorem of_mem_routineReferences (h : (name, refs) ∈ (ofText t).routineReferences) :
    refs.Pairwise (· < ·) ∧ ∀ x, x ∈ refs ↔ ∃ r ∈ (ofText t).routines, r.name = name ∧
      ∃ i, r.span.Covers i ∧ (ofText t).RefersTo i x := by
  obtain ⟨_, _, ⟨⟩⟩ := List.mem_map.mp h
  refine ⟨Text.pairwise_sortUnique _, fun x => mem_referencesOf.trans ?_⟩
  refine exists_congr fun r => and_congr_right fun hr => and_congr_right fun _ => ?_
  exact mem_references_code hr

/-- Each routine has its references under its name. -/
theorem mem_routineReferences (hr : r ∈ ls.routines) :
    (r.name, referencesOf ls.routines r.name) ∈ ls.routineReferences :=
  List.mem_map_of_mem (List.mem_eraseDups.mpr (List.mem_map_of_mem hr))

end Listing

/-- Only the lines of a text matter to its references, not their order and how often they stand
there. -/
theorem Text.references_congr (h : ∀ c, c ≠ [] →
    (c ∈ (Listing.ofText u).contents ↔ c ∈ (Listing.ofText t).contents)) :
    u.references = t.references := by
  refine (pairwise_sortUnique _).eq_of_mem_iff (pairwise_sortUnique _) fun x => ?_
  have hu : x ∈ u.references ↔ ∃ c ∈ u.solidLines, x ∈ Reference.ofLine c := mem_references
  have ht : x ∈ t.references ↔ ∃ c ∈ t.solidLines, x ∈ Reference.ofLine c := mem_references
  refine hu.trans (Iff.trans (exists_congr fun c => ?_) ht.symm)
  refine and_congr_left fun _ => ?_
  rw [solidLines_eq, solidLines_eq, List.mem_filter, List.mem_filter]
  refine and_congr_left fun hc => h c ?_
  simpa using hc

namespace Listing

/-- The names of the routines have their references in the order of their first appearances, each
once. The references of a name increase; they are those on the lines of the routines with that name.
The references of the text increase too; they are those of all names and those on lines that belong
to no routine. They are the same for every text with the same lines, in whatever order and however
often, empty lines apart. -/
theorem references_attributed (t : Text) :
    (∀ name, name ∈ (ofText t).routineReferences.map Prod.fst ↔ name ∈ (ofText t).routineNames) ∧
    ((ofText t).routineReferences.map Prod.fst).Pairwise (fun a b =>
      (ofText t).routineNames.idxOf a < (ofText t).routineNames.idxOf b) ∧
    (∀ name refs, (name, refs) ∈ (ofText t).routineReferences → refs.Pairwise (· < ·) ∧
      ∀ x, x ∈ refs ↔ ∃ r ∈ (ofText t).routines, r.name = name ∧
        ∃ i, r.span.Covers i ∧ (ofText t).RefersTo i x) ∧
    t.references.Pairwise (· < ·) ∧
    (∀ x, x ∈ t.references ↔
      (∃ name refs, (name, refs) ∈ (ofText t).routineReferences ∧ x ∈ refs) ∨
      ∃ i, (∀ r ∈ (ofText t).routines, ¬ r.span.Covers i) ∧ (ofText t).RefersTo i x) ∧
    ∀ u : Text, (∀ c, c ≠ [] → (c ∈ (ofText u).contents ↔ c ∈ (ofText t).contents)) →
      u.references = t.references := by
  rw [map_fst_routineReferences]
  refine ⟨fun name => List.mem_eraseDups, pairwise_idxOf_eraseDups _,
    fun name refs h => of_mem_routineReferences h, Text.pairwise_sortUnique _, fun x => ?_,
    fun u h => Text.references_congr h⟩
  rw [Text.references, mem_references]
  constructor
  · rintro ⟨i, hi⟩
    by_cases hcovered : ∃ r ∈ (ofText t).routines, r.span.Covers i
    · obtain ⟨r, hr, hir⟩ := hcovered
      refine Or.inl ⟨_, _, mem_routineReferences hr, ?_⟩
      exact references_subset_referencesOf hr ((mem_references_code hr).mpr ⟨i, hir, hi⟩)
    · refine Or.inr ⟨i, fun r hr hir => hcovered ⟨r, hr, hir⟩, hi⟩
  · rintro (⟨name, refs, h, hx⟩ | ⟨i, _, hi⟩)
    · obtain ⟨_, _, _, i, _, hi⟩ := ((of_mem_routineReferences h).2 x).mp hx
      exact ⟨i, hi⟩
    · exact ⟨i, hi⟩

end Listing

end AsmListing
