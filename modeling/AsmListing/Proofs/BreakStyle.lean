import AsmListing.Proofs.Partition
import AsmListing.Listing.Reference
import Mathlib.Data.List.Basic

/-! A text that has line feeds only, written with another kind of line break: its lines stay, and so
does all that is read off their contents, while the texts of its routines get that break. -/
namespace AsmListing

variable {t run : Text} {ls : Listing} {l : Line} {k : Ending} {c : Char} {ch : Chapter}
  {chs : List Chapter}

/-- The text with another line break for each line feed. -/
def Text.withBreaks (k : Ending) (t : Text) : Text :=
  t.flatMap fun c => if c = '\n' then k.toText else [c]

/-- The line with another line break, if it has any. -/
def Line.withBreak (k : Ending) (l : Line) : Line :=
  ⟨l.content, if l.ending = .none then .none else k⟩

def Listing.withBreaks (k : Ending) (ls : Listing) : Listing := ls.map (Line.withBreak k)

def Chapter.withBreaks (k : Ending) (ch : Chapter) : Chapter :=
  ⟨ch.name, ch.head.withBreak k, Listing.withBreaks k ch.body⟩

def Routine.withBreaks (k : Ending) (r : Routine) : Routine :=
  { r with code := r.code.withBreaks k }

/-- The line holds no line feed, and has no other break behind it. -/
structure Line.IsPlain (l : Line) : Prop where
  content : '\n' ∉ l.content
  ending : l.ending = .none ∨ l.ending = .lf

namespace Text

@[simp] theorem withBreaks_nil (k : Ending) : withBreaks k [] = [] := rfl

@[simp] theorem withBreaks_append (k : Ending) (t u : Text) :
    withBreaks k (t ++ u) = withBreaks k t ++ withBreaks k u := List.flatMap_append

@[simp] theorem withBreaks_lf (k : Ending) (t : Text) :
    withBreaks k ('\n' :: t) = k.toText ++ withBreaks k t := by
  simp [withBreaks]

theorem withBreaks_cons (h : c ≠ '\n') (k : Ending) (t : Text) :
    withBreaks k (c :: t) = c :: withBreaks k t := by
  simp [withBreaks, h]

theorem withBreaks_eq_self (h : '\n' ∉ t) (k : Ending) : withBreaks k t = t := by
  induction t with
  | nil => rfl
  | cons c t ih =>
    rw [List.mem_cons, not_or] at h
    rw [withBreaks_cons (Ne.symm h.1), ih h.2]

theorem withBreaks_eq_nil (hk : k ≠ .none) (h : t.withBreaks k = []) : t = [] := by
  cases t with
  | nil => rfl
  | cons c t =>
    by_cases hc : c = '\n'
    · cases k <;> simp_all [Ending.toText]
    · simp [withBreaks_cons hc] at h

theorem isBreak_of_mem_withBreaks (h : ∀ c ∈ run, isBreak c = true) :
    ∀ c ∈ withBreaks k run, isBreak c = true := by
  intro c hc
  obtain ⟨d, hd, hcd⟩ := List.mem_flatMap.mp hc
  split at hcd
  · exact Ending.isBreak_of_mem c hcd
  · obtain rfl := List.mem_singleton.mp hcd
    exact h c hd

/-- A text that begins within a line begins as it did. -/
theorem head?_withBreaks (h : isBreak c = false) (k : Ending) (t : Text) :
    (withBreaks k (c :: t)).head? = some c := by
  rw [withBreaks_cons (not_isBreak_iff.mp h).1]
  rfl

end Text

namespace Listing

/-- The lines stay, each with the new break. -/
theorem ofText_withBreaks (hk : k ≠ .none) (ht : '\r' ∉ t) :
    ofText (t.withBreaks k) = (ofText t).withBreaks k := by
  induction t with
  | nil => rfl
  | cons c t ih =>
    rw [List.mem_cons, not_or] at ht
    have ih := ih ht.2
    obtain ⟨l, rest, hl⟩ := List.exists_cons_of_ne_nil (ofText_ne_nil t)
    by_cases hc : c = '\n'
    · subst hc
      have hjoin : k = .cr → (ofText (Text.withBreaks k t)).head? ≠ some ⟨[], .lf⟩ := by
        rintro rfl
        rw [ih, hl]
        simp only [withBreaks, List.map_cons, List.head?_cons, Line.withBreak]
        split <;> simp
      rw [Text.withBreaks_lf, ofText_ending_append hk hjoin, ih, ofText_cons, hl]
      simp [prepend, withBreaks, Line.withBreak]
    · have hb : isBreak c = false := not_isBreak_iff.mpr ⟨hc, Ne.symm ht.1⟩
      rw [Text.withBreaks_cons hc, ofText_cons, ofText_cons, ih, hl]
      simp only [withBreaks, List.map_cons]
      rw [prepend_of_not_isBreak hb, prepend_of_not_isBreak hb]
      rfl

theorem isPlain_of_mem (ht : '\r' ∉ t) (hl : l ∈ ofText t) : l.IsPlain := by
  have hmem : ∀ a ∈ l.toText, a ∈ t := by
    intro a ha
    rw [← toText_ofText t]
    exact List.mem_flatMap.mpr ⟨l, hl, ha⟩
  have hcr : '\r' ∉ l.ending.toText := fun h => ht (hmem _ (List.mem_append_right _ h))
  have hlf : '\n' ∉ l.content :=
    fun h => (not_isBreak_iff.mp (not_isBreak_of_mem hl _ h)).1 rfl
  refine ⟨hlf, ?_⟩
  cases hk : l.ending <;> simp_all [Ending.toText]

/-! What looks at the contents of the lines alone. -/

@[simp] theorem length_withBreaks (k : Ending) (ls : Listing) :
    (withBreaks k ls).length = ls.length := List.length_map _

@[simp] theorem cells_withBreaks (k : Ending) (ls : Listing) :
    cells (withBreaks k ls) = cells ls := by
  simp [cells, withBreaks, Line.withBreak]

@[simp] theorem markers_withBreaks (k : Ending) (ls : Listing) :
    markers (withBreaks k ls) = markers ls := by
  simp [markers, withBreaks, Line.withBreak]

@[simp] theorem span?_withBreaks (k : Ending) (ls : Listing) (name : Text) :
    span? (withBreaks k ls) name = span? ls name := by
  simp [span?, resolve]

@[simp] theorem references_withBreaks (k : Ending) (ls : Listing) :
    references (withBreaks k ls) = references ls := by
  simp [references, withBreaks, Line.withBreak, List.flatMap_map]

/-! The texts of lines. -/

theorem toText_withBreak (h : l.IsPlain) (k : Ending) :
    (l.withBreak k).toText = l.toText.withBreaks k := by
  obtain ⟨content, ending⟩ := l
  have hsame := Text.withBreaks_eq_self h.content k
  rcases h.ending with rfl | rfl <;> simp_all [Line.toText, Line.withBreak, Ending.toText]

theorem toText_withBreaks (h : ∀ l ∈ ls, l.IsPlain) (k : Ending) :
    toText (withBreaks k ls) = (toText ls).withBreaks k := by
  induction ls with
  | nil => rfl
  | cons l ls ih =>
    rw [List.forall_mem_cons] at h
    have hl := toText_withBreak h.1 k
    have hls := ih h.2
    simp_all [toText, withBreaks]

theorem excerpt_withBreaks (h : ∀ l ∈ ls, l.IsPlain) (k : Ending) :
    excerpt (withBreaks k ls) = (excerpt ls).withBreaks k := by
  rcases List.eq_nil_or_concat ls with rfl | ⟨ls, l, rfl⟩
  · rfl
  · have hplain : ∀ m ∈ ls, m.IsPlain := fun m hm => h m (by simp [hm])
    have hl := Text.withBreaks_eq_self (h l (by simp)).content k
    rw [List.concat_eq_append, excerpt_append_singleton, Text.withBreaks_append,
      ← toText_withBreaks hplain, hl]
    simp [withBreaks, Line.withBreak]

theorem block_withBreaks (h : ∀ l ∈ ls, l.IsPlain) (k : Ending) (s e : Nat) :
    block (withBreaks k ls) s e = (block ls s e).withBreaks k := by
  have hplain : ∀ l ∈ (ls.take (e + 1)).drop s, l.IsPlain :=
    fun l hl => h l (List.mem_of_mem_take (List.mem_of_mem_drop hl))
  rw [block, block, ← excerpt_withBreaks hplain]
  simp [withBreaks, List.map_drop, List.map_take]

end Listing

/-! The catalog. -/
namespace Chapter

theorem cut_withBreaks (k : Ending) (ls : Listing) :
    cut (ls.withBreaks k) =
      (Listing.withBreaks k (cut ls).1, (cut ls).2.map (Chapter.withBreaks k)) := by
  induction ls with
  | nil => rfl
  | cons l ls ih =>
    have hcons : Listing.withBreaks k (l :: ls) = l.withBreak k :: Listing.withBreaks k ls := rfl
    by_cases hs : ∃ f, Marker.ofLine l.content = .start f
    · obtain ⟨f, hf⟩ := hs
      have hf' : Marker.ofLine (l.withBreak k).content = .start f := hf
      rw [hcons, cut_cons_of_start hf', cut_cons_of_start hf, ih]
      rfl
    · rw [not_exists] at hs
      have hs' : ∀ f, Marker.ofLine (l.withBreak k).content ≠ .start f := hs
      rw [hcons, cut_cons_of_not_start hs', cut_cons_of_not_start hs, ih]
      rfl

@[simp] theorem extent_withBreaks (k : Ending) (ch : Chapter) :
    (ch.withBreaks k).extent = ch.extent := by
  simp [extent_eq, withBreaks]

theorem lines_withBreaks (k : Ending) (ch : Chapter) :
    (ch.withBreaks k).lines = Listing.withBreaks k ch.lines := by
  rw [lines, extent_withBreaks]
  simp [withBreaks, lines, Listing.withBreaks, List.map_take]

theorem routine_withBreaks (h : ∀ l ∈ ch.toListing, l.IsPlain) (k : Ending) (start : Nat) :
    (ch.withBreaks k).routine start = (ch.routine start).withBreaks k := by
  have hplain : ∀ l ∈ ch.lines, l.IsPlain := by
    intro l hl
    rcases List.mem_cons.mp hl with rfl | hl
    · exact h _ List.mem_cons_self
    · exact h l (List.mem_cons_of_mem _ (List.mem_of_mem_take hl))
  rw [routine, extent_withBreaks, lines_withBreaks, Listing.excerpt_withBreaks hplain]
  rfl

theorem routines_withBreaks (h : ∀ ch ∈ chs, ∀ l ∈ ch.toListing, l.IsPlain) (k : Ending)
    (start : Nat) :
    routines start (chs.map (Chapter.withBreaks k)) =
      (routines start chs).map (Routine.withBreaks k) := by
  induction chs generalizing start with
  | nil => rfl
  | cons ch chs ih =>
    obtain ⟨hch, hchs⟩ := List.forall_mem_cons.mp h
    have hlen : (ch.withBreaks k).body.length = ch.body.length := Listing.length_withBreaks ..
    rw [List.map_cons, routines, routine_withBreaks hch, hlen, ih hchs]
    rfl

end Chapter

namespace Listing

/-- Every routine stays on its lines; its text has the new breaks. -/
theorem routines_withBreaks (h : ∀ l ∈ ls, l.IsPlain) (k : Ending) :
    routines (withBreaks k ls) = (routines ls).map (Routine.withBreaks k) := by
  have hplain : ∀ ch ∈ (Chapter.cut ls).2, ∀ l ∈ ch.toListing, l.IsPlain := by
    intro ch hch l hl
    apply h
    rw [(Chapter.cut_spec ls).1]
    exact List.mem_append_right _ (List.mem_flatMap.mpr ⟨ch, hch, hl⟩)
  rw [routines_eq, routines_eq, Chapter.cut_withBreaks, ← Chapter.routines_withBreaks hplain]
  simp

end Listing

/-- A text names the same symbols with other breaks. -/
theorem Text.references_withBreaks (hk : k ≠ .none) (ht : '\r' ∉ t) :
    (t.withBreaks k).references = t.references := by
  rw [references, Listing.ofText_withBreaks hk ht, Listing.references_withBreaks]
  rfl

namespace Listing

/-- The text of a routine stands in the text. -/
theorem mem_of_mem_code {r : Routine} (hr : r ∈ (ofText t).routines) (hc : c ∈ r.code) : c ∈ t := by
  obtain ⟨j, hj⟩ := List.mem_iff_getElem?.mp hr
  obtain ⟨ch, before, behind, hch, rfl, _⟩ := exists_stands hj
  have hcode : (ch.routine before.length).code =
      (ofText t).block before.length (before.length + ch.extent) := hch.block_eq.symm
  rw [text_eq_block (Nat.le_add_right _ _) hch.last_lt, ← hcode]
  simp [hc]

theorem referencesOf_withBreaks {rs : List Routine} (hk : k ≠ .none)
    (h : ∀ r ∈ rs, '\r' ∉ r.code) (name : Text) :
    referencesOf (rs.map (Routine.withBreaks k)) name = referencesOf rs name := by
  have hrefs : ∀ r ∈ rs.filter (·.name == name),
      (r.withBreaks k).code.references = r.code.references :=
    fun r hr => Text.references_withBreaks hk (h r (List.mem_filter.mp hr).1)
  rw [referencesOf, List.filter_map, List.flatMap_map]
  exact congrArg Text.sortUnique (List.flatMap_congr hrefs)

theorem routineReferences_withBreaks (hk : k ≠ .none) (ht : '\r' ∉ t) :
    routineReferences (withBreaks k (ofText t)) = routineReferences (ofText t) := by
  have hcodes : ∀ r ∈ (ofText t).routines, '\r' ∉ r.code :=
    fun r hr hc => ht (mem_of_mem_code hr hc)
  unfold routineReferences
  rw [routines_withBreaks fun l hl => isPlain_of_mem ht hl]
  simp only [List.map_map, referencesOf_withBreaks hk hcodes]
  rfl

end Listing

end AsmListing
