import AsmListing.Proofs.Collapse
import AsmListing.Proofs.Resolution
import AsmListing.Proofs.Chapters

/-! Texts in which every routine is closed by its own size: gaps and routines in turn. The catalog
of such a text lists these routines, and the text stays of this form when a routine goes or when
runs of line breaks collapse. -/
namespace AsmListing

variable {t u a b code name final : Text} {ls ms before mid : Listing} {l first : Line}
variable {k : Ending} {rs : List (Text × Text)}

/-- No line of the text declares a routine. -/
def Text.DeclaresNothing (t : Text) : Prop := ∀ c ∈ t.solidLines, ∀ f, Marker.ofLine c ≠ .start f

/-- The text of a routine whose first line declares it and whose last line is the first one to give
its size. -/
structure IsClosed (name code : Text) : Prop extends code.IsFramed where
  lines : ∃ first inner final, code.solidLines = first :: (inner ++ [final]) ∧
    Marker.ofLine first = .start name ∧ Marker.ofLine final = .size name ∧
    ∀ c ∈ inner, (∀ f, Marker.ofLine c ≠ .start f) ∧ Marker.ofLine c ≠ .size name

/-- The text consists of gaps and of closed routines with these names and texts, in this order. -/
inductive Layout : Text → List (Text × Text) → Prop
  | gap {t : Text} (h : t.DeclaresNothing) : Layout t []
  | routine {a code b name : Text} {rs : List (Text × Text)} (hd : a.DeclaresNothing)
      (ha : a.EndsAtBreak) (hc : IsClosed name code) (hb : b.BeginsAtBreak) (h : Layout b rs) :
      Layout (a ++ (code ++ b)) ((name, code) :: rs)

/-- The names and the texts of the routines of a listing, in file order. -/
def Listing.entries (ls : Listing) : List (Text × Text) := ls.routines.map fun r => (r.name, r.code)

theorem Listing.routineNames_eq (ls : Listing) : ls.routineNames = ls.entries.map Prod.fst := by
  rw [entries, List.map_map]
  rfl

theorem Marker.ofLine_nil : ofLine [] = .plain := by decide

/-- The lines of a closed routine: its declaration, its size, and neither of them in between. -/
theorem IsClosed.exists_lines (h : IsClosed name code) {inside : Listing} {final : Text}
    (hl : Listing.ofText code = inside ++ [⟨final, .none⟩]) :
    ∃ first mid, inside = first :: mid ∧ Marker.ofLine first.content = .start name ∧
      Marker.ofLine final = .size name ∧
      ∀ l ∈ mid, (∀ f, Marker.ofLine l.content ≠ .start f) ∧
        Marker.ofLine l.content ≠ .size name := by
  obtain ⟨first, inner, last, hsolid, hfirst, hlast, hinner⟩ := h.lines
  obtain ⟨x, hx, hxb⟩ := h.head
  obtain ⟨y, hy, hyb⟩ := h.last
  have hfinal : final ≠ [] := by
    rintro rfl
    have := Listing.endsAtBreak_of_ofText hl y hy
    simp [hyb] at this
  rw [Text.solidLines_eq, hl] at hsolid
  cases inside with
  | nil =>
    simp only [Listing.contents, List.nil_append, List.map_cons, List.map_nil] at hsolid
    rw [List.filter_cons_of_pos (by simpa using hfinal)] at hsolid
    simp at hsolid
  | cons l mid =>
    have hl0 : l.content ≠ [] := by
      intro hnil
      obtain ⟨c, k⟩ := l
      obtain rfl : c = [] := hnil
      have := Listing.beginsAtBreak_of_ofText hl x hx
      simp [hxb] at this
    simp only [Listing.contents, List.cons_append, List.map_cons, List.map_append,
      List.map_nil] at hsolid
    rw [List.filter_cons_of_pos (by simpa using hl0), List.filter_append,
      List.filter_cons_of_pos (by simpa using hfinal), List.filter_nil] at hsolid
    obtain ⟨rfl, hrest⟩ := List.cons.inj hsolid
    obtain ⟨hmid, hend⟩ := List.append_inj' hrest rfl
    obtain rfl : final = last := by simpa using hend
    refine ⟨l, mid, rfl, hfirst, hlast, ?_⟩
    intro m hm
    by_cases hempty : m.content = []
    · simp [hempty, Marker.ofLine_nil]
    · apply hinner
      rw [← hmid, List.mem_filter, List.mem_map]
      exact ⟨⟨m, hm, rfl⟩, by simpa using hempty⟩

/-- A line with a marker is not empty. -/
theorem Text.mem_solidLines (hl : l ∈ Listing.ofText t) (hm : Marker.ofLine l.content ≠ .plain) :
    l.content ∈ t.solidLines := by
  rw [Text.solidLines_eq, List.mem_filter]
  refine ⟨List.mem_map_of_mem hl, ?_⟩
  cases hc : l.content with
  | nil => simp [hc, Marker.ofLine_nil] at hm
  | cons => rfl

/-- No line of a listing declares a routine where no line of its text does. -/
theorem Text.DeclaresNothing.of_mem (h : t.DeclaresNothing) (hl : l ∈ Listing.ofText t) :
    ∀ f, Marker.ofLine l.content ≠ .start f := by
  intro f hf
  exact h l.content (mem_solidLines hl (by simp [hf])) f hf

namespace Chapter

/-- The name and the text of the routine of a chapter. -/
def entry (ch : Chapter) : Text × Text := (ch.name, Listing.excerpt ch.lines)

theorem entries_routines (start : Nat) (chs : List Chapter) :
    (routines start chs).map (fun r => (r.name, r.code)) = chs.map entry := by
  induction chs generalizing start with
  | nil => rfl
  | cons ch chs ih => simp [routines, ih, routine, entry]

end Chapter

theorem Listing.entries_eq (ls : Listing) :
    ls.entries = (Chapter.cut ls).2.map Chapter.entry := by
  rw [entries, routines_eq, Chapter.entries_routines]

/-- The lines of a text around a closed routine in it. -/
theorem IsClosed.exists_ofText_eq (ha : a.EndsAtBreak) (hc : IsClosed name code)
    (hb : b.BeginsAtBreak) :
    ∃ before first mid final k behind, Listing.ofText a = before ++ [⟨[], .none⟩] ∧
      Listing.ofText b = ⟨[], k⟩ :: behind ∧ code = Listing.toText (first :: mid) ++ final ∧
      Listing.ofText (a ++ (code ++ b)) = before ++ (first :: mid ++ ⟨final, k⟩ :: behind) ∧
      Marker.ofLine first.content = .start name ∧ Marker.ofLine final = .size name ∧
      ∀ l ∈ mid, (∀ f, Marker.ofLine l.content ≠ .start f) ∧
        Marker.ofLine l.content ≠ .size name := by
  obtain ⟨before, inside, final, k, behind, hbefore, hcode, hbehind, hall⟩ :=
    Listing.ofText_frame ha hc.toIsFramed hb
  obtain ⟨first, mid, rfl, hfirst, hfinal, hmid⟩ := hc.exists_lines hcode
  refine ⟨before, first, mid, final, k, behind, hbefore, hbehind, ?_, hall, hfirst, hfinal, hmid⟩
  rw [← Listing.toText_ofText code, hcode, Listing.toText_append]
  simp [Ending.toText]

theorem Chapter.entry_of_closed {first : Line} {mid rest : List Line} {final : Text} {k : Ending}
    (hfinal : Marker.ofLine final = .size name)
    (hmid : ∀ l ∈ mid, Marker.ofLine l.content ≠ .size name) :
    Chapter.entry ⟨name, first, mid ++ ⟨final, k⟩ :: rest⟩ =
      (name, Listing.toText (first :: mid) ++ final) := by
  have hfind : (mid ++ ⟨final, k⟩ :: rest).findIdx?
      (fun l => Marker.ofLine l.content == .size name) = some mid.length := by
    rw [List.findIdx?_append, List.findIdx?_eq_none_iff.mpr (by simpa using hmid)]
    simp [List.findIdx?_cons, hfinal]
  have hlines : Chapter.lines ⟨name, first, mid ++ ⟨final, k⟩ :: rest⟩ =
      (first :: mid) ++ [⟨final, k⟩] := by
    simp [Chapter.lines, Chapter.extent, Chapter.extentIn, hfind, List.take_append,
      List.take_of_length_le]
  rw [Chapter.entry, hlines, Listing.excerpt_append_singleton]

namespace Layout

/-- The catalog lists the routines of the layout. -/
theorem entries_eq (h : Layout t rs) : (Listing.ofText t).entries = rs := by
  rw [Listing.entries_eq]
  induction h with
  | gap h =>
    rw [← List.append_nil (Listing.ofText _), Chapter.cut_append fun l hl => h.of_mem hl]
    rfl
  | @routine a code b name rs hd ha hc hb _ ih =>
    obtain ⟨before, first, mid, final, k, behind, hbefore, hbehind, hcode, hall, hfirst, hfinal,
      hmid⟩ := hc.exists_ofText_eq ha hb
    have hno : ∀ l ∈ before, ∀ f, Marker.ofLine l.content ≠ .start f :=
      fun l hl => hd.of_mem (by simp [hbefore, hl])
    have hsize : ∀ f, Marker.ofLine final ≠ .start f := by simp [hfinal]
    have hplain : ∀ f, Marker.ofLine (⟨[], k⟩ : Line).content ≠ .start f := by
      simp [Marker.ofLine_nil]
    rw [hbehind, Chapter.cut_cons_of_not_start hplain] at ih
    rw [hall, Chapter.cut_append hno, List.cons_append, Chapter.cut_cons_of_start hfirst,
      Chapter.cut_append fun l hl => (hmid l hl).1, Chapter.cut_cons_of_not_start hsize]
    simp only [List.map_cons, ih, Chapter.entry_of_closed hfinal fun l hl => (hmid l hl).2, hcode]

theorem prepend_gap (h : Layout t rs) (hu : u.DeclaresNothing) (he : u.EndsAtBreak)
    (ht : t.BeginsAtBreak) : Layout (u ++ t) rs := by
  cases h with
  | gap h =>
    apply gap
    intro c hc
    rw [Text.solidLines_append_of_beginsAtBreak ht, List.mem_append] at hc
    exact hc.elim (hu c) (h c)
  | @routine a code b name rs hd ha hc hb h =>
    rw [← List.append_assoc]
    refine routine ?_ ?_ hc hb h
    · intro c hc
      rw [Text.solidLines_append_of_endsAtBreak he, List.mem_append] at hc
      exact hc.elim (hu c) (hd c)
    · by_cases hnil : a = []
      · simpa [hnil] using he
      · exact (Text.endsAtBreak_append_iff hnil u).mpr ha

/-- A routine of the text stands between two texts that are laid out themselves, and so is what is
left when it is cut out. -/
theorem exists_cut {xs ys : List (Text × Text)} (h : Layout t (xs ++ (name, code) :: ys)) :
    ∃ a b, t = a ++ (code ++ b) ∧ a.EndsAtBreak ∧ b.BeginsAtBreak ∧ IsClosed name code ∧
      Layout a xs ∧ Layout b ys ∧ Layout (a ++ b) (xs ++ ys) := by
  induction xs generalizing t with
  | nil =>
    cases h with
    | @routine a code b name rs hd ha hc hb h =>
      exact ⟨a, b, rfl, ha, hb, hc, .gap hd, h, h.prepend_gap hd ha hb⟩
  | cons x xs ih =>
    cases h with
    | @routine a' code' b' name' rs hd' ha' hc' hb' h =>
      obtain ⟨a, b, rfl, ha, hb, hc, hla, hlb, hlab⟩ := ih h
      -- the gap behind the first routine is not empty, as the next one begins within a line
      have hne : a ≠ [] := by
        rintro rfl
        obtain ⟨x, hx, hxb⟩ := hc.head
        have := hb' x (by simp [List.head?_append, hx])
        simp [hxb] at this
      have hbegin : a.BeginsAtBreak := by
        intro x hx
        apply hb' x
        rw [List.head?_append, Option.mem_def.mp hx]
        rfl
      have hbegin' : (a ++ b).BeginsAtBreak := by
        intro x hx
        apply hbegin x
        obtain ⟨y, w, rfl⟩ := List.exists_cons_of_ne_nil hne
        exact hx
      refine ⟨a' ++ (code' ++ a), b, by simp, ?_, hb, hc, .routine hd' ha' hc' hbegin hla, hlb, ?_⟩
      · rw [← List.append_assoc]
        exact (Text.endsAtBreak_append_iff hne _).mpr ha
      · have hcut := Layout.routine hd' ha' hc' hbegin' hlab
        simpa using hcut

/-- Whatever the text declares is a routine of the layout. -/
theorem mem_of_start (h : Layout t rs) {c f : Text} (hc : c ∈ t.solidLines)
    (hf : Marker.ofLine c = .start f) : f ∈ rs.map Prod.fst := by
  induction h with
  | gap h => exact (h c hc f hf).elim
  | @routine a code b name rs hd ha hcl hb _ ih =>
    rw [Text.solidLines_append_of_endsAtBreak ha, Text.solidLines_append_of_beginsAtBreak hb,
      List.mem_append, List.mem_append] at hc
    rcases hc with hc | hc | hc
    · exact (hd c hc f hf).elim
    · obtain ⟨first, inner, final, hlines, hfirst, hfinal, hinner⟩ := hcl.lines
      rw [hlines, List.mem_cons, List.mem_append, List.mem_singleton] at hc
      rcases hc with rfl | hc | rfl
      · obtain rfl : name = f := by simpa [hfirst] using hf
        simp
      · exact ((hinner c hc).1 f hf).elim
      · simp [hfinal] at hf
    · exact List.mem_cons_of_mem _ (ih hc)

end Layout

theorem Text.DeclaresNothing.collapse (h : t.DeclaresNothing) : t.collapse.DeclaresNothing := by
  rw [Text.DeclaresNothing, Text.solidLines_collapse]
  exact h

theorem IsClosed.collapse (h : IsClosed name code) : IsClosed name code.collapse := by
  refine ⟨h.toIsFramed.collapse, ?_⟩
  rw [Text.solidLines_collapse]
  exact h.lines

/-- When runs of line breaks collapse, every routine collapses for itself. -/
theorem Layout.collapse (h : Layout t rs) :
    Layout t.collapse (rs.map fun r => (r.1, r.2.collapse)) := by
  induction h with
  | gap h => exact .gap h.collapse
  | @routine a code b name rs hd ha hc hb _ ih =>
    rw [Text.collapse_frame hc.toIsFramed]
    exact .routine hd.collapse ha.collapse hc.collapse hb.collapse ih

/-- The block of the lines between two parts of a listing. -/
theorem Listing.block_of_lines (before inside behind : Listing) (final : Line) :
    Listing.block (before ++ (inside ++ final :: behind)) before.length
      (before.length + inside.length) = Listing.toText inside ++ final.content := by
  have hlen : before.length + inside.length <
      (before ++ (inside ++ final :: behind)).length := by simp
  rw [Listing.block_eq (Nat.le_add_right _ _) hlen]
  simp [List.take_append, List.getElem_append_right]

/-- A line of a text that is not empty stands in one of the two parts of its listing that an empty
line joins. -/
theorem Text.exists_mem_of_solidLines {c : Text} {k : Ending} (hc : c ∈ t.solidLines)
    (h : Listing.ofText t = ls ++ ⟨[], k⟩ :: ms) : ∃ l ∈ ls ++ ms, l.content = c := by
  rw [Text.solidLines_eq, List.mem_filter, Listing.contents, List.mem_map] at hc
  obtain ⟨⟨l, hl, rfl⟩, hne⟩ := hc
  refine ⟨l, ?_, rfl⟩
  rw [h, List.mem_append, List.mem_cons] at hl
  rcases hl with hl | rfl | hl
  · exact List.mem_append_left _ hl
  · simp at hne
  · exact List.mem_append_right _ hl

/-- A closed routine that is not declared before is found where it stands. All other lines of the
text that are not empty are outside of its range. -/
theorem IsClosed.exists_span? (ha : a.EndsAtBreak) (hc : IsClosed name code)
    (hb : b.BeginsAtBreak) (hno : ∀ c ∈ a.solidLines, Marker.ofLine c ≠ .start name) :
    ∃ s e, (Listing.ofText (a ++ (code ++ b))).span? name = some ⟨s, e⟩ ∧
      (Listing.ofText (a ++ (code ++ b))).block s e = code ∧
      ∀ c ∈ (a ++ b).solidLines, ∃ i, (i < s ∨ e < i) ∧
        (Listing.ofText (a ++ (code ++ b))).markers[i]? = some (Marker.ofLine c) := by
  obtain ⟨before, first, mid, final, k, behind, hbefore, hbehind, hcode, hall, hfirst, hfinal,
    hmid⟩ := hc.exists_ofText_eq ha hb
  have hlead : ∀ l ∈ before, Marker.ofLine l.content ≠ .start name := by
    intro l hl hf
    have hmem : l ∈ Listing.ofText a := by simp [hbefore, hl]
    exact hno l.content (Text.mem_solidLines hmem (by simp [hf])) hf
  have hend : before.length + 1 + mid.length = before.length + (first :: mid).length := by
    rw [List.length_cons]
    omega
  refine ⟨before.length, before.length + 1 + mid.length, ?_, ?_, ?_⟩
  · rw [hall]
    exact Listing.span?_of_lines hlead hfirst hfinal hmid
  · rw [hall, hend, Listing.block_of_lines, hcode]
  · intro c hcs
    rw [Text.solidLines_append_of_endsAtBreak ha, List.mem_append] at hcs
    simp only [hall, Listing.markers, List.getElem?_map]
    rcases hcs with hcs | hcs
    · obtain ⟨l, hl, rfl⟩ := Text.exists_mem_of_solidLines hcs hbefore
      obtain ⟨i, hi⟩ := List.mem_iff_getElem?.mp (by simpa using hl)
      have hlt := (List.getElem?_eq_some_iff.mp hi).1
      refine ⟨i, Or.inl hlt, ?_⟩
      rw [List.getElem?_append_left hlt, hi]
      rfl
    · have hbehind' : Listing.ofText b = [] ++ ⟨[], k⟩ :: behind := hbehind
      obtain ⟨l, hl, rfl⟩ := Text.exists_mem_of_solidLines hcs hbehind'
      obtain ⟨i, hi⟩ := List.mem_iff_getElem?.mp hl
      refine ⟨before.length + 1 + mid.length + 1 + i, Or.inr (by omega), ?_⟩
      have hat : (before ++ (first :: mid ++ ⟨final, k⟩ :: behind))[
          before.length + 1 + mid.length + 1 + i]? = behind[i]? := by
        have hsplit : before ++ (first :: mid ++ ⟨final, k⟩ :: behind) =
            (before ++ (first :: mid ++ [⟨final, k⟩])) ++ behind := by simp
        rw [hsplit, List.getElem?_append_right (by simp; omega)]
        congr 1
        simp
        omega
      rw [hat, ← List.nil_append behind, hi]
      rfl

theorem declaresNothing_toText (h : before.IsSplit)
    (hno : ∀ l ∈ before, ∀ f, Marker.ofLine l.content ≠ .start f) :
    (Listing.toText before).DeclaresNothing := by
  intro c hc
  rw [Text.solidLines_toText h, List.mem_filter, Listing.contents, List.mem_map] at hc
  obtain ⟨⟨l, hl, rfl⟩, _⟩ := hc
  exact hno l hl

/-- The lines from a declaration up to the first size of what it declares. -/
theorem isClosed_of_lines (hsplit : Listing.IsSplit (first :: mid ++ [⟨final, k⟩]))
    (hfirst : Marker.ofLine first.content = .start name) (hfinal : Marker.ofLine final = .size name)
    (hmid : ∀ l ∈ mid, (∀ f, Marker.ofLine l.content ≠ .start f) ∧
      Marker.ofLine l.content ≠ .size name) :
    IsClosed name (Listing.toText (first :: mid) ++ final) := by
  have hfirst0 : first.content ≠ [] := by
    intro hnil
    simp [hnil, Marker.ofLine_nil] at hfirst
  have hfinal0 : final ≠ [] := by
    rintro rfl
    simp [Marker.ofLine_nil] at hfinal
  obtain ⟨x, u, hx⟩ := List.exists_cons_of_ne_nil hfirst0
  obtain ⟨v, y, rfl⟩ := (List.eq_nil_or_concat final).resolve_left hfinal0
  refine ⟨⟨⟨x, by simp [hx], hsplit.solid first (by simp) x (by simp [hx])⟩,
    ⟨y, by simp, hsplit.solid ⟨v.concat y, k⟩ (by simp) y (by simp)⟩⟩, ?_⟩
  refine ⟨first.content, mid.contents.filter fun l => !l.isEmpty, v.concat y, ?_, hfirst, hfinal,
    ?_⟩
  · have hends : (Listing.toText (first :: mid)).EndsAtBreak :=
      Listing.endsAtBreak_toText (hsplit.ended_left (by simp))
    have hlast : ∀ c ∈ v.concat y, isBreak c = false := hsplit.solid ⟨v.concat y, k⟩ (by simp)
    rw [Text.solidLines_append_of_endsAtBreak hends, Text.solidLines_toText hsplit.left,
      Text.solidLines_of_not_isBreak hfinal0 hlast]
    simp [Listing.contents, hfirst0]
  · intro c hc
    rw [List.mem_filter, Listing.contents, List.mem_map] at hc
    obtain ⟨⟨l, hl, rfl⟩, _⟩ := hc
    exact hmid l hl

/-- The first line of a closed routine, and what follows it. -/
theorem IsClosed.exists_first_line (hc : IsClosed name code) :
    ∃ piece rest, code = piece ++ rest ∧ piece ≠ [] ∧ (∀ x ∈ piece, isBreak x = false) ∧
      rest.BeginsAtBreak ∧ rest ≠ [] ∧ Marker.ofLine piece = .start name := by
  obtain ⟨inside, final, hcode, hended⟩ := Listing.exists_ofText_eq code
  obtain ⟨first, mid, rfl, hfirst, hfinal, _⟩ := hc.exists_lines hcode
  have hend : first.ending ≠ .none := hended first (by simp)
  refine ⟨first.content, first.ending.toText ++ (Listing.toText mid ++ final), ?_, ?_, ?_,
    Ending.beginsAtBreak hend _, ?_, hfirst⟩
  · rw [← Listing.toText_ofText code, hcode, Listing.toText_append]
    simp [Ending.toText]
  · intro hnil
    simp [hnil, Marker.ofLine_nil] at hfirst
  · exact Listing.not_isBreak_of_mem (by rw [hcode]; simp)
  · intro hnil
    have hfinal0 : final = [] := by simp_all
    simp [hfinal0, Marker.ofLine_nil] at hfinal

/-- A layout declares each routine that it lists. -/
theorem Layout.exists_start (h : Layout t rs) (hr : name ∈ rs.map Prod.fst) :
    ∃ c ∈ t.solidLines, Marker.ofLine c = .start name := by
  obtain ⟨⟨name, code⟩, hmem, rfl⟩ := List.mem_map.mp hr
  obtain ⟨xs, ys, rfl⟩ := List.append_of_mem hmem
  obtain ⟨a, b, rfl, ha, hb, hc, _⟩ := h.exists_cut
  obtain ⟨first, inner, final, hlines, hfirst, _⟩ := hc.lines
  refine ⟨first, ?_, hfirst⟩
  rw [Text.solidLines_append_of_endsAtBreak ha, Text.solidLines_append_of_beginsAtBreak hb, hlines]
  simp

/-- The text of a routine is the one that the layout lists first under its name. -/
theorem Layout.extract?_of_lookup (h : Layout t rs) (hl : rs.lookup name = some code) :
    (Listing.ofText t).extract? name = some code := by
  obtain ⟨xs, ys, rfl, hno⟩ := List.lookup_eq_some_iff.mp hl
  obtain ⟨a, b, rfl, ha, hb, hc, hla, _, _⟩ := h.exists_cut
  have hdecl : ∀ c ∈ a.solidLines, Marker.ofLine c ≠ .start name := by
    intro c hcs hstart
    obtain ⟨x, hx, hname⟩ := List.mem_map.mp (hla.mem_of_start hcs hstart)
    simpa [hname] using hno x hx
  obtain ⟨s, e, hspan, hblock, _⟩ := hc.exists_span? ha hb hdecl
  rw [Listing.extract?_eq, hspan, Option.map_some, hblock]

/-- What a layout does not list is not found, unless a line has it as a label. -/
theorem Layout.span?_eq_none (h : Layout t rs) (hno : name ∉ rs.map Prod.fst)
    (hlabel : ∀ c ∈ t.solidLines, Marker.ofLine c ≠ .label name) :
    (Listing.ofText t).span? name = none := by
  rw [Listing.span?_eq_none_iff]
  refine Or.inl fun s hs => ?_
  obtain ⟨m, hm, hopens⟩ : ∃ m, (Listing.ofText t).markers[s]? = some m ∧
      (m = .start name ∨ m = .label name) := by
    rcases hs with hs | ⟨_, hs⟩
    · obtain ⟨m, hm, heq⟩ := hs.holds
      exact ⟨m, hm, Or.inl heq⟩
    · obtain ⟨m, hm, heq⟩ := hs.holds
      exact ⟨m, hm, Or.inr heq⟩
  obtain ⟨l, hl, rfl⟩ := List.mem_map.mp (List.mem_of_getElem? hm)
  have hsolid : l.content ∈ t.solidLines := by
    apply Text.mem_solidLines hl
    obtain hopens | hopens := hopens <;> simp [hopens]
  rcases hopens with hopens | hopens
  · exact hno (h.mem_of_start hsolid hopens)
  · exact hlabel l.content hsolid hopens

end AsmListing
