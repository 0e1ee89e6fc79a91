import AsmListing.Proofs.Layout

/-! The catalog as a partition. The declarations of a listing cut it into chapters; each chapter has
one routine, which runs from the declaration to its own size or else to the end of the chapter. -/
namespace AsmListing

variable {ls ms before behind : Listing} {l : Line} {ch : Chapter} {chs : List Chapter}
  {r : Routine} {name : Text} {start i j : Nat}

/-- The name that a marker declares. -/
def Marker.declared? : Marker → Option Text
  | .start n => some n
  | _ => none

/-- No line declares a routine. -/
def Listing.IsQuiet (ls : Listing) : Prop := ∀ l ∈ ls, ∀ f, Marker.ofLine l.content ≠ .start f

/-- The lines with a declaration, counted from `start`, each with the name that it declares. -/
def Listing.declarationsFrom (start : Nat) (ls : Listing) : List (Nat × Text) :=
  (ls.markers.zipIdx start).filterMap fun m => m.1.declared?.map fun f => (m.2, f)

/-- The lines with a declaration, each with the name that it declares. -/
def Listing.declarations (ls : Listing) : List (Nat × Text) := ls.declarationsFrom 0

/-- The line of the declaration behind the `j`-th one, or the number of lines where there is
none. -/
def Listing.stopLine (ls : Listing) (j : Nat) : Nat :=
  ((ls.declarations[j + 1]?).map Prod.fst).getD ls.length

/-- The routine `name` that is declared on line `s` runs to line `e`, when the next declaration
stands on line `stop`: to its first size before that line or, without one, up to that line. -/
inductive RunsTo (ms : List Marker) (name : Text) (s stop : Nat) : Nat → Prop
  | ownSize {e : Nat} (h : IsFirst (· = .size name) ms (s + 1) e) (hlt : e < stop) :
    RunsTo ms name s stop e
  | toStop (h : ∀ e, IsFirst (· = .size name) ms (s + 1) e → stop ≤ e) :
    RunsTo ms name s stop (stop - 1)

namespace Listing

@[simp] theorem markers_append (ls ms : Listing) :
    (ls ++ ms).markers = ls.markers ++ ms.markers := by
  simp [markers]

@[simp] theorem markers_cons (l : Line) (ls : Listing) :
    markers (l :: ls) = Marker.ofLine l.content :: markers ls := rfl

theorem declarationsFrom_append (start : Nat) (ls ms : Listing) :
    declarationsFrom start (ls ++ ms) =
      declarationsFrom start ls ++ declarationsFrom (start + ls.length) ms := by
  simp [declarationsFrom, List.zipIdx_append]

theorem declarationsFrom_cons_start (h : Marker.ofLine l.content = .start name) (ls : Listing) :
    declarationsFrom start (l :: ls) = (start, name) :: declarationsFrom (start + 1) ls := by
  simp [declarationsFrom, h, Marker.declared?]

theorem IsQuiet.declared? (h : ls.IsQuiet) (hl : l ∈ ls) :
    (Marker.ofLine l.content).declared? = none := by
  cases hm : Marker.ofLine l.content with
  | start f => exact (h l hl f hm).elim
  | _ => rfl

theorem IsQuiet.declarationsFrom (h : ls.IsQuiet) : ls.declarationsFrom start = [] := by
  rw [Listing.declarationsFrom, List.filterMap_eq_nil_iff]
  intro m hm
  obtain ⟨l, hl, heq⟩ := List.mem_map.mp (List.fst_mem_of_mem_zipIdx hm)
  simp [← heq, h.declared? hl]

end Listing

namespace Chapter

/-- The first line of the chapter declares its routine, and no other line of it declares one. -/
structure IsProper (ch : Chapter) : Prop where
  head : Marker.ofLine ch.head.content = .start ch.name
  body : Listing.IsQuiet ch.body

/-- The lines of the chapter. -/
def toListing (ch : Chapter) : Listing := ch.head :: ch.body

/-- The chapter stands in the listing between `before` and `behind`, up to the next declaration. -/
structure Stands (ch : Chapter) (ls before behind : Listing) : Prop where
  proper : ch.IsProper
  eq : ls = before ++ (ch.toListing ++ behind)
  next : ∀ l ∈ behind.head?, ∃ f, Marker.ofLine l.content = .start f

/-- Cutting a listing at its declarations loses no line: first come lines that declare nothing, then
the chapters. -/
theorem cut_spec (ls : Listing) :
    ls = (cut ls).1 ++ (cut ls).2.flatMap toListing ∧ Listing.IsQuiet (cut ls).1 ∧
      ∀ ch ∈ (cut ls).2, ch.IsProper := by
  induction ls with
  | nil => simp [cut, Listing.IsQuiet]
  | cons l ls ih =>
    obtain ⟨heq, hquiet, hproper⟩ := ih
    by_cases hs : ∃ f, Marker.ofLine l.content = .start f
    · obtain ⟨f, hf⟩ := hs
      rw [cut_cons_of_start hf]
      refine ⟨?_, by simp [Listing.IsQuiet], List.forall_mem_cons.mpr ⟨⟨hf, hquiet⟩, hproper⟩⟩
      simpa [toListing] using heq
    · rw [not_exists] at hs
      rw [cut_cons_of_not_start hs]
      exact ⟨congrArg (l :: ·) heq, List.forall_mem_cons.mpr ⟨hs, hquiet⟩, hproper⟩

/-- The declarations of the chapters are those of their routines. -/
theorem declarationsFrom_flatMap (h : ∀ ch ∈ chs, ch.IsProper) :
    Listing.declarationsFrom start (chs.flatMap toListing) =
      (routines start chs).map fun r => (r.span.first, r.name) := by
  induction chs generalizing start with
  | nil => rfl
  | cons ch chs ih =>
    obtain ⟨hch, hchs⟩ := List.forall_mem_cons.mp h
    rw [List.flatMap_cons, toListing, List.cons_append,
      Listing.declarationsFrom_cons_start hch.head, Listing.declarationsFrom_append,
      hch.body.declarationsFrom, ih hchs]
    rfl

theorem head?_flatMap_toListing (h : ∀ ch ∈ chs, ch.IsProper) :
    ∀ l ∈ (chs.flatMap toListing).head?, ∃ f, Marker.ofLine l.content = .start f := by
  cases chs with
  | nil => simp
  | cons ch chs =>
    intro l hl
    obtain rfl : ch.head = l := by simpa [toListing] using hl
    exact ⟨ch.name, (h ch (by simp)).head⟩

/-- Each routine of consecutive chapters is that of a chapter in its place, which ends where the
next routine begins. -/
theorem stands_of_routines (h : ∀ ch ∈ chs, ch.IsProper)
    (hr : (routines before.length chs)[j]? = some r) :
    ∃ ch left right, Stands ch (before ++ chs.flatMap toListing) left right ∧
      r = ch.routine left.length ∧
      (((routines before.length chs)[j + 1]?).map (·.span.first)).getD
        (before ++ chs.flatMap toListing).length = left.length + ch.toListing.length := by
  induction chs generalizing before j with
  | nil => simp [routines] at hr
  | cons ch chs ih =>
    obtain ⟨hch, hchs⟩ := List.forall_mem_cons.mp h
    have hlen : before.length + 1 + ch.body.length = (before ++ ch.toListing).length := by
      simp [toListing]
      omega
    rw [routines, hlen] at hr ⊢
    cases j with
    | zero =>
      obtain rfl : ch.routine before.length = r := by simpa using hr
      refine ⟨ch, before, chs.flatMap toListing, ⟨hch, by simp, head?_flatMap_toListing hchs⟩, rfl,
        ?_⟩
      cases chs with
      | nil => simp [routines]
      | cons next chs => simp [routines, routine]
    | succ j =>
      rw [List.getElem?_cons_succ] at hr
      simpa using ih hchs hr

theorem extent_eq (ch : Chapter) : ch.extent =
    match (Listing.markers ch.body).findIdx? (· == .size ch.name) with
    | some k => k + 1
    | none => ch.body.length := by
  rw [extent, extentIn, Listing.markers, List.findIdx?_map]
  rfl

namespace Stands

variable (h : Stands ch ls before behind)
include h

theorem markers_eq : ls.markers =
    (before.markers ++ [.start ch.name]) ++ (Listing.markers ch.body ++ behind.markers) := by
  simp [h.eq, toListing, h.proper.head]

/-- The markers behind the declaration. -/
theorem drop_markers :
    ls.markers.drop (before.length + 1) = Listing.markers ch.body ++ behind.markers := by
  have hlen : before.length + 1 = (before.markers ++ [Marker.start ch.name]).length := by simp
  rw [h.markers_eq, hlen, List.drop_left]

/-- The routine of a chapter ends where its size is given first or, without one, where the chapter
ends. -/
theorem runsTo : RunsTo ls.markers ch.name before.length (before.length + ch.toListing.length)
    (before.length + ch.extent) := by
  have hfind := congrArg (List.findIdx? (· == .size ch.name)) h.drop_markers
  rw [List.findIdx?_append, Listing.length_markers] at hfind
  rw [extent_eq]
  cases hb : (Listing.markers ch.body).findIdx? (· == .size ch.name) with
  | some k =>
    have hlt := (List.findIdx?_eq_some_iff_getElem.mp hb).1
    rw [Listing.length_markers] at hlt
    rw [hb, Option.some_or, findIdx?_drop_eq_some_iff] at hfind
    refine .ownSize ?_ (by simp [toListing, hlt])
    have hend : before.length + 1 + k = before.length + (k + 1) := by omega
    rw [hend] at hfind
    simpa using hfind
  | none =>
    rw [hb, Option.none_or] at hfind
    have hstop : before.length + ch.body.length = before.length + ch.toListing.length - 1 := by
      simp [toListing]
    rw [hstop]
    refine .toStop fun e he => ?_
    obtain ⟨k, rfl⟩ := Nat.exists_eq_add_of_le he.start_le
    have hk : (ls.markers.drop (before.length + 1)).findIdx? (· == .size ch.name) = some k :=
      findIdx?_drop_eq_some_iff.mpr (by simpa using he)
    rw [hfind] at hk
    obtain ⟨i, _, rfl⟩ := Option.map_eq_some_iff.mp hk
    simp only [toListing, List.length_cons]
    omega

/-- The text of the routine is the block of its lines. -/
theorem block_eq : ls.block before.length (before.length + ch.extent) =
    Listing.excerpt ch.lines := by
  rw [Listing.block, drop_take_eq ch h.eq]

/-- No other declaration stands in the chapter. -/
theorem no_start {f : Text} (hi : before.length < i)
    (hlt : i < before.length + ch.toListing.length) : ls.markers[i]? ≠ some (.start f) := by
  intro hat
  rw [h.markers_eq] at hat
  simp only [toListing, List.length_cons] at hlt
  have hmem : .start f ∈ Listing.markers ch.body :=
    mem_of_getElem?_middle hat (by simp; omega) (by simp; omega)
  obtain ⟨l, hl, hf⟩ := List.mem_map.mp hmem
  exact h.proper.body l hl f hf

theorem length_le : before.length + ch.toListing.length ≤ ls.length := by
  simp [h.eq]

theorem last_lt : before.length + ch.extent < ls.length := by
  have hlen : before.length + (ch.body.length + 1) ≤ ls.length := h.length_le
  have hext := ch.extent_le
  omega

end Stands

theorem start_le_of_mem_routines (hr : r ∈ routines start chs) : start ≤ r.span.first := by
  induction chs generalizing start with
  | nil => simp [routines] at hr
  | cons ch chs ih =>
    rw [routines, List.mem_cons] at hr
    rcases hr with rfl | hr
    · exact Nat.le_refl start
    · have := ih hr
      omega

/-- The routines follow each other without overlap. -/
theorem pairwise_routines (start : Nat) (chs : List Chapter) :
    (routines start chs).Pairwise fun r r' => r.span.last < r'.span.first := by
  induction chs generalizing start with
  | nil => exact .nil
  | cons ch chs ih =>
    refine List.pairwise_cons.mpr ⟨?_, ih _⟩
    intro r hr
    have hstart := start_le_of_mem_routines hr
    have hext := ch.extent_le
    have hlast : (ch.routine start).span.last = start + ch.extent := rfl
    omega

end Chapter

namespace Listing

theorem map_snd_declarationsFrom (start : Nat) (ls : Listing) :
    (ls.declarationsFrom start).map Prod.snd = ls.markers.filterMap Marker.declared? := by
  induction ls generalizing start with
  | nil => rfl
  | cons l ls ih =>
    have hsnd := ih (start + 1)
    rw [declarationsFrom] at hsnd ⊢
    rw [markers_cons, List.zipIdx_cons, List.filterMap_cons, List.filterMap_cons]
    cases (Marker.ofLine l.content).declared? <;> simp [hsnd]

/-- Each declaration has its routine. -/
theorem map_routines_eq_declarations (ls : Listing) :
    ls.routines.map (fun r => (r.span.first, r.name)) = ls.declarations := by
  obtain ⟨heq, hquiet, hproper⟩ := Chapter.cut_spec ls
  have hdecl : ls.declarations =
      declarationsFrom 0 ((Chapter.cut ls).1 ++ (Chapter.cut ls).2.flatMap Chapter.toListing) :=
    congrArg (declarationsFrom 0) heq
  rw [hdecl, declarationsFrom_append, hquiet.declarationsFrom, List.nil_append, Nat.zero_add,
    Chapter.declarationsFrom_flatMap hproper, routines_eq]

/-- Each routine is that of a chapter, which ends where the next declaration stands. -/
theorem exists_stands (hr : ls.routines[j]? = some r) :
    ∃ ch before behind, Chapter.Stands ch ls before behind ∧ r = ch.routine before.length ∧
      ls.stopLine j = before.length + ch.toListing.length := by
  obtain ⟨heq, _, hproper⟩ := Chapter.cut_spec ls
  rw [routines_eq] at hr
  obtain ⟨ch, before, behind, hstands, hch, hstop⟩ := Chapter.stands_of_routines hproper hr
  rw [← heq] at hstands hstop
  refine ⟨ch, before, behind, hstands, hch, ?_⟩
  rw [stopLine, ← map_routines_eq_declarations, routines_eq, List.getElem?_map, Option.map_map]
  exact hstop

theorem routineNames_eq_declared (ls : Listing) :
    ls.routineNames = ls.markers.filterMap Marker.declared? := by
  rw [← map_snd_declarationsFrom 0, routineNames, ← declarations, ← map_routines_eq_declarations,
    List.map_map]
  rfl

theorem firstName?_eq (ls : Listing) : ls.firstName? = ls.routineNames.head? := by
  rw [routineNames_eq_declared, List.head?_filterMap]
  rfl

/-- The catalog is the partition of a text by its declarations. Each declaration has one routine, in
file order; it runs to its own size or else up to the next declaration, its text is what stands on
these lines, and no other declaration stands there. The routines do not overlap, and their names are
the declared ones. -/
theorem routines_partition (t : Text) :
    (ofText t).routines.map (fun r => (r.span.first, r.name)) = (ofText t).declarations ∧
    (∀ j r, (ofText t).routines[j]? = some r →
      RunsTo (ofText t).markers r.name r.span.first ((ofText t).stopLine j) r.span.last ∧
      r.span.first ≤ r.span.last ∧ r.span.last < (ofText t).length ∧
      (∀ i f, r.span.first < i → i ≤ r.span.last → (ofText t).markers[i]? ≠ some (.start f)) ∧
      r.code = (ofText t).block r.span.first r.span.last ∧
      t = (ofText t).textBefore r.span.first ++ (r.code ++ (ofText t).textBehind r.span.last)) ∧
    (ofText t).routines.Pairwise (fun r r' => r.span.last < r'.span.first) ∧
    (ofText t).routineNames = (ofText t).markers.filterMap Marker.declared? ∧
    (ofText t).firstName? = (ofText t).routineNames.head? := by
  refine ⟨map_routines_eq_declarations _, ?_, routines_eq _ ▸ Chapter.pairwise_routines _ _,
    routineNames_eq_declared _, firstName?_eq _⟩
  intro j r hr
  obtain ⟨ch, before, behind, hch, rfl, hstop⟩ := exists_stands hr
  have hext := ch.extent_le
  have hlen : before.length + (ch.body.length + 1) ≤ (ofText t).length := hch.length_le
  have hlast : before.length + ch.extent < (ofText t).length := by omega
  have hle : before.length ≤ before.length + ch.extent := Nat.le_add_right _ _
  refine ⟨hstop ▸ hch.runsTo, hle, hlast, ?_, hch.block_eq.symm, ?_⟩
  · intro i f hi hie
    refine hch.no_start hi ?_
    have hie : i ≤ before.length + ch.extent := hie
    simp only [Chapter.toListing, List.length_cons]
    omega
  · have htext := text_eq_block hle hlast
    rwa [hch.block_eq] at htext

end Listing

end AsmListing
