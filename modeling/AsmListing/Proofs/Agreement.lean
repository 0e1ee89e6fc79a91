import AsmListing.Proofs.Partition
import AsmListing.Listing.Reference
import Mathlib.Data.List.Basic

/-! The search for a routine beside the catalog. Where the name is declared, what the search finds
are the first lines of the routine that the catalog lists first under this name. -/
namespace AsmListing

variable {ls before behind : Listing} {ch : Chapter} {r r' : Routine} {ms : List Marker}
  {t u name x f : Text} {i n s e stop : Nat}

/-- The lines behind line `s` up to the next declaration end before line `stop`. -/
def StopsAt (ms : List Marker) (s stop : Nat) : Prop :=
  NextStart ms s stop ∨ (stop = ms.length ∧ ∀ n, ¬ NextStart ms s n)

/-- A routine runs to its own size, or it has none and runs up to the next declaration. -/
theorem RunsTo.ownSize_or (h : RunsTo ms name s stop e) (hstop : StopsAt ms s stop) :
    OwnSize ms name s e ∨ (e = stop - 1 ∧ ∀ k, ¬ OwnSize ms name s k) := by
  cases h with
  | ownSize h hlt =>
    refine Or.inl ⟨h, fun n hn => ?_⟩
    rcases hstop with hstop | ⟨_, hno⟩
    · rwa [hn.unique hstop]
    · exact (hno n hn).elim
  | toStop h =>
    refine Or.inr ⟨rfl, fun k hk => ?_⟩
    have hle := h k hk.1
    rcases hstop with hstop | ⟨rfl, _⟩
    · have := hk.2 stop hstop
      omega
    · have := hk.1.lt_length
      omega

theorem not_size_of_not_ownSize (hstop : StopsAt ms s stop) (hno : ∀ k, ¬ OwnSize ms name s k)
    (hs : s < i) (hi : i < stop) : ms[i]? ≠ some (.size name) := by
  intro hat
  obtain ⟨k, hk, hfirst⟩ := exists_isFirst (P := (· = .size name)) hs hat rfl
  refine hno k ⟨hfirst, fun n hn => ?_⟩
  rcases hstop with hstop | ⟨_, hnone⟩
  · rw [hn.unique hstop]
    omega
  · exact (hnone n hn).elim

namespace Chapter.Stands

variable (h : Chapter.Stands ch ls before behind)
include h

theorem stopsAt : StopsAt ls.markers before.length (before.length + ch.toListing.length) := by
  cases hb : behind with
  | nil =>
    have hlen : before.length + ch.toListing.length = ls.markers.length := by
      simp [h.eq, hb]
    refine Or.inr ⟨hlen, fun n hn => ?_⟩
    obtain ⟨m, hm, f, rfl⟩ := hn.holds
    exact h.no_start hn.start_le (hlen ▸ hn.lt_length) hm
  | cons l rest =>
    obtain ⟨f, hf⟩ := h.next l (by simp [hb])
    refine Or.inl ⟨by simp [toListing], ⟨.start f, ?_, f, rfl⟩, ?_⟩
    · simp [h.eq, hb, Listing.markers, hf]
    · rintro j m hj hlt hm ⟨g, rfl⟩
      exact h.no_start hj hlt hm

end Chapter.Stands

namespace Listing

theorem mem_declarations : (i, f) ∈ ls.declarations ↔ ls.markers[i]? = some (.start f) := by
  rw [declarations, declarationsFrom, List.mem_filterMap]
  constructor
  · rintro ⟨⟨m, k⟩, hm, heq⟩
    rw [List.mk_mem_zipIdx_iff_getElem?] at hm
    cases m with
    | start g =>
      simp only [Marker.declared?, Option.map_some, Option.some.injEq, Prod.mk.injEq] at heq
      obtain ⟨rfl, rfl⟩ := heq
      exact hm
    | _ => simp [Marker.declared?] at heq
  · intro hm
    exact ⟨(.start f, i), List.mk_mem_zipIdx_iff_getElem?.mpr hm, rfl⟩

/-- What is declared on a line is in the catalog. -/
theorem exists_routine_of_start (h : ls.markers[i]? = some (.start f)) :
    ∃ r ∈ ls.routines, r.span.first = i ∧ r.name = f := by
  rw [← mem_declarations, ← map_routines_eq_declarations, List.mem_map] at h
  obtain ⟨r, hr, heq⟩ := h
  exact ⟨r, hr, Prod.mk.inj heq⟩

theorem marker_of_mem_routines (hr : r ∈ ls.routines) :
    ls.markers[r.span.first]? = some (.start r.name) := by
  rw [← mem_declarations, ← map_routines_eq_declarations]
  exact List.mem_map_of_mem hr

/-- The lines of a routine are lines of the listing in order, and its text is their block. -/
theorem block_of_mem_routines (hr : r ∈ ls.routines) : r.span.first ≤ r.span.last ∧
    r.span.last < ls.length ∧ r.code = ls.block r.span.first r.span.last := by
  obtain ⟨j, hj⟩ := List.mem_iff_getElem?.mp hr
  obtain ⟨ch, before, behind, hch, rfl, _⟩ := exists_stands hj
  exact ⟨Nat.le_add_right _ _, hch.last_lt, hch.block_eq.symm⟩

theorem first_le_last_of_mem_routines (hr : r ∈ ls.routines) : r.span.first ≤ r.span.last :=
  (block_of_mem_routines hr).1

theorem pairwise_routines (ls : Listing) :
    ls.routines.Pairwise fun r r' => r.span.last < r'.span.first := by
  rw [routines_eq]
  exact Chapter.pairwise_routines ..

/-- The routine that the catalog lists first under a name is the one that the search takes. -/
theorem opens_of_find? (h : ls.routines.find? (·.name == name) = some r) :
    Opens ls.markers name r.span.first := by
  obtain ⟨hname, as, bs, heq, hno⟩ := List.find?_eq_some_iff_append.mp h
  obtain rfl : r.name = name := by simpa using hname
  have hr : r ∈ ls.routines := by simp [heq]
  refine Or.inl ⟨Nat.zero_le _, ⟨_, marker_of_mem_routines hr, rfl⟩, ?_⟩
  rintro i m _ hi hm rfl
  obtain ⟨r', hr', rfl, hname'⟩ := exists_routine_of_start hm
  have hpair := pairwise_routines ls
  rw [heq, List.mem_append, List.mem_cons] at hr'
  rw [heq, List.pairwise_append, List.pairwise_cons] at hpair
  rcases hr' with hr' | rfl | hr'
  · have := hno r' hr'
    simp [hname'] at this
  · exact Nat.lt_irrefl _ hi
  · have := hpair.2.1.1 r' hr'
    have := first_le_last_of_mem_routines hr
    omega

/-- Nothing is declared behind the last routine only. -/
theorem getLast?_routines_iff (hr : r ∈ ls.routines) :
    ls.routines.getLast? = some r ↔ ∀ n, ¬ NextStart ls.markers r.span.first n := by
  have hle := first_le_last_of_mem_routines hr
  constructor
  · intro hlast n hn
    obtain ⟨m, hm, f, rfl⟩ := hn.holds
    obtain ⟨r', hr', rfl, _⟩ := exists_routine_of_start hm
    obtain ⟨front, heq⟩ := List.getLast?_eq_some_iff.mp hlast
    have hpair := pairwise_routines ls
    rw [heq, List.pairwise_append] at hpair
    rw [heq, List.mem_append, List.mem_singleton] at hr'
    have hstart := hn.start_le
    rcases hr' with hr' | rfl
    · have := hpair.2.2 r' hr' r (by simp)
      have := first_le_last_of_mem_routines (heq ▸ List.mem_append_left [r] hr' : r' ∈ ls.routines)
      omega
    · omega
  · intro hno
    obtain ⟨front, final, heq⟩ :=
      (List.eq_nil_or_concat ls.routines).resolve_left (List.ne_nil_of_mem hr)
    rw [List.concat_eq_append] at heq
    have hpair := pairwise_routines ls
    rw [heq, List.pairwise_append] at hpair
    rw [heq, List.mem_append, List.mem_singleton] at hr
    rcases hr with hr | rfl
    · have hlt := hpair.2.2 r hr final (by simp)
      have hstart := marker_of_mem_routines (show final ∈ ls.routines by simp [heq])
      obtain ⟨n, _, hn⟩ := exists_isFirst (P := (∃ f, · = .start f))
        (show r.span.first + 1 ≤ final.span.first by omega) hstart ⟨_, rfl⟩
      exact (hno n hn).elim
    · rw [heq, List.getLast?_concat]

/-- Where the next routine is declared before the size is given, the search ends before it. -/
theorem exists_span?_of_nextStart (ho : Opens ls.markers name s) (hn : NextStart ls.markers s n)
    (hno : ∀ k, ¬ OwnSize ls.markers name s k) :
    ∃ e, ls.span? name = some ⟨s, e⟩ ∧ e < n := by
  cases hsp : ls.span? name with
  | none =>
    obtain ⟨m, hm, f, rfl⟩ := hn.holds
    rcases span?_eq_none_iff.mp hsp with hopens | ⟨a, ha, hun⟩
    · exact (hopens s ho).elim
    · obtain rfl := ho.unique ha
      exact ((hun n _ hn.start_le hm).2 f rfl).elim
  | some found =>
    obtain ⟨a, e⟩ := found
    obtain ⟨ha, he⟩ := span?_eq_some_iff.mp hsp
    obtain rfl := ho.unique ha
    refine ⟨e, rfl, ?_⟩
    cases he with
    | ownSize he => exact (hno e he).elim
    | lastEnd hn' _ he => exact hn.unique hn' ▸ he.lt_stop
    | beforeNext hn' _ _ =>
      rw [hn.unique hn']
      have := hn'.start_le
      omega

/-- The search for the routine that the catalog lists first under a name: it ends with the size of
the routine, before the next declaration, or not at all where there is none. -/
theorem span?_of_find? (h : ls.routines.find? (·.name == name) = some r) :
    (OwnSize ls.markers name r.span.first r.span.last ∧ ls.span? name = some r.span) ∨
    ((∀ i, r.span.first < i → i ≤ r.span.last → ls.markers[i]? ≠ some (.size name)) ∧
      ((ls.routines.getLast? ≠ some r ∧
          ∃ e, ls.span? name = some ⟨r.span.first, e⟩ ∧ e ≤ r.span.last) ∨
        (ls.routines.getLast? = some r ∧ ls.span? name = none))) := by
  have hopens := opens_of_find? h
  have hr : r ∈ ls.routines := List.mem_of_find?_eq_some h
  have hlast := getLast?_routines_iff hr
  have hname : r.name = name := by simpa using List.find?_some h
  obtain ⟨j, hj⟩ := List.mem_iff_getElem?.mp hr
  obtain ⟨ch, before, behind, hch, heq, _⟩ := exists_stands hj
  have hruns : RunsTo ls.markers name r.span.first (before.length + ch.toListing.length)
      r.span.last := by
    rw [← hname, heq]
    exact hch.runsTo
  have hstop : StopsAt ls.markers r.span.first (before.length + ch.toListing.length) := by
    rw [heq]
    exact hch.stopsAt
  rcases hruns.ownSize_or hstop with hown | ⟨hend, hno⟩
  · exact Or.inl ⟨hown, span?_eq_some_iff.mpr ⟨hopens, .ownSize hown⟩⟩
  · refine Or.inr ⟨fun i hi hie => ?_, ?_⟩
    · refine not_size_of_not_ownSize hstop hno hi ?_
      have := first_le_last_of_mem_routines hr
      omega
    · rcases hstop with hnext | ⟨hlen, hnone⟩
      · obtain ⟨e, hspan, he⟩ := exists_span?_of_nextStart hopens hnext hno
        exact Or.inl ⟨fun hl => hlast.mp hl _ hnext, e, hspan, by omega⟩
      · refine Or.inr ⟨hlast.mpr hnone, span?_eq_none_iff.mpr (Or.inr ⟨_, hopens, ?_⟩)⟩
        intro i m hi hm
        constructor
        · rintro rfl
          have hlt := (List.getElem?_eq_some_iff.mp hm).1
          exact not_size_of_not_ownSize (Or.inr ⟨hlen, hnone⟩) hno hi (hlen ▸ hlt) hm
        · rintro f rfl
          obtain ⟨n, _, hn⟩ := exists_isFirst (P := (∃ f, · = .start f)) hi hm ⟨f, rfl⟩
          exact hnone n hn

end Listing

/-! References of texts. -/

theorem Text.mem_sortUnique {names : List Text} : x ∈ Text.sortUnique names ↔ x ∈ names := by
  rw [Text.sortUnique, Text.sort, List.mem_mergeSort, List.mem_eraseDups]

theorem Reference.ofLine_nil : Reference.ofLine [] = [] := by decide

/-- The references of a text are those of its lines that are not empty. -/
theorem Text.mem_references : x ∈ t.references ↔ ∃ c ∈ t.solidLines, x ∈ Reference.ofLine c := by
  rw [Text.references, Listing.references, Text.mem_sortUnique, List.mem_flatMap,
    Text.solidLines_eq]
  constructor
  · rintro ⟨l, hl, hx⟩
    refine ⟨l.content, ?_, hx⟩
    rw [List.mem_filter]
    refine ⟨List.mem_map_of_mem hl, ?_⟩
    cases hc : l.content with
    | nil => simp [hc, Reference.ofLine_nil] at hx
    | cons => rfl
  · rintro ⟨c, hc, hx⟩
    obtain ⟨l, hl, rfl⟩ := List.mem_map.mp (List.mem_of_mem_filter hc)
    exact ⟨l, hl, hx⟩

theorem Text.references_subset_append (hu : u.BeginsAtBreak) :
    t.references ⊆ Text.references (t ++ u) := by
  intro x hx
  obtain ⟨c, hc, hxc⟩ := Text.mem_references.mp hx
  refine Text.mem_references.mpr ⟨c, ?_, hxc⟩
  rw [Text.solidLines_append_of_beginsAtBreak hu]
  exact List.mem_append_left _ hc

namespace Listing

theorem lookup_routineReferences (hr : r ∈ ls.routines) :
    ls.routineReferences.lookup r.name = some (referencesOf ls.routines r.name) := by
  apply List.lookup_graph
  rw [List.mem_eraseDups]
  exact List.mem_map_of_mem hr

theorem references_subset_referencesOf (hr : r ∈ ls.routines) :
    r.code.references ⊆ referencesOf ls.routines r.name := by
  intro x hx
  rw [referencesOf, Text.mem_sortUnique, List.mem_flatMap]
  exact ⟨r, by simpa using hr, hx⟩

theorem exists_find?_of_start (h : .start name ∈ ls.markers) :
    ∃ r, ls.routines.find? (·.name == name) = some r := by
  obtain ⟨i, hi⟩ := List.mem_iff_getElem?.mp h
  obtain ⟨r, hr, _, hname⟩ := exists_routine_of_start hi
  exact Option.isSome_iff_exists.mp (List.find?_isSome.mpr ⟨r, hr, by simpa using hname⟩)

/-- The text that the search hands out is a beginning of that of a routine which begins on the same
line and does not end earlier, and names no symbol that the routine does not refer to. -/
theorem exists_extract?_of_span? (hr : r ∈ (ofText t).routines)
    (hsp : (ofText t).span? name = some ⟨r.span.first, e⟩) (he : e ≤ r.span.last) :
    ∃ code, (ofText t).extract? name = some code ∧ code <+: r.code ∧
      code.references ⊆ r.code.references := by
  obtain ⟨_, hlast, hcode⟩ := block_of_mem_routines hr
  obtain ⟨rest, hrest, hbegin⟩ :=
    exists_block_eq_append (isSplit_ofText t) (le_of_span? hsp) he hlast
  rw [extract?_eq, hsp]
  refine ⟨_, rfl, ⟨rest, (hcode.trans hrest).symm⟩, ?_⟩
  rw [hcode, hrest]
  exact Text.references_subset_append hbegin

/-- The search for a declared name and the first routine that the catalog lists under it. Nothing is
found exactly where this routine is the last one and does not give its size. Otherwise the search
finds the routine from its first line on, up to its last line at most and up to that line where it
gives the size; its text is a beginning of that of the routine and names no other symbols. -/
theorem span?_agrees_with_catalog (t name : Text) (h : .start name ∈ (ofText t).markers) :
    ∃ r, (ofText t).routines.find? (·.name == name) = some r ∧
      ((ofText t).span? name = none ↔ (ofText t).routines.getLast? = some r ∧
        ∀ i, r.span.first < i → i ≤ r.span.last → (ofText t).markers[i]? ≠ some (.size name)) ∧
      ∀ s e, (ofText t).span? name = some ⟨s, e⟩ →
        s = r.span.first ∧ e ≤ r.span.last ∧
        ((ofText t).markers[r.span.last]? = some (.size name) → e = r.span.last) ∧
        ∃ code refs, (ofText t).extract? name = some code ∧ code <+: r.code ∧
          (ofText t).routineReferences.lookup name = some refs ∧ code.references ⊆ refs := by
  obtain ⟨r, hfind⟩ := exists_find?_of_start h
  have hr : r ∈ (ofText t).routines := List.mem_of_find?_eq_some hfind
  have hname : r.name = name := by simpa using List.find?_some hfind
  have extracted {e : Nat} (hsp : (ofText t).span? name = some ⟨r.span.first, e⟩)
      (he : e ≤ r.span.last) : ∃ code refs, (ofText t).extract? name = some code ∧
        code <+: r.code ∧ (ofText t).routineReferences.lookup name = some refs ∧
        code.references ⊆ refs := by
    obtain ⟨code, hcode, hprefix, hrefs⟩ := exists_extract?_of_span? hr hsp he
    have hlookup := lookup_routineReferences hr
    rw [hname] at hlookup
    have hall := references_subset_referencesOf hr
    rw [hname] at hall
    exact ⟨code, _, hcode, hprefix, hlookup, fun x hx => hall (hrefs hx)⟩
  refine ⟨r, hfind, ?_⟩
  rcases span?_of_find? hfind with ⟨hown, hsp⟩ | ⟨hno, ⟨hlast, e, hsp, he⟩ | ⟨hlast, hsp⟩⟩
  · -- the routine gives its own size, and both end there
    obtain ⟨m, hm, rfl⟩ := hown.1.holds
    constructor
    · simp only [hsp, reduceCtorEq, false_iff]
      rintro ⟨_, hno⟩
      exact hno r.span.last hown.1.start_le (Nat.le_refl _) hm
    · intro s e hse
      have heq : r.span = ⟨s, e⟩ := Option.some.inj (hsp.symm.trans hse)
      obtain ⟨rfl, rfl⟩ : r.span.first = s ∧ r.span.last = e := by simp [heq]
      exact ⟨rfl, Nat.le_refl _, fun _ => rfl, extracted hsp (Nat.le_refl _)⟩
  · constructor
    · simp [hsp, hlast]
    · intro s e' hse
      obtain ⟨rfl, rfl⟩ : r.span.first = s ∧ e = e' := by simpa using hsp.symm.trans hse
      refine ⟨rfl, he, fun hsize => ?_, extracted hsp he⟩
      rcases Nat.eq_or_lt_of_le (Nat.le_trans (le_of_span? hsp) he) with heq | hlt
      · have hstart := marker_of_mem_routines hr
        rw [heq, hsize] at hstart
        simp at hstart
      · exact (hno r.span.last hlt (Nat.le_refl _) hsize).elim
  · constructor
    · simp only [hsp, true_iff]
      exact ⟨hlast, hno⟩
    · simp [hsp]

/-- A routine without a size, whose last line stands behind the jump that the search stops at. -/
def delaySlot : Text := "glabel f\n  jal h\n  jr $ra\n  la $t0, =k\nglabel g\n"

/-- The search leaves out the last line of the routine, and the symbol that it names. -/
theorem span?_agrees_with_catalog_of_delay_slot :
    .start "f" ∈ (ofText delaySlot).markers ∧ (ofText delaySlot).span? "f" = some ⟨0, 2⟩ ∧
    ∃ r, (ofText delaySlot).routines.find? (·.name == "f".toList) = some r ∧
      r.span.first = 0 ∧ 2 ≤ r.span.last ∧
      ∃ code refs, (ofText delaySlot).extract? "f" = some code ∧ code <+: r.code ∧
        (ofText delaySlot).routineReferences.lookup "f".toList = some refs ∧
        code.references ⊆ refs := by
  have hstart : .start "f" ∈ (ofText delaySlot).markers := by decide +kernel
  have hspan : (ofText delaySlot).span? "f" = some ⟨0, 2⟩ := by decide +kernel
  obtain ⟨r, hr, _, hfound⟩ := span?_agrees_with_catalog delaySlot "f" hstart
  obtain ⟨hfirst, hlast, _, hcode⟩ := hfound 0 2 hspan
  exact ⟨hstart, hspan, r, hr, hfirst.symm, hlast, hcode⟩

end Listing

end AsmListing
