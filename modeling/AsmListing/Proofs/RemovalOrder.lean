import AsmListing.Proofs.Partition
import AsmListing.Proofs.RoundTrip
import AsmListing.Proofs.Stability
import AsmListing.Proofs.Strike

/-! Removal of several routines from a well-formed text, one after the other. Whatever has been
removed before, the lines of a routine stay together, so the order does not matter. -/
namespace AsmListing

variable {t content name other : Text} {names : List Text} {ls front mid back : Listing}
  {first final : Line}

/-- A line that reads as a declaration once the blanks at its ends are gone. -/
theorem declares_of_trim (h : content.trim = ("glabel " : Text) ++ name) (hne : name ≠ [])
    (hword : name.all isWord = true) : Declares content name :=
  ⟨[' '], h, by simp, List.all_eq_true.mp (by decide +kernel), hne, List.all_eq_true.mp hword⟩

theorem Marker.eq_start_of_declared? {m : Marker} (h : m.declared? = some name) :
    m = .start name := by
  cases m with
  | start f => exact congrArg Marker.start (Option.some.inj h)
  | _ => cases h

/-- The lines of a routine: its declaration, lines that declare nothing and do not give its size,
and its size. -/
structure IsRoutine (name : Text) (first : Line) (mid : Listing) (final : Line) : Prop where
  first : Marker.ofLine first.content = .start name
  final : Marker.ofLine final.content = .size name
  mid : ∀ l ∈ mid, (∀ f, Marker.ofLine l.content ≠ .start f) ∧
    Marker.ofLine l.content ≠ .size name

namespace IsRoutine

variable (hr : IsRoutine name first mid final) (hls : ls = front ++ (first :: mid ++ final :: back))
include hr hls

theorem markers_eq : ls.markers = (front.markers ++ [.start name]) ++
    ((Listing.markers mid ++ [.size name]) ++ Listing.markers back) := by
  simp [hls, hr.first, hr.final]

theorem marker_first : ls.markers[front.length]? = some (.start name) := by
  simp [hr.markers_eq hls]

/-- No routine is declared in the lines of another one. -/
theorem no_start {i : Nat} {f : Text} (hi : front.length < i)
    (hie : i ≤ front.length + (first :: mid).length) : ls.markers[i]? ≠ some (.start f) := by
  intro hat
  rw [hr.markers_eq hls] at hat
  rw [List.length_cons] at hie
  have hmem := mem_of_getElem?_middle hat (by simp; omega) (by simp; omega)
  rw [List.mem_append, List.mem_singleton] at hmem
  rcases hmem with hmem | hmem
  · obtain ⟨l, hl, hf⟩ := List.mem_map.mp hmem
    exact (hr.mid l hl).1 f hf
  · cases hmem

/-- The lines of two routines are apart. -/
theorem avoids {front' mid' back' : Listing} {first' final' : Line}
    (hr' : IsRoutine other first' mid' final')
    (hls' : ls = front' ++ (first' :: mid' ++ final' :: back')) (hne : other ≠ name) :
    Span.Avoids ⟨front'.length, front'.length + (first' :: mid').length⟩ front.length
      (front.length + (first :: mid).length) := by
  refine ⟨Nat.le_add_right _ _, ?_⟩
  have hat := hr.marker_first hls
  have hat' := hr'.marker_first hls'
  rcases Nat.lt_trichotomy front.length front'.length with hlt | heq | hlt
  · refine .inr (Nat.lt_of_not_le fun hle => hr.no_start hls hlt hle hat')
  · rw [heq, hat'] at hat
    exact (hne (by simpa using hat)).elim
  · refine .inl (Nat.lt_of_not_le fun hle => hr'.no_start hls' hlt hle hat)

/-- The text of a routine, with the texts around it. -/
theorem exists_isClosed (hsplit : ls.IsSplit) :
    ∃ a code b, ls.toText = a ++ (code ++ b) ∧
      Listing.toText (front ++ ⟨[], final.ending⟩ :: back) = a ++ b ∧
      a.EndsAtBreak ∧ IsClosed name code ∧ b.BeginsAtBreak := by
  subst hls
  refine ⟨front.toText, Listing.toText (first :: mid) ++ final.content,
    final.ending.toText ++ Listing.toText back, by simp, by simp, ?_, ?_, ?_⟩
  · exact Listing.endsAtBreak_toText (hsplit.ended_left (by simp))
  · have hshape : front ++ (first :: mid ++ final :: back) =
        front ++ ((first :: mid ++ [final]) ++ back) := by simp
    rw [hshape] at hsplit
    exact isClosed_of_lines (k := final.ending)
      (hsplit.of_suffix (List.suffix_append _ _)).left hr.first hr.final hr.mid
  · exact (hsplit.of_suffix ⟨front ++ first :: mid, by simp⟩).beginsAtBreak

end IsRoutine

namespace WellFormed

open Listing

/-- Each routine of a well-formed listing is found, from its declaration to its size. -/
theorem exists_isRoutine (h : WellFormed ls) (hname : name ∈ ls.routineNames) :
    ∃ front first mid final back, ls = front ++ (first :: mid ++ final :: back) ∧
      IsRoutine name first mid final ∧
      ls.span? name = some ⟨front.length, front.length + (first :: mid).length⟩ := by
  rw [routineNames_eq_declared, List.mem_filterMap] at hname
  obtain ⟨m, hm, hdeclared⟩ := hname
  obtain ⟨first, hfirst, rfl⟩ := List.mem_map.mp hm
  obtain ⟨front, after, rfl⟩ := List.append_of_mem hfirst
  have hstart := Marker.eq_start_of_declared? hdeclared
  obtain ⟨mid, final, back, rfl, hfinal, hmid⟩ := h.exists_size (List.suffix_append _ _) hstart
  refine ⟨front, first, mid, final, back, rfl, ⟨hstart, hfinal, hmid⟩, ?_⟩
  have hbefore : ∀ l ∈ front, Marker.ofLine l.content ≠ .start name := by
    intro l hl hagain
    have hdistinct := (List.pairwise_append.mp h.distinct).2.2 l hl first (by simp)
    exact hdistinct name (h.declares_of_start (by simp [hl]) hagain)
      (h.declares_of_start (by simp) hstart)
  have hlength : front.length + (first :: mid).length = front.length + 1 + mid.length := by
    rw [List.length_cons]
    omega
  rw [hlength]
  exact span?_of_lines hbefore hstart hfinal hmid

/-- Routines that are cut out leave the lines of each other one together. -/
theorem exists_withoutRoutines_eq (h : WellFormed ls) (hmem : ∀ f ∈ names, f ∈ ls.routineNames)
    (hname : name ∈ ls.routineNames) (hnew : name ∉ names) :
    ∃ front first mid final back, IsRoutine name first mid final ∧
      ls.withoutRoutines names = front ++ (first :: mid ++ final :: back) ∧
      ls.withoutRoutines (name :: names) = front ++ ⟨[], final.ending⟩ :: back := by
  obtain ⟨front, first, mid, final, back, hls, hr, hspan⟩ := h.exists_isRoutine hname
  have havoid : ∀ r ∈ names.filterMap ls.span?,
      r.Avoids front.length (front.length + (first :: mid).length) := by
    intro r hrm
    obtain ⟨other, hother, hfound⟩ := List.mem_filterMap.mp hrm
    obtain ⟨front', first', mid', final', back', hls', hr', hspan'⟩ :=
      h.exists_isRoutine (hmem other hother)
    obtain rfl := Option.some.inj (hspan'.symm.trans hfound)
    refine hr.avoids hls hr' hls' ?_
    rintro rfl
    exact hnew hother
  obtain ⟨hkept, hcut⟩ := without_of_lines front (first :: mid) back final havoid
  rw [← hls] at hkept hcut
  rw [withoutRoutines, withoutRoutines, List.filterMap_cons_some hspan]
  exact ⟨_, first, mid, final, _, hr, hkept, hcut⟩

/-- A listing stays well-formed when routines are cut out. -/
theorem withoutRoutines (h : WellFormed ls) (hnodup : names.Nodup)
    (hmem : ∀ f ∈ names, f ∈ ls.routineNames) : WellFormed (ls.withoutRoutines names) := by
  induction names with
  | nil => rwa [withoutRoutines_nil]
  | cons name names ih =>
    rw [List.forall_mem_cons] at hmem
    rw [List.nodup_cons] at hnodup
    have hwf := ih hnodup.2 hmem.2
    obtain ⟨front, first, mid, final, back, hr, hkept, hcut⟩ :=
      h.exists_withoutRoutines_eq hmem.2 hmem.1 hnodup.1
    rw [hkept] at hwf
    rw [hcut]
    exact hwf.cut_out hr.first

/-- A routine is cut out of a collapsed text as it would have been before. -/
theorem removeRoutine?_collapse {a b code : Text} (ha : a.EndsAtBreak) (hc : IsClosed name code)
    (hb : b.BeginsAtBreak) (h : WellFormed (ofText (a ++ (code ++ b)).collapse)) :
    (a ++ (code ++ b)).collapse.removeRoutine? name = some (a ++ b).collapse := by
  rw [Text.collapse_frame hc.toIsFramed] at h ⊢
  rw [h.removeRoutine?_eq ha.collapse hc.collapse hb.collapse, Text.collapse_append_collapse,
    Text.collapse_collapse_append]

/-- The first removal. -/
theorem removeRoutine?_first (h : WellFormed (ofText t))
    (hname : name ∈ (ofText t).routineNames) :
    t.removeRoutine? name = some ((ofText t).withoutRoutines [name]).toText.collapse := by
  have hnone : ∀ f ∈ ([] : List Text), f ∈ (ofText t).routineNames := by simp
  obtain ⟨front, first, mid, final, back, hr, hkept, hcut⟩ :=
    h.exists_withoutRoutines_eq hnone hname (by simp)
  rw [withoutRoutines_nil] at hkept
  obtain ⟨a, code, b, htext, hleft, ha, hc, hb⟩ := hr.exists_isClosed hkept (isSplit_ofText t)
  rw [toText_ofText] at htext
  rw [hcut, hleft, htext]
  rw [htext] at h
  exact h.removeRoutine?_eq ha hc hb

/-- One more removal. -/
theorem removeRoutine?_next (h : WellFormed (ofText t)) (hnodup : (name :: names).Nodup)
    (hmem : ∀ f ∈ name :: names, f ∈ (ofText t).routineNames) :
    ((ofText t).withoutRoutines names).toText.collapse.removeRoutine? name =
      some ((ofText t).withoutRoutines (name :: names)).toText.collapse := by
  rw [List.nodup_cons] at hnodup
  rw [List.forall_mem_cons] at hmem
  have hsplit : ((ofText t).withoutRoutines names).IsSplit := (isSplit_ofText t).without _
  have hwf := (h.withoutRoutines hnodup.2 hmem.2).collapse_toText hsplit
  obtain ⟨front, first, mid, final, back, hr, hkept, hcut⟩ :=
    h.exists_withoutRoutines_eq hmem.2 hmem.1 hnodup.1
  obtain ⟨a, code, b, htext, hleft, ha, hc, hb⟩ := hr.exists_isClosed hkept hsplit
  rw [htext] at hwf ⊢
  rw [hcut, hleft]
  exact removeRoutine?_collapse ha hc hb hwf

/-- A run of removals, when some routines have been removed already. -/
theorem foldlM_removeRoutine?_next {done : List Text} (h : WellFormed (ofText t))
    (hnodup : (names ++ done).Nodup) (hmem : ∀ f ∈ names ++ done, f ∈ (ofText t).routineNames) :
    names.foldlM Text.removeRoutine? ((ofText t).withoutRoutines done).toText.collapse =
      some ((ofText t).withoutRoutines (names ++ done)).toText.collapse := by
  induction names generalizing done with
  | nil => rfl
  | cons name names ih =>
    have hperm : (name :: names ++ done).Perm (names ++ name :: done) := List.perm_middle.symm
    have hnodup' := hperm.nodup_iff.mp hnodup
    have hmem' : ∀ f ∈ names ++ name :: done, f ∈ (ofText t).routineNames :=
      fun f hf => hmem f (hperm.mem_iff.mpr hf)
    have hone := removeRoutine?_next h (List.nodup_append.mp hnodup').2.1
      fun f hf => hmem' f (List.mem_append_right _ hf)
    rw [List.foldlM_cons, hone, Option.bind_eq_bind, Option.bind_some, ih hnodup' hmem',
      withoutRoutines_perm hperm]

/-- A run of removals leaves the text without the routines, collapsed. -/
theorem foldlM_removeRoutine? (h : WellFormed (ofText t)) (hne : names ≠ [])
    (hnodup : names.Nodup) (hmem : ∀ f ∈ names, f ∈ (ofText t).routineNames) :
    names.foldlM Text.removeRoutine? t =
      some ((ofText t).withoutRoutines names).toText.collapse := by
  obtain ⟨name, names, rfl⟩ := List.exists_cons_of_ne_nil hne
  have hperm : (name :: names).Perm (names ++ [name]) := (List.perm_append_singleton _ _).symm
  have hnext := foldlM_removeRoutine?_next h (hperm.nodup_iff.mp hnodup)
    fun f hf => hmem f (hperm.mem_iff.mpr hf)
  rw [List.foldlM_cons, removeRoutine?_first h (hmem name (by simp)), Option.bind_eq_bind,
    Option.bind_some, hnext, withoutRoutines_perm hperm]

/-- Removals from a well-formed text do not depend on their order: one after the other, they leave
the text from which the blocks of all their routines are cut at once, with the breaks around them,
and in which runs of line breaks collapse then. -/
theorem removals_eq_cut (h : WellFormed (ofText t)) (hne : names ≠ []) (hnodup : names.Nodup)
    (hmem : ∀ f ∈ names, f ∈ (ofText t).routineNames) :
    (∀ f ∈ names, ∃ r, (ofText t).span? f = some r) ∧
    names.foldlM Text.removeRoutine? t =
      some ((ofText t).withoutRoutines names).toText.collapse ∧
    ∀ names', names.Perm names' →
      names'.foldlM Text.removeRoutine? t = names.foldlM Text.removeRoutine? t := by
  refine ⟨fun f hf => ?_, h.foldlM_removeRoutine? hne hnodup hmem, fun names' hperm => ?_⟩
  · obtain ⟨_, _, _, _, _, _, _, hspan⟩ := h.exists_isRoutine (hmem f hf)
    exact ⟨_, hspan⟩
  · have hne' : names' ≠ [] := fun hnil => hne (hnil ▸ hperm).eq_nil
    have hmem' : ∀ f ∈ names', f ∈ (ofText t).routineNames :=
      fun f hf => hmem f (hperm.mem_iff.mpr hf)
    rw [h.foldlM_removeRoutine? hne hnodup hmem,
      h.foldlM_removeRoutine? hne' (hperm.nodup_iff.mp hnodup) hmem', withoutRoutines_perm hperm]

end WellFormed

/-- Two routines with blank lines between them and within the second one. -/
def blankLines : Text := "glabel f\n.size f\n\n\nglabel g\n\n\n\n.size g\n"

/-- The breaks around the routines become one gap, in whatever order these go. -/
theorem removals_eq_cut_of_blank_lines :
    WellFormed (Listing.ofText blankLines) ∧
    (["g".toList, "f".toList] : List Text).foldlM Text.removeRoutine? blankLines =
      some "\n\n".toList ∧
    (["f".toList, "g".toList] : List Text).foldlM Text.removeRoutine? blankLines =
      some "\n\n".toList := by
  have hlines : Listing.ofText blankLines =
      [⟨"glabel f", .lf⟩, ⟨".size f", .lf⟩, ⟨[], .lf⟩, ⟨[], .lf⟩, ⟨"glabel g", .lf⟩, ⟨[], .lf⟩,
        ⟨[], .lf⟩, ⟨[], .lf⟩, ⟨".size g", .lf⟩, ⟨[], .none⟩] := by
    decide +kernel
  have hf : Declares "glabel f" "f" :=
    declares_of_trim (by decide +kernel) (by decide) (by decide +kernel)
  have hg : Declares "glabel g" "g" :=
    declares_of_trim (by decide +kernel) (by decide) (by decide +kernel)
  have hwf : WellFormed (Listing.ofText blankLines) := by
    rw [hlines]
    have hempty {ls : Listing} (h : WellFormed ls) : WellFormed (⟨[], .lf⟩ :: ls) :=
      h.cons fun hk => hk.ne_nil rfl
    let blanks : Listing := [⟨[], .lf⟩, ⟨[], .lf⟩, ⟨[], .lf⟩]
    have hsize : WellFormed (blanks ++ [⟨".size g", .lf⟩, ⟨[], .none⟩]) :=
      hempty (hempty (hempty ((WellFormed.nil.cons (by decide)).cons (by decide +kernel))))
    have hsecond : WellFormed (⟨"glabel g", .lf⟩ :: (blanks ++ [⟨".size g", .lf⟩, ⟨[], .none⟩])) :=
      hsize.cons_declaration rfl hg (by decide +kernel) (by decide +kernel) (by decide +kernel)
    exact ((hempty (hempty hsecond)).cons (by decide +kernel)).cons_declaration
      (List.nil_append _).symm hf (by decide +kernel) (by simp) (by decide +kernel)
  have hnames : ∀ f ∈ ["g".toList, "f".toList], f ∈ (Listing.ofText blankLines).routineNames := by
    decide +kernel
  obtain ⟨_, hrun, horder⟩ := hwf.removals_eq_cut (by simp) (by decide) hnames
  have hcut : ((Listing.ofText blankLines).withoutRoutines
      ["g".toList, "f".toList]).toText.collapse = "\n\n".toList := by
    decide +kernel
  rw [hcut] at hrun
  exact ⟨hwf, hrun, (horder _ (List.Perm.swap ..)).trans hrun⟩

end AsmListing
