import AsmListing.Proofs.Declarations
import AsmListing.Proofs.Removal

/-! Removal from a well-formed text. Such a text is laid out in closed routines, none of which is
found inside another line, so what a removal cuts out is one of them. -/
namespace AsmListing

variable {t a b code name other : Text} {ls : Listing}

/-- The lines of a well-formed listing are laid out in closed routines. -/
theorem WellFormed.exists_layout (h : WellFormed ls) (hsplit : ls.IsSplit) :
    ∃ rs, Layout ls.toText rs := by
  induction hlen : ls.length using Nat.strongRecOn generalizing ls with
  | ind n ih =>
    by_cases hstart : ∃ l ∈ ls, ∃ f, Marker.ofLine l.content = .start f
    · obtain ⟨l, hl, f, hf⟩ := hstart
      obtain ⟨before, first, mid, ⟨final, k⟩, behind, name, rfl, hbefore, hfirst, hfinal, hmid⟩ :=
        h.exists_routine hl hf
      have hshape : before ++ first :: (mid ++ ⟨final, k⟩ :: behind) =
          before ++ ((first :: mid ++ [⟨final, k⟩]) ++ behind) := by simp
      have hrest : (⟨final, k⟩ :: behind) <:+ before ++ first :: (mid ++ ⟨final, k⟩ :: behind) :=
        ⟨before ++ first :: mid, by simp⟩
      have hwf : WellFormed (⟨[], k⟩ :: behind) :=
        (h.of_suffix ((List.suffix_cons _ _).trans hrest)).cons (by simp [MentionsKeyword])
      have hcut : Listing.IsSplit (⟨[], k⟩ :: behind) := (hsplit.of_suffix hrest).cons_empty
      obtain ⟨rs, hrs⟩ := ih _ (by simp at hlen ⊢; omega) hwf hcut rfl
      have hcode : IsClosed name (Listing.toText (first :: mid) ++ final) := by
        rw [hshape] at hsplit
        exact isClosed_of_lines (hsplit.of_suffix (List.suffix_append _ _)).left hfirst hfinal hmid
      have hall := Layout.routine (declaresNothing_toText hsplit.left hbefore)
        (Listing.endsAtBreak_toText (hsplit.ended_left (by simp))) hcode hcut.beginsAtBreak hrs
      refine ⟨(name, Listing.toText (first :: mid) ++ final) :: rs, ?_⟩
      simpa using hall
    · refine ⟨[], .gap (declaresNothing_toText hsplit ?_)⟩
      intro l hl f hf
      exact hstart ⟨l, hl, f, hf⟩

/-- A well-formed text does not declare a routine of it a second time. -/
theorem WellFormed.not_start_outside (ha : a.EndsAtBreak) (hc : IsClosed name code)
    (hb : b.BeginsAtBreak) (h : WellFormed (Listing.ofText (a ++ (code ++ b)))) :
    ∀ c ∈ (a ++ b).solidLines, Marker.ofLine c ≠ .start name := by
  obtain ⟨before, first, mid, final, k, behind, hbefore, hbehind, _, hall, hfirst, _, _⟩ :=
    hc.exists_ofText_eq ha hb
  rw [hall] at h
  have hdecl : Declares first.content name := h.declares_of_start (by simp) hfirst
  have hdistinct := h.distinct
  rw [List.pairwise_append] at hdistinct
  obtain ⟨_, hright, hleft⟩ := hdistinct
  have hbehind' : Listing.ofText b = [] ++ ⟨[], k⟩ :: behind := hbehind
  intro c hcs hstart
  rw [Text.solidLines_append_of_endsAtBreak ha, List.mem_append] at hcs
  rcases hcs with hcs | hcs
  · obtain ⟨l, hl, rfl⟩ := Text.exists_mem_of_solidLines hcs hbefore
    have hmem : l ∈ before := by simpa using hl
    exact hleft l hmem first (by simp) name (h.declares_of_start (by simp [hmem]) hstart) hdecl
  · obtain ⟨l, hl, rfl⟩ := Text.exists_mem_of_solidLines hcs hbehind'
    have hmem : l ∈ behind := by simpa using hl
    rw [List.cons_append, List.pairwise_cons] at hright
    exact hright.1 l (by simp [hmem]) name hdecl (h.declares_of_start (by simp [hmem]) hstart)

/-- A routine of a well-formed text occurs in it only once. -/
theorem WellFormed.before_eq {p q : Text} (ha : a.EndsAtBreak) (hc : IsClosed name code)
    (h : WellFormed (Listing.ofText (a ++ (code ++ b))))
    (hpq : a ++ (code ++ b) = p ++ (code ++ q)) : p = a := by
  obtain ⟨piece, rest, rfl, hne, hsolid, hrest, hrest0, hstart⟩ := hc.exists_first_line
  obtain ⟨as, has⟩ := Listing.ofText_of_endsAtBreak ha
  obtain ⟨ps, d, hps, _⟩ := Listing.exists_ofText_eq p
  have hbegin : ∀ u, (rest ++ u).BeginsAtBreak := by
    intro u x hx
    obtain ⟨y, v, rfl⟩ := List.exists_cons_of_ne_nil hrest0
    exact hrest x hx
  obtain ⟨k, ms, hms⟩ := Listing.ofText_append_piece has hne hsolid (hbegin b)
  obtain ⟨k', ms', hms'⟩ := Listing.ofText_append_piece hps hne hsolid (hbegin q)
  simp only [List.append_assoc] at h hpq
  rw [List.nil_append] at hms
  rw [hms] at h
  rw [← hpq, hms] at hms'
  have hdecl : Declares piece name := h.declares_of_start (l := ⟨piece, k⟩) (by simp) hstart
  -- the line in which the other occurrence begins ends with the same declared name
  have hmem : (⟨d ++ piece, k'⟩ : Line) ∈ as ++ ⟨piece, k⟩ :: ms := by simp [hms']
  obtain ⟨found, hfound⟩ := h.sole _ hmem (hdecl.mentionsKeyword.append d)
  obtain rfl := hdecl.eq_of_append hfound
  obtain ⟨rfl, hline⟩ := h.unique_line rfl hms' hdecl hfound
  have hd : d = [] := by simpa using congrArg Line.content hline
  rw [← Listing.toText_ofText p, hps, hd, ← has, Listing.toText_ofText]

/-- The removal cuts a routine of a well-formed text out where it stands. -/
theorem WellFormed.eraseFirst_eq (ha : a.EndsAtBreak) (hc : IsClosed name code)
    (h : WellFormed (Listing.ofText (a ++ (code ++ b)))) :
    (a ++ (code ++ b)).eraseFirst code = a ++ b := by
  obtain ⟨p, q, hfirst, herase⟩ := Text.exists_eraseFirst_eq (rfl : a ++ (code ++ b) = _)
  obtain rfl := h.before_eq ha hc hfirst.text_eq
  have htext := hfirst.text_eq
  rw [List.append_cancel_left_eq, List.append_cancel_left_eq] at htext
  rw [herase, htext]

/-- The lines of a routine of a well-formed text are found; no other line that is not empty is among
them. -/
theorem WellFormed.exists_span? (ha : a.EndsAtBreak) (hc : IsClosed name code)
    (hb : b.BeginsAtBreak) (h : WellFormed (Listing.ofText (a ++ (code ++ b)))) :
    ∃ s e, (Listing.ofText (a ++ (code ++ b))).span? name = some ⟨s, e⟩ ∧
      (Listing.ofText (a ++ (code ++ b))).block s e = code ∧
      ∀ c ∈ (a ++ b).solidLines, ∃ i, (i < s ∨ e < i) ∧
        (Listing.ofText (a ++ (code ++ b))).markers[i]? = some (Marker.ofLine c) := by
  apply hc.exists_span? ha hb
  intro c hcs
  apply h.not_start_outside ha hc hb
  rw [Text.solidLines_append_of_endsAtBreak ha]
  exact List.mem_append_left _ hcs

theorem WellFormed.removeRoutine?_eq (ha : a.EndsAtBreak) (hc : IsClosed name code)
    (hb : b.BeginsAtBreak) (h : WellFormed (Listing.ofText (a ++ (code ++ b)))) :
    (a ++ (code ++ b)).removeRoutine? name = some (a ++ b).collapse := by
  obtain ⟨s, e, hspan, hblock, _⟩ := h.exists_span? ha hc hb
  simp [Text.removeRoutine?, Removal.plan?, Removal.ofSpan?, Removal.remainder, hspan,
    Listing.block?_of_span? hspan, hblock, h.eraseFirst_eq ha hc]

/-- A well-formed text falls apart at each of its routines. -/
theorem WellFormed.exists_cut (h : WellFormed (Listing.ofText t))
    (hname : name ∈ (Listing.ofText t).routineNames) :
    ∃ a code b xs ys, t = a ++ (code ++ b) ∧ a.EndsAtBreak ∧ IsClosed name code ∧
      b.BeginsAtBreak ∧ Layout t (xs ++ (name, code) :: ys) ∧ Layout (a ++ b) (xs ++ ys) ∧
      ∀ r ∈ xs ++ ys, r.1 ≠ name := by
  obtain ⟨rs, hrs⟩ := h.exists_layout (Listing.isSplit_ofText t)
  rw [Listing.toText_ofText] at hrs
  have hmem : name ∈ rs.map Prod.fst := by
    rwa [← hrs.entries_eq, ← Listing.routineNames_eq]
  obtain ⟨⟨name, code⟩, hr, rfl⟩ := List.mem_map.mp hmem
  obtain ⟨xs, ys, rfl⟩ := List.append_of_mem hr
  obtain ⟨a, b, rfl, ha, hb, hc, _, _, hcut⟩ := hrs.exists_cut
  refine ⟨a, code, b, xs, ys, rfl, ha, hc, hb, hrs, hcut, ?_⟩
  intro other hother heq
  obtain ⟨c, hcs, hstart⟩ := hcut.exists_start (List.mem_map_of_mem hother)
  rw [heq] at hstart
  exact h.not_start_outside ha hc hb c hcs hstart

theorem lookup_cut {xs ys : List (Text × Text)} (hne : other ≠ name) :
    (xs ++ (name, code) :: ys).lookup other = (xs ++ ys).lookup other := by
  have hbeq : (other == name) = false := beq_false_of_ne hne
  simp [List.lookup_append, List.lookup_cons, hbeq]

/-- Removal from a well-formed text. Where the other routines keep their text when runs of line
breaks collapse, the routine goes from the catalog and all others stay as they are, in their order.
Where no line outside of the routine has its name as a label, it is found no more. -/
theorem WellFormed.removal_round_trip (h : WellFormed (Listing.ofText t))
    (hname : name ∈ (Listing.ofText t).routineNames)
    (hcollapse : ∀ r ∈ (Listing.ofText t).routines, r.name ≠ name → r.code.collapse = r.code) :
    ∃ t', t.removeRoutine? name = some t' ∧
      (Listing.ofText t').entries = (Listing.ofText t).entries.filter (fun r => r.1 ≠ name) ∧
      (∀ g ∈ (Listing.ofText t).routineNames, g ≠ name → ∃ code,
        (Listing.ofText t).extract? g = some code ∧ (Listing.ofText t').extract? g = some code) ∧
      ((∀ s e, (Listing.ofText t).span? name = some ⟨s, e⟩ → ∀ i, i < s ∨ e < i →
          (Listing.ofText t).markers[i]? ≠ some (.label name)) →
        (Listing.ofText t').span? name = none) := by
  obtain ⟨a, code, b, xs, ys, rfl, ha, hc, hb, hlayout, hcut, hne⟩ := h.exists_cut hname
  have hentries := hlayout.entries_eq
  have hkeep : ∀ r ∈ xs ++ ys, (r.1, Text.collapse r.2) = r := by
    intro r hr
    have hall : r ∈ xs ++ (name, code) :: ys := by
      rw [List.mem_append] at hr ⊢
      exact hr.imp_right (List.mem_cons_of_mem _)
    rw [← hentries] at hall
    obtain ⟨routine, hroutine, rfl⟩ := List.mem_map.mp hall
    rw [hcollapse routine hroutine (hne _ hr)]
  have hleft : Layout (a ++ b).collapse (xs ++ ys) := by
    have hmap := hcut.collapse
    rwa [List.map_congr_left hkeep, List.map_id'] at hmap
  refine ⟨(a ++ b).collapse, h.removeRoutine?_eq ha hc hb, ?_, ?_, ?_⟩
  · have hfilter : (xs ++ ys).filter (fun r => r.1 ≠ name) = xs ++ ys :=
      List.filter_eq_self.mpr (by simpa using hne)
    rw [hleft.entries_eq, hentries, List.filter_append, List.filter_cons_of_neg (by simp),
      ← List.filter_append, hfilter]
  · intro g hg hgne
    rw [Listing.routineNames_eq, hentries] at hg
    obtain ⟨r, hr, rfl⟩ := List.mem_map.mp hg
    have hsome : ((xs ++ (name, code) :: ys).lookup r.1).isSome :=
      List.lookup_isSome_iff.mpr ⟨r, hr, beq_self_eq_true r.1⟩
    obtain ⟨gcode, hlookup⟩ := Option.isSome_iff_exists.mp hsome
    refine ⟨gcode, hlayout.extract?_of_lookup hlookup, hleft.extract?_of_lookup ?_⟩
    rw [← lookup_cut hgne, hlookup]
  · intro hlabel
    obtain ⟨s, e, hspan, _, houtside⟩ := h.exists_span? ha hc hb
    apply hleft.span?_eq_none
    · intro hmem
      obtain ⟨r, hr, heq⟩ := List.mem_map.mp hmem
      exact hne r hr heq
    · rw [Text.solidLines_collapse]
      intro c hcs heq
      obtain ⟨i, hi, hat⟩ := houtside c hcs
      exact hlabel s e hspan i hi (heq ▸ hat)

/-- A text with all three line breaks. -/
def mixedBreaks : Text := "nop\rglabel f\n.size f\nglabel g\r\n.size g"

/-- A carriage return and a line feed that meet where the routine goes become one break. -/
theorem removal_round_trip_of_mixed_breaks :
    WellFormed (Listing.ofText mixedBreaks) ∧
    mixedBreaks.removeRoutine? "f" = some "nop\r\nglabel g\r\n.size g".toList ∧
    (Listing.ofText "nop\r\nglabel g\r\n.size g").entries =
      (Listing.ofText mixedBreaks).entries.filter (fun r => r.1 ≠ "f".toList) ∧
    (Listing.ofText "nop\r\nglabel g\r\n.size g").span? "f" = none := by
  have hlines : Listing.ofText mixedBreaks =
      [⟨"nop", .cr⟩, ⟨"glabel f", .lf⟩, ⟨".size f", .lf⟩, ⟨"glabel g", .crlf⟩,
        ⟨".size g", .none⟩] := by
    decide +kernel
  have hg : Declares "glabel g" "g" :=
    ⟨" ".toList, by decide +kernel, by decide, List.all_eq_true.mp (by decide +kernel), by decide,
      List.all_eq_true.mp (by decide +kernel)⟩
  have hf : Declares "glabel f" "f" :=
    ⟨" ".toList, by decide +kernel, by decide, List.all_eq_true.mp (by decide +kernel), by decide,
      List.all_eq_true.mp (by decide +kernel)⟩
  have hwf : WellFormed (Listing.ofText mixedBreaks) := by
    rw [hlines]
    have hsecond : WellFormed [⟨"glabel g", .crlf⟩, ⟨".size g", .none⟩] :=
      (WellFormed.nil.cons (by decide +kernel)).cons_declaration (List.nil_append _).symm hg
        (by decide +kernel) (by simp) (by decide +kernel)
    have hfirst : WellFormed [⟨"glabel f", .lf⟩, ⟨".size f", .lf⟩, ⟨"glabel g", .crlf⟩,
        ⟨".size g", .none⟩] :=
      (hsecond.cons (by decide +kernel)).cons_declaration (List.nil_append _).symm hf
        (by decide +kernel) (by simp) (by decide +kernel)
    exact hfirst.cons (by decide +kernel)
  have hnolabel : Marker.label "f" ∉ (Listing.ofText mixedBreaks).markers := by decide +kernel
  have hname : "f".toList ∈ (Listing.ofText mixedBreaks).routineNames := by decide +kernel
  obtain ⟨t', hremove, hentries, _, hspan⟩ := hwf.removal_round_trip hname (by decide +kernel)
  have hresult : mixedBreaks.removeRoutine? "f" = some "nop\r\nglabel g\r\n.size g".toList := by
    decide +kernel
  obtain rfl : "nop\r\nglabel g\r\n.size g".toList = t' :=
    Option.some.inj (hresult.symm.trans hremove)
  refine ⟨hwf, hresult, hentries, hspan ?_⟩
  intro _ _ _ _ _ hat
  exact hnolabel (List.mem_of_getElem? hat)

end AsmListing
