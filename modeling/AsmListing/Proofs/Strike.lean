import AsmListing.Proofs.Lines
import AsmListing.Listing.Resolution
import Mathlib.Data.List.Basic

/-! A listing from which several ranges of lines are cut at once. -/
namespace AsmListing

variable {ls before inside behind : Listing} {l m final : Line} {r : Span}
  {spans spans' : List Span} {start i : Nat}

/-- What stays of line `i` when the spans are cut out: nothing within a span, and of the last line
of a span its break. -/
def Line.outside (spans : List Span) (i : Nat) (l : Line) : Listing :=
  if ∃ r ∈ spans, r.first ≤ i ∧ i ≤ r.last then
    if ∃ r ∈ spans, r.last = i then [⟨[], l.ending⟩] else []
  else [l]

/-- The listing, its lines counted from `start`, without the blocks of the spans. -/
def Listing.withoutFrom (start : Nat) (ls : Listing) (spans : List Span) : Listing :=
  (ls.zipIdx start).flatMap fun x => x.1.outside spans x.2

/-- The listing without the blocks of the spans; the breaks around them stay. -/
def Listing.without (ls : Listing) (spans : List Span) : Listing := ls.withoutFrom 0 spans

/-- The listing without the blocks of some routines. -/
def Listing.withoutRoutines (ls : Listing) (names : List Text) : Listing :=
  ls.without (names.filterMap ls.span?)

/-- The span has lines, and all of them stand before line `s` or behind line `e`. -/
structure Span.Avoids (r : Span) (s e : Nat) : Prop where
  le : r.first ≤ r.last
  apart : r.last < s ∨ e < r.first

namespace Line

theorem mem_outside (h : m ∈ l.outside spans i) : m = l ∨ m = ⟨[], l.ending⟩ := by
  unfold outside at h
  split at h
  · split at h
    · exact .inr (List.mem_singleton.mp h)
    · cases h
  · exact .inl (List.mem_singleton.mp h)

theorem dropLast_outside (spans : List Span) (i : Nat) (l : Line) :
    (l.outside spans i).dropLast = [] := by
  unfold outside
  split
  · split <;> rfl
  · rfl

theorem outside_perm (h : spans.Perm spans') (i : Nat) (l : Line) :
    l.outside spans i = l.outside spans' i := by
  simp only [outside, h.mem_iff]

/-- A span that does not touch the line does not matter. -/
theorem outside_cons_of_avoids (h : r.Avoids i i) (spans : List Span) (l : Line) :
    l.outside (r :: spans) i = l.outside spans i := by
  have hin : ¬ (r.first ≤ i ∧ i ≤ r.last) := by
    have := h.apart
    omega
  have hlast : r.last ≠ i := by
    have := h.le
    omega
  simp [outside, hin, hlast]

theorem outside_eq_self (h : ∀ r ∈ spans, r.Avoids i i) (l : Line) : l.outside spans i = [l] := by
  rw [outside, if_neg]
  rintro ⟨r, hr, hin⟩
  have := (h r hr).apart
  omega

/-- Of a line of one span only, the break stays if it is the last one. -/
theorem outside_cons_of_mem (hi : r.first ≤ i) (hie : i ≤ r.last)
    (h : ∀ r ∈ spans, r.Avoids i i) (l : Line) :
    l.outside (r :: spans) i = if r.last = i then [⟨[], l.ending⟩] else [] := by
  have hno : ¬ ∃ r ∈ spans, r.last = i := by
    rintro ⟨r', hr', hlast⟩
    have := (h r' hr').le
    have := (h r' hr').apart
    omega
  rw [outside, if_pos ⟨r, List.mem_cons_self, hi, hie⟩]
  simp [hno]

end Line

namespace Listing

theorem withoutFrom_cons (start : Nat) (l : Line) (ls : Listing) (spans : List Span) :
    withoutFrom start (l :: ls) spans =
      l.outside spans start ++ withoutFrom (start + 1) ls spans := by
  simp [withoutFrom]

theorem withoutFrom_append (start : Nat) (ls ms : Listing) (spans : List Span) :
    withoutFrom start (ls ++ ms) spans =
      withoutFrom start ls spans ++ withoutFrom (start + ls.length) ms spans := by
  simp [withoutFrom, List.zipIdx_append]

/-- The order of the spans does not matter. -/
theorem without_perm (h : spans.Perm spans') (ls : Listing) :
    ls.without spans = ls.without spans' := by
  simp only [without, withoutFrom, Line.outside_perm h]

theorem withoutRoutines_perm {names names' : List Text} (h : names.Perm names') (ls : Listing) :
    ls.withoutRoutines names = ls.withoutRoutines names' :=
  without_perm (h.filterMap ls.span?) ls

theorem bounds_of_mem_zipIdx (h : (l, i) ∈ ls.zipIdx start) : start ≤ i ∧ i < start + ls.length := by
  obtain ⟨hle, hlt, _⟩ := List.mem_zipIdx h
  exact ⟨hle, hlt⟩

theorem withoutFrom_eq_self
    (h : ∀ i, start ≤ i → i < start + ls.length → ∀ r ∈ spans, r.Avoids i i) :
    withoutFrom start ls spans = ls := by
  have heach : ∀ x ∈ ls.zipIdx start, x.1.outside spans x.2 = [x.1] := by
    rintro ⟨l, i⟩ hx
    obtain ⟨hle, hlt⟩ := bounds_of_mem_zipIdx hx
    exact Line.outside_eq_self (h i hle hlt) l
  rw [withoutFrom, List.flatMap_congr heach, ← List.map_eq_flatMap, List.zipIdx_map_fst]

theorem withoutFrom_cons_of_avoids (h : ∀ i, start ≤ i → i < start + ls.length → r.Avoids i i)
    (spans : List Span) :
    withoutFrom start ls (r :: spans) = withoutFrom start ls spans := by
  apply List.flatMap_congr
  rintro ⟨l, i⟩ hx
  obtain ⟨hle, hlt⟩ := bounds_of_mem_zipIdx hx
  exact Line.outside_cons_of_avoids (h i hle hlt) spans l

/-- Nothing stays of lines that one span holds before its last one. -/
theorem withoutFrom_cons_eq_nil (hfirst : r.first ≤ start) (hlast : start + ls.length ≤ r.last)
    (h : ∀ i, start ≤ i → i < start + ls.length → ∀ r ∈ spans, r.Avoids i i) :
    withoutFrom start ls (r :: spans) = [] := by
  rw [withoutFrom, List.flatMap_eq_nil_iff]
  rintro ⟨l, i⟩ hx
  obtain ⟨hle, hlt⟩ := bounds_of_mem_zipIdx hx
  rw [Line.outside_cons_of_mem (by omega) (by omega) (h i hle hlt), if_neg (by omega)]

theorem withoutFrom_nil (start : Nat) (ls : Listing) : withoutFrom start ls [] = ls :=
  withoutFrom_eq_self (by simp)

theorem withoutRoutines_nil (ls : Listing) : ls.withoutRoutines [] = ls := withoutFrom_nil 0 ls

/-- A block that no span touches stays as it is, and its break stays when it is cut out as well. -/
theorem without_of_lines (before inside behind : Listing) (final : Line)
    (h : ∀ r ∈ spans, r.Avoids before.length (before.length + inside.length)) :
    without (before ++ (inside ++ final :: behind)) spans = withoutFrom 0 before spans ++
        (inside ++ final :: withoutFrom (before.length + inside.length + 1) behind spans) ∧
      without (before ++ (inside ++ final :: behind))
          (⟨before.length, before.length + inside.length⟩ :: spans) =
        withoutFrom 0 before spans ++
          ⟨[], final.ending⟩ :: withoutFrom (before.length + inside.length + 1) behind spans := by
  have hhere (i : Nat) (hi : before.length ≤ i) (hie : i ≤ before.length + inside.length) :
      ∀ r ∈ spans, r.Avoids i i := by
    intro r hr
    obtain ⟨hle, hapart⟩ := h r hr
    exact ⟨hle, by omega⟩
  have hown (i : Nat) (hi : i < before.length ∨ before.length + inside.length < i) :
      Span.Avoids ⟨before.length, before.length + inside.length⟩ i i :=
    ⟨Nat.le_add_right _ _, by simp only; omega⟩
  simp only [without, withoutFrom_append, withoutFrom_cons, Nat.zero_add]
  constructor
  · rw [withoutFrom_eq_self fun i hi hlt => hhere i hi (by omega),
      Line.outside_eq_self (hhere _ (by omega) (by omega)), List.singleton_append]
  · have hinside : withoutFrom before.length inside
        (⟨before.length, before.length + inside.length⟩ :: spans) = [] :=
      withoutFrom_cons_eq_nil (Nat.le_refl _) (Nat.le_refl _) fun i hi hlt =>
        hhere i hi (by omega)
    have hfinal : final.outside (⟨before.length, before.length + inside.length⟩ :: spans)
        (before.length + inside.length) = [⟨[], final.ending⟩] := by
      rw [Line.outside_cons_of_mem (by simp) (by simp) (hhere _ (by omega) (by omega)), if_pos rfl]
    rw [hinside, hfinal, withoutFrom_cons_of_avoids fun i _ hlt => hown i (by omega),
      withoutFrom_cons_of_avoids fun i hi _ => hown i (by omega)]
    rfl

/-- To cut one block out leaves what is before it and what is behind it. -/
theorem toText_without_singleton {s e : Nat} (hs : s ≤ e) (he : e < ls.length) :
    (ls.without [⟨s, e⟩]).toText = ls.textBefore s ++ ls.textBehind e := by
  have hlines : ls.take s ++ ((ls.take e).drop s ++ ls[e] :: ls.drop (e + 1)) = ls := by
    rw [List.getElem_cons_drop, ← eq_take_append ls hs]
  have hbefore : (ls.take s).length = s := by simp; omega
  have hinside : (ls.take s).length + ((ls.take e).drop s).length = e := by simp; omega
  have hnone : ∀ r ∈ ([] : List Span), r.Avoids (ls.take s).length
      ((ls.take s).length + ((ls.take e).drop s).length) := by simp
  obtain ⟨_, hcut⟩ := without_of_lines (ls.take s) ((ls.take e).drop s) (ls.drop (e + 1)) ls[e] hnone
  rw [hlines, hinside, hbefore, withoutFrom_nil, withoutFrom_nil] at hcut
  rw [hcut, textBefore, textBehind_eq he]
  simp

theorem mem_withoutFrom (h : m ∈ withoutFrom start ls spans) :
    ∃ l ∈ ls, m = l ∨ m = ⟨[], l.ending⟩ := by
  obtain ⟨⟨l, i⟩, hx, hm⟩ := List.mem_flatMap.mp h
  exact ⟨l, List.fst_mem_of_mem_zipIdx hx, Line.mem_outside hm⟩

/-- The lines that stay are still cut at their breaks. -/
theorem IsSplit.without (h : ls.IsSplit) (spans : List Span) : (ls.without spans).IsSplit := by
  constructor
  · intro m hm
    obtain ⟨l, hl, rfl | rfl⟩ := mem_withoutFrom hm
    · exact h.solid m hl
    · simp
  · rcases List.eq_nil_or_concat ls with rfl | ⟨ls, final, rfl⟩
    · simp [Listing.without, withoutFrom]
    · intro m hm
      have hmem : m ∈ withoutFrom 0 ls spans := by
        rw [List.concat_eq_append, Listing.without, withoutFrom_append, withoutFrom_cons,
          List.dropLast_append] at hm
        split at hm
        · exact List.dropLast_subset _ hm
        · simpa [withoutFrom, Line.dropLast_outside] using hm
      obtain ⟨l, hl, hml⟩ := mem_withoutFrom hmem
      have hend : l.ending ≠ .none := h.ended l (by simpa using hl)
      rcases hml with rfl | rfl
      · exact hend
      · exact hend

end Listing

end AsmListing
