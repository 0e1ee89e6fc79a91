import AsmListing.Proofs.Lines
import Mathlib.Data.List.Chain

/-! The lines of a text are the one listing with this text in which every line but the last one ends
with a whole break. The lines of a block are such a listing too, once the last of them has lost its
ending, so a block that is cut into lines again has the lines that it had in the text. -/
namespace AsmListing.Listing

variable {ls ms : Listing} {l m : Line} {t : Text} {c : Char} {s e : Nat}

/-- The break between the two lines is cut in two: a carriage return ends the first one, and the
line feed behind it the second one, which is empty. -/
def IsTorn (l m : Line) : Prop := l.ending = .cr ∧ m = ⟨[], .lf⟩

/-- The lines as a text is cut: no line holds a break, each one but the last ends with one, the last
one has no ending, and no break is cut in two. -/
structure IsCut (ls : Listing) : Prop where
  split : ls.IsSplit
  final : ∃ l, ls.getLast? = some l ∧ l.ending = .none
  whole : ls.IsChain fun l m => ¬ IsTorn l m

/-! The lines of a text. -/

theorem isChain_prepend (h : ls.IsChain fun l m => ¬ IsTorn l m) (c : Char) :
    (prepend c ls).IsChain fun l m => ¬ IsTorn l m := by
  cases ls with
  | nil => exact .nil
  | cons l ls =>
    cases hc : isBreak c with
    | false =>
      rw [prepend_of_not_isBreak hc]
      cases ls with
      | nil => exact .singleton _
      | cons m ls =>
        obtain ⟨hl, hls⟩ := List.isChain_cons_cons.mp h
        exact List.isChain_cons_cons.mpr ⟨hl, hls⟩
    | true =>
      rcases isBreak_iff.mp hc with rfl | rfl
      · exact List.isChain_cons_cons.mpr ⟨by simp [IsTorn], h⟩
      · by_cases hl : l = ⟨[], .lf⟩
        · subst hl
          cases ls with
          | nil => exact .singleton _
          | cons m ls =>
            exact List.isChain_cons_cons.mpr ⟨by simp [IsTorn], (List.isChain_cons_cons.mp h).2⟩
        · rw [prepend_cr_of_ne hl]
          exact List.isChain_cons_cons.mpr ⟨by simp [IsTorn, hl], h⟩

theorem isCut_ofText (t : Text) : (ofText t).IsCut := by
  refine ⟨isSplit_ofText t, ?_, ?_⟩
  · obtain ⟨ls, c, ht, _⟩ := exists_ofText_eq t
    exact ⟨⟨c, .none⟩, by simp [ht], rfl⟩
  · induction t with
    | nil => exact .singleton _
    | cons c t ih => exact isChain_prepend ih c

/-- A line in front of a text that begins with its break. -/
theorem ofText_content_append {u : Text} {k : Ending} (hl : ∀ a ∈ t, isBreak a = false)
    (hu : ofText u = ⟨[], k⟩ :: ms) : ofText (t ++ u) = ⟨t, k⟩ :: ms := by
  have ht : ofText t = [] ++ [⟨t, .none⟩] := ofText_of_not_isBreak hl
  rw [ofText_append ht hu, List.nil_append, List.append_nil]
  intro hcr
  have hno := hl '\r' (List.mem_of_getLast? hcr)
  simp [isBreak] at hno

/-- What is cut like a text are the lines of its text. -/
theorem ofText_toText (h : ls.IsCut) : ofText ls.toText = ls := by
  induction ls with
  | nil =>
    obtain ⟨l, hl, _⟩ := h.final
    simp at hl
  | cons l ls ih =>
    have hsolid := h.split.solid l List.mem_cons_self
    cases ls with
    | nil =>
      obtain ⟨l', hl', hnone⟩ := h.final
      obtain rfl : l = l' := by simpa using hl'
      obtain ⟨content, ending⟩ := l
      obtain rfl : ending = .none := hnone
      simpa [Ending.toText] using ofText_of_not_isBreak hsolid
    | cons m ls =>
      have hrest : IsCut (m :: ls) := by
        obtain ⟨l', hl', hnone⟩ := h.final
        exact ⟨h.split.of_suffix (List.suffix_cons l _), ⟨l', by simpa using hl', hnone⟩,
          (List.isChain_cons_cons.mp h.whole).2⟩
      have hended : l.ending ≠ .none := h.split.ended l (by simp)
      have hjoin : l.ending = .cr → (ofText (toText (m :: ls))).head? ≠ some ⟨[], .lf⟩ := by
        intro hcr hlf
        rw [ih hrest] at hlf
        exact (List.isChain_cons_cons.mp h.whole).1 ⟨hcr, by simpa using hlf⟩
      have hbreak := ofText_ending_append hended hjoin
      rw [toText_cons, ofText_content_append hsolid hbreak, ih hrest]

/-- The lines of a text are the one listing that is cut like a text and has this text. -/
theorem eq_ofText_iff : ls = ofText t ↔ ls.IsCut ∧ ls.toText = t := by
  constructor
  · rintro rfl
    exact ⟨isCut_ofText t, toText_ofText t⟩
  · rintro ⟨hcut, rfl⟩
    exact (ofText_toText hcut).symm

/-! The lines of a block. -/

/-- The lines `first` to `last`, the last one without its ending. -/
def clip (ls : Listing) (first last : Nat) : Listing :=
  (ls.take last).drop first ++ ((ls[last]?).map fun l => ⟨l.content, .none⟩).toList

theorem clip_eq (he : e < ls.length) (s : Nat) :
    ls.clip s e = (ls.take e).drop s ++ [⟨ls[e].content, .none⟩] := by
  simp [clip, he]

theorem toText_clip (hs : s ≤ e) (he : e < ls.length) : (ls.clip s e).toText = ls.block s e := by
  rw [clip_eq he, block_eq hs he]
  simp [Ending.toText]

theorem IsCut.clip (h : ls.IsCut) (he : e < ls.length) (s : Nat) : (ls.clip s e).IsCut := by
  have hinner : (ls.take e).drop s ⊆ ls.dropLast := by
    intro l hl
    have htake : ls.take e = ls.dropLast.take e := by
      rw [List.dropLast_eq_take, List.take_take, Nat.min_eq_left (by omega)]
    exact List.mem_of_mem_take (htake ▸ List.mem_of_mem_drop hl)
  rw [clip_eq he]
  refine ⟨⟨?_, ?_⟩, ⟨_, List.getLast?_concat, rfl⟩, ?_⟩
  · intro l hl
    rcases List.mem_append.mp hl with hl | hl
    · exact h.split.solid l (List.dropLast_subset ls (hinner hl))
    · obtain rfl := List.mem_singleton.mp hl
      exact h.split.solid ls[e] (List.getElem_mem he)
  · intro l hl
    rw [List.dropLast_concat] at hl
    exact h.split.ended l (hinner hl)
  · refine List.isChain_append.mpr ⟨(h.whole.take e).drop s, .singleton _, ?_⟩
    intro l _ m hm
    obtain rfl : (⟨ls[e].content, .none⟩ : Line) = m := by simpa using hm
    simp [IsTorn]

/-- A block that is cut into lines again has the lines that it had in the text. -/
theorem ofText_block (hs : s ≤ e) (he : e < (ofText t).length) :
    ofText ((ofText t).block s e) = (ofText t).clip s e := by
  rw [← toText_clip hs he, ofText_toText ((isCut_ofText t).clip he s)]

theorem block?_eq_none_iff {first last : Int} :
    ls.block? first last = none ↔ ¬ (0 ≤ first ∧ first ≤ last ∧ last < ls.length) := by
  unfold block?
  split
  · next h => simp [h]
  · next h => simp [h]

/-- The lines of a text lose nothing of it and hold no break, and they are the only listing that is
cut like a text and has this text. A range of lines has a block exactly where these are lines of the
text in order. The block stands in the text between the lines before it and the ending of its last
line; cut into lines again, it has the lines of the range with the endings of all but the last one.
-/
theorem ofText_lossless (t : Text) :
    (ofText t).toText = t ∧
    (∀ l ∈ ofText t, '\r' ∉ l.content ∧ '\n' ∉ l.content) ∧
    (∀ ls : Listing, ls = ofText t ↔ ls.IsCut ∧ ls.toText = t) ∧
    (∀ first last : Int, (ofText t).block? first last = none ↔
      ¬ (0 ≤ first ∧ first ≤ last ∧ last < (ofText t).length)) ∧
    ∀ first last : Nat, first ≤ last → last < (ofText t).length →
      ∃ code, (ofText t).block? first last = some code ∧
        t = (ofText t).textBefore first ++ (code ++ (ofText t).textBehind last) ∧
        ofText code = (ofText t).clip first last := by
  refine ⟨toText_ofText t, fun l hl => ?_, fun ls => eq_ofText_iff,
    fun first last => block?_eq_none_iff, fun first last hs he => ?_⟩
  · have hsolid := not_isBreak_of_mem hl
    constructor
    · intro hcr
      exact absurd (hsolid '\r' hcr) (by decide)
    · intro hlf
      exact absurd (hsolid '\n' hlf) (by decide)
  · exact ⟨_, block?_eq_some hs he, text_eq_block hs he, ofText_block hs he⟩

/-- The break in the middle is not cut in two. -/
example : ofText ((ofText "a\r\n\r\n\nb").block 0 2) =
    [⟨"a", .crlf⟩, ⟨"", .crlf⟩, ⟨"", .none⟩] := by decide

end AsmListing.Listing
