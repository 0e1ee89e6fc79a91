import AsmListing.Listing.Basic
import AsmListing.Listing.BlankRun

/-! The lines of joined texts, and blocks of lines in their text: what stands before a block, the
block, and what stands behind it. -/
namespace AsmListing

/-- The text is empty or ends with a line break. -/
def Text.EndsAtBreak (t : Text) : Prop := ∀ a ∈ t.getLast?, isBreak a = true

/-- The text is empty or begins with a line break. -/
def Text.BeginsAtBreak (t : Text) : Prop := ∀ a ∈ t.head?, isBreak a = true

/-- The text begins and ends within a line. -/
structure Text.IsFramed (t : Text) : Prop where
  head : ∃ a, t.head? = some a ∧ isBreak a = false
  last : ∃ a, t.getLast? = some a ∧ isBreak a = false

/-- The line is nothing but a line break. -/
structure Line.IsBreak (l : Line) : Prop where
  content : l.content = []
  ending : l.ending ≠ .none

theorem isBreak_iff {c : Char} : isBreak c = true ↔ c = '\n' ∨ c = '\r' := by
  simp [isBreak]

theorem not_isBreak_iff {c : Char} : isBreak c = false ↔ c ≠ '\n' ∧ c ≠ '\r' := by
  simp [isBreak]

theorem Ending.isBreak_of_mem {k : Ending} : ∀ c ∈ k.toText, isBreak c = true := by
  cases k <;> simp [toText, isBreak]

theorem Ending.beginsAtBreak {k : Ending} (hk : k ≠ .none) (t : Text) :
    (k.toText ++ t).BeginsAtBreak := by
  cases k <;> simp_all [toText, Text.BeginsAtBreak, isBreak]

theorem Ending.endsAtBreak {k : Ending} (hk : k ≠ .none) (t : Text) :
    (t ++ k.toText).EndsAtBreak := by
  cases k <;> simp_all [toText, Text.EndsAtBreak, isBreak]

namespace Listing

variable {ls ms : Listing} {l : Line} {t u : Text} {c d : Text} {k : Ending} {s e : Nat}

/-- The text of the lines before line `s`, with their endings. -/
def textBefore (ls : Listing) (s : Nat) : Text := toText (ls.take s)

/-- The ending of line `e` and the text of all lines behind it. -/
def textBehind (ls : Listing) (e : Nat) : Text :=
  match ls.drop e with
  | [] => []
  | l :: rest => l.ending.toText ++ toText rest

@[simp] theorem toText_nil : toText [] = [] := rfl

@[simp] theorem toText_cons (l : Line) (ls : Listing) :
    toText (l :: ls) = l.content ++ (l.ending.toText ++ toText ls) := by
  simp [toText, Line.toText]

@[simp] theorem toText_append (ls ms : Listing) : toText (ls ++ ms) = toText ls ++ toText ms := by
  simp [toText]

@[simp] theorem excerpt_append_singleton (ls : Listing) (l : Line) :
    excerpt (ls ++ [l]) = toText ls ++ l.content := by
  simp [excerpt]

/-- A block is the text of its lines up to the last one, of which only the content counts. -/
theorem block_eq (hs : s ≤ e) (he : e < ls.length) :
    ls.block s e = toText ((ls.take e).drop s) ++ ls[e].content := by
  have hlen : s ≤ (ls.take e).length := by simp; omega
  rw [block, List.take_succ_eq_append_getElem he, List.drop_append_of_le_length hlen,
    excerpt_append_singleton]

theorem textBehind_eq (he : e < ls.length) :
    ls.textBehind e = ls[e].ending.toText ++ toText (ls.drop (e + 1)) := by
  rw [textBehind, List.drop_eq_getElem_cons he]

/-- A listing falls apart at two lines. -/
theorem eq_take_append (ls : Listing) (hs : s ≤ e) :
    ls = ls.take s ++ ((ls.take e).drop s ++ ls.drop e) := by
  have hle : (ls.take e).take s = ls.take s := by rw [List.take_take, Nat.min_eq_left hs]
  rw [← hle, ← List.append_assoc, List.take_append_drop, List.take_append_drop]

/-- A listing is cut by a block into three texts. -/
theorem toText_eq_block (hs : s ≤ e) (he : e < ls.length) :
    ls.toText = ls.textBefore s ++ (ls.block s e ++ ls.textBehind e) := by
  have hcut := eq_take_append ls hs
  have hend : toText (ls.drop e) = ls[e].content ++ ls.textBehind e := by
    rw [textBehind_eq he, List.drop_eq_getElem_cons he, toText_cons]
  calc
    ls.toText = toText (ls.take s ++ ((ls.take e).drop s ++ ls.drop e)) := congrArg toText hcut
    _ = ls.textBefore s ++ (ls.block s e ++ ls.textBehind e) := by
      simp [block_eq hs he, textBefore, hend]

/-- Where a text has the lines `s` to `e`, their block stands in it between what is before and what
is behind them. -/
theorem text_eq_block {t : Text} (hs : s ≤ e) (he : e < (ofText t).length) :
    t = (ofText t).textBefore s ++ ((ofText t).block s e ++ (ofText t).textBehind e) := by
  rw [← toText_eq_block hs he, toText_ofText]

theorem block?_eq_some (hs : s ≤ e) (he : e < ls.length) :
    ls.block? s e = some (ls.block s e) := by
  simp [block?, hs, he]

/-! Lines of joined texts. -/

theorem prepend_of_not_isBreak {a : Char} (h : isBreak a = false) (l : Line) (ls : Listing) :
    prepend a (l :: ls) = ⟨a :: l.content, l.ending⟩ :: ls := by
  obtain ⟨hn, hr⟩ := not_isBreak_iff.mp h
  simp [prepend, hn, hr]

theorem prepend_cr_of_ne (h : l ≠ ⟨[], .lf⟩) (ls : Listing) :
    prepend '\r' (l :: ls) = ⟨[], .cr⟩ :: l :: ls := by
  simp [prepend, h]

/-- A character in front changes the first line at most. -/
theorem prepend_append (a : Char) (l : Line) (ls ms : Listing) :
    prepend a (l :: ls ++ ms) = prepend a (l :: ls) ++ ms := by
  simp only [List.cons_append, prepend]
  split
  · rfl
  · split
    · split <;> rfl
    · rfl

/-- The last line of a text has no ending, and all others have one. -/
theorem exists_ofText_eq (t : Text) :
    ∃ ls c, ofText t = ls ++ [⟨c, .none⟩] ∧ ∀ l ∈ ls, l.ending ≠ .none := by
  induction t with
  | nil => exact ⟨[], [], rfl, by simp⟩
  | cons a t ih =>
    obtain ⟨ls, c, ht, hls⟩ := ih
    rw [ofText_cons, ht]
    cases ls with
    | nil =>
      cases ha : isBreak a with
      | false => exact ⟨[], a :: c, by simp [prepend_of_not_isBreak ha], by simp⟩
      | true =>
        rcases isBreak_iff.mp ha with rfl | rfl
        · exact ⟨[⟨[], .lf⟩], c, by simp [prepend], by simp⟩
        · exact ⟨[⟨[], .cr⟩], c, by simp [prepend_cr_of_ne], by simp⟩
    | cons l ls =>
      refine ⟨prepend a (l :: ls), c, prepend_append a l ls _, ?_⟩
      rw [List.forall_mem_cons] at hls
      cases ha : isBreak a with
      | false =>
        rw [prepend_of_not_isBreak ha, List.forall_mem_cons]
        exact hls
      | true =>
        rcases isBreak_iff.mp ha with rfl | rfl
        · simpa [prepend] using hls
        · by_cases hl : l = ⟨[], .lf⟩
          · simpa [prepend, hl] using hls.2
          · simpa [prepend_cr_of_ne hl] using hls

/-- No line holds a line break. -/
theorem not_isBreak_of_mem (hl : l ∈ ofText t) : ∀ a ∈ l.content, isBreak a = false := by
  induction t generalizing l with
  | nil => simp_all
  | cons a t ih =>
    obtain ⟨m, ms, hm⟩ := List.exists_cons_of_ne_nil (ofText_ne_nil t)
    rw [ofText_cons, hm] at hl
    rw [hm] at ih
    cases ha : isBreak a with
    | false =>
      rw [prepend_of_not_isBreak ha, List.mem_cons] at hl
      rcases hl with rfl | hl
      · simpa [ha] using ih List.mem_cons_self
      · exact ih (List.mem_cons_of_mem m hl)
    | true =>
      rcases isBreak_iff.mp ha with rfl | rfl
      · simp only [prepend, if_true, List.mem_cons] at hl
        rcases hl with rfl | hl
        · simp
        · exact ih (by simpa using hl)
      · by_cases hb : m = ⟨[], .lf⟩
        · simp only [prepend, hb, Char.reduceEq, if_false, if_true, List.mem_cons] at hl
          rcases hl with rfl | hl
          · simp
          · exact ih (List.mem_cons_of_mem m hl)
        · rw [prepend_cr_of_ne hb, List.mem_cons] at hl
          rcases hl with rfl | hl
          · simp
          · exact ih hl

theorem eq_nil_of_ofText (h : ofText t = [⟨[], .none⟩]) : t = [] := by
  rw [← toText_ofText t, h]
  rfl

theorem last_line_inj {ls' : Listing} {c' : Text}
    (h : ls ++ [⟨c, .none⟩] = ls' ++ [⟨c', .none⟩]) : ls = ls' ∧ c = c' := by
  obtain ⟨hls, hc⟩ := List.append_inj' h rfl
  exact ⟨hls, by simpa using hc⟩

/-- Joined texts share one line; all others are those of the two texts, unless a carriage return
and a line feed meet. -/
theorem ofText_append (ht : ofText t = ls ++ [⟨c, .none⟩]) (hu : ofText u = ⟨d, k⟩ :: ms)
    (hseam : t.getLast? = some '\r' → u.head? ≠ some '\n') :
    ofText (t ++ u) = ls ++ ⟨c ++ d, k⟩ :: ms := by
  induction t generalizing ls c with
  | nil =>
    have hnil : ([] : Listing) ++ [⟨[], .none⟩] = ls ++ [⟨c, .none⟩] := ht
    obtain ⟨rfl, rfl⟩ := last_line_inj hnil
    simpa using hu
  | cons a t ih =>
    obtain ⟨ls', c', ht', _⟩ := exists_ofText_eq t
    have hseam' : t.getLast? = some '\r' → u.head? ≠ some '\n' := by
      intro hlast
      apply hseam
      rw [List.getLast?_cons, hlast]
      rfl
    have hboth := ih ht' hseam'
    rw [ofText_cons, ht'] at ht
    rw [List.cons_append, ofText_cons, hboth]
    cases ls' with
    | cons l ls' =>
      rw [prepend_append] at ht ⊢
      obtain ⟨rfl, rfl⟩ := last_line_inj ht
      rfl
    | nil =>
      cases ha : isBreak a with
      | false =>
        rw [List.nil_append, prepend_of_not_isBreak ha] at ht ⊢
        have hone : ([] : Listing) ++ [⟨a :: c', .none⟩] = ls ++ [⟨c, .none⟩] := ht
        obtain ⟨rfl, rfl⟩ := last_line_inj hone
        rfl
      | true =>
        rcases isBreak_iff.mp ha with rfl | rfl
        · have htwo : [⟨[], .lf⟩] ++ [⟨c', .none⟩] = ls ++ [⟨c, .none⟩] := ht
          obtain ⟨rfl, rfl⟩ := last_line_inj htwo
          rfl
        · have hne : (⟨c' ++ d, k⟩ : Line) ≠ ⟨[], .lf⟩ := by
            intro heq
            obtain ⟨hcd, rfl⟩ := Line.mk.inj heq
            obtain ⟨rfl, rfl⟩ := List.append_eq_nil_iff.mp hcd
            obtain rfl := eq_nil_of_ofText ht'
            apply hseam rfl
            rw [← toText_ofText u, hu]
            rfl
          rw [List.nil_append, prepend_cr_of_ne (by simp)] at ht
          have htwo : [⟨[], .cr⟩] ++ [⟨c', .none⟩] = ls ++ [⟨c, .none⟩] := ht
          obtain ⟨rfl, rfl⟩ := last_line_inj htwo
          rw [List.nil_append, prepend_cr_of_ne hne]
          rfl

theorem ofText_of_endsAtBreak (h : t.EndsAtBreak) : ∃ ls, ofText t = ls ++ [⟨[], .none⟩] := by
  obtain ⟨ls, c, ht, _⟩ := exists_ofText_eq t
  rcases List.eq_nil_or_concat c with rfl | ⟨c, a, rfl⟩
  · exact ⟨ls, ht⟩
  · have hlast : t.getLast? = some a := by
      rw [← toText_ofText t, ht]
      simp [Ending.toText]
    have hmem : (⟨c.concat a, .none⟩ : Line) ∈ ofText t := by simp [ht]
    have hno := not_isBreak_of_mem hmem a (by simp)
    have hbreak := h a hlast
    simp [hno] at hbreak

theorem ofText_of_beginsAtBreak (h : t.BeginsAtBreak) : ∃ k ms, ofText t = ⟨[], k⟩ :: ms := by
  obtain ⟨⟨c, k⟩, ms, ht⟩ := List.exists_cons_of_ne_nil (ofText_ne_nil t)
  cases c with
  | nil => exact ⟨k, ms, ht⟩
  | cons a c =>
    have hhead : t.head? = some a := by
      rw [← toText_ofText t, ht]
      simp
    have hmem : (⟨a :: c, k⟩ : Line) ∈ ofText t := by simp [ht]
    have hno := not_isBreak_of_mem hmem a (by simp)
    have hbreak := h a hhead
    simp [hno] at hbreak

theorem beginsAtBreak_of_ofText (h : ofText t = ⟨[], k⟩ :: ms) : t.BeginsAtBreak := by
  have ht : t = k.toText ++ toText ms := by simpa [h] using (toText_ofText t).symm
  by_cases hk : k = .none
  · obtain ⟨ls, c, heq, hls⟩ := exists_ofText_eq t
    cases ls with
    | nil =>
      have hone : (⟨[], k⟩ : Line) :: ms = [⟨c, .none⟩] := h.symm.trans heq
      obtain ⟨_, rfl⟩ := List.cons.inj hone
      simp [ht, hk, Ending.toText, Text.BeginsAtBreak]
    | cons l ls =>
      obtain ⟨rfl, _⟩ := List.cons.inj (h.symm.trans heq)
      exact (hls _ List.mem_cons_self hk).elim
  · exact ht ▸ Ending.beginsAtBreak hk _

theorem endsAtBreak_toText (h : ∀ l ∈ ls, l.ending ≠ .none) : (toText ls).EndsAtBreak := by
  rcases List.eq_nil_or_concat ls with rfl | ⟨ls, l, rfl⟩
  · simp [Text.EndsAtBreak]
  · have hl : l.ending ≠ .none := h l (by simp)
    simpa using Ending.endsAtBreak hl (toText ls ++ l.content)

theorem endsAtBreak_of_ofText (h : ofText t = ls ++ [⟨[], .none⟩]) : t.EndsAtBreak := by
  have ht : t = toText ls := by simpa [h, Ending.toText] using (toText_ofText t).symm
  obtain ⟨ls', c, heq, hls⟩ := exists_ofText_eq t
  obtain ⟨rfl, _⟩ := last_line_inj (h.symm.trans heq)
  exact ht ▸ endsAtBreak_toText hls

theorem ofText_of_not_isBreak (h : ∀ a ∈ t, isBreak a = false) : ofText t = [⟨t, .none⟩] := by
  induction t with
  | nil => rfl
  | cons a t ih =>
    rw [List.forall_mem_cons] at h
    rw [ofText_cons, ih h.2, prepend_of_not_isBreak h.1]

/-- The lines of breaks alone are empty. -/
theorem exists_ofText_of_breaks (h : ∀ a ∈ t, isBreak a = true) :
    ∃ ls, ofText t = ls ++ [⟨[], .none⟩] ∧ ∀ l ∈ ls, l.IsBreak := by
  have hempty : ∀ l ∈ ofText t, l.content = [] := by
    intro l hl
    rw [List.eq_nil_iff_forall_not_mem]
    intro a ha
    have hat : a ∈ t := by
      rw [← toText_ofText t]
      exact List.mem_flatMap.mpr ⟨l, hl, List.mem_append_left _ ha⟩
    simpa [not_isBreak_of_mem hl a ha] using h a hat
  obtain ⟨ls, c, ht, hls⟩ := exists_ofText_eq t
  obtain rfl : c = [] := hempty ⟨c, .none⟩ (by simp [ht])
  exact ⟨ls, ht, fun l hl => ⟨hempty l (by simp [ht, hl]), hls l hl⟩⟩

/-- A break in front of a text ends an empty line, unless it joins a line feed. -/
theorem ofText_ending_append (hk : k ≠ .none) (h : k = .cr → (ofText t).head? ≠ some ⟨[], .lf⟩) :
    ofText (k.toText ++ t) = ⟨[], k⟩ :: ofText t := by
  obtain ⟨l, rest, ht⟩ := List.exists_cons_of_ne_nil (ofText_ne_nil t)
  cases k with
  | none => exact (hk rfl).elim
  | lf => simp [Ending.toText, prepend, ht]
  | crlf => simp [Ending.toText, prepend, ht]
  | cr =>
    have hl : l ≠ ⟨[], .lf⟩ := by simpa [ht] using h rfl
    simp [Ending.toText, prepend_cr_of_ne hl, ht]

/-- A piece of one line, up to its end, stands in the line in which the text before it ends. -/
theorem ofText_append_piece {piece : Text} (ht : ofText t = ls ++ [⟨c, .none⟩]) (hne : piece ≠ [])
    (hp : ∀ a ∈ piece, isBreak a = false) (hu : u.BeginsAtBreak) :
    ∃ k ms, ofText (t ++ (piece ++ u)) = ls ++ ⟨c ++ piece, k⟩ :: ms := by
  obtain ⟨k, ms, hms⟩ := ofText_of_beginsAtBreak hu
  have hpiece : ofText (piece ++ u) = ⟨piece, k⟩ :: ms := by
    have hone : ofText piece = [] ++ [⟨piece, .none⟩] := ofText_of_not_isBreak hp
    rw [ofText_append hone hms, List.nil_append, List.append_nil]
    intro hcr
    have hno := hp '\r' (List.mem_of_getLast? hcr)
    simp [isBreak] at hno
  refine ⟨k, ms, ofText_append ht hpiece ?_⟩
  intro _ hlf
  obtain ⟨a, piece, rfl⟩ := List.exists_cons_of_ne_nil hne
  obtain rfl : a = '\n' := by simpa using hlf
  have hno := hp '\n' (by simp)
  simp [isBreak] at hno

/-- The lines are cut at their breaks: none of them holds a break, and each one but the last ends
with one. -/
structure IsSplit (ls : Listing) : Prop where
  solid : ∀ l ∈ ls, ∀ a ∈ l.content, isBreak a = false
  ended : ∀ l ∈ ls.dropLast, l.ending ≠ .none

theorem isSplit_ofText (t : Text) : (ofText t).IsSplit := by
  obtain ⟨ls, c, ht, hls⟩ := exists_ofText_eq t
  refine ⟨fun l hl => not_isBreak_of_mem hl, ?_⟩
  rw [ht, List.dropLast_concat]
  exact hls

theorem IsSplit.ended_left (h : (ls ++ ms).IsSplit) (hne : ms ≠ []) :
    ∀ l ∈ ls, l.ending ≠ .none := by
  intro l hl
  apply h.ended
  rw [List.dropLast_append_of_ne_nil hne]
  exact List.mem_append_left _ hl

theorem IsSplit.left (h : (ls ++ ms).IsSplit) : ls.IsSplit := by
  refine ⟨fun l hl => h.solid l (List.mem_append_left ms hl), ?_⟩
  intro l hl
  cases ms with
  | nil => exact h.ended l (by simpa using hl)
  | cons m ms => exact h.ended_left (by simp) l ((List.dropLast_subset ls hl))

theorem IsSplit.of_suffix (h : ls.IsSplit) (hs : ms <:+ ls) : ms.IsSplit := by
  obtain ⟨before, rfl⟩ := hs
  refine ⟨fun l hl => h.solid l (List.mem_append_right before hl), ?_⟩
  intro l hl
  apply h.ended
  rw [List.dropLast_append_of_ne_nil (by rintro rfl; simp at hl)]
  exact List.mem_append_right _ hl

theorem IsSplit.beginsAtBreak (h : IsSplit (l :: ls)) :
    (l.ending.toText ++ toText ls).BeginsAtBreak := by
  cases ls with
  | nil =>
    intro a ha
    exact Ending.isBreak_of_mem a (by simpa using List.mem_of_mem_head? ha)
  | cons m ls => exact Ending.beginsAtBreak (h.ended l (by simp)) _

/-- The content of the first line does not matter to the others, nor its ending when it is the
last line. -/
theorem IsSplit.cons_empty (h : IsSplit (l :: ls)) : IsSplit (⟨[], l.ending⟩ :: ls) := by
  refine ⟨List.forall_mem_cons.mpr ⟨by simp, fun m hm => h.solid m (by simp [hm])⟩, ?_⟩
  cases ls with
  | nil => simp
  | cons m ls =>
    intro x hx
    rcases List.mem_cons.mp hx with rfl | hx
    · exact h.ended l (by simp)
    · exact h.ended x (List.mem_cons_of_mem l hx)

/-- The lines of a text that is cut before and behind a piece of whole lines. -/
theorem ofText_frame {a code b : Text} (ha : a.EndsAtBreak) (hc : code.IsFramed)
    (hb : b.BeginsAtBreak) :
    ∃ before inside last k behind, ofText a = before ++ [⟨[], .none⟩] ∧
      ofText code = inside ++ [⟨last, .none⟩] ∧ ofText b = ⟨[], k⟩ :: behind ∧
      ofText (a ++ (code ++ b)) = before ++ (inside ++ ⟨last, k⟩ :: behind) := by
  obtain ⟨before, hbefore⟩ := ofText_of_endsAtBreak ha
  obtain ⟨inside, last, hcode, _⟩ := exists_ofText_eq code
  obtain ⟨k, behind, hbehind⟩ := ofText_of_beginsAtBreak hb
  obtain ⟨x, hx, hxb⟩ := hc.head
  obtain ⟨y, hy, hyb⟩ := hc.last
  have hrest : ofText (code ++ b) = inside ++ ⟨last, k⟩ :: behind := by
    rw [ofText_append hcode hbehind, List.append_nil]
    intro hcr
    rw [hy, Option.some.injEq] at hcr
    simp [hcr, isBreak] at hyb
  obtain ⟨⟨d, k'⟩, ms, hms⟩ := List.exists_cons_of_ne_nil (ofText_ne_nil (code ++ b))
  have hall : ofText (a ++ (code ++ b)) = before ++ ofText (code ++ b) := by
    rw [ofText_append hbefore hms, hms, List.nil_append]
    intro _ hlf
    simp only [List.head?_append, hx, Option.some_or, Option.some.injEq] at hlf
    simp [hlf, isBreak] at hxb
  exact ⟨before, inside, last, k, behind, hbefore, hcode, hbehind, by rw [hall, hrest]⟩

/-- A block of fewer lines is a beginning of a block, and ends where a line of it does. -/
theorem exists_block_eq_append {n : Nat} (h : ls.IsSplit) (hs : s ≤ e) (he : e ≤ n)
    (hn : n < ls.length) :
    ∃ rest : Text, ls.block s n = ls.block s e ++ rest ∧ rest.BeginsAtBreak := by
  rcases Nat.eq_or_lt_of_le he with rfl | hlt
  · exact ⟨[], by simp, by simp [Text.BeginsAtBreak]⟩
  · have helen : e < ls.length := Nat.lt_trans hlt hn
    have hcut : (ls.take n).drop s = (ls.take e).drop s ++ (ls.take n).drop e := by
      have htake : (ls.take n).take e = ls.take e := by rw [List.take_take, Nat.min_eq_left he]
      have hlen : s ≤ (ls.take e).length := by simp; omega
      rw [← List.drop_append_of_le_length hlen, ← htake, List.take_append_drop]
    have hmid : (ls.take n).drop e = ls[e] :: (ls.take n).drop (e + 1) := by
      rw [List.drop_eq_getElem_cons (by simp; omega), List.getElem_take]
    have hend : ls[e].ending ≠ .none := by
      apply h.ended
      rw [List.mem_iff_getElem]
      exact ⟨e, by simp; omega, List.getElem_dropLast _⟩
    refine ⟨ls[e].ending.toText ++ (toText ((ls.take n).drop (e + 1)) ++ ls[n].content), ?_,
      Ending.beginsAtBreak hend _⟩
    rw [block_eq hs helen, block_eq (Nat.le_trans hs he) hn, hcut, hmid]
    simp

end Listing

end AsmListing
