import AsmListing.Proofs.Collapse
import Mathlib.Data.List.SplitBy

/-! Collapsing as search and replacement. A pattern for three breaks or more is looked for from left
to right, and what it matches is replaced by two copies of the break that the match begins with. A
carriage return and a line feed may be read as one break or as two, so the pattern has to take its
choices back where they lead to fewer than three breaks. It reads whole runs of breaks nevertheless,
and collapses a text as the rule by the number of characters does. -/
namespace AsmListing

open Listing

variable {t u run word rest : Text} {k : Ending} {least n : Nat}

namespace BlankRun

/-- The forms of a break, in the order in which the pattern tries them. -/
def forms : List Text := ["\r\n", "\r", "\n"]

/-- What may be left behind a first break, in the order of its forms. -/
def choices (t : Text) : List Text := forms.filterMap fun form => t.dropPrefix? form

theorem length_lt_of_mem_choices (h : rest ∈ choices t) : rest.length < t.length := by
  obtain ⟨form, hform, hrest⟩ := List.mem_filterMap.mp h
  obtain ⟨p, rfl, hp⟩ := List.dropPrefix?_eq_some_iff.mp hrest
  obtain rfl := eq_of_beq hp
  have hpos : 0 < p.length := by
    simp only [forms, List.mem_cons, List.not_mem_nil, or_false] at hform
    rcases hform with rfl | rfl | rfl <;> decide
  simp only [List.length_append]
  omega

/-- Where the pattern for at least so many breaks stops matching. It goes on as long as it can, and
takes a choice back only where no match comes of it. -/
def runEnd? (least : Nat) (t : Text) : Option Text :=
  match (choices t).attach.findSome? fun rest => runEnd? (least - 1) rest.1 with
  | some rest => some rest
  | none => if least = 0 then some t else none
termination_by t.length
decreasing_by exact length_lt_of_mem_choices rest.2

theorem runEnd?_eq (least : Nat) (t : Text) : runEnd? least t =
    ((choices t).findSome? (runEnd? (least - 1))).or (if least = 0 then some t else none) := by
  have hattach : (choices t).attach.findSome? (fun rest => runEnd? (least - 1) rest.1) =
      (choices t).findSome? (runEnd? (least - 1)) := by
    simp
  rw [runEnd?, hattach]
  cases (choices t).findSome? (runEnd? (least - 1)) <;> rfl

theorem choices_of_not_isBreak (h : ∀ c ∈ t.head?, isBreak c = false) : choices t = [] := by
  cases t with
  | nil => rfl
  | cons c t =>
    obtain ⟨hlf, hcr⟩ := not_isBreak_iff.mp (h c rfl)
    simp [choices, forms, List.dropPrefix?, hlf, hcr]

/-- Only a carriage return in front of a line feed leaves a choice. -/
theorem choices_cons {c : Char} (h : isBreak c = true) (t : Text) :
    choices (c :: t) = [t] ∨ ∃ u, t = '\n' :: u ∧ choices (c :: t) = [u, t] := by
  rcases isBreak_iff.mp h with rfl | rfl
  · exact Or.inl (by simp [choices, forms, List.dropPrefix?])
  · by_cases hlf : t.head? = some '\n'
    · obtain ⟨u, rfl⟩ := List.head?_eq_some_iff.mp hlf
      exact Or.inr ⟨u, rfl, by simp [choices, forms, List.dropPrefix?]⟩
    · left
      cases t with
      | nil => rfl
      | cons d t =>
        have hd : d ≠ '\n' := by simpa using hlf
        simp [choices, forms, List.dropPrefix?, hd]

/-- Where one more break can be read, stopping in front of it is of no use. -/
theorem or_stop (least n : Nat) (found stop : Text) :
    (if least - 1 ≤ n then some found else none).or (if least = 0 then some stop else none) =
      if least ≤ n + 1 then some found else none := by
  by_cases hle : least ≤ n + 1
  · rw [if_pos hle, if_pos (by omega), Option.some_or]
  · rw [if_neg hle, if_neg (by omega), Option.none_or, if_neg (by omega)]

/-- However a run has to be read for it, a match takes the whole run, and there is one where the run
has as many characters as breaks are wanted. -/
theorem runEnd?_eq_dropWhile (least : Nat) (t : Text) : runEnd? least t =
    if least ≤ (t.takeWhile isBreak).length then some (t.dropWhile isBreak) else none := by
  induction hlength : t.length using Nat.strongRecOn generalizing least t with
  | ind n ih =>
    subst hlength
    rw [runEnd?_eq]
    cases t with
    | nil => cases least <;> rfl
    | cons c t =>
      cases hc : isBreak c with
      | false =>
        rw [choices_of_not_isBreak (by simpa using hc)]
        cases least <;> simp [hc]
      | true =>
        have hrest := ih t.length (by simp) (least - 1) t rfl
        rw [List.takeWhile_cons_of_pos hc, List.dropWhile_cons_of_pos hc, List.length_cons]
        rcases choices_cons hc t with hchoices | ⟨u, rfl, hchoices⟩
        · rw [hchoices, List.findSome?_singleton, hrest, or_stop]
        · have hshorter : u.length < (c :: '\n' :: u).length := by
            simp only [List.length_cons]
            omega
          have hu := ih u.length hshorter (least - 1) u rfl
          have hlf : isBreak '\n' = true := rfl
          rw [List.dropWhile_cons_of_pos hlf] at hrest ⊢
          rw [hchoices, List.findSome?_cons, List.findSome?_singleton, hu, hrest]
          -- reading both characters as one break may leave too few of them
          by_cases hboth : least - 1 ≤ (u.takeWhile isBreak).length
          · have hle : least ≤ (('\n' :: u).takeWhile isBreak).length + 1 := by
              rw [List.takeWhile_cons_of_pos hlf, List.length_cons]
              omega
            rw [if_pos hboth, if_pos hle]
            rfl
          · rw [if_neg hboth]
            exact or_stop ..

/-- Two breaks are three for the pattern where one of them has two characters. -/
example : runEnd? 3 "\r\n\nret" = some "ret".toList := by cbv

theorem takeWhile_append_of_runEnd? (h : runEnd? least t = some rest) :
    t = t.takeWhile isBreak ++ rest ∧ least ≤ (t.takeWhile isBreak).length ∧
      rest = t.dropWhile isBreak := by
  rw [runEnd?_eq_dropWhile] at h
  split at h
  · next hlong =>
    obtain rfl := Option.some.inj h
    exact ⟨List.takeWhile_append_dropWhile.symm, hlong, rfl⟩
  · cases h

theorem length_lt_of_runEnd? (h : runEnd? 3 t = some rest) : rest.length < t.length := by
  obtain ⟨heq, hlong, _⟩ := takeWhile_append_of_runEnd? h
  have hlength := congrArg List.length heq
  rw [List.length_append] at hlength
  omega

/-- The first form of a break with which a match begins. -/
def firstForm (run : Text) : Text := (forms.find? fun form => form.isPrefixOf run).getD []

/-- The text with each match of the pattern for three breaks, from left to right, replaced by two
copies of its first break. -/
def replaceRuns : Text → Text
  | [] => []
  | c :: t =>
    match _h : runEnd? 3 (c :: t) with
    | some rest =>
      let first := firstForm ((c :: t).take ((c :: t).length - rest.length))
      first ++ first ++ replaceRuns rest
    | none => c :: replaceRuns t
termination_by t => t.length
decreasing_by
  · exact length_lt_of_runEnd? _h
  · exact Nat.lt_succ_self _

theorem firstForm_eq (hne : run ≠ []) (h : ∀ c ∈ run, isBreak c = true) :
    firstForm run = firstBreak run := by
  obtain ⟨c, run, rfl⟩ := List.exists_cons_of_ne_nil hne
  rcases isBreak_iff.mp (h c List.mem_cons_self) with rfl | rfl
  · rfl
  · cases run with
    | nil => rfl
    | cons d run =>
      rw [firstBreak_cons_cons]
      by_cases hd : d = '\n'
      · subst hd
        rfl
      · have hlf : '\n' ≠ d := Ne.symm hd
        simp [firstForm, forms, hd, hlf]

/-- A match is replaced by what its run becomes. -/
theorem settle_of_runEnd? (h : runEnd? 3 t = some rest) :
    settle (t.takeWhile isBreak) =
      firstForm (t.take (t.length - rest.length)) ++
        firstForm (t.take (t.length - rest.length)) := by
  obtain ⟨heq, hlong, _⟩ := takeWhile_append_of_runEnd? h
  have hrun : t.take (t.length - rest.length) = t.takeWhile isBreak := by
    generalize t.takeWhile isBreak = run at heq
    rw [heq, List.length_append, Nat.add_sub_cancel, List.take_left]
  have hne : t.takeWhile isBreak ≠ [] := List.ne_nil_of_length_pos (by omega)
  rw [hrun, firstForm_eq hne fun c hc => List.mem_takeWhile_imp hc, settle, if_neg (by omega)]

/-- A character at which no match begins stays, also where it is part of a short run. -/
theorem collapse_cons_of_runEnd?_eq_none {c : Char} (h : runEnd? 3 (c :: t) = none) :
    Text.collapse (c :: t) = c :: t.collapse := by
  cases hc : isBreak c with
  | false => exact Text.collapse_cons_of_not_isBreak t hc
  | true =>
    have hshort : (t.takeWhile isBreak).length < 2 := by
      rw [runEnd?_eq_dropWhile, List.takeWhile_cons_of_pos hc, List.length_cons] at h
      simpa using h
    rw [Text.collapse_eq, Text.collapse_eq t, List.takeWhile_cons_of_pos hc,
      List.dropWhile_cons_of_pos hc, settle, settle, List.length_cons, if_pos (by omega),
      if_pos (by omega)]
    rfl

theorem replaceRuns_eq_collapse (t : Text) : replaceRuns t = t.collapse := by
  fun_induction replaceRuns t with
  | case1 => rfl
  | case2 c t rest h first ih =>
    obtain ⟨_, _, hrest⟩ := takeWhile_append_of_runEnd? h
    rw [ih, Text.collapse_eq (c :: t), settle_of_runEnd? h, ← hrest]
  | case3 c t h ih => rw [ih, collapse_cons_of_runEnd?_eq_none h]

end BlankRun

namespace Text

/-- The text as its maximal runs of breaks and the pieces of lines between them. -/
def pieces (t : Text) : List Text := t.splitBy fun c d => isBreak c == isBreak d

@[simp] theorem flatten_pieces (t : Text) : t.pieces.flatten = t := List.flatten_splitBy _ t

theorem pieces_append {b : Bool} (hne : u ≠ []) (hu : ∀ c ∈ u, isBreak c = b)
    (ht : ∀ c ∈ t.head?, isBreak c = !b) : pieces (u ++ t) = u :: t.pieces := by
  have hchain : u.IsChain fun c d => (isBreak c == isBreak d) = true := by
    apply List.Pairwise.isChain
    rw [List.pairwise_iff_forall_sublist]
    intro c d hcd
    have hc := hu c (hcd.subset (by simp))
    have hd := hu d (hcd.subset (by simp))
    simp [hc, hd]
  have hseam : ∀ c ∈ u.getLast?, ∀ d ∈ t.head?, (isBreak c == isBreak d) = false := by
    intro c hc d hd
    rw [hu c (List.mem_of_getLast? hc), ht d hd]
    cases b <;> rfl
  rw [pieces, List.splitBy_append hseam, List.splitBy_of_isChain hne hchain]
  rfl

/-- What becomes of a piece: a run of at least three characters is two of its first break. -/
def shorten (piece : Text) : Text :=
  if piece.all isBreak ∧ 3 ≤ piece.length then
    BlankRun.firstBreak piece ++ BlankRun.firstBreak piece
  else piece

theorem shorten_of_breaks (h : ∀ c ∈ run, isBreak c = true) :
    shorten run = BlankRun.settle run := by
  have hall : run.all isBreak = true := List.all_eq_true.mpr h
  by_cases hlong : 3 ≤ run.length
  · rw [shorten, if_pos ⟨hall, hlong⟩, BlankRun.settle, if_neg (by omega)]
  · rw [shorten, if_neg fun hboth => hlong hboth.2, BlankRun.settle, if_pos (by omega)]

theorem shorten_of_not_breaks (h : ¬ word.all isBreak = true) : shorten word = word :=
  if_neg fun hboth => h hboth.1

/-- Collapsing keeps the pieces apart. -/
theorem pieces_collapse (t : Text) : t.collapse.pieces = t.pieces.map shorten := by
  induction t using runs_induction with
  | nil => rfl
  | breaks run rest hne hb hr ih =>
    have hsettled : ∀ c ∈ BlankRun.settle run, isBreak c = true :=
      fun c hc => BlankRun.isBreak_of_mem_settle hc hb
    have hsome : BlankRun.settle run ≠ [] := by
      simpa only [ne_eq, ← List.head?_eq_none_iff, BlankRun.head?_settle] using hne
    have hhead : ∀ c ∈ rest.collapse.head?, isBreak c = !true := by simpa [head?_collapse] using hr
    rw [collapse_breaks_append hb hr, pieces_append hsome hsettled hhead,
      pieces_append hne hb (by simpa using hr), List.map_cons, shorten_of_breaks hb, ih]
  | line word rest hne hl hr ih =>
    have hhead : ∀ c ∈ rest.collapse.head?, isBreak c = !false := hr.collapse
    have hword : ¬ word.all isBreak = true := by
      obtain ⟨c, hc⟩ := List.exists_mem_of_ne_nil word hne
      intro hall
      simpa [hl c hc] using List.all_eq_true.mp hall c hc
    rw [collapse_line_append hl, pieces_append hne hl hhead, pieces_append hne hl hr,
      List.map_cons, shorten_of_not_breaks hword, ih]

theorem collapse_eq_flatMap (t : Text) : t.collapse = t.pieces.flatMap shorten := by
  rw [← flatten_pieces t.collapse, pieces_collapse, List.flatMap]

end Text

/-- The same break again and again. -/
def Ending.times (k : Ending) (n : Nat) : Text := (List.replicate n k.toText).flatten

namespace Ending

theorem times_succ (k : Ending) (n : Nat) : k.times (n + 1) = k.toText ++ k.times n := by
  rw [times, List.replicate_succ, List.flatten_cons]
  rfl

theorem isBreak_of_mem_times {c : Char} (hc : c ∈ k.times n) : isBreak c = true := by
  obtain ⟨l, hl, hcl⟩ := List.mem_flatten.mp hc
  rw [List.eq_of_mem_replicate hl] at hcl
  exact isBreak_of_mem c hcl

theorem times_inj (hk : k ≠ .none) {m : Nat} : k.times n = k.times m ↔ n = m := by
  refine ⟨fun h => ?_, fun h => h ▸ rfl⟩
  have hlength := congrArg List.length h
  have hpos : 0 < k.toText.length := by cases k <;> simp_all [toText]
  simp only [times, List.length_flatten, List.map_replicate, List.sum_replicate_nat] at hlength
  exact Nat.eq_of_mul_eq_mul_right hpos hlength

theorem settle_times (hk : k ≠ .none) (n : Nat) :
    BlankRun.settle (k.times n) = k.times (min n 2) := by
  match n with
  | 0 => rfl
  | 1 => cases k <;> rfl
  | 2 => cases k <;> rfl
  | n + 3 =>
    have hne : k.times (n + 1) ≠ [] := by
      intro hnil
      have := (times_inj hk (m := 0)).mp hnil
      omega
    rw [times_succ, times_succ, BlankRun.settle_endings hk hne]
    simp [times]

end Ending

namespace Text

/-- All lines that end with a break end with the same one. -/
def IsUniform (k : Ending) (t : Text) : Prop :=
  ∀ l ∈ ofText t, l.ending = .none ∨ l.ending = k

theorem IsUniform.of_append (h : IsUniform k (t ++ u))
    (hseam : t.getLast? = some '\r' → u.head? ≠ some '\n') : IsUniform k t ∧ IsUniform k u := by
  obtain ⟨ls, c, ht, _⟩ := exists_ofText_eq t
  obtain ⟨⟨d, e⟩, ms, hu⟩ := List.exists_cons_of_ne_nil (ofText_ne_nil u)
  rw [IsUniform, ofText_append ht hu hseam, List.forall_mem_append, List.forall_mem_cons] at h
  rw [IsUniform, IsUniform, ht, hu, List.forall_mem_append, List.forall_mem_singleton,
    List.forall_mem_cons]
  exact ⟨⟨h.1, Or.inl rfl⟩, h.2⟩

theorem IsUniform.exists_times (h : IsUniform k run) (hb : ∀ c ∈ run, isBreak c = true) :
    ∃ n, run = k.times n := by
  obtain ⟨ls, hrun, hls⟩ := exists_ofText_of_breaks hb
  have hsame : ls = List.replicate ls.length ⟨[], k⟩ := by
    refine List.eq_replicate_iff.mpr ⟨rfl, fun l hl => ?_⟩
    obtain ⟨hcontent, hending⟩ := hls l hl
    obtain ⟨content, ending⟩ := l
    obtain rfl : content = [] := hcontent
    obtain rfl : ending = k := (h _ (by simp [hrun, hl])).resolve_left hending
    rfl
  refine ⟨ls.length, ?_⟩
  rw [← toText_ofText run, hrun, hsame, List.length_replicate]
  simp only [toText, List.flatMap, Ending.times]
  simp [Line.toText, Ending.toText]

/-- The runs of a uniform text repeat its break. -/
theorem IsUniform.exists_times_of_mem_pieces (h : IsUniform k t) {piece : Text}
    (hmem : piece ∈ t.pieces) (hb : ∀ c ∈ piece, isBreak c = true) : ∃ n, piece = k.times n := by
  induction t using runs_induction with
  | nil => simp [pieces] at hmem
  | breaks run rest hne hrun hr ih =>
    have hparts := h.of_append fun _ hlf => absurd (hr '\n' hlf) (by decide)
    rw [pieces_append hne hrun (by simpa using hr), List.mem_cons] at hmem
    obtain rfl | hmem := hmem
    · exact hparts.1.exists_times hrun
    · exact ih hparts.2 hmem
  | line word rest hne hl hr ih =>
    have hparts := h.of_append fun hcr =>
      absurd (hl '\r' (List.mem_of_getLast? hcr)) (by decide)
    rw [pieces_append hne hl hr, List.mem_cons] at hmem
    obtain rfl | hmem := hmem
    · obtain ⟨c, hc⟩ := List.exists_mem_of_ne_nil piece hne
      have := hb c hc
      simp [hl c hc] at this
    · exact ih hparts.2 hmem

theorem collapse_eq_self_iff (t : Text) : t.collapse = t ↔ ∀ p ∈ t.pieces, p.shorten = p := by
  calc t.collapse = t
      ↔ t.collapse.pieces = t.pieces :=
        ⟨fun h => by rw [h], fun h => by rw [← flatten_pieces t.collapse, h, flatten_pieces]⟩
    _ ↔ t.pieces.map shorten = t.pieces.map id := by rw [pieces_collapse, List.map_id]
    _ ↔ ∀ p ∈ t.pieces, p.shorten = p := List.map_inj_left

theorem IsUniform.collapse_ne_self_iff (hk : k ≠ .none) (h : IsUniform k t) :
    t.collapse ≠ t ↔ ∃ n, 3 ≤ n ∧ k.times n ∈ t.pieces := by
  have hshorten (n : Nat) : shorten (k.times n) = k.times n ↔ ¬ 3 ≤ n := by
    rw [shorten_of_breaks fun c => Ending.isBreak_of_mem_times, Ending.settle_times hk,
      Ending.times_inj hk]
    omega
  rw [ne_eq, collapse_eq_self_iff]
  constructor
  · intro hne
    push Not at hne
    obtain ⟨p, hp, hshort⟩ := hne
    have hall : p.all isBreak = true := by
      by_contra hno
      exact hshort (shorten_of_not_breaks hno)
    obtain ⟨n, rfl⟩ := h.exists_times_of_mem_pieces hp (List.all_eq_true.mp hall)
    exact ⟨n, not_not.mp ((hshorten n).not.mp hshort), hp⟩
  · rintro ⟨n, hn, hp⟩ hsame
    exact (hshorten n).mp (hsame _ hp) hn

/-- Replacing what the search finds is the simple rule: every maximal run of at least three break
characters is two of its first break, and all else stays. Where a text has one kind of break, it
is changed exactly where a run of three breaks or more stands in it. -/
theorem replaceRuns_spec (t : Text) :
    BlankRun.replaceRuns t = t.collapse ∧
    t.collapse = t.pieces.flatMap shorten ∧
    ∀ k, k ≠ .none → t.IsUniform k →
      (t.collapse ≠ t ↔ ∃ n, 3 ≤ n ∧ k.times n ∈ t.pieces) ∧
      ∀ p ∈ t.pieces, (∀ c ∈ p, isBreak c = true) →
        ∃ n, p = k.times n ∧ p.shorten = k.times (min n 2) := by
  refine ⟨BlankRun.replaceRuns_eq_collapse t, collapse_eq_flatMap t, fun k hk h => ?_⟩
  refine ⟨h.collapse_ne_self_iff hk, fun p hp hb => ?_⟩
  obtain ⟨n, rfl⟩ := h.exists_times_of_mem_pieces hp hb
  refine ⟨n, rfl, ?_⟩
  rw [shorten_of_breaks hb, Ending.settle_times hk]

end Text
end AsmListing
