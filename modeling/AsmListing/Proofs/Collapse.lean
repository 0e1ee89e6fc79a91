import AsmListing.Proofs.SolidLines
import Mathlib.Data.List.TakeWhile

/-! What collapsing runs of line breaks leaves as it is. A text is looked at as runs of breaks and
pieces of lines in turn. -/
namespace AsmListing

variable {t u run word rest : Text}

namespace BlankRun

theorem mem_of_mem_firstBreak {c : Char} (hc : c ∈ firstBreak run) : c ∈ run := by
  unfold firstBreak at hc
  split at hc
  · simp only [List.mem_cons, List.not_mem_nil, or_false] at hc
    obtain rfl | rfl := hc <;> simp
  · simp_all
  · simp at hc

theorem mem_of_mem_settle {c : Char} (hc : c ∈ settle run) : c ∈ run := by
  unfold settle at hc
  split at hc
  · exact hc
  · rw [List.mem_append, or_self] at hc
    exact mem_of_mem_firstBreak hc

/-- A settled run consists of breaks, as the run did. -/
theorem isBreak_of_mem_settle {c : Char} (hc : c ∈ settle run)
    (h : ∀ c ∈ run, isBreak c = true) : isBreak c = true := h c (mem_of_mem_settle hc)

theorem head?_settle (run : Text) : (settle run).head? = run.head? := by
  unfold settle
  split
  · rfl
  · unfold firstBreak
    split <;> rfl

theorem firstBreak_cons_cons (c d : Char) (run : Text) :
    firstBreak (c :: d :: run) = if c = '\r' ∧ d = '\n' then ['\r', '\n'] else [c] := by
  unfold firstBreak
  split
  · next heq =>
    obtain ⟨hc, hrun⟩ := List.cons.inj heq
    rw [if_pos ⟨hc, (List.cons.inj hrun).1⟩]
  · next hno heq =>
    obtain ⟨rfl, rfl⟩ := List.cons.inj heq
    rw [if_neg]
    rintro ⟨rfl, rfl⟩
    exact hno run rfl rfl
  · next heq => cases heq

/-- Only the first two characters of a long run matter. -/
theorem settle_cons_cons {c d : Char} (h : run ≠ []) :
    settle (c :: d :: run) = firstBreak [c, d] ++ firstBreak [c, d] := by
  have hpos := List.length_pos_iff.mpr h
  have hlong : ¬ (c :: d :: run).length < 3 := by simp; omega
  rw [settle, if_neg hlong, firstBreak_cons_cons, firstBreak_cons_cons]

/-- Three breaks are two, of however many characters each is. -/
theorem settle_endings {k : Ending} (hk : k ≠ .none) (h : run ≠ []) :
    settle (k.toText ++ (k.toText ++ run)) = k.toText ++ k.toText := by
  cases k with
  | none => exact (hk rfl).elim
  | lf => exact settle_cons_cons h
  | cr => exact settle_cons_cons h
  | crlf => exact settle_cons_cons (List.cons_ne_nil _ _)

/-- A long run begins as before once it has settled, and what follows it is lost. -/
theorem exists_settle_cons_cons (c d : Char) (h : run ≠ []) :
    ∃ x y, settle (c :: d :: run) = c :: x :: y ∧
      ∀ t, settle (c :: x :: (y ++ t)) = c :: x :: y := by
  rw [settle_cons_cons h, firstBreak_cons_cons]
  split
  · next hcrlf =>
    obtain ⟨rfl, rfl⟩ := hcrlf
    exact ⟨'\n', ['\r', '\n'], rfl, fun t => settle_cons_cons (by simp)⟩
  · refine ⟨c, [], rfl, fun t => ?_⟩
    by_cases ht : t = []
    · rw [ht]
      rfl
    · rw [List.nil_append, settle_cons_cons ht, firstBreak_cons_cons, if_neg]
      · rfl
      · rintro ⟨rfl, hlf⟩
        simp at hlf

/-- A run settles in the same way if its front has settled before. -/
theorem settle_settle_append (run t : Text) : settle (settle run ++ t) = settle (run ++ t) := by
  match run with
  | [] | [_] | [_, _] => rfl
  | c :: d :: e :: run =>
    obtain ⟨x, y, heq, hsettled⟩ := exists_settle_cons_cons c d (List.cons_ne_nil e run)
    have hlong : settle (c :: d :: e :: (run ++ t)) = settle (c :: d :: e :: run) := by
      rw [settle_cons_cons (by simp), settle_cons_cons (by simp)]
    rw [heq, List.cons_append, List.cons_append, hsettled]
    exact heq.symm.trans hlong.symm

theorem settle_settle (run : Text) : settle (settle run) = settle run := by
  simpa using settle_settle_append run []

/-- So it does if its end has settled before. -/
theorem settle_append_settle (run t : Text) : settle (run ++ settle t) = settle (run ++ t) := by
  match t with
  | [] | [_] | [_, _] => rfl
  | c :: d :: e :: t =>
    obtain ⟨x, y, heq, _⟩ := exists_settle_cons_cons c d (List.cons_ne_nil e t)
    match run with
    | [] => exact settle_settle (c :: d :: e :: t)
    | [a] =>
      rw [heq, List.singleton_append, List.singleton_append, settle_cons_cons (by simp),
        settle_cons_cons (by simp)]
    | a :: b :: run =>
      rw [heq]
      simp only [List.cons_append]
      rw [settle_cons_cons (by simp), settle_cons_cons (by simp)]

end BlankRun

namespace Text

/-- A text is nothing, a run of breaks before a text that begins within a line, or a piece of a line
before a text. -/
theorem runs_induction {motive : Text → Prop} (nil : motive [])
    (breaks : ∀ run rest, run ≠ [] → (∀ c ∈ run, isBreak c = true) →
      (∀ c ∈ rest.head?, isBreak c = false) → motive rest → motive (run ++ rest))
    (line : ∀ word rest, word ≠ [] → (∀ c ∈ word, isBreak c = false) →
      rest.BeginsAtBreak → motive rest → motive (word ++ rest)) (t : Text) : motive t := by
  induction h : t.length using Nat.strongRecOn generalizing t with
  | ind n ih =>
    subst h
    have shorter (p : Char → Bool) (c : Char) (t : Text) (hc : p c = true) :
        ((c :: t).dropWhile p).length < (c :: t).length := by
      rw [List.dropWhile_cons_of_pos hc, List.length_cons]
      exact Nat.lt_succ_of_le (List.dropWhile_suffix p).length_le
    cases t with
    | nil => exact nil
    | cons c t =>
      cases hc : isBreak c with
      | true =>
        rw [← List.takeWhile_append_dropWhile (p := isBreak) (l := c :: t)]
        refine breaks _ _ (by simp [hc]) (fun d hd => List.mem_takeWhile_imp hd) ?_
          (ih _ (shorter isBreak c t hc) _ rfl)
        intro d hd
        have := List.head?_dropWhile_not isBreak (c :: t)
        simp_all
      | false =>
        rw [← List.takeWhile_append_dropWhile (p := fun d => !isBreak d) (l := c :: t)]
        refine line _ _ (by simp [hc]) ?_ ?_
          (ih _ (shorter (fun d => !isBreak d) c t (by simp [hc])) _ rfl)
        · intro d hd
          simpa using List.mem_takeWhile_imp hd
        · intro d hd
          have := List.head?_dropWhile_not (fun d => !isBreak d) (c :: t)
          simp_all

@[simp] theorem collapse_nil : collapse [] = [] := rfl

/-- A run of breaks before a text goes on with the breaks that the text begins with. -/
theorem collapse_breaks (h : ∀ c ∈ run, isBreak c = true) (t : Text) :
    collapse (run ++ t) =
      BlankRun.settle (run ++ t.takeWhile isBreak) ++ collapse (t.dropWhile isBreak) := by
  rw [collapse_eq, List.takeWhile_append_of_pos h, List.dropWhile_append_of_pos h]

theorem takeWhile_eq_nil (h : ∀ c ∈ t.head?, isBreak c = false) : t.takeWhile isBreak = [] := by
  cases t with
  | nil => rfl
  | cons c t => simp [h c rfl]

theorem dropWhile_eq_self (h : ∀ c ∈ t.head?, isBreak c = false) : t.dropWhile isBreak = t := by
  cases t with
  | nil => rfl
  | cons c t => simp [h c rfl]

theorem collapse_breaks_append (h : ∀ c ∈ run, isBreak c = true)
    (hr : ∀ c ∈ rest.head?, isBreak c = false) :
    collapse (run ++ rest) = BlankRun.settle run ++ collapse rest := by
  rw [collapse_breaks h, takeWhile_eq_nil hr, dropWhile_eq_self hr, List.append_nil]

theorem collapse_line_append (h : ∀ c ∈ word, isBreak c = false) (rest : Text) :
    collapse (word ++ rest) = word ++ collapse rest := by
  induction word with
  | nil => rfl
  | cons c word ih =>
    rw [List.forall_mem_cons] at h
    rw [List.cons_append, collapse_cons_of_not_isBreak _ h.1, ih h.2, List.cons_append]

theorem head?_collapse (t : Text) : (collapse t).head? = t.head? := by
  induction t using runs_induction with
  | nil => rfl
  | breaks run rest _ hb hr ih =>
    rw [collapse_breaks_append hb hr, List.head?_append, List.head?_append,
      BlankRun.head?_settle, ih]
  | line word rest _ hl _ ih =>
    rw [collapse_line_append hl, List.head?_append, List.head?_append, ih]

theorem collapse_ne_nil (h : t ≠ []) : collapse t ≠ [] := by
  intro hnil
  have hhead := head?_collapse t
  rw [hnil] at hhead
  exact h (List.head?_eq_none_iff.mp hhead.symm)

theorem BeginsAtBreak.collapse (h : t.BeginsAtBreak) : (collapse t).BeginsAtBreak := by
  rw [BeginsAtBreak, head?_collapse]
  exact h

theorem endsAtBreak_append_iff (hu : u ≠ []) (t : Text) :
    (t ++ u).EndsAtBreak ↔ u.EndsAtBreak := by
  obtain ⟨w, c, rfl⟩ := (List.eq_nil_or_concat u).resolve_left hu
  simp [EndsAtBreak]

theorem endsAtBreak_of_breaks (h : ∀ c ∈ run, isBreak c = true) : run.EndsAtBreak :=
  fun c hc => h c (List.mem_of_getLast? hc)

theorem EndsAtBreak.collapse (h : t.EndsAtBreak) : (collapse t).EndsAtBreak := by
  induction t using runs_induction with
  | nil => exact h
  | breaks run rest _ hb hr ih =>
    rw [collapse_breaks_append hb hr]
    by_cases hrest : rest = []
    · rw [hrest, collapse_nil, List.append_nil]
      exact endsAtBreak_of_breaks fun c hc => BlankRun.isBreak_of_mem_settle hc hb
    · rw [endsAtBreak_append_iff hrest] at h
      exact (endsAtBreak_append_iff (collapse_ne_nil hrest) _).mpr (ih h)
  | line word rest _ hl _ ih =>
    rw [collapse_line_append hl]
    by_cases hrest : rest = []
    · simpa [hrest] using h
    · rw [endsAtBreak_append_iff hrest] at h
      exact (endsAtBreak_append_iff (collapse_ne_nil hrest) _).mpr (ih h)

/-- A text that begins within a line collapses for itself. -/
theorem collapse_append_of_head (h : ∀ c ∈ u.head?, isBreak c = false) (t : Text) :
    collapse (t ++ u) = collapse t ++ collapse u := by
  induction t using runs_induction with
  | nil => rfl
  | breaks run rest _ hb hr ih =>
    have hru : ∀ c ∈ (rest ++ u).head?, isBreak c = false := by
      intro c hc
      rw [List.head?_append] at hc
      cases rest with
      | nil => exact h c hc
      | cons d rest => exact hr c hc
    rw [List.append_assoc, collapse_breaks_append hb hru, ih, collapse_breaks_append hb hr,
      List.append_assoc]
  | line word rest _ hl _ ih =>
    rw [List.append_assoc, collapse_line_append hl, ih, collapse_line_append hl,
      List.append_assoc]

/-- So does one that ends within a line. -/
theorem collapse_append_of_last (h : ∀ c ∈ t.getLast?, isBreak c = false) (u : Text) :
    collapse (t ++ u) = collapse t ++ collapse u := by
  rcases List.eq_nil_or_concat t with rfl | ⟨t, c, rfl⟩
  · rfl
  · have hc : isBreak c = false := h c (by simp)
    have hhead (w : Text) : ∀ d ∈ (c :: w).head?, isBreak d = false := by simpa using hc
    rw [List.concat_eq_append, List.append_assoc, List.singleton_append,
      collapse_append_of_head (hhead u), collapse_append_of_head (hhead []),
      collapse_cons_of_not_isBreak _ hc, collapse_cons_of_not_isBreak _ hc, collapse_nil,
      List.append_assoc, List.singleton_append]

/-- A framed piece of a text collapses apart from what surrounds it. -/
theorem collapse_frame {a b : Text} (h : t.IsFramed) :
    collapse (a ++ (t ++ b)) = collapse a ++ (collapse t ++ collapse b) := by
  obtain ⟨x, hx, hxb⟩ := h.head
  obtain ⟨y, hy, hyb⟩ := h.last
  have hhead : ∀ c ∈ (t ++ b).head?, isBreak c = false := by
    intro c hc
    simp_all [List.head?_append]
  have hlast : ∀ c ∈ t.getLast?, isBreak c = false := by
    intro c hc
    simp_all
  rw [collapse_append_of_head hhead, collapse_append_of_last hlast]

theorem IsFramed.collapse (h : t.IsFramed) : (collapse t).IsFramed := by
  refine ⟨by simpa only [head?_collapse] using h.head, ?_⟩
  obtain ⟨y, hy, hyb⟩ := h.last
  obtain ⟨w, rfl⟩ := List.getLast?_eq_some_iff.mp hy
  refine ⟨y, ?_, hyb⟩
  rw [collapse_append_of_head (by simpa using hyb), collapse_cons_of_not_isBreak _ hyb,
    collapse_nil, List.getLast?_concat]

/-- Collapsing moves lines, and changes none that is not empty. -/
theorem solidLines_collapse (t : Text) : solidLines (collapse t) = solidLines t := by
  induction t using runs_induction with
  | nil => rfl
  | breaks run rest _ hb hr ih =>
    rw [collapse_breaks_append hb hr, solidLines_append_breaks hb,
      solidLines_append_breaks fun c hc => BlankRun.isBreak_of_mem_settle hc hb, ih]
  | line word rest _ hl hr ih =>
    rw [collapse_line_append hl, solidLines_append_of_beginsAtBreak hr,
      solidLines_append_of_beginsAtBreak hr.collapse, ih]

/-- What is left of the breaks that a text begins with. -/
theorem takeWhile_collapse (t : Text) :
    (collapse t).takeWhile isBreak = BlankRun.settle (t.takeWhile isBreak) ∧
      (collapse t).dropWhile isBreak = collapse (t.dropWhile isBreak) := by
  have hsettled : ∀ c ∈ BlankRun.settle (t.takeWhile isBreak), isBreak c = true :=
    fun c hc => BlankRun.isBreak_of_mem_settle hc fun c hc => List.mem_takeWhile_imp hc
  have hhead : ∀ c ∈ (collapse (t.dropWhile isBreak)).head?, isBreak c = false := by
    intro c hc
    rw [head?_collapse] at hc
    have := List.head?_dropWhile_not isBreak t
    simp_all
  rw [collapse_eq t, List.takeWhile_append_of_pos hsettled, List.dropWhile_append_of_pos hsettled,
    takeWhile_eq_nil hhead, dropWhile_eq_self hhead, List.append_nil]
  exact ⟨rfl, rfl⟩

/-- A text collapses in the same way if its front has collapsed before. -/
theorem collapse_collapse_append (t u : Text) : collapse (collapse t ++ u) = collapse (t ++ u) := by
  induction t using runs_induction with
  | nil => rfl
  | breaks run rest _ hb hr ih =>
    have hsettled : ∀ c ∈ BlankRun.settle run, isBreak c = true :=
      fun c hc => BlankRun.isBreak_of_mem_settle hc hb
    rw [collapse_breaks_append hb hr, List.append_assoc, List.append_assoc]
    by_cases hrest : rest = []
    · rw [hrest, collapse_nil, List.nil_append, collapse_breaks hsettled, collapse_breaks hb,
        BlankRun.settle_settle_append]
    · obtain ⟨x, rest, rfl⟩ := List.exists_cons_of_ne_nil hrest
      have hx : isBreak x = false := hr x rfl
      have hleft : ∀ c ∈ (collapse (x :: rest) ++ u).head?, isBreak c = false := by
        simp [List.head?_append, head?_collapse, hx]
      have hright : ∀ c ∈ (x :: rest ++ u).head?, isBreak c = false := by simp [hx]
      rw [collapse_breaks_append hsettled hleft, collapse_breaks_append hb hright, ih,
        BlankRun.settle_settle]
  | line word rest _ hl _ ih =>
    rw [collapse_line_append hl, List.append_assoc, List.append_assoc, collapse_line_append hl, ih,
      collapse_line_append hl]

theorem collapse_collapse (t : Text) : collapse (collapse t) = collapse t := by
  simpa using collapse_collapse_append t []

/-- So it does if its end has collapsed before. -/
theorem collapse_append_collapse (t u : Text) : collapse (t ++ collapse u) = collapse (t ++ u) := by
  induction t using runs_induction with
  | nil => exact collapse_collapse u
  | breaks run rest _ hb hr ih =>
    rw [List.append_assoc, List.append_assoc]
    by_cases hrest : rest = []
    · obtain ⟨htake, hdrop⟩ := takeWhile_collapse u
      rw [hrest, List.nil_append, List.nil_append, collapse_breaks hb, collapse_breaks hb, htake,
        hdrop, BlankRun.settle_append_settle, collapse_collapse]
    · obtain ⟨x, rest, rfl⟩ := List.exists_cons_of_ne_nil hrest
      have hx : isBreak x = false := hr x rfl
      have hhead (w : Text) : ∀ c ∈ (x :: rest ++ w).head?, isBreak c = false := by simp [hx]
      rw [collapse_breaks_append hb (hhead _), collapse_breaks_append hb (hhead _), ih]
  | line word rest _ hl _ ih =>
    rw [List.append_assoc, List.append_assoc, collapse_line_append hl, ih, collapse_line_append hl]

/-- Collapsing brings no new characters in. -/
theorem mem_of_mem_collapse {c : Char} (hc : c ∈ collapse t) : c ∈ t := by
  induction t using runs_induction with
  | nil => exact hc
  | breaks run rest _ hb hr ih =>
    rw [collapse_breaks_append hb hr, List.mem_append] at hc
    exact List.mem_append.mpr (hc.imp BlankRun.mem_of_mem_settle ih)
  | line word rest _ hl _ ih =>
    rw [collapse_line_append hl, List.mem_append] at hc
    exact List.mem_append.mpr (hc.imp_right ih)

/-- Collapsing takes no other characters than breaks out. -/
theorem filter_collapse (t : Text) :
    (collapse t).filter (fun c => !isBreak c) = t.filter fun c => !isBreak c := by
  have drop_breaks {run : Text} (h : ∀ c ∈ run, isBreak c = true) :
      run.filter (fun c => !isBreak c) = [] := by
    rw [List.filter_eq_nil_iff]
    intro c hc
    simp [h c hc]
  induction t using runs_induction with
  | nil => rfl
  | breaks run rest _ hb hr ih =>
    rw [collapse_breaks_append hb hr, List.filter_append, List.filter_append, ih, drop_breaks hb,
      drop_breaks fun c hc => BlankRun.isBreak_of_mem_settle hc hb]
  | line word rest _ hl _ ih =>
    rw [collapse_line_append hl, List.filter_append, List.filter_append, ih]

end Text

end AsmListing
