import AsmListing.Proofs.LooseText
import AsmListing.Report.Table
import Mathlib.Algebra.GroupWithZero.Nat
import Mathlib.Data.List.Forall2
import Mathlib.Order.Bounds.Basic

/-! Tables whose columns are aligned. Every line that is shown begins its cells in the same places,
which the longest cells of all rows give, and the rows that are left out are counted. -/
namespace AsmListing

namespace Report

variable {α β : Type}

/-- The rows that a budget lets through; zero is no budget. -/
def shown (budget : Nat) (rows : List α) : List α :=
  if 0 < budget ∧ budget < rows.length then rows.take budget else rows

/-- The last line of a table, where rows are left out. -/
def leftOut (count : Nat) : List LooseText := if count = 0 then [] else [moreNote count]

namespace Table

variable {ws : List Nat} {w i j p : Nat} {cell line : LooseText} {cells row : List LooseText}
  {seen rows : List (List LooseText)}

/-- Where the cells of column `i` begin. -/
def offset (ws : List Nat) (i : Nat) : Nat := ((ws.take i).map (· + 2)).sum

/-- The longest cell that these rows have in column `j` is `w` characters long. -/
def IsWidth (rows : List (List LooseText)) (j w : Nat) : Prop :=
  IsGreatest {n | ∃ row ∈ rows, ∃ cell, row[j]? = some cell ∧ cell.length = n} w

/-- The line `t` shows these cells in columns of these widths: each one whole and in its place, two
blanks or more before the next, and nothing but blanks elsewhere. -/
structure Shows (ws : List Nat) (cells : List LooseText) (t : LooseText) : Prop where
  length_le : cells.length ≤ ws.length
  begins : ∀ i cell, cells[i]? = some cell →
    ∃ before behind, t = before ++ (cell ++ behind) ∧ before.length = offset ws i
  apart : ∀ i cell, cells[i]? = some cell → offset ws i + cell.length + 2 ≤ offset ws (i + 1)
  blank : ∀ p c, t[p]? = some c → c ≠ .char ' ' →
    ∃ i cell, cells[i]? = some cell ∧ offset ws i ≤ p ∧ p < offset ws i + cell.length

/-! One line. -/

@[simp] theorem offset_zero (ws : List Nat) : offset ws 0 = 0 := rfl

@[simp] theorem offset_cons_succ (w : Nat) (ws : List Nat) (i : Nat) :
    offset (w :: ws) (i + 1) = w + 2 + offset ws i := by
  simp [offset]

theorem length_padRight (h : cell.length ≤ w) : (cell.padRight w).length = w := by
  simp [LooseText.padRight, h]

theorem lt_length_of_padRight {c : CodePoint} (h : (cell.padRight w)[p]? = some c)
    (hc : c ≠ .char ' ') :
    p < cell.length := by
  refine Nat.lt_of_not_le fun hle => hc ?_
  rw [LooseText.padRight, List.getElem?_append_right hle] at h
  exact List.eq_of_mem_replicate (List.mem_of_getElem? h)

theorem shows_nil (ws : List Nat) : Shows ws [] [] :=
  ⟨Nat.zero_le _, by simp, by simp, by simp⟩

theorem shows_singleton (ws : List Nat) (h : cell.length ≤ w) :
    Shows (w :: ws) [cell] (cell.padRight w) where
  length_le := by simp
  begins i _ hi := by
    cases i with
    | zero =>
      cases hi
      exact ⟨[], _, rfl, rfl⟩
    | succ i => cases hi
  apart i _ hi := by
    cases i with
    | zero =>
      cases hi
      simpa using h
    | succ i => cases hi
  blank p c hp hc := ⟨0, cell, rfl, Nat.zero_le p, by simpa using lt_length_of_padRight hp hc⟩

/-- A line with one more cell in front: the others move by its width and two blanks. -/
theorem Shows.cons (hline : Shows ws cells line) (h : cell.length ≤ w) :
    Shows (w :: ws) (cell :: cells) (cell.padRight w ++ (.char ' ' :: .char ' ' :: line)) where
  length_le := Nat.succ_le_succ hline.length_le
  begins i x hi := by
    cases i with
    | zero =>
      cases hi
      exact ⟨[], _, by rw [LooseText.padRight, List.append_assoc]; rfl, rfl⟩
    | succ i =>
      obtain ⟨before, behind, rfl, hlength⟩ := hline.begins i x hi
      refine ⟨cell.padRight w ++ .char ' ' :: .char ' ' :: before, behind, by simp, ?_⟩
      rw [List.length_append, length_padRight h, offset_cons_succ, ← hlength]
      simp only [List.length_cons]
      omega
  apart i x hi := by
    cases i with
    | zero =>
      cases hi
      simp
      omega
    | succ i =>
      have hapart := hline.apart i x hi
      simp only [offset_cons_succ]
      omega
  blank p c hp hc := by
    rcases Nat.lt_or_ge p w with hlt | hge
    · rw [List.getElem?_append_left (by rwa [length_padRight h])] at hp
      exact ⟨0, cell, rfl, Nat.zero_le p, by simpa using lt_length_of_padRight hp hc⟩
    · rw [List.getElem?_append_right (by rwa [length_padRight h]), length_padRight h] at hp
      -- two blanks stand between the first column and the rest of the line
      obtain ⟨q, hq⟩ : ∃ q, p - w = q + 2 := by
        rcases hgap : p - w with _ | _ | q
        · simp [hgap] at hp
          exact (hc hp.symm).elim
        · simp [hgap] at hp
          exact (hc hp.symm).elim
        · exact ⟨q, rfl⟩
      rw [hq] at hp
      obtain ⟨i, x, hi, hle, hlt⟩ := hline.blank q c hp hc
      exact ⟨i + 1, x, hi, by rw [offset_cons_succ]; omega, by rw [offset_cons_succ]; omega⟩

theorem padded?_eq_none_iff : padded? ws cells = none ↔ ws.length < cells.length := by
  induction cells generalizing ws with
  | nil => simp [padded?]
  | cons cell cells ih =>
    cases ws with
    | nil => simp [padded?]
    | cons w ws => simp [padded?, ih]

theorem row?_eq_none_iff : row? ws cells = none ↔ ws.length < cells.length := by
  rw [row?, Option.map_eq_none_iff, padded?_eq_none_iff]

theorem row?_cons_cons (x y : LooseText) :
    row? (w :: ws) (x :: y :: cells) =
      (row? ws (y :: cells)).map fun line => x.padRight w ++ (.char ' ' :: .char ' ' :: line) := by
  cases ws with
  | nil => rfl
  | cons v ws =>
    simp only [row?, padded?, Option.map_map]
    rfl

/-- A row with a column for each of its cells, and room in it, has a line that shows it. -/
theorem exists_row?_eq_some (hlength : cells.length ≤ ws.length)
    (hroom : ∀ (i : Nat) (cell : LooseText) (w : Nat), cells[i]? = some cell → ws[i]? = some w →
      cell.length ≤ w) : ∃ line, row? ws cells = some line ∧ Shows ws cells line := by
  induction cells generalizing ws with
  | nil => exact ⟨[], by simp [row?, padded?, joined, LooseText.joinWith], shows_nil ws⟩
  | cons cell cells ih =>
    obtain ⟨w, ws, rfl⟩ := List.exists_cons_of_length_pos (Nat.zero_lt_of_lt hlength)
    have hcell : cell.length ≤ w := hroom 0 cell w rfl rfl
    cases cells with
    | nil => exact ⟨_, by simp [row?, padded?, joined, LooseText.joinWith], shows_singleton ws hcell⟩
    | cons next cells =>
      obtain ⟨line, hrow, hline⟩ := ih (Nat.le_of_succ_le_succ hlength)
        fun i x v hx hv => hroom (i + 1) x v hx hv
      exact ⟨_, by rw [row?_cons_cons, hrow]; rfl, hline.cons hcell⟩

/-! The widths. -/

theorem length_widen (ws : List Nat) (cells : List LooseText) :
    (widen ws cells).length = ws.length := by
  induction cells generalizing ws with
  | nil => cases ws <;> rfl
  | cons cell cells ih =>
    cases ws with
    | nil => rfl
    | cons w ws => simp [widen, ih]

theorem getElem?_widen (ws : List Nat) (cells : List LooseText) (j : Nat) : (widen ws cells)[j]? =
    ws[j]?.map fun w => (cells[j]?).elim w fun cell => max w cell.length := by
  induction cells generalizing ws j with
  | nil => cases ws <;> simp [widen]
  | cons cell cells ih =>
    cases ws with
    | nil => simp [widen]
    | cons w ws =>
      cases j with
      | zero => simp [widen]
      | succ j => simp [widen, ih]

/-- One more row widens its columns to its longer cells. -/
theorem IsWidth.snoc (h : IsWidth seen j w) (row : List LooseText) :
    IsWidth (seen ++ [row]) j ((row[j]?).elim w fun cell => max w cell.length) := by
  have hmem : ∃ row' ∈ seen ++ [row], ∃ cell, row'[j]? = some cell ∧ cell.length = w := by
    obtain ⟨row', hrow', hcell⟩ := h.1
    exact ⟨row', List.mem_append_left _ hrow', hcell⟩
  cases hrow : row[j]? with
  | none =>
    refine ⟨hmem, ?_⟩
    rintro n ⟨row', hrow', cell, hcell, rfl⟩
    rcases List.mem_append.mp hrow' with hrow' | hrow'
    · exact h.2 ⟨row', hrow', cell, hcell, rfl⟩
    · obtain rfl := List.mem_singleton.mp hrow'
      simp [hrow] at hcell
  | some cell =>
    refine ⟨?_, ?_⟩
    · rcases Nat.le_total cell.length w with hle | hle
      · simpa [Nat.max_eq_left hle] using hmem
      · exact ⟨row, by simp, cell, hrow, (Nat.max_eq_right hle).symm⟩
    · rintro n ⟨row', hrow', cell', hcell', rfl⟩
      rcases List.mem_append.mp hrow' with hrow' | hrow'
      · exact Nat.le_trans (h.2 ⟨row', hrow', cell', hcell', rfl⟩) (Nat.le_max_left _ _)
      · obtain rfl := List.mem_singleton.mp hrow'
        obtain rfl : cell = cell' := by simpa [hrow] using hcell'
        exact Nat.le_max_right _ _

theorem isWidth_foldl (seen rows : List (List LooseText))
    (hseen : ∀ j w, ws[j]? = some w → IsWidth seen j w) :
    ∀ j w, (rows.foldl widen ws)[j]? = some w → IsWidth (seen ++ rows) j w := by
  induction rows generalizing ws seen with
  | nil => simpa using hseen
  | cons row rows ih =>
    rw [List.append_cons]
    refine ih _ fun j w hw => ?_
    rw [getElem?_widen] at hw
    obtain ⟨v, hv, rfl⟩ := Option.map_eq_some_iff.mp hw
    exact (hseen j v hv).snoc row

theorem length_widths (headers : List LooseText) (rows : List (List LooseText)) :
    (widths headers rows).length = headers.length := by
  have hfold (ws : List Nat) : (rows.foldl widen ws).length = ws.length := by
    induction rows generalizing ws with
    | nil => rfl
    | cons row rows ih => rw [List.foldl_cons, ih, length_widen]
  rw [widths, hfold, List.length_map]

theorem isWidth_widths {headers : List LooseText} (hw : (widths headers rows)[j]? = some w) :
    IsWidth (headers :: rows) j w := by
  refine isWidth_foldl [headers] rows (fun j w hw => ?_) j w hw
  rw [List.getElem?_map] at hw
  obtain ⟨cell, hcell, rfl⟩ := Option.map_eq_some_iff.mp hw
  refine ⟨⟨headers, by simp, cell, hcell, rfl⟩, ?_⟩
  rintro n ⟨row, hrow, cell', hcell', rfl⟩
  obtain rfl := List.mem_singleton.mp hrow
  obtain rfl : cell = cell' := by simpa [hcell] using hcell'
  exact Nat.le_refl _

/-- Every row has room in the widths of the table. -/
theorem shows_of_row? {headers : List LooseText} (hrow : row ∈ headers :: rows)
    (h : row? (widths headers rows) row = some line) : Shows (widths headers rows) row line := by
  have hlength : row.length ≤ (widths headers rows).length := by
    refine Nat.le_of_not_lt fun hlt => ?_
    rw [row?_eq_none_iff.mpr hlt] at h
    cases h
  obtain ⟨line', hline', hshows⟩ := exists_row?_eq_some hlength
    fun i cell w hcell hw => (isWidth_widths hw).2 ⟨row, hrow, cell, hcell, rfl⟩
  rw [hline', Option.some.injEq] at h
  exact h ▸ hshows

/-- The rule below the headers shows dashes that fill the columns. -/
theorem shows_dashes (ws : List Nat) : Shows ws (ws.map fun w => List.replicate w (.char '-'))
    (joined (ws.map fun w => List.replicate w (.char '-'))) := by
  have hpadded : padded? ws (ws.map fun w => List.replicate w (.char '-')) =
      some (ws.map fun w => List.replicate w (.char '-')) := by
    induction ws with
    | nil => rfl
    | cons w ws ih => simp [padded?, ih, LooseText.padRight]
  have hroom : ∀ (i : Nat) (cell : LooseText) (w : Nat),
      (ws.map fun w => List.replicate w (.char '-'))[i]? = some cell → ws[i]? = some w →
      cell.length ≤ w := by
    intro i cell w hcell hw
    simp only [List.getElem?_map, hw, Option.map_some, Option.some.injEq] at hcell
    simp [← hcell]
  obtain ⟨line, hrow, hline⟩ := exists_row?_eq_some (by simp) hroom
  rw [row?, hpadded, Option.map_some, Option.some.injEq] at hrow
  exact hrow ▸ hline

/-- A line has no break that its cells do not have. -/
theorem Shows.lineFeed_not_mem (h : Shows ws cells line)
    (hcells : ∀ cell ∈ cells, .char '\n' ∉ cell) :
    .char '\n' ∉ line := by
  intro hmem
  obtain ⟨p, hp⟩ := List.mem_iff_getElem?.mp hmem
  obtain ⟨i, cell, hi, hle, hlt⟩ := h.blank p (.char '\n') hp (by decide)
  obtain ⟨before, behind, rfl, hbefore⟩ := h.begins i cell hi
  rw [List.getElem?_append_right (by omega), List.getElem?_append_left (by omega)] at hp
  exact hcells cell (List.mem_of_getElem? hi) (List.mem_of_getElem? hp)

end Table

/-! The whole table. -/

theorem mapM_eq_none_iff {f : α → Option β} {xs : List α} :
    xs.mapM f = none ↔ ∃ x ∈ xs, f x = none := by
  induction xs with
  | nil => simp
  | cons x xs ih => cases hx : f x <;> cases hxs : xs.mapM f <;> simp_all [List.mapM_cons]

theorem forall₂_of_mapM {f : α → Option β} {xs : List α} {ys : List β} (h : xs.mapM f = some ys) :
    List.Forall₂ (fun x y => f x = some y) xs ys := by
  induction xs generalizing ys with
  | nil =>
    obtain rfl : [] = ys := by simpa using h
    exact .nil
  | cons x xs ih =>
    cases hx : f x with
    | none => simp [List.mapM_cons, hx] at h
    | some y =>
      cases hxs : xs.mapM f with
      | none => simp [List.mapM_cons, hx, hxs] at h
      | some ys' =>
        obtain rfl : y :: ys' = ys := by simpa [List.mapM_cons, hx, hxs] using h
        exact .cons hx (ih hxs)

theorem exists_of_mem_right {R : α → β → Prop} {xs : List α} {ys : List β} {y : β}
    (h : List.Forall₂ R xs ys) (hy : y ∈ ys) : ∃ x ∈ xs, R x y := by
  induction h with
  | nil => cases hy
  | cons hxy _ ih =>
    rcases List.mem_cons.mp hy with rfl | hy
    · exact ⟨_, List.mem_cons_self, hxy⟩
    · obtain ⟨x, hx, hxy⟩ := ih hy
      exact ⟨x, List.mem_cons_of_mem _ hx, hxy⟩

theorem shown_map (f : α → β) (budget : Nat) (rows : List α) :
    shown budget (rows.map f) = (shown budget rows).map f := by
  unfold shown
  rw [List.length_map]
  split <;> simp

theorem mem_of_mem_shown {budget : Nat} {rows : List α} {row : α} (h : row ∈ shown budget rows) :
    row ∈ rows := by
  unfold shown at h
  split at h
  · exact List.mem_of_mem_take h
  · exact h

/-- What a budget lets through, and the count of what it does not. -/
theorem withinBudget_eq (budget : Nat) (rows : List α) :
    ∃ more hidden, withinBudget budget rows = (shown budget rows, more) ∧
      (more.map moreNote).toList = leftOut hidden ∧
      (shown budget rows).length + hidden = rows.length := by
  by_cases h : 0 < budget ∧ budget < rows.length
  · refine ⟨some (rows.length - budget), rows.length - budget, ?_, ?_, ?_⟩
    · have hcut : (budget : Int) ≠ 0 ∧ (budget : Int) < rows.length := by omega
      have hnonneg : ¬ (budget : Int) < 0 := by omega
      simp only [withinBudget, shown, if_pos h, if_pos hcut, if_neg hnonneg, Int.toNat_natCast]
    · rw [leftOut, if_neg (by omega), show ((rows.length - budget : Nat) : Int) =
        (rows.length : Int) - budget by omega]
      rfl
    · rw [shown, if_pos h, List.length_take]
      omega
  · refine ⟨none, 0, ?_, rfl, by simp [shown, h]⟩
    have hall : ¬ ((budget : Int) ≠ 0 ∧ (budget : Int) < rows.length) := by omega
    simp only [withinBudget, shown, if_neg h, if_neg hall]

theorem lineFeed_not_mem_leftOut (hidden : Nat) : ∀ line ∈ leftOut hidden, .char '\n' ∉ line := by
  intro line hline
  unfold leftOut at hline
  split at hline
  · simp at hline
  · obtain rfl := List.mem_singleton.mp hline
    have hdigits : '\n' ∉ Text.ofInt hidden := fun h =>
      absurd (Nat.isDigit_of_mem_toDigits (by decide) (by decide) h) (by decide)
    simp [moreNote, hdigits]

/-- The texts of the cells. -/
def texts (rows : List (List Item)) : List (List LooseText) := rows.map (·.map Item.toText)

/-- The lines of a table in order: the headers, the rule, the rows that are shown, and the count of
the others. -/
theorem table?_eq (headers : List LooseText) {rows : List (List Item)} (budget : Nat)
    (hrows : rows ≠ []) : ∃ head hidden,
    Table.row? (Table.widths headers (texts rows)) headers = some head ∧
    (shown budget rows).length + hidden = rows.length ∧
    table? headers rows budget =
      ((shown budget (texts rows)).mapM (Table.row? (Table.widths headers (texts rows)))).map
        fun lines => LooseText.joinWith ['\n'] (head ::
          Table.rule (Table.widths headers (texts rows)) ::
          lines ++ leftOut hidden) := by
  obtain ⟨more, hidden, hbudget, hmore, hcount⟩ := withinBudget_eq budget (texts rows)
  obtain ⟨head, hhead⟩ : ∃ head,
      Table.row? (Table.widths headers (texts rows)) headers = some head := by
    refine Option.ne_none_iff_exists'.mp fun hnone => ?_
    rw [Table.row?_eq_none_iff, Table.length_widths] at hnone
    exact Nat.lt_irrefl _ hnone
  refine ⟨head, hidden, hhead, ?_, ?_⟩
  · simpa [texts, shown_map] using hcount
  · unfold table?
    rw [if_neg (by simpa using hrows), ← texts]
    simp only [hbudget, hhead, hmore, Option.map_some]
    cases (shown budget (texts rows)).mapM (Table.row? (Table.widths headers (texts rows))) <;> rfl

/-- Tables are aligned and account for every row. A row with more cells than there are columns
stops the table where it would be shown. Otherwise each line shows its cells in columns as wide as
the longest cell of any row, and the last line counts the rows that are not shown. -/
theorem table?_aligned (headers : List LooseText) (rows : List (List Item)) (budget : Nat)
    (hrows : rows ≠ []) :
    (table? headers rows budget = none ↔
      ∃ row ∈ shown budget rows, headers.length < row.length) ∧
    ∀ t, table? headers rows budget = some t →
      ∃ (ws : List Nat) (head rule : LooseText) (lines : List LooseText) (hidden : Nat),
        t = LooseText.joinWith ['\n'] (head :: rule :: lines ++ leftOut hidden) ∧
        ws.length = headers.length ∧
        (∀ j w, ws[j]? = some w → Table.IsWidth (headers :: texts rows) j w) ∧
        Table.Shows ws headers head ∧
        Table.Shows ws (ws.map fun w => List.replicate w (.char '-')) rule ∧
        List.Forall₂ (Table.Shows ws) (texts (shown budget rows)) lines ∧
        (shown budget rows).length + hidden = rows.length ∧
        ((∀ row ∈ headers :: texts rows, ∀ cell ∈ row, .char '\n' ∉ cell) →
          List.splitOn (.char '\n') t = head :: rule :: lines ++ leftOut hidden) := by
  obtain ⟨head, hidden, hhead, hcount, htable⟩ := table?_eq headers budget hrows
  have hshown : shown budget (texts rows) = texts (shown budget rows) := shown_map _ _ _
  refine ⟨?_, fun t ht => ?_⟩
  · rw [htable, Option.map_eq_none_iff, mapM_eq_none_iff, hshown, texts]
    simp [Table.row?_eq_none_iff, Table.length_widths]
  · rw [htable, Option.map_eq_some_iff] at ht
    obtain ⟨lines, hlines, rfl⟩ := ht
    have hmem : ∀ row ∈ shown budget (texts rows), row ∈ headers :: texts rows := fun row h =>
      List.mem_cons_of_mem _ (mem_of_mem_shown h)
    have hshows := ((List.forall₂_and_left _ _).mpr ⟨hmem, forall₂_of_mapM hlines⟩).imp
      fun row line h => And.intro h.1 (Table.shows_of_row? h.1 h.2)
    have hheadShows := Table.shows_of_row? List.mem_cons_self hhead
    refine ⟨_, head, _, lines, hidden, rfl, Table.length_widths _ _,
      fun j w => Table.isWidth_widths, hheadShows, Table.shows_dashes _,
      hshown ▸ hshows.imp fun _ _ h => h.2, hcount, fun hbreaks => ?_⟩
    -- no line has a break in it, so the text falls into these lines again
    refine List.splitOn_intercalate (CodePoint.char '\n') (fun line hline => ?_) (by simp)
    rcases List.mem_append.mp hline with hline | hline
    · rcases List.mem_cons.mp hline with rfl | hline
      · exact hheadShows.lineFeed_not_mem (hbreaks _ List.mem_cons_self)
      · rcases List.mem_cons.mp hline with rfl | hline
        · exact (Table.shows_dashes _).lineFeed_not_mem (by simp)
        · obtain ⟨row, -, hrow, hline⟩ := exists_of_mem_right hshows hline
          exact hline.lineFeed_not_mem (hbreaks row hrow)
    · exact lineFeed_not_mem_leftOut hidden line hline

/-- Rows of unequal lengths, of which the last one has more cells than there are columns. -/
def ragged : List (List Item) :=
  [[.text "f", .int (-12)], [.text "long_name"], [.text "g", .flag false, .nothing]]

/-- The row that is not shown gives the second column its width. -/
theorem table?_aligned_of_ragged : ragged ≠ [] ∧
    table? ["name", "n"] ragged 2 = some
      "name       n    \n---------  -----\nf          -12  \nlong_name\n(+1 more)" ∧
    ∃ (ws : List Nat) (lines : List LooseText) (hidden : Nat),
      (∀ j w, ws[j]? = some w → Table.IsWidth (["name", "n"] :: texts ragged) j w) ∧
      List.Forall₂ (Table.Shows ws) [["f", "-12"], ["long_name"]] lines ∧ 2 + hidden = 3 := by
  have hrows : ragged ≠ [] := by decide
  have htable : table? ["name", "n"] ragged 2 = some
      "name       n    \n---------  -----\nf          -12  \nlong_name\n(+1 more)" := by
    decide +kernel
  obtain ⟨ws, _, _, lines, hidden, _, _, hwidths, _, _, hlines, hcount, _⟩ :=
    (table?_aligned ["name", "n"] ragged 2 hrows).2 _ htable
  have hshown :
      texts (shown 2 ragged) = ([["f", "-12"], ["long_name"]] : List (List LooseText)) := by
    decide +kernel
  exact ⟨hrows, htable, ws, lines, hidden, hwidths, hshown ▸ hlines, hcount⟩

end Report

end AsmListing
