import AsmListing.Text.Basic
import Mathlib.Data.Char
import Mathlib.Data.List.Lex
import Mathlib.Data.List.Sort

/-! The order of texts by code points is a linear order. A list that is sorted by keys, each of
which occurs once, increases strictly, so only its members matter. -/
namespace AsmListing

section Keys

variable {α β : Type} {key : α → β} {le : α → α → Bool} {xs ys : List α} {x : α} {k : β}

/-- What comes first among the elements that pass a test comes first among all. -/
theorem idxOf_lt_of_filter [BEq α] [LawfulBEq α] {p : α → Bool} {a b : α} (ha : p a = true)
    (hb : p b = true) (h : (xs.filter p).idxOf a < (xs.filter p).idxOf b) :
    xs.idxOf a < xs.idxOf b := by
  induction xs with
  | nil => simp at h
  | cons x xs ih =>
    cases hx : p x with
    | false =>
      have hxa : x ≠ a := fun heq => by simp [heq, ha] at hx
      have hxb : x ≠ b := fun heq => by simp [heq, hb] at hx
      rw [List.filter_cons_of_neg (by simp [hx])] at h
      rw [List.idxOf_cons_ne _ hxa, List.idxOf_cons_ne _ hxb]
      exact Nat.succ_lt_succ (ih h)
    | true =>
      rw [List.filter_cons_of_pos hx] at h
      by_cases hxb : x = b
      · subst hxb
        simp at h
      · by_cases hxa : x = a
        · subst hxa
          rw [List.idxOf_cons_self, List.idxOf_cons_ne _ hxb]
          exact Nat.succ_pos _
        · rw [List.idxOf_cons_ne _ hxa, List.idxOf_cons_ne _ hxb] at h ⊢
          exact Nat.succ_lt_succ (ih (Nat.lt_of_succ_lt_succ h))

/-- Without repetitions the elements stand in the order of their first appearances. -/
theorem pairwise_idxOf_eraseDups [BEq α] [LawfulBEq α] (xs : List α) :
    xs.eraseDups.Pairwise fun a b => xs.idxOf a < xs.idxOf b := by
  induction hn : xs.length using Nat.strong_induction_on generalizing xs with
  | _ n ih =>
    cases xs with
    | nil => simp
    | cons x xs =>
      have hlt : (xs.filter fun y => !y == x).length < n :=
        Nat.lt_of_le_of_lt (List.length_filter_le _ _) (by simp [← hn])
      have hne : ∀ y ∈ (xs.filter fun y => !y == x).eraseDups, (!y == x) = true := by
        intro y hy
        exact (List.mem_filter.mp (List.mem_eraseDups.mp hy)).2
      rw [List.eraseDups_cons, List.pairwise_cons]
      constructor
      · intro y hy
        have hxy : x ≠ y := fun heq => by simpa [heq] using hne y hy
        rw [List.idxOf_cons_self, List.idxOf_cons_ne _ hxy]
        exact Nat.succ_pos _
      · refine (ih _ hlt _ rfl).imp_of_mem fun {a b} ha hb hab => ?_
        have hxa : x ≠ a := fun heq => by simpa [heq] using hne a ha
        have hxb : x ≠ b := fun heq => by simpa [heq] using hne b hb
        rw [List.idxOf_cons_ne _ hxa, List.idxOf_cons_ne _ hxb]
        exact Nat.succ_lt_succ (idxOf_lt_of_filter (hne a ha) (hne b hb) hab)

theorem nodup_eraseDups [BEq α] [LawfulBEq α] (xs : List α) : xs.eraseDups.Nodup := by
  refine (pairwise_idxOf_eraseDups xs).imp ?_
  rintro a b hlt rfl
  exact Nat.lt_irrefl _ hlt

/-- Where keys differ, what is found under a key is what stands there. -/
theorem find?_eq_some_iff_of_nodup [BEq β] [LawfulBEq β] (hkeys : (xs.map key).Nodup) :
    xs.find? (key · == k) = some x ↔ x ∈ xs ∧ key x = k := by
  constructor
  · intro h
    exact ⟨List.mem_of_find?_eq_some h, by simpa using List.find?_some h⟩
  · rintro ⟨hx, rfl⟩
    obtain ⟨y, hy⟩ := Option.isSome_iff_exists.mp
      (List.find?_isSome (p := (key · == key x)) |>.mpr ⟨x, hx, by simp⟩)
    have hkey : key y = key x := by simpa using List.find?_some hy
    rw [hy, List.inj_on_of_nodup_map hkeys (List.mem_of_find?_eq_some hy) hx hkey]

variable [LinearOrder β]

/-- Sorting puts the keys in order. -/
theorem pairwise_le_mergeSort (hle : ∀ a b, le a b = true ↔ ¬ key b < key a) (xs : List α) :
    (xs.mergeSort le).Pairwise fun a b => key a ≤ key b := by
  simp only [not_lt] at hle
  refine (List.pairwise_mergeSort (fun a b c hab hbc => ?_) (fun a b => ?_) xs).imp
    fun {a b} hab => (hle a b).mp hab
  · rw [hle] at *
    exact hab.trans hbc
  · rw [Bool.or_eq_true, hle, hle]
    exact le_total _ _

/-- Sorting by keys that differ gives a strictly increasing list. -/
theorem pairwise_lt_mergeSort (hle : ∀ a b, le a b = true ↔ ¬ key b < key a)
    (hkeys : (xs.map key).Nodup) : (xs.mergeSort le).Pairwise fun a b => key a < key b := by
  have hne : (xs.mergeSort le).Pairwise fun a b => key a ≠ key b := by
    rw [← List.pairwise_map (R := (· ≠ ·)), ← List.nodup_iff_pairwise_ne]
    exact ((List.mergeSort_perm xs le).map key).nodup_iff.mpr hkeys
  exact ((pairwise_le_mergeSort hle xs).and hne).imp fun h => lt_of_le_of_ne h.1 h.2

/-- A strictly increasing list is known from its members, whatever their order. -/
theorem eq_of_perm_of_pairwise_lt (hxs : xs.Pairwise fun a b => key a < key b)
    (hys : ys.Pairwise fun a b => key a < key b) (h : xs.Perm ys) : xs = ys :=
  h.eq_of_pairwise (fun _ _ _ _ hab hba => (lt_asymm hab hba).elim) hxs hys

end Keys

/-- Lists are compared as their elements are. -/
theorem lexLe_iff_not_lt {α : Type} [DecidableEq α] [LinearOrder α] {le : α → α → Bool}
    (hle : ∀ a b, le a b = true ↔ ¬ b < a) {s t : List α} : lexLe le s t = true ↔ ¬ t < s := by
  induction s generalizing t with
  | nil => simp [lexLe]
  | cons a s ih =>
    cases t with
    | nil => simp [lexLe]
    | cons b t =>
      rw [lexLe, List.cons_lt_cons_iff]
      split
      · next h =>
        subst h
        simpa using ih
      · next h => simp [hle, Ne.symm h]

namespace Text

variable {s t : Text}

theorem le_iff_not_lt : le s t = true ↔ ¬ t < s := by
  refine lexLe_iff_not_lt fun a b => ?_
  rw [decide_eq_true_eq]
  exact Nat.not_lt.symm

theorem pairwise_sort (names : List Text) : (sort names).Pairwise (· ≤ ·) :=
  @pairwise_le_mergeSort Text Text id le _ (fun _ _ => le_iff_not_lt) names

theorem pairwise_sort_of_nodup {names : List Text} (h : names.Nodup) :
    (sort names).Pairwise (· < ·) :=
  pairwise_lt_mergeSort (fun _ _ => le_iff_not_lt) (by simpa using h)

/-- Each name stands once, and the names increase. -/
theorem pairwise_sortUnique (names : List Text) : (sortUnique names).Pairwise (· < ·) :=
  pairwise_sort_of_nodup (nodup_eraseDups names)

end Text

end AsmListing
