import AsmListing.Proofs.Resolution
import Mathlib.Order.Bounds.Basic

/-! Where a routine ends that has no size of its own, for any choice of tiers. The line that the
search accepts is the end, unless it is a jump and sizes and alignments behind it are not searched
for. -/
namespace AsmListing

variable {m : Marker} {tiers : List Tier} {tier : Tier} {s n i j k e : Nat}

namespace Listing

variable {ls : Listing} {c : Cell}

/-- Line `k` is a size or an alignment that trails a jump on line `i`: the lines between the two are
sizes, alignments, blank, or begin like an alignment. -/
structure Trails (ls : Listing) (i next k : Nat) : Prop where
  lt : i < k
  lt_next : k < next
  isData : ∃ m, ls.markers[k]? = some m ∧ m.IsData
  between : ∀ j l, i < j → j < k → ls[j]? = some l →
    (Marker.ofLine l.content).IsData ∨ l.content.trim = [] ∨ (".align" : Text) <+: l.content.trim

@[simp] theorem length_cells (ls : Listing) : ls.cells.length = ls.length := by
  simp [cells]

theorem getElem?_cells : ls.cells[k]? = some c ↔
    ∃ l, ls[k]? = some l ∧ ⟨Marker.ofLine l.content, l.content.trim⟩ = c := by
  simp [cells]

theorem getElem?_markers : ls.markers[k]? = some m ↔ ∃ c, ls.cells[k]? = some c ∧ c.marker = m := by
  simp [← markers_cells]

end Listing

namespace Terminator

variable {cells later : List Cell} {c : Cell} {ls : Listing}

/-- Line `e` ends a routine that is open from line `start` when another one begins on line `next`,
if the search is made with these tiers: the last line that one of them accepts or, where jumps alone
are searched for, the last line that trails the last jump. Without an accepted line it is the one
before `next`. -/
inductive Ends (tiers : List Tier) (ls : Listing) (start next : Nat) : Nat → Prop
  | lastEnd {e : Nat} (hd : .data ∈ tiers) (hr : .ret ∈ tiers)
      (he : IsLast Marker.IsEnd ls.markers start next e) : Ends tiers ls start next e
  | lastData {e : Nat} (hd : .data ∈ tiers) (hr : .ret ∉ tiers)
      (he : IsLast Marker.IsData ls.markers start next e) : Ends tiers ls start next e
  | trailing {i e : Nat} (hd : .data ∉ tiers) (hr : .ret ∈ tiers)
      (hi : IsLast (· = .ret) ls.markers start next i)
      (he : IsGreatest {k | ls.Trails i next k} e) : Ends tiers ls start next e
  | lastJump {i : Nat} (hd : .data ∉ tiers) (hr : .ret ∈ tiers)
      (hi : IsLast (· = .ret) ls.markers start next i)
      (he : ∀ k, ¬ ls.Trails i next k) : Ends tiers ls start next i
  | beforeNext (h : ∀ i m, start ≤ i → i < next → ls.markers[i]? = some m → ¬ Accepts tiers m) :
      Ends tiers ls start next (next - 1)

/-! What the tiers accept. -/

theorem accepts_eq_isData (hd : .data ∈ tiers) (hr : .ret ∉ tiers) :
    Accepts tiers = Marker.IsData := by
  funext m
  simp [accepts_iff, hd, hr]

theorem accepts_eq_ret (hd : .data ∉ tiers) (hr : .ret ∈ tiers) : Accepts tiers = (· = .ret) := by
  funext m
  simp [accepts_iff, hd, hr]

/-! What trails a jump. -/

/-- The same with the lines behind the jump numbered from zero. -/
def Trails (later : List Cell) (k : Nat) : Prop :=
  (∃ c, later[k]? = some c ∧ c.marker.IsData) ∧
    ∀ j c, j < k → later[j]? = some c → c.marker.IsData ∨ c.isFiller = true

theorem trails_zero : Trails (c :: later) 0 ↔ c.marker.IsData := by
  simp [Trails]

theorem trails_succ : Trails (c :: later) (k + 1) ↔
    (c.marker.IsData ∨ c.isFiller = true) ∧ Trails later k := by
  constructor
  · rintro ⟨hdata, hbetween⟩
    exact ⟨hbetween 0 c (Nat.succ_pos k) rfl, hdata,
      fun j x hj hx => hbetween (j + 1) x (Nat.succ_lt_succ hj) hx⟩
  · rintro ⟨hc, hdata, hbetween⟩
    refine ⟨hdata, fun j x hj hx => ?_⟩
    cases j with
    | zero =>
      obtain rfl : c = x := by simpa using hx
      exact hc
    | succ j => exact hbetween j x (Nat.lt_of_succ_lt_succ hj) hx

/-- A line that the scan passes shifts the last line that trails the jump. -/
theorem isGreatest_trails_succ (hc : c.marker.IsData ∨ c.isFiller = true)
    (hk : IsGreatest {k | Trails later k} k) : IsGreatest {k | Trails (c :: later) k} (k + 1) := by
  refine ⟨trails_succ.mpr ⟨hc, hk.1⟩, fun j hj => ?_⟩
  cases j with
  | zero => exact Nat.zero_le _
  | succ j => exact Nat.succ_le_succ (hk.2 (trails_succ.mp hj).2)

/-- The scan keeps the number of lines up to the last one that trails the jump. -/
theorem trailingFrom_rule (later : List Cell) (seen kept : Nat) :
    (∃ k, IsGreatest {k | Trails later k} k ∧ trailingFrom seen kept later = seen + (k + 1)) ∨
      (∀ k, ¬ Trails later k) ∧ trailingFrom seen kept later = kept := by
  induction later generalizing seen kept with
  | nil => exact .inr ⟨fun k hk => by simp [Trails] at hk, rfl⟩
  | cons c later ih =>
    rw [trailingFrom]
    split
    · next hdata =>
      rw [Marker.isData_iff] at hdata
      -- the line itself trails the jump, if none behind it does
      rcases ih (seen + 1) (seen + 1) with ⟨k, hk, heq⟩ | ⟨hno, heq⟩
      · exact .inl ⟨k + 1, isGreatest_trails_succ (.inl hdata) hk, by omega⟩
      · refine .inl ⟨0, ⟨trails_zero.mpr hdata, fun j hj => ?_⟩, heq⟩
        cases j with
        | zero => exact Nat.le_refl 0
        | succ j => exact (hno j (trails_succ.mp hj).2).elim
    · next hdata =>
      rw [Marker.isData_iff] at hdata
      split
      · next hfiller =>
        rcases ih (seen + 1) kept with ⟨k, hk, heq⟩ | ⟨hno, heq⟩
        · exact .inl ⟨k + 1, isGreatest_trails_succ (.inr hfiller) hk, by omega⟩
        · refine .inr ⟨fun k hk => ?_, heq⟩
          cases k with
          | zero => exact hdata (trails_zero.mp hk)
          | succ k => exact hno k (trails_succ.mp hk).2
      · next hfiller =>
        refine .inr ⟨fun k hk => ?_, rfl⟩
        cases k with
        | zero => exact hdata (trails_zero.mp hk)
        | succ k => exact (trails_succ.mp hk).1.elim hdata hfiller

theorem isFiller_iff : c.isFiller = true ↔ c.trimmed = [] ∨ (".align" : Text) <+: c.trimmed := by
  simp [Cell.isFiller]

theorem trails_iff : ls.Trails i n k ↔
    ∃ j, k = i + 1 + j ∧ Trails ((ls.cells.take n).drop (i + 1)) j := by
  constructor
  · intro h
    have hik := h.lt
    have hkn := h.lt_next
    obtain ⟨m, hm, hdata⟩ := h.isData
    obtain ⟨c, hc, rfl⟩ := Listing.getElem?_markers.mp hm
    refine ⟨k - (i + 1), by omega, ⟨c, by rwa [getElem?_window hik hkn rfl], hdata⟩, ?_⟩
    intro j x hj hx
    rw [getElem?_window (Nat.le_add_right (i + 1) j) (by omega) (by omega)] at hx
    obtain ⟨l, hl, rfl⟩ := Listing.getElem?_cells.mp hx
    rw [isFiller_iff]
    exact h.between _ l (by omega) (by omega) hl
  · rintro ⟨j, rfl, ⟨c, hc, hdata⟩, hbetween⟩
    obtain ⟨hj, -⟩ := List.getElem?_eq_some_iff.mp hc
    have hjn : i + 1 + j < n := by
      simp only [List.length_drop, List.length_take] at hj
      omega
    rw [getElem?_window (Nat.le_add_right (i + 1) j) hjn (by omega)] at hc
    refine ⟨by omega, hjn, ⟨c.marker, Listing.getElem?_markers.mpr ⟨c, hc, rfl⟩, hdata⟩, ?_⟩
    intro k l hik hkj hl
    have hk := Listing.getElem?_cells.mpr ⟨l, hl, rfl⟩
    rw [← getElem?_window (show i + 1 ≤ k from hik) (Nat.lt_trans hkj hjn) rfl] at hk
    have hpassed := hbetween _ _ (by omega) hk
    rwa [isFiller_iff] at hpassed

/-- The scan behind a jump goes to the last line that trails it. -/
theorem trailing_rule (ls : Listing) (i n : Nat) :
    IsGreatest {k | ls.Trails i n k} (i + trailing ((ls.cells.take n).drop (i + 1))) ∨
      (∀ k, ¬ ls.Trails i n k) ∧ trailing ((ls.cells.take n).drop (i + 1)) = 0 := by
  rcases trailingFrom_rule ((ls.cells.take n).drop (i + 1)) 0 0 with ⟨k, hk, heq⟩ | ⟨hno, heq⟩
  · refine .inl ⟨trails_iff.mpr ⟨k, ?_, hk.1⟩, fun j hj => ?_⟩
    · rw [trailing, heq]
      omega
    · obtain ⟨j', rfl, hj'⟩ := trails_iff.mp hj
      have := hk.2 hj'
      rw [trailing, heq]
      omega
  · refine .inr ⟨fun k hk => ?_, heq⟩
    obtain ⟨j, rfl, hj⟩ := trails_iff.mp hk
    exact hno j hj

/-! The search. -/

/-- The end is the last line that a tier accepts, and what its tier adds to it. -/
theorem locate_of_isLast (hn : n ≤ ls.length) (hi : IsLast (Accepts tiers) ls.markers s n i) :
    ∃ tier ∈ tiers, locate tiers ls.cells s n =
      (some (tier, i), i + tier.extension ((ls.cells.take n).drop (i + 1))) := by
  rw [← Listing.markers_cells] at hi
  unfold locate
  cases hb : between tiers ls.cells s n with
  | none =>
    obtain ⟨m, hm, hacc⟩ := hi.holds
    exact (between_eq_none hb hi.start_le hi.lt_stop hm hacc).elim
  | some hit =>
    obtain ⟨j, c, _, hmem, _, hj, hbehind, hext⟩ := between_eq_some (by simpa using hn) hb
    obtain rfl := hi.unique hj
    have hline : n - 1 - hit.behind = i := by
      have := hi.lt_stop
      omega
    exact ⟨hit.tier, hmem, by simp only [hline, hext]⟩

theorem locate_of_data (hn : n ≤ ls.length) (hd : .data ∈ tiers)
    (hi : IsLast (Accepts tiers) ls.markers s n i) :
    ∃ tier, locate tiers ls.cells s n = (some (tier, i), i) := by
  obtain ⟨tier, _, heq⟩ := locate_of_isLast hn hi
  rw [← Listing.markers_cells] at hi
  exact ⟨tier, by rw [heq, extension_eq_zero hd hi tier, Nat.add_zero]⟩

theorem endLine_eq_of_accepted (hn : n ≤ ls.length) (hd : .data ∈ tiers)
    (h : (locate tiers ls.cells s n).1 = some (tier, i)) : endLine tiers ls.cells s n = i := by
  cases hb : between tiers ls.cells s n with
  | none => simp [locate, hb] at h
  | some hit =>
    obtain ⟨j, _, _, _, _, hj, _⟩ := between_eq_some (by simpa using hn) hb
    obtain ⟨tier', heq⟩ := locate_of_data hn hd (Listing.markers_cells ls ▸ hj)
    rw [heq] at h
    cases h
    rw [endLine, heq]

theorem endLine_of_jump (hn : n ≤ ls.length) (hd : .data ∉ tiers)
    (hi : IsLast (Accepts tiers) ls.markers s n i) :
    endLine tiers ls.cells s n = i + trailing ((ls.cells.take n).drop (i + 1)) := by
  obtain ⟨tier, hmem, heq⟩ := locate_of_isLast hn hi
  cases tier with
  | data => contradiction
  | ret => rw [endLine, heq, Tier.extension]

theorem endLine_of_none (hn : n ≤ ls.length)
    (h : ∀ i m, s ≤ i → i < n → ls.markers[i]? = some m → ¬ Accepts tiers m) :
    endLine tiers ls.cells s n = n - 1 := by
  unfold endLine locate
  cases hb : between tiers ls.cells s n with
  | none => rfl
  | some hit =>
    obtain ⟨i, _, _, _, _, hi, _⟩ := between_eq_some (by simpa using hn) hb
    rw [Listing.markers_cells] at hi
    obtain ⟨m, hm, hacc⟩ := hi.holds
    exact (h i m hi.start_le hi.lt_stop hm hacc).elim

/-- The rule leaves no other line than the one that the search finds. -/
theorem Ends.eq_endLine (hn : n ≤ ls.length) (h : Ends tiers ls s n e) :
    e = endLine tiers ls.cells s n := by
  cases h with
  | lastEnd hd hr he =>
    rw [← accepts_eq_isEnd hd hr] at he
    obtain ⟨tier, heq⟩ := locate_of_data hn hd he
    rw [endLine, heq]
  | lastData hd hr he =>
    rw [← accepts_eq_isData hd hr] at he
    obtain ⟨tier, heq⟩ := locate_of_data hn hd he
    rw [endLine, heq]
  | @trailing i _ hd hr hi he =>
    rw [← accepts_eq_ret hd hr] at hi
    rw [endLine_of_jump hn hd hi]
    rcases trailing_rule ls i n with hk | ⟨hno, _⟩
    · exact he.unique hk
    · exact (hno e he.1).elim
  | lastJump hd hr hi he =>
    rw [← accepts_eq_ret hd hr] at hi
    rw [endLine_of_jump hn hd hi]
    rcases trailing_rule ls e n with hk | ⟨_, hzero⟩
    · exact (he _ hk.1).elim
    · rw [hzero, Nat.add_zero]
  | beforeNext h => exact (endLine_of_none hn h).symm

/-- What the search finds keeps to the rule. -/
theorem ends_endLine (hn : n ≤ ls.length) (tiers : List Tier) (s : Nat) :
    Ends tiers ls s n (endLine tiers ls.cells s n) := by
  cases hb : between tiers ls.cells s n with
  | none =>
    have hno : ∀ i m, s ≤ i → i < n → ls.markers[i]? = some m → ¬ Accepts tiers m := by
      intro i m hi hin hm
      rw [← Listing.markers_cells] at hm
      exact between_eq_none hb hi hin hm
    rw [endLine_of_none hn hno]
    exact .beforeNext hno
  | some hit =>
    obtain ⟨i, _, _, hmem, _, hi, _⟩ := between_eq_some (by simpa using hn) hb
    rw [Listing.markers_cells] at hi
    by_cases hd : .data ∈ tiers
    · obtain ⟨tier, heq⟩ := locate_of_data hn hd hi
      rw [endLine, heq]
      by_cases hr : .ret ∈ tiers
      · exact .lastEnd hd hr (accepts_eq_isEnd hd hr ▸ hi)
      · exact .lastData hd hr (accepts_eq_isData hd hr ▸ hi)
    · have hr : .ret ∈ tiers := by
        cases htier : hit.tier with
        | data => exact (hd (htier ▸ hmem)).elim
        | ret => exact htier ▸ hmem
      rw [endLine_of_jump hn hd hi]
      have hjump : IsLast (· = .ret) ls.markers s n i := accepts_eq_ret hd hr ▸ hi
      rcases trailing_rule ls i n with hk | ⟨hno, hzero⟩
      · exact .trailing hd hr hjump hk
      · rw [hzero]
        exact .lastJump hd hr hjump hno

theorem Ends.mem_range (hs : s < n) (h : Ends tiers ls s n e) : s ≤ e ∧ e < n := by
  cases h with
  | lastEnd _ _ he => exact ⟨he.start_le, he.lt_stop⟩
  | lastData _ _ he => exact ⟨he.start_le, he.lt_stop⟩
  | trailing _ _ hi he =>
    exact ⟨Nat.le_of_lt (Nat.lt_of_le_of_lt hi.start_le he.1.lt), he.1.lt_next⟩
  | lastJump _ _ hi _ => exact ⟨hi.start_le, hi.lt_stop⟩
  | beforeNext _ => omega

/-- Between two lines of a listing the search with integers as bounds is the one with numbers of
lines. -/
theorem wrappedEndLine_eq (hs : s < n) (hn : n ≤ cells.length) :
    wrappedEndLine tiers cells s n = .ok (endLine tiers cells s n) := by
  have hwindow : ((cells ++ cells).take ((n : Int) + cells.length).toNat).drop
      ((s : Int) + cells.length).toNat = (cells.take n).drop s := by
    rw [show ((n : Int) + cells.length).toNat = cells.length + n by omega,
      show ((s : Int) + cells.length).toNat = cells.length + s by omega,
      List.take_length_add_append, List.drop_length_add_append]
  have hbottom : max (s : Int) (-cells.length) = s := by omega
  unfold wrappedEndLine endLine locate
  simp only [hbottom, hwindow]
  rw [if_neg (by omega), if_neg (by omega)]
  cases hb : between tiers cells s n with
  | none =>
    have hseek : seek tiers [] ((cells.take n).drop s).reverse = none := hb
    simp only [hseek]
    rw [if_pos (by omega)]
    exact congrArg Except.ok (by omega)
  | some hit =>
    have hseek : seek tiers [] ((cells.take n).drop s).reverse = some hit := hb
    obtain ⟨i, _, _, _, _, hi, hbehind, _⟩ := between_eq_some hn hb
    have := hi.lt_stop
    simp only [hseek]
    exact congrArg Except.ok (by omega)

/-- The search for an end always finds a line of the searched part, and it is the one that the rule
names. Where sizes and alignments are searched for, it is the accepted line itself. -/
theorem endLine_rule (ls : Listing) (tiers : List Tier) (start next : Nat) (hs : start < next)
    (hn : next ≤ ls.length) :
    ∃ e : Nat, wrappedEndLine tiers ls.cells start next = .ok e ∧
      endLine tiers ls.cells start next = e ∧ start ≤ e ∧ e < next ∧
      (∀ k, Ends tiers ls start next k ↔ k = e) ∧
      (.data ∈ tiers → ∀ tier i,
        (locate tiers ls.cells start next).1 = some (tier, i) → i = e) := by
  have hends := ends_endLine hn tiers start
  obtain ⟨hle, hlt⟩ := hends.mem_range hs
  refine ⟨_, wrappedEndLine_eq hs (by simpa using hn), rfl, hle, hlt, fun k => ?_, ?_⟩
  · constructor
    · exact Ends.eq_endLine hn
    · rintro rfl
      exact hends
  · intro hd tier i haccepted
    exact (endLine_eq_of_accepted hn hd haccepted).symm

/-- A jump with alignments and a size behind it, and another alignment further on. -/
def padded : Text :=
  "glabel f\n  jr $ra\n\n.align 3\n  .align 2\n.size h, 4\n  nop\n.align 3\nglabel g\n"

/-- A search for jumps alone does not go on behind the instruction. -/
theorem endLine_rule_of_padded : 0 < 8 ∧ 8 ≤ (Listing.ofText padded).length ∧
    wrappedEndLine [.ret] (Listing.ofText padded).cells 0 8 = .ok 5 ∧
    Ends [.ret] (Listing.ofText padded) 0 8 5 := by
  have hn : 8 ≤ (Listing.ofText padded).length := by decide
  have hfound : wrappedEndLine [.ret] (Listing.ofText padded).cells 0 8 = .ok 5 := by decide +kernel
  obtain ⟨e, hok, _, _, _, hends, _⟩ :=
    endLine_rule (Listing.ofText padded) [.ret] 0 8 (by decide) hn
  have hline : (5 : Int) = e := Except.ok.inj (hfound.symm.trans hok)
  exact ⟨by decide, hn, hfound, (hends 5).mpr (by omega)⟩

end Terminator

end AsmListing
