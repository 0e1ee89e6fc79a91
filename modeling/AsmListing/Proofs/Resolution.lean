import AsmListing.Proofs.Lines
import AsmListing.Listing.Resolution

/-! Where a routine stands, told from the markers alone, and the searches that find it there. -/
namespace AsmListing

variable {ms : List Marker} {name : Text} {P Q : Marker → Prop} {start stop i j s n e : Nat}

/-- A marker that may end a routine: any size, an alignment or a jump. -/
def Marker.IsEnd (m : Marker) : Prop := (∃ f, m = .size f) ∨ m = .align ∨ m = .ret

/-- A size or an alignment. -/
def Marker.IsData (m : Marker) : Prop := (∃ f, m = .size f) ∨ m = .align

/-- Line `i` is the first one from line `start` on with such a marker. -/
structure IsFirst (P : Marker → Prop) (ms : List Marker) (start i : Nat) : Prop where
  start_le : start ≤ i
  holds : ∃ m, ms[i]? = some m ∧ P m
  earlier : ∀ j m, start ≤ j → j < i → ms[j]? = some m → ¬ P m

/-- Line `i` is the last one before line `stop`, and not before line `start`, with such a marker. -/
structure IsLast (P : Marker → Prop) (ms : List Marker) (start stop i : Nat) : Prop where
  start_le : start ≤ i
  lt_stop : i < stop
  holds : ∃ m, ms[i]? = some m ∧ P m
  later : ∀ j m, i < j → j < stop → ms[j]? = some m → ¬ P m

/-- Line `s` opens the routine `name`: it is the first one that declares it or, where no line
does, the first one that has it as a label. -/
def Opens (ms : List Marker) (name : Text) (s : Nat) : Prop :=
  IsFirst (· = .start name) ms 0 s ∨ (.start name ∉ ms ∧ IsFirst (· = .label name) ms 0 s)

/-- Line `n` has the next declaration behind line `s`. -/
def NextStart (ms : List Marker) (s n : Nat) : Prop := IsFirst (∃ f, · = .start f) ms (s + 1) n

/-- Line `e` is the first one behind line `s` that gives the size of `name`, and no declaration
stands before it. -/
def OwnSize (ms : List Marker) (name : Text) (s e : Nat) : Prop :=
  IsFirst (· = .size name) ms (s + 1) e ∧ ∀ n, NextStart ms s n → e < n

/-- Line `e` closes the routine `name` that line `s` opens. -/
inductive Closes (ms : List Marker) (name : Text) (s : Nat) : Nat → Prop
  | ownSize {e : Nat} (h : OwnSize ms name s e) : Closes ms name s e
  | lastEnd {n e : Nat} (hn : NextStart ms s n) (ho : ∀ e, ¬ OwnSize ms name s e)
      (he : IsLast Marker.IsEnd ms s n e) : Closes ms name s e
  | beforeNext {n : Nat} (hn : NextStart ms s n) (ho : ∀ e, ¬ OwnSize ms name s e)
      (he : ∀ e, ¬ IsLast Marker.IsEnd ms s n e) : Closes ms name s (n - 1)

/-- Neither the size of `name` nor any declaration follows line `s`. -/
def Unclosed (ms : List Marker) (name : Text) (s : Nat) : Prop :=
  ∀ i m, s < i → ms[i]? = some m → m ≠ .size name ∧ ∀ f, m ≠ .start f

theorem Marker.isData_iff {m : Marker} : m.isData = true ↔ m.IsData := by
  cases m <;> simp [isData, IsData]

theorem Marker.isRet_iff {m : Marker} : m.isRet = true ↔ m = .ret := by
  cases m <;> simp [isRet]

theorem Marker.isStart_iff {m : Marker} : m.isStart = true ↔ ∃ f, m = .start f := by
  cases m <;> simp [isStart]

theorem IsFirst.lt_length (h : IsFirst P ms start i) : i < ms.length := by
  obtain ⟨m, hm, _⟩ := h.holds
  exact (List.getElem?_eq_some_iff.mp hm).1

theorem IsLast.lt_length (h : IsLast P ms start stop i) : i < ms.length := by
  obtain ⟨m, hm, _⟩ := h.holds
  exact (List.getElem?_eq_some_iff.mp hm).1

theorem IsFirst.unique (hi : IsFirst P ms start i) (hj : IsFirst P ms start j) : i = j := by
  obtain ⟨a, ha, hpa⟩ := hi.holds
  obtain ⟨b, hb, hpb⟩ := hj.holds
  by_cases hlt : i < j
  · exact (hj.earlier i a hi.start_le hlt ha hpa).elim
  · by_cases hgt : j < i
    · exact (hi.earlier j b hj.start_le hgt hb hpb).elim
    · omega

theorem IsLast.unique (hi : IsLast P ms start stop i) (hj : IsLast P ms start stop j) : i = j := by
  obtain ⟨a, ha, hpa⟩ := hi.holds
  obtain ⟨b, hb, hpb⟩ := hj.holds
  by_cases hlt : i < j
  · exact (hi.later j b hlt hj.lt_stop hb hpb).elim
  · by_cases hgt : j < i
    · exact (hj.later i a hgt hi.lt_stop ha hpa).elim
    · omega

theorem mem_of_getElem?_middle {xs ys zs : List Marker} {m : Marker}
    (hm : (xs ++ (ys ++ zs))[i]? = some m) (hx : xs.length ≤ i) (hy : i < xs.length + ys.length) :
    m ∈ ys := by
  rw [List.getElem?_append_right hx, List.getElem?_append_left (by omega)] at hm
  exact List.mem_of_getElem? hm

theorem isFirst_append {xs ys zs : List Marker} {m : Marker} (hy : ∀ y ∈ ys, ¬ P y) (hm : P m) :
    IsFirst P (xs ++ (ys ++ m :: zs)) xs.length (xs.length + ys.length) := by
  refine ⟨Nat.le_add_right _ _, ⟨m, by simp, hm⟩, ?_⟩
  intro j y hj hlt hat
  exact hy y (mem_of_getElem?_middle hat hj hlt)

theorem isFirst_append_cons {ys zs : List Marker} {m : Marker} (hy : ∀ y ∈ ys, ¬ P y)
    (hm : P m) : IsFirst P (ys ++ m :: zs) 0 ys.length := by
  have h : IsFirst P ([] ++ (ys ++ m :: zs)) 0 (0 + ys.length) := isFirst_append hy hm
  simpa using h

/-- Among the lines with such a marker there is a first one. -/
theorem exists_isFirst {m : Marker} (hi : start ≤ i) (hm : ms[i]? = some m) (hp : P m) :
    ∃ k, k ≤ i ∧ IsFirst P ms start k := by
  induction i using Nat.strongRecOn generalizing m with
  | ind i ih =>
    by_cases hex : ∃ j a, start ≤ j ∧ j < i ∧ ms[j]? = some a ∧ P a
    · obtain ⟨j, a, hj, hji, ha, hpa⟩ := hex
      obtain ⟨k, hk, hfirst⟩ := ih j hji hj ha hpa
      exact ⟨k, by omega, hfirst⟩
    · refine ⟨i, Nat.le_refl i, hi, ⟨m, hm, hp⟩, ?_⟩
      intro j a hj hji ha hpa
      exact hex ⟨j, a, hj, hji, ha, hpa⟩

theorem Opens.lt_length (h : Opens ms name s) : s < ms.length := by
  obtain h | ⟨_, h⟩ := h <;> exact h.lt_length

theorem Opens.unique (hi : Opens ms name i) (hj : Opens ms name j) : i = j := by
  have absurd_start {k : Nat} (hk : IsFirst (· = .start name) ms 0 k) : .start name ∈ ms := by
    obtain ⟨m, hm, rfl⟩ := hk.holds
    exact List.mem_of_getElem? hm
  rcases hi with hi | ⟨hni, hi⟩
  · rcases hj with hj | ⟨hnj, _⟩
    · exact hi.unique hj
    · exact (hnj (absurd_start hi)).elim
  · rcases hj with hj | ⟨_, hj⟩
    · exact (hni (absurd_start hj)).elim
    · exact hi.unique hj

/-- The rule leaves no choice: a routine has one end at most. -/
theorem Closes.unique (hi : Closes ms name s i) (hj : Closes ms name s j) : i = j := by
  cases hi with
  | ownSize hi =>
    cases hj with
    | ownSize hj => exact hi.1.unique hj.1
    | lastEnd _ ho _ => exact (ho _ hi).elim
    | beforeNext _ ho _ => exact (ho _ hi).elim
  | lastEnd hn ho he =>
    cases hj with
    | ownSize hj => exact (ho _ hj).elim
    | lastEnd hn' _ he' =>
      obtain rfl := hn.unique hn'
      exact he.unique he'
    | beforeNext hn' _ he' =>
      obtain rfl := hn.unique hn'
      exact (he' _ he).elim
  | beforeNext hn ho he =>
    cases hj with
    | ownSize hj => exact (ho _ hj).elim
    | lastEnd hn' _ he' =>
      obtain rfl := hn.unique hn'
      exact (he _ he').elim
    | beforeNext hn' _ _ => rw [hn.unique hn']

/-- A routine that has an end is opened somewhere, and not left unclosed there. -/
theorem Closes.not_unclosed (ho : Opens ms name s) (h : Closes ms name s e) :
    ¬ ((∀ s, ¬ Opens ms name s) ∨ ∃ s, Opens ms name s ∧ Unclosed ms name s) := by
  rintro (hno | ⟨a, ha, hun⟩)
  · exact hno s ho
  · obtain rfl := ho.unique ha
    have not_next {n : Nat} : ¬ NextStart ms s n := by
      rintro ⟨hn, ⟨m, hm, f, hf⟩, _⟩
      exact (hun n m hn hm).2 f hf
    cases h with
    | ownSize h =>
      obtain ⟨m, hm, hf⟩ := h.1.holds
      exact (hun e m h.1.start_le hm).1 hf
    | lastEnd hn _ _ => exact not_next hn
    | beforeNext hn _ _ => exact not_next hn

theorem Closes.start_le (h : Closes ms name s e) : s ≤ e := by
  cases h with
  | ownSize h => exact Nat.le_of_succ_le h.1.start_le
  | lastEnd _ _ he => exact he.start_le
  | beforeNext hn _ _ => exact Nat.le_sub_one_of_lt hn.start_le

theorem Closes.lt_length (h : Closes ms name s e) : e < ms.length := by
  cases h with
  | ownSize h => exact h.1.lt_length
  | lastEnd _ _ he => exact he.lt_length
  | beforeNext hn _ _ => exact Nat.lt_of_le_of_lt (Nat.sub_le _ _) hn.lt_length

/-- Between the opening line and the end of its routine nothing else is declared. -/
theorem Closes.no_start (h : Closes ms name s e) :
    ∀ i f, s < i → i ≤ e → ms[i]? ≠ some (.start f) := by
  have before_next {n k : Nat} {f : Text} (hn : NextStart ms s n) (hsk : s < k) (hkn : k < n) :
      ms[k]? ≠ some (.start f) := fun hk => hn.earlier k _ hsk hkn hk ⟨f, rfl⟩
  intro i f hsi hie hi
  cases h with
  | ownSize h =>
    obtain ⟨m, hm, rfl⟩ := h.1.holds
    have hne : i ≠ e := by
      rintro rfl
      simp [hm] at hi
    -- the first declaration behind `s` would stand before the size
    obtain ⟨n, hni, hn⟩ := exists_isFirst (P := (∃ f, · = .start f)) hsi hi ⟨f, rfl⟩
    have := h.2 n hn
    omega
  | lastEnd hn _ he => exact before_next hn hsi (Nat.lt_of_le_of_lt hie he.lt_stop) hi
  | beforeNext hn _ _ => exact before_next hn hsi (by have := hn.start_le; omega) hi

/-! The searches. -/

theorem findIdx?_drop_eq_some_iff {p : Marker → Bool} {k : Nat} :
    (ms.drop start).findIdx? p = some k ↔ IsFirst (p · = true) ms start (start + k) := by
  rw [List.findIdx?_eq_some_iff_getElem]
  constructor
  · rintro ⟨hk, hp, hlt⟩
    simp only [List.length_drop] at hk
    simp only [List.getElem_drop] at hp hlt
    refine ⟨by omega, ⟨_, List.getElem?_eq_getElem (by omega), hp⟩, ?_⟩
    intro j m hj hjk hm
    obtain ⟨hjl, rfl⟩ := List.getElem?_eq_some_iff.mp hm
    have h := hlt (j - start) (by omega)
    simpa only [Nat.add_sub_cancel' hj] using h
  · intro h
    obtain ⟨m, hm, hp⟩ := h.holds
    obtain ⟨hl, rfl⟩ := List.getElem?_eq_some_iff.mp hm
    refine ⟨by simp only [List.length_drop]; omega, by simpa only [List.getElem_drop] using hp, ?_⟩
    intro j hj
    simp only [List.getElem_drop]
    exact h.earlier _ _ (by omega) (by omega) (List.getElem?_eq_getElem (by omega))

theorem findIdx?_drop_eq_none_iff {p : Marker → Bool} :
    (ms.drop start).findIdx? p = none ↔ ∀ i m, start ≤ i → ms[i]? = some m → ¬ p m = true := by
  rw [List.findIdx?_eq_none_iff]
  constructor
  · intro h i m hi hm
    have hmem : m ∈ ms.drop start := by
      rw [List.mem_iff_getElem?]
      exact ⟨i - start, by rwa [List.getElem?_drop, Nat.add_sub_cancel' hi]⟩
    simp [h m hmem]
  · intro h m hm
    obtain ⟨k, hk⟩ := List.mem_iff_getElem?.mp hm
    rw [List.getElem?_drop] at hk
    simpa using h _ m (Nat.le_add_right start k) hk

namespace Resolution

theorem opens_of_start? {o : Opening} (h : start? ms name = some (s, o)) : Opens ms name s := by
  unfold start? at h
  cases hd : ms.findIdx? (· == .start name) with
  | some k =>
    simp only [hd, Option.some.injEq, Prod.mk.injEq] at h
    obtain ⟨rfl, rfl⟩ := h
    have hf : IsFirst (fun m => (m == .start name) = true) ms 0 (0 + k) :=
      findIdx?_drop_eq_some_iff.mp hd
    exact Or.inl (by simpa using hf)
  | none =>
    cases hl : ms.findIdx? (· == .label name) with
    | none => simp [hd, hl] at h
    | some k =>
      simp only [hd, hl, Option.map_some, Option.some.injEq, Prod.mk.injEq] at h
      obtain ⟨rfl, rfl⟩ := h
      have hf : IsFirst (fun m => (m == .label name) = true) ms 0 (0 + k) :=
        findIdx?_drop_eq_some_iff.mp hl
      refine Or.inr ⟨?_, by simpa using hf⟩
      intro hmem
      simpa using List.findIdx?_eq_none_iff.mp hd _ hmem

theorem not_opens_of_start? (h : start? ms name = none) : ¬ Opens ms name s := by
  unfold start? at h
  cases hd : ms.findIdx? (· == .start name) with
  | some k => simp [hd] at h
  | none =>
    cases hl : ms.findIdx? (· == .label name) with
    | some k => simp [hd, hl] at h
    | none =>
      rintro (⟨_, ⟨m, hm, rfl⟩, _⟩ | ⟨_, _, ⟨m, hm, rfl⟩, _⟩)
      · simpa using List.findIdx?_eq_none_iff.mp hd _ (List.mem_of_getElem? hm)
      · simpa using List.findIdx?_eq_none_iff.mp hl _ (List.mem_of_getElem? hm)

end Resolution

/-- How many of the lines behind an accepted one still belong to its routine. -/
def Tier.extension (later : List Cell) : Tier → Nat
  | .data => 0
  | .ret => Terminator.trailing later

namespace Terminator

variable {tiers : List Tier} {cells later before : List Cell} {c : Cell} {hit : Hit} {m : Marker}

/-- Some tier accepts a line with this marker. -/
def Accepts (tiers : List Tier) (m : Marker) : Prop := ∃ tier ∈ tiers, tier.accepts m = true

theorem accepts_iff : Accepts tiers m ↔ .data ∈ tiers ∧ m.IsData ∨ .ret ∈ tiers ∧ m = .ret := by
  rw [← Marker.isData_iff, ← Marker.isRet_iff]
  constructor
  · rintro ⟨_ | _, hmem, hacc⟩
    · exact .inl ⟨hmem, hacc⟩
    · exact .inr ⟨hmem, hacc⟩
  · rintro (⟨hmem, hacc⟩ | ⟨hmem, hacc⟩)
    · exact ⟨.data, hmem, hacc⟩
    · exact ⟨.ret, hmem, hacc⟩

theorem accepts_eq_isEnd (hd : .data ∈ tiers) (hr : .ret ∈ tiers) :
    Accepts tiers = Marker.IsEnd := by
  funext m
  simp [accepts_iff, hd, hr, Marker.IsEnd, Marker.IsData, or_assoc]

theorem accepts_allTiers : Accepts allTiers = Marker.IsEnd :=
  accepts_eq_isEnd (by decide) (by decide)

theorem find?_eq_none_iff : tiers.find? (·.accepts c.marker) = none ↔ ¬ Accepts tiers c.marker := by
  simp [Accepts]

theorem trailingFrom_of_no_data {seen kept : Nat} (h : ∀ c ∈ later, c.marker.isData = false) :
    trailingFrom seen kept later = kept := by
  induction later generalizing seen with
  | nil => rfl
  | cons c later ih =>
    have hc := h c (by simp)
    have hl := fun x hx => h x (List.mem_cons_of_mem c hx)
    cases hf : c.isFiller <;> simp [trailingFrom, hc, hf, ih hl]

theorem seek_cons : seek tiers later (c :: before) =
    match tiers.find? (·.accepts c.marker) with
    | some tier => some ⟨tier, later.length, tier.extension later⟩
    | none => seek tiers (c :: later) before := by
  rw [seek]
  cases tiers.find? (·.accepts c.marker) with
  | none => rfl
  | some tier => cases tier <;> rfl

/-- The search stops at the nearest line that a tier accepts. -/
theorem seek_eq_some (h : seek tiers later before = some hit) :
    ∃ near c far, before = near ++ c :: far ∧ (∀ x ∈ near, ¬ Accepts tiers x.marker) ∧
      hit.tier ∈ tiers ∧ hit.tier.accepts c.marker = true ∧
      hit.behind = later.length + near.length ∧
      hit.extension = hit.tier.extension (near.reverse ++ later) := by
  induction before generalizing later with
  | nil => simp [seek] at h
  | cons c before ih =>
    rw [seek_cons] at h
    cases hf : tiers.find? (·.accepts c.marker) with
    | some tier =>
      simp only [hf, Option.some.injEq] at h
      subst h
      exact ⟨[], c, before, rfl, by simp, List.mem_of_find?_eq_some hf,
        List.find?_some (p := fun tier : Tier => tier.accepts c.marker) hf, rfl, rfl⟩
    | none =>
      simp only [hf] at h
      obtain ⟨near, a, far, rfl, hnear, hmem, ha, hb, he⟩ := ih h
      refine ⟨c :: near, a, far, rfl,
        List.forall_mem_cons.mpr ⟨find?_eq_none_iff.mp hf, hnear⟩, hmem, ha, ?_, ?_⟩
      · simp only [List.length_cons] at hb ⊢
        omega
      · simpa using he

theorem seek_eq_none (h : seek tiers later before = none) :
    ∀ c ∈ before, ¬ Accepts tiers c.marker := by
  induction before generalizing later with
  | nil => simp
  | cons c before ih =>
    rw [seek_cons] at h
    cases hf : tiers.find? (·.accepts c.marker) with
    | some tier => simp [hf] at h
    | none =>
      simp only [hf] at h
      exact List.forall_mem_cons.mpr ⟨find?_eq_none_iff.mp hf, ih h⟩

/-- A line of the searched part, seen from its beginning. -/
theorem getElem?_window {k : Nat} (hs : s ≤ j) (hj : j < n) (hk : k = j - s) :
    ((cells.take n).drop s)[k]? = cells[j]? := by
  subst hk
  rw [List.getElem?_drop, Nat.add_sub_cancel' hs, List.getElem?_take_of_lt hj]

/-- The accepted line is the last one that a tier accepts; the lines behind it are those of which
some may still belong to the routine. -/
theorem between_eq_some (hn : n ≤ cells.length) (h : between tiers cells s n = some hit) :
    ∃ i c, cells[i]? = some c ∧ hit.tier ∈ tiers ∧ hit.tier.accepts c.marker = true ∧
      IsLast (Accepts tiers) (cells.map Cell.marker) s n i ∧ hit.behind = n - 1 - i ∧
      hit.extension = hit.tier.extension ((cells.take n).drop (i + 1)) := by
  obtain ⟨near, c, far, heq, hnear, hmem, hc, hb, he⟩ := seek_eq_some h
  have hwin : (cells.take n).drop s = far.reverse ++ c :: near.reverse := by
    rw [← List.reverse_inj, heq]
    simp
  have hlen : n - s = far.length + near.length + 1 := by
    have := congrArg List.length hwin
    simp only [List.length_drop, List.length_take, List.length_append, List.length_cons,
      List.length_reverse] at this
    omega
  have hat : cells[s + far.length]? = some c := by
    have hat : ((cells.take n).drop s)[far.length]? = cells[s + far.length]? :=
      getElem?_window (Nat.le_add_right s far.length) (by omega) (by omega)
    rw [hwin] at hat
    simp [← hat]
  have hlast : IsLast (Accepts tiers) (cells.map Cell.marker) s n (s + far.length) := by
    refine ⟨by omega, by omega, ⟨c.marker, by simp [hat], _, hmem, hc⟩, ?_⟩
    intro j m hj hjn hm
    rw [List.getElem?_map, ← getElem?_window (show s ≤ j by omega) hjn rfl, hwin,
      List.getElem?_append_right (by simp; omega), List.getElem?_cons,
      if_neg (by simp; omega)] at hm
    obtain ⟨x, hx, rfl⟩ := Option.map_eq_some_iff.mp hm
    exact hnear x (by simpa using List.mem_of_getElem? hx)
  have hlater : (cells.take n).drop (s + far.length + 1) = near.reverse := by
    rw [Nat.add_assoc, ← List.drop_drop, hwin]
    simp [List.drop_append]
  simp only [List.length_nil, Nat.zero_add] at hb
  exact ⟨_, c, hat, hmem, hc, hlast, by omega, by simpa [hlater] using he⟩

/-- Data behind the accepted line would have been accepted itself, if the tier of data is tried. -/
theorem extension_eq_zero (hd : .data ∈ tiers)
    (h : IsLast (Accepts tiers) (cells.map Cell.marker) s n i) (tier : Tier) :
    tier.extension ((cells.take n).drop (i + 1)) = 0 := by
  cases tier with
  | data => rfl
  | ret =>
    refine trailingFrom_of_no_data fun c hc => ?_
    obtain ⟨k, hk⟩ := List.mem_iff_getElem?.mp hc
    rw [List.getElem?_drop, List.getElem?_take] at hk
    split at hk
    · next hlt =>
      refine Bool.eq_false_iff.mpr fun hdata => ?_
      exact h.later (i + 1 + k) c.marker (by omega) hlt (by simp [hk]) ⟨.data, hd, hdata⟩
    · cases hk

theorem between_eq_none (h : between tiers cells s n = none) (hi : s ≤ i) (hin : i < n)
    (hm : (cells.map Cell.marker)[i]? = some m) : ¬ Accepts tiers m := by
  rw [List.getElem?_map, ← getElem?_window hi hin rfl] at hm
  obtain ⟨x, hx, rfl⟩ := Option.map_eq_some_iff.mp hm
  exact seek_eq_none h x (by simpa using List.mem_of_getElem? hx)

theorem isLast_of_between (hn : n ≤ cells.length) (h : between allTiers cells s n = some hit) :
    IsLast Marker.IsEnd (cells.map Cell.marker) s n (n - 1 - hit.behind + hit.extension) := by
  obtain ⟨i, _, _, _, _, hlast, hb, he⟩ := between_eq_some hn h
  rw [extension_eq_zero (by decide) hlast] at he
  have hend : n - 1 - hit.behind + hit.extension = i := by
    have := hlast.lt_stop
    omega
  rwa [hend, ← accepts_allTiers]

theorem not_isLast_of_between (h : between allTiers cells s n = none) :
    ¬ IsLast Marker.IsEnd (cells.map Cell.marker) s n e := by
  intro he
  obtain ⟨m, hm, hend⟩ := he.holds
  exact between_eq_none h he.start_le he.lt_stop hm (accepts_allTiers ▸ hend)

end Terminator

namespace Resolution

variable {cells : List Cell}

theorem decides_iff {m : Marker} :
    decides name m = true ↔ (∃ f, m = .start f) ∨ m = .size name := by
  simp [decides, Marker.isStart_iff]

theorem ownSize_of_decides (h : IsFirst (decides name · = true) ms (s + 1) i)
    (hi : ms[i]? = some (.size name)) : OwnSize ms name s i := by
  refine ⟨⟨h.start_le, ⟨_, hi, rfl⟩, ?_⟩, ?_⟩
  · rintro j m hj hji hm rfl
    exact h.earlier j _ hj hji hm (decides_iff.mpr (Or.inr rfl))
  · intro n hn
    obtain ⟨m, hm, hf⟩ := hn.holds
    rcases Nat.lt_trichotomy n i with hlt | rfl | hgt
    · exact (h.earlier n m hn.start_le hlt hm (decides_iff.mpr (Or.inl hf))).elim
    · obtain ⟨f, rfl⟩ := hf
      simp [hi] at hm
    · exact hgt

theorem nextStart_of_decides (h : IsFirst (decides name · = true) ms (s + 1) i)
    (hi : ms[i]? ≠ some (.size name)) :
    NextStart ms s i ∧ ∀ e, ¬ OwnSize ms name s e := by
  obtain ⟨m, hm, hd⟩ := h.holds
  have hstart : ∃ f, m = .start f := by
    rcases decides_iff.mp hd with hf | rfl
    · exact hf
    · exact (hi hm).elim
  have hnext : NextStart ms s i := by
    refine ⟨h.start_le, ⟨m, hm, hstart⟩, ?_⟩
    intro j a hj hji ha hf
    exact h.earlier j a hj hji ha (decides_iff.mpr (Or.inl hf))
  refine ⟨hnext, ?_⟩
  rintro e ⟨he, hlt⟩
  obtain ⟨a, ha, rfl⟩ := he.holds
  exact h.earlier e _ he.start_le (hlt i hnext) ha (decides_iff.mpr (Or.inr rfl))

/-- What is found keeps to the rule. -/
theorem closes_of_span? (h : (ofCells cells name).span? = some ⟨s, e⟩) :
    Opens (cells.map Cell.marker) name s ∧ Closes (cells.map Cell.marker) name s e := by
  unfold ofCells at h
  cases hs : start? (cells.map Cell.marker) name with
  | none => simp [hs, span?] at h
  | some found =>
    obtain ⟨first, opening⟩ := found
    have hopens := opens_of_start? hs
    cases hk : ((cells.map Cell.marker).drop (first + 1)).findIdx? (decides name) with
    | none => simp [hs, hk, span?] at h
    | some k =>
      have hfirst := findIdx?_drop_eq_some_iff.mp hk
      by_cases hown : (cells.map Cell.marker)[first + 1 + k]? = some (.size name)
      · simp only [hs, hk, if_pos hown, span?, Option.some.injEq, Span.mk.injEq] at h
        obtain ⟨rfl, rfl⟩ := h
        exact ⟨hopens, .ownSize (ownSize_of_decides hfirst hown)⟩
      · simp only [hs, hk, if_neg hown, span?, Option.some.injEq, Span.mk.injEq,
          Terminator.locate] at h
        obtain ⟨rfl, rfl⟩ := h
        refine ⟨hopens, ?_⟩
        obtain ⟨hnext, hno⟩ := nextStart_of_decides hfirst hown
        cases hb : Terminator.between Terminator.allTiers cells first (first + 1 + k) with
        | none => exact .beforeNext hnext hno fun e => Terminator.not_isLast_of_between hb
        | some hit =>
          have hle : first + 1 + k ≤ cells.length := by
            have := hnext.lt_length
            rw [List.length_map] at this
            omega
          exact .lastEnd hnext hno (Terminator.isLast_of_between hle hb)

/-- Nothing is found only where no line opens the routine or none behind it decides its end. -/
theorem open_of_span?_eq_none (h : (ofCells cells name).span? = none) :
    (∀ s, ¬ Opens (cells.map Cell.marker) name s) ∨
      ∃ s, Opens (cells.map Cell.marker) name s ∧ Unclosed (cells.map Cell.marker) name s := by
  unfold ofCells at h
  cases hs : start? (cells.map Cell.marker) name with
  | none => exact Or.inl fun s => not_opens_of_start? hs
  | some found =>
    obtain ⟨first, opening⟩ := found
    refine Or.inr ⟨first, opens_of_start? hs, ?_⟩
    cases hk : ((cells.map Cell.marker).drop (first + 1)).findIdx? (decides name) with
    | none =>
      intro i m hi hm
      have hno := findIdx?_drop_eq_none_iff.mp hk i m hi hm
      rw [decides_iff] at hno
      exact ⟨fun he => hno (Or.inr he), fun f hf => hno (Or.inl ⟨f, hf⟩)⟩
    | some k =>
      by_cases hown : (cells.map Cell.marker)[first + 1 + k]? = some (.size name)
      · simp only [hs, hk, if_pos hown, span?, reduceCtorEq] at h
      · simp only [hs, hk, if_neg hown, span?, reduceCtorEq] at h

end Resolution

namespace Listing

variable {ls : Listing}

theorem markers_cells (ls : Listing) : ls.cells.map Cell.marker = ls.markers := by
  simp [cells, markers]

@[simp] theorem length_markers (ls : Listing) : ls.markers.length = ls.length := by
  simp [markers]

theorem span?_eq_some_iff :
    ls.span? name = some ⟨s, e⟩ ↔ Opens ls.markers name s ∧ Closes ls.markers name s e := by
  rw [span?, resolve, ← markers_cells]
  constructor
  · exact Resolution.closes_of_span?
  · rintro ⟨hs, he⟩
    cases h : (Resolution.ofCells ls.cells name).span? with
    | some found =>
      obtain ⟨a, b⟩ := found
      obtain ⟨ha, hb⟩ := Resolution.closes_of_span? h
      obtain rfl := hs.unique ha
      rw [he.unique hb]
    | none => exact (he.not_unclosed hs (Resolution.open_of_span?_eq_none h)).elim

theorem span?_eq_none_iff :
    ls.span? name = none ↔
      (∀ s, ¬ Opens ls.markers name s) ∨
        ∃ s, Opens ls.markers name s ∧ Unclosed ls.markers name s := by
  constructor
  · intro h
    rw [span?, resolve] at h
    simpa only [markers_cells] using Resolution.open_of_span?_eq_none h
  · intro h
    cases hsp : ls.span? name with
    | none => rfl
    | some found =>
      obtain ⟨s, e⟩ := found
      obtain ⟨hs, he⟩ := span?_eq_some_iff.mp hsp
      exact (he.not_unclosed hs h).elim

theorem le_of_span? (h : ls.span? name = some ⟨s, e⟩) : s ≤ e :=
  (span?_eq_some_iff.mp h).2.start_le

theorem lt_length_of_span? (h : ls.span? name = some ⟨s, e⟩) : e < ls.length := by
  simpa using (span?_eq_some_iff.mp h).2.lt_length

theorem block?_of_span? (h : ls.span? name = some ⟨s, e⟩) : ls.block? s e = some (ls.block s e) :=
  block?_eq_some (le_of_span? h) (lt_length_of_span? h)

/-- Where the routine `name` stands between two parts of a listing, from its declaration to its
size, it is found. -/
theorem span?_of_lines {before mid behind : Listing} {first final : Line}
    (hbefore : ∀ l ∈ before, Marker.ofLine l.content ≠ .start name)
    (hfirst : Marker.ofLine first.content = .start name)
    (hfinal : Marker.ofLine final.content = .size name)
    (hmid : ∀ l ∈ mid, (∀ f, Marker.ofLine l.content ≠ .start f) ∧
      Marker.ofLine l.content ≠ .size name) :
    span? (before ++ (first :: mid ++ final :: behind)) name =
      some ⟨before.length, before.length + 1 + mid.length⟩ := by
  have hmarkers : markers (before ++ (first :: mid ++ final :: behind)) =
      (markers before ++ [.start name]) ++ (markers mid ++ .size name :: markers behind) := by
    simp [markers, hfirst, hfinal]
  have hopens : IsFirst (· = .start name) (markers before ++ .start name ::
      (markers mid ++ .size name :: markers behind)) 0 (markers before).length :=
    isFirst_append_cons (by simpa [markers] using hbefore) rfl
  have hnosize : ∀ m ∈ markers mid, ¬ m = .size name := by
    simpa [markers] using fun l hl => (hmid l hl).2
  have hsize : IsFirst (· = .size name)
      ((markers before ++ [.start name]) ++ (markers mid ++ .size name :: markers behind))
      (markers before ++ [Marker.start name]).length
      ((markers before ++ [Marker.start name]).length + (markers mid).length) :=
    isFirst_append hnosize rfl
  rw [span?_eq_some_iff, hmarkers]
  refine ⟨Or.inl (by simpa using hopens), .ownSize ⟨by simpa using hsize, ?_⟩⟩
  intro n hn
  obtain ⟨m, hm, f, rfl⟩ := hn.holds
  have hle := hn.start_le
  refine Nat.lt_of_not_le fun hlast => ?_
  -- the size ends the part in which no declaration stands
  have hmem : .start f ∈ markers mid ++ [.size name] := by
    rw [List.append_cons (markers mid)] at hm
    exact mem_of_getElem?_middle hm (by simpa using hle) (by simp; omega)
  rw [List.mem_append, List.mem_singleton, markers, List.mem_map] at hmem
  rcases hmem with ⟨l, hl, hf⟩ | hf
  · exact (hmid l hl).1 f hf
  · cases hf

/-- The lines of a routine can always be handed out. -/
theorem extract?_eq (ls : Listing) (name : Text) :
    ls.extract? name = (ls.span? name).map fun sp => ls.block sp.first sp.last := by
  rw [extract?]
  cases h : ls.span? name with
  | none => rfl
  | some sp => exact block?_of_span? h

/-- The search for a routine keeps to its rule on every text: it finds lines exactly where the rule
names them, and what it finds can be handed out as it stands in the text. -/
theorem span?_rule (t name : Text) :
    (∀ s e, (ofText t).span? name = some ⟨s, e⟩ ↔
      Opens (ofText t).markers name s ∧ Closes (ofText t).markers name s e) ∧
    ((ofText t).span? name = none ↔ (∀ s, ¬ Opens (ofText t).markers name s) ∨
      ∃ s, Opens (ofText t).markers name s ∧ Unclosed (ofText t).markers name s) ∧
    (∀ s e, (ofText t).span? name = some ⟨s, e⟩ →
      s ≤ e ∧ e < (ofText t).length ∧
      (∀ i f, s < i → i ≤ e → (ofText t).markers[i]? ≠ some (.start f)) ∧
      (ofText t).block? s e = some ((ofText t).block s e) ∧
      t = (ofText t).textBefore s ++ ((ofText t).block s e ++ (ofText t).textBehind e)) ∧
    (ofText t).extract? name =
      ((ofText t).span? name).map fun sp => (ofText t).block sp.first sp.last := by
  refine ⟨fun s e => span?_eq_some_iff, span?_eq_none_iff, ?_, extract?_eq _ name⟩
  intro s e h
  exact ⟨le_of_span? h, lt_length_of_span? h, (span?_eq_some_iff.mp h).2.no_start,
    block?_of_span? h, text_eq_block (le_of_span? h) (lt_length_of_span? h)⟩

end Listing

end AsmListing
