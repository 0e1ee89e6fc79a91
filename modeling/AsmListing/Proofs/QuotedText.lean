import AsmListing.Json.Printer
import AsmListing.Json.Reader
import Mathlib.Data.List.Chain

/-! Quoted texts. The reader gives back what the printer has quoted, unless the two surrogates of a
pair stand side by side, which are read as one character; and it gives no such text itself. -/
namespace AsmListing

open Json.Reader (isHighUnit isLowUnit unit? hexDigit? quotedRest quoted ofPair)

namespace Text

/-- Hexadecimal digits from the last one on. -/
theorem ofHex_succ {width : Nat} (h : 0 < width) (n : Nat) :
    ofHex (width + 1) n = ofHex width (n / 16) ++ [Nat.digitChar (n % 16)] := by
  by_cases hn : n < 16
  · obtain ⟨k, rfl⟩ := Nat.exists_eq_succ_of_ne_zero (Nat.pos_iff_ne_zero.mp h)
    have hzero : [Nat.digitChar 0] = ['0'] := rfl
    rw [ofHex, ofHex, Nat.toDigits_of_lt_base hn, Nat.div_eq_of_lt hn, Nat.mod_eq_of_lt hn,
      Nat.toDigits_of_lt_base (by omega), hzero]
    simp [← List.replicate_succ']
  · rw [ofHex, ofHex, Nat.toDigits_of_base_le (by omega) (by omega)]
    simp

theorem ofHex_four {n : Nat} (h : n < 0x10000) : ofHex 4 n =
    [Nat.digitChar (n / 4096), Nat.digitChar (n / 256 % 16), Nat.digitChar (n / 16 % 16),
      Nat.digitChar (n % 16)] := by
  have hone : ofHex 1 (n / 16 / 16 / 16) = [Nat.digitChar (n / 4096)] := by
    rw [ofHex, Nat.div_div_eq_div_mul, Nat.div_div_eq_div_mul, Nat.toDigits_of_lt_base (by omega)]
    simp
  rw [ofHex_succ (by omega), ofHex_succ (by omega), ofHex_succ (by omega), hone,
    Nat.div_div_eq_div_mul]
  rfl

end Text

/-! Units of code points. -/

namespace Json.Reader

theorem isHighUnit_iff {n : Nat} : isHighUnit n = true ↔ 0xd800 ≤ n ∧ n < 0xdc00 := by
  simp [isHighUnit]

theorem isLowUnit_iff {n : Nat} : isLowUnit n = true ↔ 0xdc00 ≤ n ∧ n < 0xe000 := by
  simp [isLowUnit]

end Json.Reader

namespace CodePoint

open Json.Reader (isHighUnit isLowUnit isHighUnit_iff isLowUnit_iff)

variable {n : Nat} {c : Char} {p q : CodePoint}

/-- The first half of a pair of surrogates. -/
def isHigh (p : CodePoint) : Bool := isHighUnit p.value

/-- The second half of a pair of surrogates. -/
def isLow (p : CodePoint) : Bool := isLowUnit p.value

theorem toNat_lt_or (c : Char) : c.toNat < 0xd800 ∨ 0xe000 ≤ c.toNat ∧ c.toNat < 0x110000 := by
  rcases c.valid with h | ⟨h, h'⟩
  · exact Or.inl h
  · exact Or.inr ⟨h, h'⟩

@[simp] theorem isHigh_char (c : Char) : isHigh (.char c) = false := by
  have hc := toNat_lt_or c
  rw [isHigh, value, Bool.eq_false_iff, Ne, isHighUnit_iff]
  omega

@[simp] theorem isLow_char (c : Char) : isLow (.char c) = false := by
  have hc := toNat_lt_or c
  rw [isLow, value, Bool.eq_false_iff, Ne, isLowUnit_iff]
  omega

/-- A unit between the characters is a surrogate, and any other one a character. -/
theorem ofUnit_cases (n : Nat) :
    (ofUnit n).value = n ∨ isHighUnit n = false ∧ isLowUnit n = false ∧ ∃ c, ofUnit n = .char c := by
  unfold ofUnit
  split
  · next h =>
    refine Or.inl ?_
    change 0xd800 + (n - 0xd800) = n
    omega
  · next h =>
    refine Or.inr ⟨?_, ?_, _, rfl⟩
    · rw [Bool.eq_false_iff, Ne, isHighUnit_iff]
      omega
    · rw [Bool.eq_false_iff, Ne, isLowUnit_iff]
      omega

theorem isHigh_ofUnit (n : Nat) : isHigh (ofUnit n) = isHighUnit n := by
  rcases ofUnit_cases n with h | ⟨h, _, c, hc⟩
  · rw [isHigh, h]
  · rw [h, hc, isHigh_char]

theorem isLow_ofUnit (n : Nat) : isLow (ofUnit n) = isLowUnit n := by
  rcases ofUnit_cases n with h | ⟨_, h, c, hc⟩
  · rw [isLow, h]
  · rw [h, hc, isLow_char]

theorem ofUnit_value (p : CodePoint) : ofUnit p.value = p := by
  cases p with
  | char c =>
    have hc := toNat_lt_or c
    have hno : ¬ (0xd800 ≤ c.toNat ∧ c.toNat < 0xe000) := by omega
    change ofUnit c.toNat = _
    rw [ofUnit, dif_neg hno, Char.ofNat_toNat]
  | surrogate i =>
    have hi : 0xd800 ≤ 0xd800 + (i : Nat) ∧ 0xd800 + (i : Nat) < 0xe000 := by omega
    change ofUnit (0xd800 + i) = _
    rw [ofUnit, dif_pos hi]
    simp

/-- The first unit of a character beyond the first plane. -/
def highUnit (c : Char) : Nat := 0xd800 + (c.toNat - 0x10000) / 0x400

/-- The second unit of a character beyond the first plane. -/
def lowUnit (c : Char) : Nat := 0xdc00 + (c.toNat - 0x10000) % 0x400

theorem isHighUnit_highUnit (h : 0x10000 ≤ c.toNat) : isHighUnit (highUnit c) = true := by
  have hc := toNat_lt_or c
  rw [isHighUnit_iff, highUnit]
  omega

theorem isLowUnit_lowUnit (c : Char) : isLowUnit (lowUnit c) = true := by
  rw [isLowUnit_iff, lowUnit]
  omega

theorem highUnit_lt (c : Char) : highUnit c < 0x10000 := by
  have hc := toNat_lt_or c
  rw [highUnit]
  omega

theorem lowUnit_lt (c : Char) : lowUnit c < 0x10000 := by
  rw [lowUnit]
  omega

/-- A character beyond the first plane is that of its two units. -/
theorem ofPair_units (h : 0x10000 ≤ c.toNat) :
    Json.Reader.ofPair (highUnit c) (lowUnit c) = c := by
  have hsum : 0x10000 + (highUnit c - 0xd800) * 0x400 + (lowUnit c - 0xdc00) = c.toNat := by
    rw [highUnit, lowUnit]
    omega
  rw [Json.Reader.ofPair, hsum, Char.ofNat_toNat]

end CodePoint

namespace LooseText

/-- Nowhere do the two halves of a pair of surrogates stand side by side. -/
def IsUnpaired (t : LooseText) : Prop :=
  t.IsChain fun p q => ¬ (p.isHigh = true ∧ q.isLow = true)

theorem isUnpaired_loose (t : Text) : t.loose.IsUnpaired := by
  refine List.Pairwise.isChain (List.pairwise_of_forall_mem_list fun p hp q _ => ?_)
  obtain ⟨c, _, rfl⟩ := List.mem_map.mp hp
  simp

end LooseText

namespace Json.Reader

variable {n fuel opening : Nat} {t rest digits after : Text} {read s : LooseText} {p : CodePoint}

theorem hexDigit?_digitChar : ∀ {n : Nat}, n < 16 → hexDigit? (Nat.digitChar n) = some n := by
  decide

/-- Four digits read back to the unit they were written for. -/
theorem exists_ofHex_four (h : n < 0x10000) :
    ∃ a b c d, Text.ofHex 4 n = [a, b, c, d] ∧ unit? a b c d = some n := by
  refine ⟨_, _, _, _, Text.ofHex_four h, ?_⟩
  rw [unit?, hexDigit?_digitChar (by omega), hexDigit?_digitChar (by omega),
    hexDigit?_digitChar (by omega), hexDigit?_digitChar (by omega)]
  simp only [Option.bind_eq_bind, Option.bind_some, Option.some.injEq]
  omega

/-- The escape of a unit at the beginning is no low one, so it cannot be taken together with a high
one before it. -/
def NoLowFront (t : Text) : Prop :=
  ∀ a b c d e rest, t = '\\' :: 'u' :: a :: b :: c :: d :: e :: rest →
    ∃ low, unit? a b c d = some low ∧ isLowUnit low = false

/-- The escape of a unit that is not taken together with another one. -/
theorem unitEscape_unit (hn : n < 0x10000) (hne : t ≠ [])
    (h : isHighUnit n = true → NoLowFront t) :
    unitEscape (Text.ofHex 4 n ++ t) = .ok (.ofUnit n, t) := by
  obtain ⟨a, b, c, d, hhex, hunit⟩ := exists_ofHex_four hn
  obtain ⟨e, rest, rfl⟩ := List.exists_cons_of_ne_nil hne
  simp only [hhex, List.cons_append, List.nil_append, unitEscape, hunit]
  split
  · next a' b' c' d' e' rest' hhigh heq =>
    obtain ⟨low, hlow, hno⟩ := h hhigh _ _ _ _ _ _ heq
    simp [hlow, hno]
  · rfl

theorem escape_eq (n : Nat) : Json.unitEscape n = '\\' :: 'u' :: Text.ofHex 4 n := rfl

/-- The escapes of two units that belong together. -/
theorem unitEscape_pair {low : Nat} (hn : n < 0x10000) (hlow : low < 0x10000) (hne : t ≠ [])
    (hhigh : isHighUnit n = true) (hl : isLowUnit low = true) :
    unitEscape (Text.ofHex 4 n ++ (Json.unitEscape low ++ t)) = .ok (.char (ofPair n low), t) := by
  obtain ⟨a, b, c, d, hhex, hunit⟩ := exists_ofHex_four hn
  obtain ⟨a', b', c', d', hhex', hunit'⟩ := exists_ofHex_four hlow
  obtain ⟨e, rest, rfl⟩ := List.exists_cons_of_ne_nil hne
  simp only [hhex, escape_eq, hhex', List.cons_append, List.nil_append, unitEscape, hunit, hhigh,
    hunit', hl, if_true]

/-! One code point of a quoted text. -/

theorem quotedRest_plain {c : Char} (hquote : c ≠ '"') (hslash : c ≠ '\\') (hc : 32 ≤ c.toNat) :
    quotedRest opening (fuel + 1) read (c :: t) = quotedRest opening fuel (.char c :: read) t := by
  simp only [quotedRest, if_neg hquote, if_neg hslash, if_neg (Nat.not_lt.mpr hc)]

theorem quotedRest_simple {d e : Char} (h : simpleEscape? d = some e) :
    quotedRest opening (fuel + 1) read ('\\' :: d :: t) =
      quotedRest opening fuel (.char e :: read) t := by
  -- the branch of a unit escape is not taken
  have hu : d ≠ 'u' := by
    rintro rfl
    cases h
  simp [quotedRest, h]

theorem quotedRest_unit (h : unitEscape digits = .ok (p, after)) :
    quotedRest opening (fuel + 1) read ('\\' :: 'u' :: digits) =
      quotedRest opening fuel (p :: read) after := by
  simp [quotedRest, h]

/-- The two escapes of a character beyond the first plane. -/
theorem quotedRest_pair {c : Char} (hc : 0x10000 ≤ c.toNat) (hne : t ≠ []) :
    quotedRest opening (fuel + 1) read
        (Json.unitEscape (CodePoint.highUnit c) ++ Json.unitEscape (CodePoint.lowUnit c) ++ t) =
      quotedRest opening fuel (.char c :: read) t := by
  have hpair := unitEscape_pair (CodePoint.highUnit_lt c) (CodePoint.lowUnit_lt c) hne
    (CodePoint.isHighUnit_highUnit hc) (CodePoint.isLowUnit_lowUnit c)
  rw [CodePoint.ofPair_units hc] at hpair
  rw [List.append_assoc, escape_eq, List.cons_append, List.cons_append]
  exact quotedRest_unit hpair

/-- What is printed for a code point reads back as that code point. -/
theorem quotedRest_quotedPoint (hne : t ≠ []) (h : p.isHigh = true → NoLowFront t) :
    quotedRest opening (fuel + 1) read (quotedPoint p ++ t) =
      quotedRest opening fuel (p :: read) t := by
  have hunit (hp : p.value < 0x10000) : quotedRest opening (fuel + 1) read
      (Json.unitEscape p.value ++ t) = quotedRest opening fuel (p :: read) t := by
    have hread := unitEscape_unit hp hne h
    rw [CodePoint.ofUnit_value] at hread
    rw [escape_eq, List.cons_append, List.cons_append]
    exact quotedRest_unit hread
  cases p with
  | surrogate i =>
    have hi : (CodePoint.surrogate i).value < 0x10000 := by
      simp only [CodePoint.value]
      omega
    exact hunit hi
  | char c =>
    have hsmall {n : Nat} (hn : c.toNat = n) : c = Char.ofNat n := by
      rw [← hn, Char.ofNat_toNat]
    rw [quotedPoint, quotedChar]
    split_ifs with hquote hslash hlf hcr htab hback hfeed hplain hplane
    · subst hquote
      exact quotedRest_simple rfl
    · subst hslash
      exact quotedRest_simple rfl
    · subst hlf
      exact quotedRest_simple rfl
    · subst hcr
      exact quotedRest_simple rfl
    · subst htab
      exact quotedRest_simple rfl
    · rw [hsmall hback]
      exact quotedRest_simple rfl
    · rw [hsmall hfeed]
      exact quotedRest_simple rfl
    · exact quotedRest_plain hquote hslash hplain.1
    · exact hunit hplane
    · exact quotedRest_pair (Nat.not_lt.mp hplane) hne

/-! Whole texts. -/

theorem noLowFront_unitEscape (hn : n < 0x10000) (hlow : isLowUnit n = false) (t : Text) :
    NoLowFront (Json.unitEscape n ++ t) := by
  obtain ⟨a, b, c, d, hhex, hunit⟩ := exists_ofHex_four hn
  intro a' b' c' d' e rest heq
  rw [escape_eq, hhex] at heq
  simp only [List.cons_append, List.nil_append, List.cons.injEq, true_and] at heq
  obtain ⟨rfl, rfl, rfl, rfl, _⟩ := heq
  exact ⟨n, hunit, hlow⟩

theorem noLowFront_of_ne {c d : Char} (h : c ≠ '\\' ∨ d ≠ 'u') (t : Text) :
    NoLowFront (c :: d :: t) := by
  intro a' b' c' d' e rest heq
  obtain ⟨rfl, hrest⟩ := List.cons.inj heq
  obtain ⟨rfl, _⟩ := List.cons.inj hrest
  simp at h

/-- What is printed for a code point does not begin with the escape of a low unit unless the code
point is one. -/
theorem noLowFront_quotedPoint (hp : p.isLow = false) (hne : t ≠ []) :
    NoLowFront (quotedPoint p ++ t) := by
  cases p with
  | surrogate i =>
    refine noLowFront_unitEscape ?_ hp t
    simp only [CodePoint.value]
    omega
  | char c =>
    obtain ⟨d, t, rfl⟩ := List.exists_cons_of_ne_nil hne
    rw [quotedPoint, quotedChar]
    split_ifs with hquote hslash hlf hcr htab hback hfeed hplain hplane
    · exact noLowFront_of_ne (Or.inr (by decide)) _
    · exact noLowFront_of_ne (Or.inr (by decide)) _
    · exact noLowFront_of_ne (Or.inr (by decide)) _
    · exact noLowFront_of_ne (Or.inr (by decide)) _
    · exact noLowFront_of_ne (Or.inr (by decide)) _
    · exact noLowFront_of_ne (Or.inr (by decide)) _
    · exact noLowFront_of_ne (Or.inr (by decide)) _
    · exact noLowFront_of_ne (Or.inl hslash) t
    · exact noLowFront_unitEscape hplane hp _
    · rw [List.append_assoc]
      have hhigh := isHighUnit_iff.mp (CodePoint.isHighUnit_highUnit (Nat.not_lt.mp hplane))
      refine noLowFront_unitEscape (CodePoint.highUnit_lt c) ?_ _
      rw [Bool.eq_false_iff, Ne, isLowUnit_iff]
      omega

theorem quotedPoint_ne_nil (p : CodePoint) : quotedPoint p ≠ [] := by
  cases p with
  | surrogate i => exact List.cons_ne_nil _ _
  | char c =>
    rw [quotedPoint, quotedChar]
    split_ifs <;> exact List.cons_ne_nil _ _

theorem length_le_length_flatMap (s : LooseText) : s.length ≤ (s.flatMap quotedPoint).length := by
  induction s with
  | nil => simp
  | cons p s ih =>
    have hpos := List.length_pos_of_ne_nil (quotedPoint_ne_nil p)
    rw [List.flatMap_cons, List.length_append, List.length_cons]
    omega

/-- The code points of a text that has been quoted, behind those that were read before. -/
theorem quotedRest_flatMap (h : s.IsUnpaired) (hfuel : s.length < fuel) :
    quotedRest opening fuel read (s.flatMap quotedPoint ++ '"' :: rest) =
      .ok (read.reverse ++ s, rest) := by
  induction s generalizing fuel read with
  | nil =>
    obtain ⟨fuel, rfl⟩ := Nat.exists_eq_add_one_of_ne_zero (Nat.ne_zero_of_lt hfuel)
    simp [quotedRest]
  | cons p s ih =>
    obtain ⟨fuel, rfl⟩ := Nat.exists_eq_add_one_of_ne_zero (Nat.ne_zero_of_lt hfuel)
    have hne : s.flatMap quotedPoint ++ '"' :: rest ≠ [] := by simp
    obtain ⟨hhead, htail⟩ := List.isChain_cons.mp h
    have hfront (hp : p.isHigh = true) : NoLowFront (s.flatMap quotedPoint ++ '"' :: rest) := by
      cases s with
      | nil =>
        intro a b c d e rest' heq
        cases heq
      | cons q s =>
        have hq : q.isLow = false := by simpa [hp] using hhead q rfl
        rw [List.flatMap_cons, List.append_assoc]
        exact noLowFront_quotedPoint hq (by simp)
    rw [List.flatMap_cons, List.append_assoc, quotedRest_quotedPoint hne hfront,
      ih htail (by simpa using hfuel)]
    simp

/-- A text that has been quoted reads back. -/
theorem quoted_flatMap (h : s.IsUnpaired) (rest : Text) :
    quoted (s.flatMap quotedPoint ++ '"' :: rest) = .ok (s, rest) := by
  have hlength := length_le_length_flatMap s
  rw [quoted, quotedRest_flatMap h (by rw [List.length_append]; omega)]
  rfl

/-! What the reader gives. -/

/-- The escape of a unit gives that unit, with no low one behind it where it is high, or the
character of two units. -/
theorem unitEscape_cases (h : unitEscape digits = .ok (p, after)) :
    ∃ a b c d e rest n, digits = a :: b :: c :: d :: e :: rest ∧ unit? a b c d = some n ∧
      (p = .ofUnit n ∧ after = e :: rest ∧ (isHighUnit n = true → NoLowFront after) ∨
        ∃ x a' b' c' d', p = .char x ∧ rest = 'u' :: a' :: b' :: c' :: d' :: after) := by
  unfold unitEscape at h
  split at h
  · next a b c d e rest =>
    split at h
    · cases h
    · next n hn =>
      refine ⟨a, b, c, d, e, rest, n, rfl, hn, ?_⟩
      split at h
      · next a' b' c' d' e' rest' hhigh heq =>
        obtain ⟨rfl, rfl⟩ := List.cons.inj heq
        split at h
        · cases h
        · next low hlow =>
          split at h
          · obtain ⟨rfl, rfl⟩ := Prod.mk.inj (Except.ok.inj h)
            exact Or.inr ⟨_, a', b', c', d', rfl, rfl⟩
          · next hno =>
            obtain ⟨rfl, rfl⟩ := Prod.mk.inj (Except.ok.inj h)
            refine Or.inl ⟨rfl, rfl, fun _ => ?_⟩
            intro a₁ b₁ c₁ d₁ e₁ rest₁ heq
            simp only [List.cons.injEq, true_and] at heq
            obtain ⟨rfl, rfl, rfl, rfl, _⟩ := heq
            exact ⟨low, hlow, by simpa using hno⟩
      · next hno =>
        obtain ⟨rfl, rfl⟩ := Prod.mk.inj (Except.ok.inj h)
        refine Or.inl ⟨rfl, rfl, fun hhigh => ?_⟩
        intro a₁ b₁ c₁ d₁ e₁ rest₁ heq
        exact (hno _ _ _ _ _ _ hhigh heq).elim
  · cases h

/-- The code points that have been read, the last one first, hold no pair, and a high surrogate
among them has no low one behind it. -/
structure IsGuarded (read : LooseText) (t : Text) : Prop where
  unpaired : LooseText.IsUnpaired read.reverse
  front : ∀ p ∈ read.head?, p.isHigh = true → NoLowFront t

theorem IsGuarded.cons (h : IsGuarded read t) (hp : NoLowFront t → p.isLow = false)
    (hafter : p.isHigh = true → NoLowFront after) : IsGuarded (p :: read) after := by
  refine ⟨?_, by simpa using hafter⟩
  rw [LooseText.IsUnpaired, List.reverse_cons, List.isChain_append]
  refine ⟨h.unpaired, List.isChain_singleton p, ?_⟩
  rintro q hq p' hp' ⟨hhigh, hlow⟩
  rw [List.getLast?_reverse] at hq
  obtain rfl : p = p' := by simpa using hp'
  rw [hp (h.front q hq hhigh)] at hlow
  cases hlow

theorem IsGuarded.char (h : IsGuarded read t) (c : Char) (after : Text) :
    IsGuarded (.char c :: read) after :=
  h.cons (fun _ => CodePoint.isLow_char c) (by simp)

theorem IsGuarded.unitEscape (h : IsGuarded read ('\\' :: 'u' :: digits))
    (hp : unitEscape digits = .ok (p, after)) : IsGuarded (p :: read) after := by
  obtain ⟨a, b, c, d, e, rest, n, rfl, hn, ⟨rfl, _, hafter⟩ | ⟨x, _, _, _, _, rfl, _⟩⟩ :=
    unitEscape_cases hp
  · refine h.cons (fun hfront => ?_) (fun hhigh => hafter ?_)
    · obtain ⟨low, hlow, hno⟩ := hfront _ _ _ _ _ _ rfl
      obtain rfl : n = low := by simpa [hn] using hlow
      rw [CodePoint.isLow_ofUnit, hno]
    · rwa [CodePoint.isHigh_ofUnit] at hhigh
  · exact h.char x after

theorem suffix_of_unitEscape (h : unitEscape digits = .ok (p, after)) : after <:+ digits := by
  obtain ⟨a, b, c, d, e, rest, n, rfl, _, ⟨_, rfl, _⟩ | ⟨_, a', b', c', d', _, rfl⟩⟩ :=
    unitEscape_cases h
  · exact ⟨[a, b, c, d], rfl⟩
  · exact ⟨[a, b, c, d, e, 'u', a', b', c', d'], rfl⟩

/-- A text that was quoted holds no pair of surrogates, and what follows it is the end of what was
read. -/
theorem of_quotedRest (hread : IsGuarded read t)
    (h : quotedRest opening fuel read t = .ok (s, rest)) : s.IsUnpaired ∧ rest <:+ t := by
  induction fuel generalizing read t with
  | zero => simp [quotedRest, refuseAt] at h
  | succ fuel ih =>
    cases t with
    | nil => simp [quotedRest, refuseAt] at h
    | cons c t =>
      simp only [quotedRest] at h
      split at h
      · obtain ⟨rfl, rfl⟩ := Prod.mk.inj (Except.ok.inj h)
        exact ⟨hread.unpaired, List.suffix_cons _ _⟩
      · split at h
        · next hslash =>
          subst hslash
          split at h
          · cases h
          · next digits =>
            split at h
            · next p after hp =>
              obtain ⟨hs, hrest⟩ := ih (hread.unitEscape hp) h
              have hafter := hrest.trans (suffix_of_unitEscape hp)
              exact ⟨hs, (hafter.trans (List.suffix_cons _ _)).trans (List.suffix_cons _ _)⟩
            · cases h
          · next d after hd =>
            split at h
            · next e _ =>
              obtain ⟨hs, hrest⟩ := ih (hread.char e after) h
              exact ⟨hs, (hrest.trans (List.suffix_cons _ _)).trans (List.suffix_cons _ _)⟩
            · cases h
        · split at h
          · cases h
          · obtain ⟨hs, hrest⟩ := ih (hread.char c t) h
            exact ⟨hs, hrest.trans (List.suffix_cons _ _)⟩

theorem of_quoted (h : quoted t = .ok (s, rest)) : s.IsUnpaired ∧ rest <:+ t := by
  have hread : IsGuarded [] t := ⟨List.IsChain.nil, by simp⟩
  exact of_quotedRest hread h

end Json.Reader

end AsmListing
