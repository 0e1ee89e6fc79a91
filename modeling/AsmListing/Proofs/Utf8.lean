import AsmListing.Codec.Utf8

/-! UTF-8 is read strictly: a text is read from its own bytes, and from no others. The forms of a
character stand between the reader and the writer, with one case for each number of bytes. -/
namespace AsmListing.Utf8

variable {a b : UInt8} {x y : Char} {more rest tail bytes : Bytes} {t u read : Text}
  {n v position : Nat}

/-- The bytes are a form of the code point `v` that is not overlong, nor is `v` a surrogate. -/
inductive Form : Bytes → Nat → Prop
  | one {a : UInt8} (ha : a < 0x80) : Form [a] a.toNat
  | two {a b : UInt8} (ha : 0xC2 ≤ a ∧ a < 0xE0) (hb : isContinuation b = true) :
    Form [a, b] ((a.toNat - 0xC0) * 64 + bits b)
  | three {a b c : UInt8} (ha : 0xE0 ≤ a ∧ a < 0xF0) (hb : secondOfThree a b = true)
      (hc : isContinuation c = true) :
    Form [a, b, c] (((a.toNat - 0xE0) * 64 + bits b) * 64 + bits c)
  | four {a b c d : UInt8} (ha : 0xF0 ≤ a ∧ a < 0xF5) (hb : secondOfFour a b = true)
      (hc : isContinuation c = true) (hd : isContinuation d = true) :
    Form [a, b, c, d] ((((a.toNat - 0xF0) * 64 + bits b) * 64 + bits c) * 64 + bits d)

/-! Bytes as numbers. -/

theorem isContinuation_iff : isContinuation b = true ↔ b.toNat = bits b + 0x80 ∧ bits b < 64 := by
  simp only [isContinuation, bits, Bool.and_eq_true, decide_eq_true_eq, UInt8.lt_iff_toNat_lt,
    UInt8.le_iff_toNat_le, UInt8.reduceToNat]
  omega

theorem secondOfThree_iff : secondOfThree a b = true ↔ isContinuation b = true ∧
    (a.toNat = 0xE0 → 0x20 ≤ bits b) ∧ (a.toNat = 0xED → bits b < 0x20) := by
  have hb := b.toNat_lt
  simp [secondOfThree, isContinuation, bits, UInt8.lt_iff_toNat_lt, UInt8.le_iff_toNat_le,
    ← UInt8.toNat_inj]
  omega

theorem secondOfFour_iff : secondOfFour a b = true ↔ isContinuation b = true ∧
    (a.toNat = 0xF0 → 0x10 ≤ bits b) ∧ (a.toNat = 0xF4 → bits b < 0x10) := by
  have hb := b.toNat_lt
  simp [secondOfFour, isContinuation, bits, UInt8.lt_iff_toNat_lt, UInt8.le_iff_toNat_le,
    ← UInt8.toNat_inj]
  omega

theorem ofNat_eq (h : n = b.toNat) : UInt8.ofNat n = b := by
  rw [h, UInt8.ofNat_toNat]

theorem exists_byte (h : n < 256) : ∃ a : UInt8, a.toNat = n :=
  ⟨UInt8.ofNat n, by rw [UInt8.toNat_ofNat', Nat.mod_eq_of_lt h]⟩

theorem exists_continuation (h : n < 64) : ∃ b, isContinuation b = true ∧ bits b = n := by
  obtain ⟨b, hb⟩ := exists_byte (n := n + 0x80) (by omega)
  have hbits : bits b = n := by
    rw [bits, hb]
    omega
  exact ⟨b, isContinuation_iff.mpr ⟨by omega, by omega⟩, hbits⟩

theorem toNat_ofNat (h : v.isValidChar) : (Char.ofNat v).toNat = v := by
  rw [Char.ofNat, dif_pos h]
  rfl

/-! A form is what the writer writes. -/

theorem Form.isValidChar (h : Form bytes v) : v.isValidChar := by
  rw [Nat.isValidChar]
  cases h <;> simp only [UInt8.lt_iff_toNat_lt, UInt8.le_iff_toNat_le, UInt8.reduceToNat,
    isContinuation_iff, secondOfThree_iff, secondOfFour_iff] at * <;> omega

/-- A code point has one form only, the one that is written. -/
theorem Form.encodeChar_eq (h : Form bytes v) : encodeChar (Char.ofNat v) = bytes := by
  have hv : (Char.ofNat v).val.toNat = v := toNat_ofNat h.isValidChar
  rw [encodeChar, String.utf8EncodeChar, hv]
  cases h with
  | @one a ha =>
    simp only [UInt8.lt_iff_toNat_lt, UInt8.reduceToNat] at ha
    rw [if_pos (by omega), ofNat_eq rfl]
  | @two a b ha hb =>
    simp only [UInt8.lt_iff_toNat_lt, UInt8.le_iff_toNat_le, UInt8.reduceToNat,
      isContinuation_iff] at ha hb
    rw [if_neg (by omega), if_pos (by omega), ofNat_eq (b := a) (by omega),
      ofNat_eq (b := b) (by omega)]
  | @three a b c ha hb hc =>
    simp only [UInt8.lt_iff_toNat_lt, UInt8.le_iff_toNat_le, UInt8.reduceToNat,
      isContinuation_iff, secondOfThree_iff] at ha hb hc
    rw [if_neg (by omega), if_neg (by omega), if_pos (by omega), ofNat_eq (b := a) (by omega),
      ofNat_eq (b := b) (by omega), ofNat_eq (b := c) (by omega)]
  | @four a b c d ha hb hc hd =>
    simp only [UInt8.lt_iff_toNat_lt, UInt8.le_iff_toNat_le, UInt8.reduceToNat,
      isContinuation_iff, secondOfFour_iff] at ha hb hc hd
    rw [if_neg (by omega), if_neg (by omega), if_neg (by omega), ofNat_eq (b := a) (by omega),
      ofNat_eq (b := b) (by omega), ofNat_eq (b := c) (by omega), ofNat_eq (b := d) (by omega)]

theorem exists_form (h : v.isValidChar) : ∃ bytes, Form bytes v := by
  rw [Nat.isValidChar] at h
  by_cases h1 : v < 0x80
  · obtain ⟨a, rfl⟩ := exists_byte (n := v) (by omega)
    exact ⟨[a], .one (UInt8.lt_iff_toNat_lt.mpr h1)⟩
  · by_cases h2 : v < 0x800
    · obtain ⟨a, ha⟩ := exists_byte (n := v / 64 + 0xC0) (by omega)
      obtain ⟨b, hb, hbits⟩ := exists_continuation (n := v % 64) (by omega)
      have hv : v = (a.toNat - 0xC0) * 64 + bits b := by omega
      rw [hv]
      refine ⟨[a, b], .two ?_ hb⟩
      simp only [UInt8.lt_iff_toNat_lt, UInt8.le_iff_toNat_le, UInt8.reduceToNat]
      omega
    · obtain ⟨b, hb, hbits⟩ := exists_continuation (n := v / 64 % 64) (by omega)
      obtain ⟨c, hc, hcits⟩ := exists_continuation (n := v % 64) (by omega)
      by_cases h3 : v < 0x10000
      · obtain ⟨a, ha⟩ := exists_byte (n := v / 4096 + 0xE0) (by omega)
        have hv : v = ((a.toNat - 0xE0) * 64 + bits b) * 64 + bits c := by omega
        rw [hv]
        refine ⟨[a, b, c], .three ?_ (secondOfThree_iff.mpr ⟨hb, by omega, by omega⟩) hc⟩
        simp only [UInt8.lt_iff_toNat_lt, UInt8.le_iff_toNat_le, UInt8.reduceToNat]
        omega
      · obtain ⟨a, ha⟩ := exists_byte (n := v / 262144 + 0xF0) (by omega)
        obtain ⟨z, hz, hzits⟩ := exists_continuation (n := v / 4096 % 64) (by omega)
        have hv : v = (((a.toNat - 0xF0) * 64 + bits z) * 64 + bits b) * 64 + bits c := by omega
        rw [hv]
        refine ⟨[a, z, b, c], .four ?_ (secondOfFour_iff.mpr ⟨hz, by omega, by omega⟩) hb hc⟩
        simp only [UInt8.lt_iff_toNat_lt, UInt8.le_iff_toNat_le, UInt8.reduceToNat]
        omega

theorem form_encodeChar (x : Char) : Form (encodeChar x) x.toNat := by
  obtain ⟨bytes, h⟩ := exists_form (v := x.toNat) x.valid
  have hx := h.encodeChar_eq
  rw [Char.ofNat_toNat] at hx
  rwa [hx]

/-! A form is what the reader reads. -/

theorem front_of_form (h : Form (a :: more) v) (rest : Bytes) :
    front a (more ++ rest) = .char (Char.ofNat v) more.length := by
  have above {m k : UInt8} (hk : k ≤ a) (hm : m ≤ k) : ¬ a < m :=
    UInt8.not_lt.mpr (UInt8.le_trans hm hk)
  cases h with
  | one ha => simp [front, ha]
  | two ha hb => simp [front, above ha.1, ha.2, hb]
  | three ha hb hc => simp [front, above ha.1, ha.2, hb, hc]
  | four ha hb hc hd => simp [front, above ha.1, ha.2, hb, hc, hd]

theorem form_of_front : front a tail = .char x n → ∃ more rest v,
    tail = more ++ rest ∧ more.length = n ∧ Form (a :: more) v ∧ x = Char.ofNat v := by
  fun_cases front a tail with
  | case1 tail ha =>
    rintro ⟨⟩
    exact ⟨[], tail, _, rfl, rfl, .one ha, rfl⟩
  | case4 _ ha ha' b rest hb =>
    rintro ⟨⟩
    exact ⟨[b], rest, _, rfl, rfl, .two ⟨UInt8.not_lt.mp ha, ha'⟩ hb, rfl⟩
  | case8 _ _ ha ha' b hb c rest hc =>
    rintro ⟨⟩
    exact ⟨[b, c], rest, _, rfl, rfl, .three ⟨UInt8.not_lt.mp ha, ha'⟩ hb hc, rfl⟩
  | case14 _ _ _ ha ha' b hb c hc d rest hd =>
    rintro ⟨⟩
    exact ⟨[b, c, d], rest, _, rfl, rfl, .four ⟨UInt8.not_lt.mp ha, ha'⟩ hb hc hd, rfl⟩
  | _ => nofun

/-- The character that is read in front has its own bytes there. -/
theorem eq_of_front (h : front a tail = .char x n) : a :: tail = encodeChar x ++ tail.drop n := by
  obtain ⟨more, rest, v, rfl, rfl, hform, rfl⟩ := form_of_front h
  rw [hform.encodeChar_eq, List.drop_left, List.cons_append]

/-- A character whose bytes stand in front is read there. -/
theorem exists_front_eq (h : a :: tail = encodeChar x ++ rest) :
    ∃ n, front a tail = .char x n ∧ tail.drop n = rest := by
  have hform := form_encodeChar x
  generalize encodeChar x = bytes at h hform
  cases bytes with
  | nil => cases hform
  | cons b more =>
    obtain ⟨rfl, rfl⟩ := List.cons.inj h
    have hfront := front_of_form hform rest
    rw [Char.ofNat_toNat] at hfront
    exact ⟨more.length, hfront, List.drop_left⟩

/-- No character has bytes that go on after those of another one. -/
theorem encodeChar_append_inj {rest' : Bytes} (h : encodeChar x ++ rest = encodeChar y ++ rest') :
    x = y ∧ rest = rest' := by
  obtain ⟨a, more, hx⟩ := List.exists_cons_of_ne_nil (String.utf8EncodeChar_ne_nil (c := x))
  have hcons : a :: (more ++ rest) = encodeChar x ++ rest := by
    rw [encodeChar, hx, List.cons_append]
  obtain ⟨n, hfront, hdrop⟩ := exists_front_eq hcons
  obtain ⟨m, hfront', hdrop'⟩ := exists_front_eq (hcons.trans h)
  obtain ⟨rfl, rfl⟩ := Front.char.inj (hfront.symm.trans hfront')
  exact ⟨rfl, hdrop.symm.trans hdrop'⟩

/-! Whole texts. -/

@[simp] theorem encode_nil : encode [] = [] := rfl

@[simp] theorem encode_cons (x : Char) (t : Text) : encode (x :: t) = encodeChar x ++ encode t := by
  simp [encode]

/-- Bytes that begin with those of a character write this character and a text behind it. -/
theorem encode_eq_encodeChar_append :
    encode t = encodeChar x ++ rest ↔ ∃ u, t = x :: u ∧ encode u = rest := by
  constructor
  · intro ht
    cases t with
    | nil => exact absurd (List.append_eq_nil_iff.mp ht.symm).1 String.utf8EncodeChar_ne_nil
    | cons y u =>
      rw [encode_cons] at ht
      obtain ⟨rfl, hu⟩ := encodeChar_append_inj ht
      exact ⟨u, rfl, hu⟩
  · rintro ⟨u, rfl, hu⟩
    rw [encode_cons, hu]

/-- No text has bytes in which the reader finds a bad sequence in front. -/
theorem encode_ne_of_bad {flaw : Utf8Flaw} (h : front a tail = .bad flaw n) (t : Text) :
    encode t ≠ a :: tail := by
  intro ht
  cases t with
  | nil => cases ht
  | cons y u =>
    rw [encode_cons] at ht
    obtain ⟨m, hfront, _⟩ := exists_front_eq ht.symm
    rw [h] at hfront
    cases hfront

theorem decodeFrom_eq_ok_iff : decodeFrom position read bytes = .ok t ↔
    ∃ u, t = read.reverse ++ u ∧ encode u = bytes := by
  fun_induction decodeFrom position read bytes with
  | case1 position read =>
    constructor
    · rintro ⟨⟩
      exact ⟨[], by simp, rfl⟩
    · rintro ⟨u, rfl, hu⟩
      cases u with
      | nil => simp
      | cons x u => exact absurd (List.append_eq_nil_iff.mp hu).1 String.utf8EncodeChar_ne_nil
  | case2 position read a tail flaw width h =>
    simp only [reduceCtorEq, false_iff]
    rintro ⟨u, _, hu⟩
    exact encode_ne_of_bad h u hu
  | case3 position read a tail x more h ih =>
    rw [ih, eq_of_front h]
    constructor
    · rintro ⟨u, rfl, hu⟩
      exact ⟨x :: u, by simp, encode_eq_encodeChar_append.mpr ⟨u, rfl, hu⟩⟩
    · rintro ⟨w, rfl, hw⟩
      obtain ⟨u, rfl, hu⟩ := encode_eq_encodeChar_append.mp hw
      exact ⟨u, by simp, hu⟩

/-- A text is read from its own bytes and from no others. -/
theorem decode_eq_ok_iff : decode bytes = .ok t ↔ encode t = bytes := by
  rw [decode, decodeFrom_eq_ok_iff]
  simp

theorem decode_encode (t : Text) : decode (encode t) = .ok t := decode_eq_ok_iff.mpr rfl

/-- No two texts have the same bytes. -/
theorem encode_injective (h : encode t = encode u) : t = u := by
  have hdecode := decode_encode t
  rw [h, decode_encode] at hdecode
  exact (Except.ok.inj hdecode).symm

/-- The bytes are UTF-8: those of some characters, one behind the other. -/
def IsUtf8 (bytes : Bytes) : Prop := (ByteArray.mk bytes.toArray).IsValidUTF8

theorem isUtf8_iff : IsUtf8 bytes ↔ ∃ t, encode t = bytes := by
  have data_eq (t : Text) : (List.utf8Encode t).data = (encode t).toArray := by
    rw [List.utf8Encode, List.data_toByteArray]
    rfl
  constructor
  · rintro ⟨t, ht⟩
    have hdata := congrArg ByteArray.data ht
    rw [data_eq] at hdata
    exact ⟨t, (List.toArray_inj hdata).symm⟩
  · rintro ⟨t, rfl⟩
    exact ⟨t, ByteArray.ext (data_eq t).symm⟩

/-! Texts in ASCII, which have one byte for each character. -/

theorem length_le_length_encode (t : Text) : t.length ≤ (encode t).length := by
  induction t with
  | nil => simp
  | cons x t ih =>
    have hpos := x.utf8Size_pos
    simp only [encode_cons, encodeChar, List.length_append, String.length_utf8EncodeChar,
      List.length_cons]
    omega

theorem encode_of_ascii (h : ∀ x ∈ t, x.toNat < 0x80) :
    encode t = t.map fun x => UInt8.ofNat x.toNat := by
  induction t with
  | nil => rfl
  | cons x t ih =>
    rw [List.forall_mem_cons] at h
    have hx : x.val.toNat ≤ 0x7F := Nat.le_of_lt_succ h.1
    simp only [encode_cons, ih h.2, encodeChar, String.utf8EncodeChar, if_pos hx]
    rfl

/-- No other text has so few bytes. -/
theorem ascii_of_length_encode (h : (encode t).length ≤ t.length) : ∀ x ∈ t, x.toNat < 0x80 := by
  induction t with
  | nil => simp
  | cons x t ih =>
    have hpos := x.utf8Size_pos
    have hle := length_le_length_encode t
    simp only [encode_cons, encodeChar, List.length_append, String.length_utf8EncodeChar,
      List.length_cons] at h
    have hsize : x.utf8Size = 1 := by omega
    have hone := UInt32.le_iff_toNat_le.mp (Char.utf8Size_eq_one_iff.mp hsize)
    exact List.forall_mem_cons.mpr ⟨Nat.lt_succ_of_le hone, ih (by omega)⟩

end AsmListing.Utf8
