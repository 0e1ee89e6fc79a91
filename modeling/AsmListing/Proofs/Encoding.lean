import AsmListing.Proofs.LooseText
import AsmListing.Proofs.Utf8

/-! No two texts have the same bytes in one encoding. Any bytes are read in an encoding that gives
them back, and so what has been read can be written in the encoding that was found. -/
namespace AsmListing

namespace Latin1

variable {t : LooseText} {bytes : Bytes}

/-- A text whose code points all fit is written one byte a code point, and no other text is. -/
theorem encode_eq_ok_iff : encode t = .ok bytes ↔
    (∀ p ∈ t, p.value < 256) ∧ bytes = t.map fun p => UInt8.ofNat p.value := by
  have hfits : (∀ p ∈ t, fits p = true) ↔ ∀ p ∈ t, p.value < 256 := by simp [fits]
  rw [← hfits, ← @LooseText.misfit?_eq_none_iff t .latin1 fits fits, encode]
  cases t.misfit? .latin1 fits fits <;> simp [eq_comm]

theorem encode_eq_error_iff {fault : EncodeFault} :
    encode t = .error fault ↔ t.misfit? .latin1 fits fits = some fault := by
  rw [encode]
  cases t.misfit? .latin1 fits fits <;> simp

/-- What fits in a byte is a character. -/
theorem isChar_of_fits {p : CodePoint} (h : p.value < 256) : p.isChar = true := by
  cases p with
  | char c => rfl
  | surrogate i =>
    rw [CodePoint.value] at h
    omega

theorem decode_of_encode (h : encode t = .ok bytes) : (decode bytes).loose = t := by
  obtain ⟨hfit, rfl⟩ := encode_eq_ok_iff.mp h
  have hback : ∀ p ∈ t, CodePoint.char (Char.ofNat (UInt8.ofNat p.value).toNat) = p := by
    intro p hp
    obtain ⟨c, rfl⟩ := CodePoint.isChar_iff.mp (isChar_of_fits (hfit p hp))
    have hc : c.toNat < 256 := hfit _ hp
    rw [CodePoint.value, UInt8.toNat_ofNat', Nat.mod_eq_of_lt hc, Char.ofNat_toNat]
  calc
    (decode (t.map fun p => UInt8.ofNat p.value)).loose
      = t.map fun p => CodePoint.char (Char.ofNat (UInt8.ofNat p.value).toNat) := by
        simp [decode, Text.loose, Function.comp_def]
    _ = t.map fun p => p := List.map_congr_left hback
    _ = t := List.map_id' t

theorem toNat_ofNat (b : UInt8) : (Char.ofNat b.toNat).toNat = b.toNat := by
  have hb := b.toNat_lt
  exact Utf8.toNat_ofNat (.inl (by omega))

theorem toNat_lt_of_mem_decode {c : Char} (hc : c ∈ decode bytes) :
    c.toNat < 256 := by
  obtain ⟨b, _, rfl⟩ := List.mem_map.mp hc
  rw [toNat_ofNat]
  exact b.toNat_lt

/-- Any bytes can be read, and are written back. -/
theorem encode_decode (bytes : Bytes) : encode (decode bytes) = .ok bytes := by
  refine encode_eq_ok_iff.mpr ⟨fun p hp => ?_, ?_⟩
  · obtain ⟨c, hc, rfl⟩ := List.mem_map.mp hp
    exact toNat_lt_of_mem_decode hc
  · simp [decode, Text.loose, Function.comp_def, CodePoint.value, toNat_ofNat]

end Latin1

namespace Encoding

variable {e : Encoding} {bytes mark : Bytes} {t u : Text} {loose : LooseText}
  {fault : EncodeFault}

theorem encodeUnicode_loose (mark : Bytes) (t : Text) :
    encodeUnicode mark t = .ok (mark ++ Utf8.encode t) := by
  simp [encodeUnicode]

/-- A text is written in UTF-8 if it is made of characters, and no other text is. -/
theorem encodeUnicode_eq_ok_iff : encodeUnicode mark loose = .ok bytes ↔
    ∃ t : Text, loose = t.loose ∧ bytes = mark ++ Utf8.encode t := by
  constructor
  · intro h
    unfold encodeUnicode at h
    split at h
    · cases h
    · next hnone =>
      have hchars := LooseText.encodeFault?_eq_none_iff.mp hnone
      exact ⟨_, (LooseText.loose_characters hchars).symm, (Except.ok.inj h).symm⟩
  · rintro ⟨t, rfl, rfl⟩
    exact encodeUnicode_loose mark t

/-- The code point can be written. -/
def Fits : Encoding → CodePoint → Prop
  | .latin1, p => p.value < 256
  | _, p => p.isChar = true

/-- A text can be written where all its code points can. -/
theorem exists_encode_iff : (∃ bytes, e.encode loose = .ok bytes) ↔ ∀ p ∈ loose, e.Fits p := by
  have hunicode (mark : Bytes) :
      (∃ bytes, encodeUnicode mark loose = .ok bytes) ↔ ∀ p ∈ loose, p.isChar = true := by
    rw [← LooseText.encodeFault?_eq_none_iff, encodeUnicode]
    cases loose.encodeFault? <;> simp
  cases e with
  | utf8 => exact hunicode []
  | utf8Marked => exact hunicode byteOrderMark
  | latin1 => simp [encode, Latin1.encode_eq_ok_iff, Fits]

/-- A text cannot be written because of a code point in it, the first of those that cannot be. -/
theorem of_encode_error (h : e.encode loose = .error fault) :
    fault.first ∈ loose ∧ ¬ e.Fits fault.first := by
  have hunicode {mark : Bytes} (h : encodeUnicode mark loose = .error fault) :
      fault.first ∈ loose ∧ ¬ fault.first.isChar = true := by
    unfold encodeUnicode at h
    split at h
    · next fault' hfault =>
      obtain rfl := Except.error.inj h
      obtain ⟨hmem, hfirst⟩ := LooseText.of_misfit? hfault
      exact ⟨hmem, by simp [hfirst]⟩
    · cases h
  cases e with
  | utf8 => exact hunicode h
  | utf8Marked => exact hunicode h
  | latin1 =>
    obtain ⟨hmem, hfirst⟩ := LooseText.of_misfit? (Latin1.encode_eq_error_iff.mp h)
    exact ⟨hmem, by simpa [Latin1.fits, Fits] using hfirst⟩

/-! The three ways in which bytes are read, which leave no bytes out. -/

theorem encodeChar_mark : Utf8.encodeChar '\uFEFF' = byteOrderMark := by decide

theorem encode_mark_cons (t : Text) :
    Utf8.encode ('\uFEFF' :: t) = byteOrderMark ++ Utf8.encode t := by
  rw [Utf8.encode_cons, encodeChar_mark]

/-- Only a text that begins with the mark has bytes that do so. -/
theorem mark_prefix_iff : byteOrderMark <+: Utf8.encode t ↔ t.head? = some '\uFEFF' := by
  constructor
  · rintro ⟨rest, hrest⟩
    rw [← encodeChar_mark] at hrest
    obtain ⟨u, rfl, _⟩ := Utf8.encode_eq_encodeChar_append.mp hrest.symm
    rfl
  · intro hmark
    obtain ⟨u, rfl⟩ := List.head?_eq_some_iff.mp hmark
    rw [encode_mark_cons]
    exact List.prefix_append ..

theorem detect_mark (t : Text) : detect (byteOrderMark ++ Utf8.encode t) = (t, .utf8Marked) := by
  have hmark : byteOrderMark.isPrefixOf (byteOrderMark ++ Utf8.encode t) = true :=
    List.isPrefixOf_iff_prefix.mpr (List.prefix_append ..)
  simp only [detect, hmark, if_true, List.drop_left, Utf8.decode_encode]

theorem detect_encode (h : t.head? ≠ some '\uFEFF') : detect (Utf8.encode t) = (t, .utf8) := by
  have hmark : byteOrderMark.isPrefixOf (Utf8.encode t) = false := by
    rw [Bool.eq_false_iff, ne_eq, List.isPrefixOf_iff_prefix, mark_prefix_iff]
    exact h
  simp only [detect, hmark, Utf8.decode_encode, Bool.false_eq_true, if_false]

theorem detect_of_not_isUtf8 (h : ¬ Utf8.IsUtf8 bytes) :
    detect bytes = (Latin1.decode bytes, .latin1) := by
  have hno (t : Text) : Utf8.encode t ≠ bytes := fun ht => h (Utf8.isUtf8_iff.mpr ⟨t, ht⟩)
  by_cases hmark : byteOrderMark.isPrefixOf bytes = true
  · obtain ⟨rest, rfl⟩ := List.isPrefixOf_iff_prefix.mp hmark
    simp only [detect, hmark, if_true, List.drop_left]
    split
    · next t hdecode =>
      -- the mark would be a character of its own in front of this text
      have ht := hno ('\uFEFF' :: t)
      rw [encode_mark_cons, Utf8.decode_eq_ok_iff.mp hdecode] at ht
      exact absurd rfl ht
    · rfl
  · simp only [detect, hmark, Bool.false_eq_true, if_false]
    split
    · next t hdecode => exact absurd (Utf8.decode_eq_ok_iff.mp hdecode) (hno t)
    · rfl

theorem detect_cases (bytes : Bytes) :
    (∃ t, bytes = byteOrderMark ++ Utf8.encode t ∧ detect bytes = (t, .utf8Marked)) ∨
      (∃ t, t.head? ≠ some '\uFEFF' ∧ bytes = Utf8.encode t ∧ detect bytes = (t, .utf8)) ∨
      (¬ Utf8.IsUtf8 bytes ∧ detect bytes = (Latin1.decode bytes, .latin1)) := by
  by_cases hutf : Utf8.IsUtf8 bytes
  · obtain ⟨t, rfl⟩ := Utf8.isUtf8_iff.mp hutf
    by_cases hmark : t.head? = some '\uFEFF'
    · obtain ⟨u, rfl⟩ := List.head?_eq_some_iff.mp hmark
      rw [encode_mark_cons]
      exact .inl ⟨u, rfl, detect_mark u⟩
    · exact .inr (.inl ⟨t, hmark, rfl, detect_encode hmark⟩)
  · exact .inr (.inr ⟨hutf, detect_of_not_isUtf8 hutf⟩)

/-- Which encoding is found, by the bytes alone. -/
theorem encoding_of_detect (h : detect bytes = (t, e)) :
    (e = .utf8Marked ↔ byteOrderMark <+: bytes ∧ Utf8.IsUtf8 bytes) ∧
      (e = .utf8 ↔ ¬ byteOrderMark <+: bytes ∧ Utf8.IsUtf8 bytes) ∧
      (e = .latin1 ↔ ¬ Utf8.IsUtf8 bytes) := by
  obtain ⟨u, rfl, hd⟩ | ⟨u, hmark, rfl, hd⟩ | ⟨hno, hd⟩ := detect_cases bytes <;>
    rw [hd] at h <;> cases h
  · have hutf := Utf8.isUtf8_iff.mpr ⟨_, encode_mark_cons t⟩
    simp [hutf]
  · have hutf := Utf8.isUtf8_iff.mpr ⟨t, rfl⟩
    simp [hutf, mark_prefix_iff, hmark]
  · simp [hno]

/-- What was read is written as the bytes that it was read from. -/
theorem encode_of_detect (h : detect bytes = (t, e)) : e.encode t = .ok bytes := by
  obtain ⟨_, rfl, hd⟩ | ⟨_, _, rfl, hd⟩ | ⟨_, hd⟩ := detect_cases bytes <;> rw [hd] at h <;> cases h
  · exact encodeUnicode_loose byteOrderMark t
  · exact encodeUnicode_loose [] t
  · exact Latin1.encode_decode bytes

/-- A text without new characters can be written in the encoding that was found. -/
theorem exists_encode_of_detect (h : detect bytes = (t, e)) (hu : ∀ c ∈ u, c ∈ t) :
    ∃ out, e.encode u = .ok out := by
  have hold := exists_encode_iff.mp ⟨bytes, encode_of_detect h⟩
  refine exists_encode_iff.mpr fun p hp => ?_
  obtain ⟨c, hc, rfl⟩ := List.mem_map.mp hp
  exact hold _ (Text.mem_loose.mpr (hu c hc))

end Encoding

theorem Encoding.encode_injective {e : Encoding} {t u : LooseText} {bytes : Bytes}
    (ht : e.encode t = .ok bytes) (hu : e.encode u = .ok bytes) : t = u := by
  have hunicode {mark : Bytes} (ht : encodeUnicode mark t = .ok bytes)
      (hu : encodeUnicode mark u = .ok bytes) : t = u := by
    obtain ⟨v, rfl, rfl⟩ := encodeUnicode_eq_ok_iff.mp ht
    obtain ⟨w, rfl, hw⟩ := encodeUnicode_eq_ok_iff.mp hu
    rw [Utf8.encode_injective (List.append_cancel_left hw)]
  cases e with
  | utf8 => exact hunicode ht hu
  | utf8Marked => exact hunicode ht hu
  | latin1 => exact (Latin1.decode_of_encode ht).symm.trans (Latin1.decode_of_encode hu)

/-- Reading finds an encoding of its own, and yet the text is read as it was written: UTF-8 does not
begin with what is taken for a mark, and Latin-1, unless it is ASCII, is not UTF-8 by chance. -/
def Encoding.ReadsBack (t : LooseText) : Encoding → Prop
  | .utf8 => t.head? ≠ some (.char '\uFEFF')
  | .utf8Marked => True
  | .latin1 => (∀ p ∈ t, p.value < 0x80) ∨ ¬ Utf8.IsUtf8 (t.map fun p => UInt8.ofNat p.value)

/-- Latin-1 is as long as its text, and so no other text is as short in UTF-8 as one in ASCII. -/
theorem Encoding.detect_latin1_eq_iff {t : LooseText} {bytes : Bytes}
    (h : Latin1.encode t = .ok bytes) : (detect bytes).1.loose = t ↔ ReadsBack t .latin1 := by
  obtain ⟨hfits, rfl⟩ := Latin1.encode_eq_ok_iff.mp h
  -- the text is made of characters, since each of them fits in a byte
  obtain ⟨t, rfl⟩ : ∃ u : Text, t = u.loose :=
    ⟨_, (LooseText.loose_characters fun p hp => Latin1.isChar_of_fits (hfits p hp)).symm⟩
  have hbytes : (t.loose.map fun p => UInt8.ofNat p.value) =
      t.map fun c => UInt8.ofNat c.toNat := by
    simp [Text.loose, Function.comp_def, CodePoint.value]
  rw [Text.loose_injective.eq_iff, ReadsBack, hbytes]
  rw [hbytes] at h
  have hascii : (∀ p ∈ t.loose, p.value < 0x80) ↔ ∀ c ∈ t, c.toNat < 0x80 := by
    simp [Text.loose, CodePoint.value]
  rw [hascii]
  constructor
  · intro ht
    rcases detect_cases (t.map fun c => UInt8.ofNat c.toNat) with
      ⟨u, hu, hd⟩ | ⟨u, _, hu, hd⟩ | ⟨hno, _⟩
    · obtain rfl : u = t := by rw [← ht, hd]
      have hlength := congrArg List.length hu
      have hle := Utf8.length_le_length_encode u
      simp only [List.length_map, List.length_append, byteOrderMark, List.length_cons] at hlength
      omega
    · obtain rfl : u = t := by rw [← ht, hd]
      refine .inl (Utf8.ascii_of_length_encode ?_)
      rw [← hu, List.length_map]
    · exact .inr hno
  · rintro (hascii | hno)
    · have hmark : t.head? ≠ some '\uFEFF' := by
        intro hhead
        exact absurd (hascii _ (List.mem_of_mem_head? hhead)) (by decide)
      rw [← Utf8.encode_of_ascii hascii, detect_encode hmark]
    · rw [detect_of_not_isUtf8 hno]
      exact Text.loose_injective (Latin1.decode_of_encode h)

theorem Encoding.detect_encode_eq_iff {e : Encoding} {t : LooseText} {bytes : Bytes}
    (h : e.encode t = .ok bytes) : (detect bytes).1.loose = t ↔ e.ReadsBack t := by
  cases e with
  | utf8 =>
    obtain ⟨t, rfl, rfl⟩ := encodeUnicode_eq_ok_iff.mp h
    rw [List.nil_append, Text.loose_injective.eq_iff]
    by_cases hmark : t.head? = some '\uFEFF'
    · obtain ⟨u, rfl⟩ := List.head?_eq_some_iff.mp hmark
      rw [encode_mark_cons, detect_mark]
      simp [ReadsBack]
    · have hhead : t.loose.head? ≠ some (.char '\uFEFF') := by
        simpa [Text.loose, List.head?_map] using hmark
      simp [ReadsBack, detect_encode hmark, hhead]
  | utf8Marked =>
    obtain ⟨t, rfl, rfl⟩ := encodeUnicode_eq_ok_iff.mp h
    simp [ReadsBack, detect_mark]
  | latin1 => exact detect_latin1_eq_iff h

end AsmListing
