import AsmListing.Proofs.Fields
import AsmListing.Proofs.QuotedText
import Mathlib.Algebra.Group.Nat.Defs

/-! Printed values. The reader gives back every value that has been printed, if it fits the limits of
the reader and holds no number with a point. -/
namespace AsmListing

theorem NestingLimit.exists_levels [NestingLimit] : ∃ n, NestingLimit.levels = n + 3 :=
  Nat.exists_eq_add_of_le' NestingLimit.three_le

namespace Json

/-- The shape of what the reader gives: integers within the limit of their digits, no more than
`depth` lists and objects around anything, no key twice in an object, and no pair of surrogates in a
text. -/
inductive IsReadable : Nat → Json → Prop
  | null {depth : Nat} : IsReadable depth .null
  | bool {depth : Nat} (b : Bool) : IsReadable depth (.bool b)
  | int {depth : Nat} {i : Int} (hi : i.natAbs < 10 ^ JsonExcess.digitLimit) :
    IsReadable depth (.int i)
  | real {depth : Nat} (x : Binary64) : IsReadable depth (.real x)
  | string {depth : Nat} {t : LooseText} (ht : t.IsUnpaired) : IsReadable depth (.string t)
  | list {depth : Nat} {items : List Json} (h : ∀ x ∈ items, IsReadable depth x) :
    IsReadable (depth + 1) (.list items)
  | object {depth : Nat} {fields : Fields} (hkeys : fields.keys.Nodup)
    (htexts : ∀ key ∈ fields.keys, key.IsUnpaired)
    (h : ∀ e ∈ fields, IsReadable depth e.2) : IsReadable (depth + 1) (.object fields)

theorem isReadable_object_iff {depth : Nat} {fields : Fields} :
    IsReadable (depth + 1) (.object fields) ↔ fields.keys.Nodup ∧
      (∀ key ∈ fields.keys, key.IsUnpaired) ∧ ∀ e ∈ fields, IsReadable depth e.2 := by
  constructor
  · rintro (_ | _ | _ | _ | _ | _ | ⟨hkeys, htexts, h⟩)
    exact ⟨hkeys, htexts, h⟩
  · rintro ⟨hkeys, htexts, h⟩
    exact .object hkeys htexts h

/-- An object keeps its shape when a field is put. -/
theorem isReadable_put {depth : Nat} {fields : Fields} {key : LooseText} {value : Json}
    (h : IsReadable (depth + 1) (.object fields)) (hkey : key.IsUnpaired)
    (hvalue : IsReadable depth value) : IsReadable (depth + 1) (.object (fields.put key value)) := by
  obtain ⟨hkeys, htexts, hvalues⟩ := isReadable_object_iff.mp h
  refine .object (Fields.nodup_put hkeys key value) (fun k hk => ?_) fun e he => ?_
  · rcases (Fields.mem_keys_put k key value).mp hk with hk | rfl
    · exact htexts k hk
    · exact hkey
  · rcases Fields.mem_put he with he | ⟨_, he⟩
    · exact hvalues e he
    · exact he ▸ hvalue

/-- Every number in the value is an integer. -/
inductive IsWhole : Json → Prop
  | null : IsWhole .null
  | bool (b : Bool) : IsWhole (.bool b)
  | int (i : Int) : IsWhole (.int i)
  | string (t : LooseText) : IsWhole (.string t)
  | list {items : List Json} (h : ∀ x ∈ items, IsWhole x) : IsWhole (.list items)
  | object {fields : Fields} (h : ∀ e ∈ fields, IsWhole e.2) : IsWhole (.object fields)

/-- The value reads back where it stands in an object. -/
def IsStorable [NestingLimit] (j : Json) : Prop :=
  j.IsReadable (NestingLimit.levels - 1) ∧ j.IsWhole

theorem isStorable_text [NestingLimit] (t : Text) : IsStorable (.text t) :=
  ⟨.string (LooseText.isUnpaired_loose t), .string _⟩

end Json

namespace Fields

variable [NestingLimit] {fields updates : Fields}

/-- The fields read back, each by itself. -/
def AreStorable (fields : Fields) : Prop := ∀ e ∈ fields, e.1.IsUnpaired ∧ e.2.IsStorable

theorem AreStorable.putAll (hfields : fields.AreStorable) (hupdates : updates.AreStorable) :
    (fields.putAll updates).AreStorable := fun e he =>
  (mem_putAll he).elim (hfields e) (hupdates e)

theorem AreStorable.isReadable (h : fields.AreStorable) (hkeys : fields.keys.Nodup) :
    (Json.object fields).IsReadable NestingLimit.levels := by
  obtain ⟨n, hn⟩ := NestingLimit.exists_levels
  rw [hn]
  refine .object hkeys (fun key hkey => ?_) fun e he => by simpa [hn] using (h e he).2.1
  obtain ⟨e, he, rfl⟩ := List.mem_map.mp hkey
  exact (h e he).1

theorem AreStorable.isWhole (h : fields.AreStorable) : (Json.object fields).IsWhole :=
  .object fun e he => (h e he).2.2

end Fields

/-! Digits. -/

namespace Text

theorem isDigit_of_mem_ofNat {n : Nat} {c : Char} (h : c ∈ ofNat n) :
    Json.Reader.isDigit c = true := by
  have hc := Nat.isDigit_of_mem_toDigits (by decide) (by decide) h
  simpa [Char.isDigit, Json.Reader.isDigit, Char.le_def, UInt32.le_iff_toNat_le] using hc

/-- Zero alone begins with the digit zero. -/
theorem exists_ofNat_eq (n : Nat) : ∃ c t, ofNat n = c :: t ∧ (c = '0' → n = 0) := by
  induction n using Nat.strong_induction_on with
  | _ n ih =>
    by_cases hn : n < 10
    · exact ⟨_, [], Nat.toDigits_of_lt_base hn, Nat.digitChar_eq_zero.mp⟩
    · obtain ⟨c, t, heq, hc⟩ := ih (n / 10) (by omega)
      refine ⟨c, t ++ [Nat.digitChar (n % 10)], ?_, fun hzero => ?_⟩
      · rw [ofNat, Nat.toDigits_of_base_le (by decide) (by omega), ← ofNat, heq, List.cons_append]
      · have := hc hzero
        omega

end Text

namespace Json.Reader

variable {n fuel depth level : Nat} {i : Int} {t rest : Text} {j : Json}

/-- No number goes on here. -/
def EndsNumber (t : Text) : Prop :=
  ∀ c ∈ t.head?, isDigit c = false ∧ c ≠ '.' ∧ c ≠ 'e' ∧ c ≠ 'E'

theorem integerDigits?_ofNat (n : Nat) (h : EndsNumber rest) :
    integerDigits? (Text.ofNat n ++ rest) = some (Text.ofNat n, rest) := by
  obtain ⟨c, t, heq, hzero⟩ := Text.exists_ofNat_eq n
  have hdigits : ∀ d ∈ Text.ofNat n, isDigit d = true := fun d => Text.isDigit_of_mem_ofNat
  by_cases hc : c = '0'
  · obtain rfl := hzero hc
    rfl
  · have hrest : rest.takeWhile isDigit = [] ∧ rest.dropWhile isDigit = rest := by
      cases rest with
      | nil => exact ⟨rfl, rfl⟩
      | cons d rest => simp [(h d rfl).1]
    have htake : (Text.ofNat n ++ rest).takeWhile isDigit = Text.ofNat n := by
      rw [List.takeWhile_append_of_pos hdigits, hrest.1, List.append_nil]
    have hdrop : (Text.ofNat n ++ rest).dropWhile isDigit = rest := by
      rw [List.dropWhile_append_of_pos hdigits, hrest.2]
    rw [heq] at htake hdrop hdigits ⊢
    rw [List.cons_append] at htake hdrop ⊢
    have hdigit := hdigits c List.mem_cons_self
    simp only [integerDigits?, hdigit, htake, hdrop, if_true]

theorem fraction_of_endsNumber (h : EndsNumber t) : fraction t = ([], t) := by
  cases t with
  | nil => rfl
  | cons c t =>
    obtain ⟨_, hpoint, _⟩ := h c rfl
    simp [fraction, hpoint]

theorem exponent_of_endsNumber (h : EndsNumber t) : exponent t = ([], t) := by
  cases t with
  | nil => rfl
  | cons c t =>
    obtain ⟨_, _, he, hE⟩ := h c rfl
    simp [exponent, he, hE]

theorem integer_ofNat (negative : Bool) (hn : n < 10 ^ JsonExcess.digitLimit) :
    integer negative (Text.ofNat n) = .ok (.int (if negative then -n else n)) := by
  have hlength : (Text.ofNat n).length ≤ JsonExcess.digitLimit :=
    (Nat.length_toDigits_le_iff (by decide) (by decide)).mpr hn
  have hvalue : ofDigits (Text.ofNat n) = n := Nat.ofDigitChars_ten_toDigits
  rw [integer, if_neg (Nat.not_lt.mpr hlength), hvalue]

/-- Digits alone are read as an integer. -/
theorem number_ofNat (n : Nat) (h : EndsNumber rest) :
    number (Text.ofNat n ++ rest) = (integer false (Text.ofNat n)).map fun j => (j, rest) := by
  have hfraction := fraction_of_endsNumber h
  have hexponent := exponent_of_endsNumber h
  obtain ⟨c, t, heq, _⟩ := Text.exists_ofNat_eq n
  have hminus : c ≠ '-' := by
    rintro rfl
    have hdigit := Text.isDigit_of_mem_ofNat (heq ▸ List.mem_cons_self)
    cases hdigit
  have hdigits := integerDigits?_ofNat n h
  rw [number.eq_def]
  rw [heq, List.cons_append] at hdigits ⊢
  simp [hminus, hdigits, hfraction, hexponent]

/-- An integer that has been printed reads back. -/
theorem number_ofInt (hi : i.natAbs < 10 ^ JsonExcess.digitLimit) (h : EndsNumber rest) :
    number (Text.ofInt i ++ rest) = .ok (.int i, rest) := by
  cases i with
  | ofNat n =>
    have hinteger : integer false (Text.ofNat n) = .ok (.int n) := integer_ofNat false hi
    rw [Text.ofInt, number_ofNat n h, hinteger]
    rfl
  | negSucc n =>
    have hfraction := fraction_of_endsNumber h
    have hexponent := exponent_of_endsNumber h
    have hdigits := integerDigits?_ofNat (n + 1) h
    have hinteger : integer true (Text.ofNat (n + 1)) = .ok (.int (Int.negSucc n)) :=
      integer_ofNat true hi
    rw [Text.ofInt, number.eq_def, List.cons_append]
    simp [hdigits, hfraction, hexponent, hinteger, Except.map]

/-! Blanks. -/

/-- What a value begins with: no blank, and no closing bracket. -/
def Opens (t : Text) : Prop :=
  ∃ c rest, t = c :: rest ∧ isSpace c = false ∧ c ≠ ']' ∧ c ≠ '\uFEFF'

theorem Opens.append (h : Opens t) (rest : Text) : Opens (t ++ rest) := by
  obtain ⟨c, t, rfl, hc⟩ := h
  exact ⟨c, t ++ rest, rfl, hc⟩

theorem skipSpace_of_not_isSpace {c : Char} (h : isSpace c = false) (t : Text) :
    skipSpace (c :: t) = c :: t := by
  simp [skipSpace, h]

theorem Opens.head?_ne (h : Opens t) : t.head? ≠ some ']' := by
  obtain ⟨c, t, rfl, _, hc, _⟩ := h
  simpa using hc

theorem Opens.skipSpace_eq (h : Opens t) : skipSpace t = t := by
  obtain ⟨c, t, rfl, hc, _⟩ := h
  exact skipSpace_of_not_isSpace hc t

theorem skipSpace_newLine (level : Nat) (t : Text) :
    skipSpace (newLine level ++ t) = skipSpace t := by
  refine List.dropWhile_append_of_pos fun c hc => ?_
  rcases List.mem_cons.mp hc with rfl | hc
  · rfl
  · rw [List.eq_of_mem_replicate hc]
    rfl

/-- An integer that has been printed begins with a digit, or with a minus sign and a digit. -/
theorem exists_ofInt_eq (i : Int) : ∃ c t, isDigit c = true ∧
    (Text.ofInt i = c :: t ∨ Text.ofInt i = '-' :: c :: t) := by
  cases i with
  | ofNat n =>
    obtain ⟨c, t, heq, _⟩ := Text.exists_ofNat_eq n
    exact ⟨c, t, Text.isDigit_of_mem_ofNat (heq ▸ List.mem_cons_self), Or.inl heq⟩
  | negSucc n =>
    obtain ⟨c, t, heq, _⟩ := Text.exists_ofNat_eq (n + 1)
    exact ⟨c, t, Text.isDigit_of_mem_ofNat (heq ▸ List.mem_cons_self),
      Or.inr (congrArg (List.cons '-') heq)⟩

theorem ne_of_isDigit {c d : Char} (h : isDigit c = true) (hd : isDigit d = false) : c ≠ d := by
  rintro rfl
  simp [h] at hd

theorem isSpace_of_isDigit {c : Char} (h : isDigit c = true) : isSpace c = false := by
  have hblank := ne_of_isDigit h (show isDigit ' ' = false by decide)
  have htab := ne_of_isDigit h (show isDigit '\t' = false by decide)
  have hlf := ne_of_isDigit h (show isDigit '\n' = false by decide)
  have hcr := ne_of_isDigit h (show isDigit '\r' = false by decide)
  simp [isSpace, hblank, htab, hlf, hcr]

/-- A value that has been printed opens like one. -/
theorem opens_print (h : j.IsWhole) (level : Nat) : Opens (print level j) := by
  cases h with
  | null => exact ⟨_, _, rfl, by decide, by decide, by decide⟩
  | bool b => cases b <;> exact ⟨_, _, rfl, by decide, by decide, by decide⟩
  | int i =>
    obtain ⟨c, t, hc, heq | heq⟩ := exists_ofInt_eq i
    · exact ⟨c, t, heq, isSpace_of_isDigit hc, ne_of_isDigit hc (by decide),
        ne_of_isDigit hc (by decide)⟩
    · exact ⟨_, _, heq, by decide, by decide, by decide⟩
  | string t => exact ⟨_, _, rfl, by decide, by decide, by decide⟩
  | list h =>
    rename_i items
    cases items <;> exact ⟨_, _, rfl, by decide, by decide, by decide⟩
  | object h =>
    rename_i fields
    cases fields <;> exact ⟨_, _, rfl, by decide, by decide, by decide⟩

/-! One step of the reader. -/

variable {x : Json} {s key : LooseText} {after first last : Text} {read : List Json} {known : Fields}

theorem value_string (h : quoted t = .ok (s, after)) :
    value (fuel + 1) depth ('"' :: t) = .ok (.string s, after) := by
  simp [value, h]

/-- What begins like no text, list or object is a word or a number. -/
theorem value_plain {c : Char} (hquote : c ≠ '"') (hbrace : c ≠ '{') (hbracket : c ≠ '[') :
    value (fuel + 1) depth (c :: t) =
      match word? (c :: t) with
      | some found => .ok found
      | none => number (c :: t) := by
  simp only [value]
  split
  · next heq => exact (hquote (List.cons.inj heq).1).elim
  · next heq => exact (hbrace (List.cons.inj heq).1).elim
  · next heq => exact (hbracket (List.cons.inj heq).1).elim
  · rfl

theorem value_word {c : Char} (hquote : c ≠ '"') (hbrace : c ≠ '{') (hbracket : c ≠ '[')
    (h : word? (c :: t) = some (x, rest)) : value (fuel + 1) depth (c :: t) = .ok (x, rest) := by
  rw [value_plain hquote hbrace hbracket, h]

/-- No word begins like an integer. -/
theorem word?_ofInt (i : Int) (rest : Text) : word? (Text.ofInt i ++ rest) = none := by
  obtain ⟨c, t, hc, heq⟩ := exists_ofInt_eq i
  have hne (d : Char) (hd : isDigit d = false) : (d == c) = false :=
    beq_eq_false_iff_ne.mpr (ne_of_isDigit hc hd).symm
  rcases heq with heq | heq
  · rw [heq]
    simp [word?, words, List.find?, List.isPrefixOf, hne 'n' (by decide), hne 't' (by decide),
      hne 'f' (by decide), hne 'N' (by decide), hne 'I' (by decide), hne '-' (by decide)]
  · rw [heq]
    simp [word?, words, List.find?, List.isPrefixOf, hne 'I' (by decide)]

/-- An integer that has been printed is read as a number. -/
theorem value_number (i : Int) (rest : Text) :
    value (fuel + 1) depth (Text.ofInt i ++ rest) = number (Text.ofInt i ++ rest) := by
  have hword := word?_ofInt i rest
  obtain ⟨c, t, hc, heq | heq⟩ := exists_ofInt_eq i
  · rw [heq, List.cons_append] at hword ⊢
    rw [value_plain (ne_of_isDigit hc (by decide)) (ne_of_isDigit hc (by decide))
      (ne_of_isDigit hc (by decide)), hword]
  · rw [heq, List.cons_append] at hword ⊢
    rw [value_plain (by decide) (by decide) (by decide), hword]

theorem value_list (h : skipSpace t = first) (hne : first.head? ≠ some ']') :
    value (fuel + 1) (depth + 1) ('[' :: t) = items fuel depth [] first := by
  simp only [value, h]
  split
  · next heq => simp at hne
  · rfl

theorem value_object (h : skipSpace t = first) (hne : first.head? ≠ some '}') :
    value (fuel + 1) (depth + 1) ('{' :: t) = fields fuel depth [] first := by
  simp only [value, h]
  split
  · next heq => simp at hne
  · rfl

theorem items_last (h : value fuel depth t = .ok (x, rest)) (hend : skipSpace rest = ']' :: after) :
    items (fuel + 1) depth read t = .ok (.list (x :: read).reverse, after) := by
  simp only [items, h, hend]

theorem items_next (h : value fuel depth t = .ok (x, rest)) (hnext : skipSpace rest = ',' :: after) :
    items (fuel + 1) depth read t = items fuel depth (x :: read) (skipSpace after) := by
  simp only [items, h, hnext]

theorem quotedText_append (key : LooseText) (t : Text) :
    quotedText key ++ t = '"' :: (key.flatMap quotedPoint ++ '"' :: t) := by
  simp [quotedText]

theorem skipSpace_colon (t : Text) : skipSpace (": " ++ t) = ':' :: ' ' :: t := rfl

theorem Opens.skipSpace_blank (h : Opens t) : skipSpace (' ' :: t) = t := h.skipSpace_eq

theorem fields_last (hkey : key.IsUnpaired) (hopen : Opens t)
    (h : value fuel depth t = .ok (x, rest)) (hend : skipSpace rest = '}' :: after) :
    fields (fuel + 1) depth known (quotedText key ++ (": " ++ t)) =
      .ok (.object (known.put key x), after) := by
  simp only [quotedText_append, fields, quoted_flatMap hkey, skipSpace_colon, hopen.skipSpace_blank,
    h, hend]

theorem fields_next (hkey : key.IsUnpaired) (hopen : Opens t)
    (h : value fuel depth t = .ok (x, rest)) (hnext : skipSpace rest = ',' :: after) :
    fields (fuel + 1) depth known (quotedText key ++ (": " ++ t)) =
      fields fuel depth (known.put key x) (skipSpace after) := by
  simp only [quotedText_append, fields, quoted_flatMap hkey, skipSpace_colon, hopen.skipSpace_blank,
    h, hnext]

theorem fields_refused {e : JsonRefusal} (hkey : key.IsUnpaired) (hopen : Opens t)
    (h : value fuel depth t = .error e) :
    fields (fuel + 1) depth known (quotedText key ++ (": " ++ t)) = .error e := by
  simp only [quotedText_append, fields, quoted_flatMap hkey, skipSpace_colon, hopen.skipSpace_blank,
    h]

/-! Whole values. -/

/-- Wherever the value is printed, the reader gives it back, with what follows. -/
def ReadsBack (depth : Nat) (j : Json) : Prop :=
  ∀ level fuel rest, (print level j).length ≤ fuel → EndsNumber rest →
    value fuel depth (print level j ++ rest) = .ok (j, rest)

theorem endsNumber_newLine (level : Nat) (t : Text) : EndsNumber (newLine level ++ t) := by
  rintro c ⟨rfl⟩
  decide

theorem endsNumber_comma (t : Text) : EndsNumber (',' :: t) := by
  rintro c ⟨rfl⟩
  decide

/-- The items of a list that has been printed, behind those that were read before. -/
theorem items_print {xs : List Json} (hx : ReadsBack depth x) (hopen : Opens (print level x))
    (hxs : ∀ y ∈ xs, ReadsBack depth y ∧ Opens (print level y)) (outer : Nat)
    (hfuel : (print level x).length + (printItems level xs).length < fuel) :
    items fuel depth read
        (print level x ++ (printItems level xs ++ (newLine outer ++ ']' :: rest))) =
      .ok (.list (read.reverse ++ x :: xs), rest) := by
  induction xs generalizing x fuel read with
  | nil =>
    obtain ⟨fuel, rfl⟩ := Nat.exists_eq_add_one_of_ne_zero (Nat.ne_zero_of_lt hfuel)
    have hvalue := hx level fuel (newLine outer ++ ']' :: rest) (by omega)
      (endsNumber_newLine outer _)
    have hend : skipSpace (newLine outer ++ ']' :: rest) = ']' :: rest := by
      rw [skipSpace_newLine, skipSpace_of_not_isSpace (by decide)]
    rw [printItems, List.nil_append, items_last hvalue hend]
    simp
  | cons y ys ih =>
    obtain ⟨fuel, rfl⟩ := Nat.exists_eq_add_one_of_ne_zero (Nat.ne_zero_of_lt hfuel)
    obtain ⟨hy, hys⟩ := List.forall_mem_cons.mp hxs
    rw [printItems] at hfuel ⊢
    simp only [List.cons_append, List.append_assoc, List.length_cons, List.length_append] at hfuel ⊢
    have hvalue := hx level fuel _ (by omega) (endsNumber_comma
      (newLine level ++ (print level y ++ (printItems level ys ++ (newLine outer ++ ']' :: rest)))))
    rw [items_next hvalue (skipSpace_of_not_isSpace (by decide) _), skipSpace_newLine,
      (hy.2.append _).skipSpace_eq, ih hy.1 hy.2 hys (by omega)]
    simp

/-- The fields of an object that has been printed, behind those that were read before. -/
theorem fields_print {fs : Fields} (hkey : key.IsUnpaired) (hx : ReadsBack depth x)
    (hopen : Opens (print level x))
    (hfs : ∀ e ∈ fs, e.1.IsUnpaired ∧ ReadsBack depth e.2 ∧ Opens (print level e.2))
    (hkeys : (Fields.keys (known ++ (key, x) :: fs)).Nodup) (outer : Nat)
    (hfuel : (print level x).length + (printFields level fs).length < fuel) :
    fields fuel depth known (quotedText key ++ (": " ++ (print level x ++
        (printFields level fs ++ (newLine outer ++ '}' :: rest))))) =
      .ok (.object (known ++ (key, x) :: fs), rest) := by
  induction fs generalizing key x known fuel with
  | nil =>
    obtain ⟨fuel, rfl⟩ := Nat.exists_eq_add_one_of_ne_zero (Nat.ne_zero_of_lt hfuel)
    have hvalue := hx level fuel (newLine outer ++ '}' :: rest) (by omega)
      (endsNumber_newLine outer _)
    have hend : skipSpace (newLine outer ++ '}' :: rest) = '}' :: rest := by
      rw [skipSpace_newLine, skipSpace_of_not_isSpace (by decide)]
    rw [printFields, List.nil_append, fields_last hkey (hopen.append _) hvalue hend,
      Fields.put_of_not_mem (Fields.not_mem_of_nodup hkeys)]
  | cons e fs ih =>
    obtain ⟨fuel, rfl⟩ := Nat.exists_eq_add_one_of_ne_zero (Nat.ne_zero_of_lt hfuel)
    obtain ⟨key', y⟩ := e
    obtain ⟨⟨hkey', hy, hopen'⟩, hrest⟩ := List.forall_mem_cons.mp hfs
    rw [printFields] at hfuel ⊢
    simp only [List.cons_append, List.append_assoc, List.length_cons, List.length_append] at hfuel ⊢
    have hvalue := hx level fuel _ (by omega) (endsNumber_comma
      (newLine level ++ (quotedText key' ++ (": " ++ (print level y ++ (printFields level fs ++
        (newLine outer ++ '}' :: rest)))))))
    have hquote (t : Text) : skipSpace (quotedText key' ++ t) = quotedText key' ++ t := by
      rw [quotedText_append, skipSpace_of_not_isSpace (by decide)]
    have hlength : (print level y).length + (printFields level fs).length < fuel := by omega
    have hput := Fields.put_of_not_mem (Fields.not_mem_of_nodup hkeys) x
    rw [List.append_cons] at hkeys
    rw [fields_next hkey (hopen.append _) hvalue (skipSpace_of_not_isSpace (by decide) _),
      skipSpace_newLine, hquote, hput, ih hkey' hy hopen' hrest hkeys hlength]
    simp

theorem exists_fuel (hwhole : j.IsWhole) (hfuel : (print level j).length ≤ fuel) :
    ∃ less, fuel = less + 1 := by
  obtain ⟨c, t, heq, _⟩ := opens_print hwhole level
  rw [heq, List.length_cons] at hfuel
  exact ⟨fuel - 1, by omega⟩

theorem readsBack_list {xs : List Json} (h : ∀ x ∈ xs, ReadsBack depth x ∧ x.IsWhole) :
    ReadsBack (depth + 1) (.list xs) := by
  intro level fuel rest hfuel _
  obtain ⟨fuel, rfl⟩ := exists_fuel (.list fun x hx => (h x hx).2) hfuel
  cases xs with
  | nil => rfl
  | cons x xs =>
    obtain ⟨⟨hx, hwhole⟩, hxs⟩ := List.forall_mem_cons.mp h
    have hopen := opens_print hwhole (level + 1)
    have hitems (y : Json) (hy : y ∈ xs) : ReadsBack depth y ∧ Opens (print (level + 1) y) :=
      ⟨(hxs y hy).1, opens_print (hxs y hy).2 _⟩
    rw [print] at hfuel ⊢
    simp only [List.cons_append, List.append_assoc, List.nil_append, List.length_cons,
      List.length_append] at hfuel ⊢
    have hfirst := skipSpace_newLine (level + 1)
      (print (level + 1) x ++ (printItems (level + 1) xs ++ (newLine level ++ ']' :: rest)))
    rw [(hopen.append _).skipSpace_eq] at hfirst
    rw [value_list hfirst (hopen.append _).head?_ne, items_print hx hopen hitems level (by omega)]
    rfl

theorem readsBack_object {fs : Fields} (hkeys : fs.keys.Nodup)
    (htexts : ∀ key ∈ fs.keys, key.IsUnpaired)
    (h : ∀ e ∈ fs, ReadsBack depth e.2 ∧ e.2.IsWhole) : ReadsBack (depth + 1) (.object fs) := by
  intro level fuel rest hfuel _
  obtain ⟨fuel, rfl⟩ := exists_fuel (.object fun e he => (h e he).2) hfuel
  cases fs with
  | nil => rfl
  | cons e fs =>
    obtain ⟨key, x⟩ := e
    obtain ⟨hx, hwhole⟩ : ReadsBack depth x ∧ x.IsWhole := h (key, x) List.mem_cons_self
    have hfs (e : LooseText × Json) (he : e ∈ fs) := h e (List.mem_cons_of_mem _ he)
    have hopen := opens_print hwhole (level + 1)
    have hfields (e : LooseText × Json) (he : e ∈ fs) :
        e.1.IsUnpaired ∧ ReadsBack depth e.2 ∧ Opens (print (level + 1) e.2) := by
      have hkey := htexts e.1 (List.mem_cons_of_mem _ (List.mem_map_of_mem he))
      exact ⟨hkey, (hfs e he).1, opens_print (hfs e he).2 _⟩
    rw [print] at hfuel ⊢
    simp only [List.cons_append, List.append_assoc, List.nil_append, List.length_cons,
      List.length_append] at hfuel ⊢
    have hfirst := skipSpace_newLine (level + 1) (quotedText key ++ (": " ++ (print (level + 1) x ++
      (printFields (level + 1) fs ++ (newLine level ++ '}' :: rest)))))
    rw [quotedText_append, skipSpace_of_not_isSpace (by decide), ← quotedText_append] at hfirst
    rw [value_object hfirst (by rw [quotedText_append]; simp), fields_print
      (htexts key List.mem_cons_self) hx hopen hfields hkeys level (by omega)]
    rfl

/-- Every value without a number with a point reads back, if it has the shape of what is read. -/
theorem readsBack (h : j.IsReadable depth) (hwhole : j.IsWhole) : ReadsBack depth j := by
  induction h with
  | null =>
    intro level fuel rest hfuel _
    obtain ⟨fuel, rfl⟩ := exists_fuel hwhole hfuel
    exact value_word (by decide) (by decide) (by decide) rfl
  | bool b =>
    intro level fuel rest hfuel _
    obtain ⟨fuel, rfl⟩ := exists_fuel hwhole hfuel
    cases b with
    | true => exact value_word (by decide) (by decide) (by decide) rfl
    | false => exact value_word (by decide) (by decide) (by decide) rfl
  | int hi =>
    intro level fuel rest hfuel hrest
    obtain ⟨fuel, rfl⟩ := exists_fuel hwhole hfuel
    exact (value_number _ rest).trans (number_ofInt hi hrest)
  | real x => cases hwhole
  | string ht =>
    intro level fuel rest hfuel _
    obtain ⟨fuel, rfl⟩ := exists_fuel hwhole hfuel
    rw [print, quotedText_append]
    exact value_string (quoted_flatMap ht rest)
  | list h ih =>
    cases hwhole with
    | list hwhole => exact readsBack_list fun x hx => ⟨ih x hx (hwhole x hx), hwhole x hx⟩
  | object hkeys htexts h ih =>
    cases hwhole with
    | object hwhole =>
      exact readsBack_object hkeys htexts fun e he => ⟨ih e he (hwhole e he), hwhole e he⟩

end Json.Reader

namespace Json

open Reader

/-- No object is read when the first field in it has an integer of too many digits. -/
theorem value_longInteger {fuel depth level n : Nat} {key : LooseText} {rest : Text}
    (hkey : key.IsUnpaired) (hn : JsonExcess.digitLimit < (Text.ofNat n).length)
    (hrest : EndsNumber rest) :
    value (fuel + 3) (depth + 1)
        ('{' :: (newLine level ++ (quotedText key ++ (": " ++ (Text.ofNat n ++ rest))))) =
      .error (.excess (.integer (Text.ofNat n).length)) := by
  have hnumber : number (Text.ofNat n ++ rest) =
      .error (.excess (.integer (Text.ofNat n).length)) := by
    rw [number_ofNat n hrest, integer, if_pos hn]
    rfl
  have hopen := (opens_print (.int n) level).append rest
  have hfirst : skipSpace (newLine level ++ (quotedText key ++ (": " ++ (Text.ofNat n ++ rest)))) =
      quotedText key ++ (": " ++ (Text.ofNat n ++ rest)) := by
    rw [skipSpace_newLine, quotedText_append, skipSpace_of_not_isSpace (by decide)]
  rw [value_object hfirst (by rw [quotedText_append]; simp)]
  exact fields_refused hkey hopen ((value_number (n : Int) rest).trans hnumber)

variable [NestingLimit] {j : Json}

/-- A value that has been printed and ended with a line is read from its beginning to that end. -/
theorem ofText_print (hwhole : j.IsWhole) : ofText (j.toText ++ ['\n']) =
    match value (2 * (j.toText ++ ['\n']).length + 2) NestingLimit.levels
      (j.toText ++ ['\n']) with
    | .error e => .error e
    | .ok (x, rest) =>
      match skipSpace rest with
      | [] => .ok x
      | other => refuse .extraData other := by
  have hopen := (opens_print hwhole 0).append ['\n']
  rw [← toText] at hopen
  rw [ofText.eq_def]
  split
  · next heq =>
    obtain ⟨c, t, hc, _, _, hmark⟩ := hopen
    rw [hc] at heq
    exact (hmark (List.cons.inj heq).1).elim
  · rewrite [hopen.skipSpace_eq]
    rfl

/-- Such a text is read as the value that was printed. -/
theorem ofText_toText (h : j.IsReadable NestingLimit.levels) (hwhole : j.IsWhole) :
    ofText (j.toText ++ ['\n']) = .ok j := by
  have hvalue := readsBack h hwhole 0 (2 * (j.toText ++ ['\n']).length + 2) ['\n']
    (by rw [← toText, List.length_append]; omega) (endsNumber_newLine 0 [])
  rw [← toText] at hvalue
  rw [ofText_print hwhole, hvalue]
  rfl

theorem ofText_longInteger {key : LooseText} {n : Nat} (hkey : key.IsUnpaired)
    (hn : JsonExcess.digitLimit < (Text.ofNat n).length) :
    ofText ((object [(key, .int n)]).toText ++ ['\n']) =
      .error (.excess (.integer (Text.ofNat n).length)) := by
  have hwhole : IsWhole (.object [(key, .int n)]) :=
    .object (List.forall_mem_singleton.mpr (.int n))
  have htext : (object [(key, .int n)]).toText ++ ['\n'] = '{' :: (newLine 1 ++ (quotedText key ++
      (": " ++ (Text.ofNat n ++ (newLine 0 ++ ['}', '\n']))))) := by
    simp [toText, print, printFields, Text.ofInt]
  have hvalue (fuel : Nat) : value (fuel + 3) NestingLimit.levels
      ((object [(key, .int n)]).toText ++ ['\n']) =
        .error (.excess (.integer (Text.ofNat n).length)) := by
    obtain ⟨n, hlevels⟩ := NestingLimit.exists_levels
    rw [htext, hlevels]
    exact value_longInteger hkey hn (endsNumber_newLine 0 _)
  obtain ⟨fuel, hfuel⟩ : ∃ fuel, 2 * ((object [(key, .int n)]).toText ++ ['\n']).length + 2 =
      fuel + 3 := ⟨_, by rw [List.length_append]; rfl⟩
  rw [ofText_print hwhole, hfuel, hvalue]

end Json

end AsmListing
