import AsmListing.Proofs.PrintedJson
import Mathlib.Data.List.TakeWhile

/-! What the reader gives: a value of the shape that reads back, and the end of the text. Beyond a
limit it goes only in a text with as many brackets or digits. -/
namespace AsmListing.Json.Reader

variable {depth shape fuel : Nat} {t rest digits : Text} {j : Json} {read : List Json}
  {known : Fields}

/-- The brackets in a text that may begin a list or an object. -/
def brackets (t : Text) : Nat := t.countP fun c => c == '[' || c == '{'

/-- The text holds more brackets than `depth`, or more digits in a row than an integer may have. -/
def Exceeds (depth : Nat) (t : Text) : Prop :=
  depth < brackets t ∨
    ∃ ds, ds <:+: t ∧ JsonExcess.digitLimit < ds.length ∧ ∀ c ∈ ds, isDigit c = true

theorem Exceeds.of_suffix (h : Exceeds depth rest) (hs : rest <:+ t) : Exceeds depth t := by
  rcases h with h | ⟨ds, hds, hlength, hdigits⟩
  · exact Or.inl (Nat.lt_of_lt_of_le h (List.Sublist.countP_le hs.sublist))
  · exact Or.inr ⟨ds, hds.trans hs.isInfix, hlength, hdigits⟩

/-- A bracket in front counts. -/
theorem Exceeds.of_bracket {c : Char} (h : Exceeds depth t) (hc : c = '[' ∨ c = '{') :
    Exceeds (depth + 1) (c :: t) := by
  rcases h with h | ⟨ds, hds, hlength, hdigits⟩
  · refine Or.inl ?_
    have hcount : brackets (c :: t) = brackets t + 1 := by
      rw [brackets, List.countP_cons_of_pos (by rcases hc with rfl | rfl <;> rfl), brackets]
    omega
  · exact Or.inr ⟨ds, hds.trans (List.suffix_cons c t).isInfix, hlength, hdigits⟩

theorem brackets_pos {c : Char} (hc : c = '[' ∨ c = '{') (t : Text) : 0 < brackets (c :: t) :=
  List.countP_pos_iff.mpr ⟨c, List.mem_cons_self, by rcases hc with rfl | rfl <;> rfl⟩

/-- The outcome of reading `t` with `depth` levels left is sound: a value with `shape` levels at
most, and the end of `t`, or an excess that `t` accounts for. -/
def IsSound (shape depth : Nat) (t : Text) : Except JsonRefusal (Json × Text) → Prop
  | .ok (j, rest) => j.IsReadable shape ∧ rest <:+ t
  | .error (.excess _) => Exceeds depth t
  | .error (.fault _) => True

theorem isSound_refuse (flaw : JsonFlaw) (u : Text) : IsSound shape depth t (refuse flaw u) :=
  trivial

theorem IsSound.of_suffix {outcome : Except JsonRefusal (Json × Text)}
    (h : IsSound shape depth rest outcome) (hs : rest <:+ t) : IsSound shape depth t outcome := by
  rcases outcome with (f | e) | ⟨j, u⟩
  · trivial
  · exact Exceeds.of_suffix h hs
  · exact ⟨h.1, h.2.trans hs⟩

/-- Behind the bracket of a list or of an object one level is gone. -/
theorem IsSound.of_bracket {outcome : Except JsonRefusal (Json × Text)} {c : Char}
    (h : IsSound shape depth rest outcome) (hs : rest <:+ t) (hc : c = '[' ∨ c = '{') :
    IsSound shape (depth + 1) (c :: t) outcome := by
  rcases outcome with (f | e) | ⟨j, u⟩
  · trivial
  · exact (Exceeds.of_suffix h hs).of_bracket hc
  · exact ⟨h.1, (h.2.trans hs).trans (List.suffix_cons c t)⟩

theorem skipSpace_suffix (t : Text) : skipSpace t <:+ t := List.dropWhile_suffix _

/-! Numbers. -/

theorem ofDigits_lt (h : ∀ c ∈ digits, isDigit c = true) : ofDigits digits < 10 ^ digits.length := by
  rw [ofDigits]
  induction digits with
  | nil => simp
  | cons c digits ih =>
    obtain ⟨hc, hdigits⟩ := List.forall_mem_cons.mp h
    have hvalue : 10 * 0 + (c.toNat - '0'.toNat) ≤ 9 := by
      simp only [isDigit, Char.le_def, UInt32.le_iff_toNat_le, Bool.and_eq_true,
        decide_eq_true_eq] at hc
      have hnine : '9'.val.toNat = 57 := rfl
      have hzero : '0'.toNat = 48 := rfl
      have hnat : c.toNat = c.val.toNat := rfl
      omega
    calc Nat.ofDigitChars 10 (c :: digits) 0
        = 10 ^ digits.length * (10 * 0 + (c.toNat - '0'.toNat)) +
            Nat.ofDigitChars 10 digits 0 := by
          rw [Nat.ofDigitChars_cons, Nat.ofDigitChars_eq_ofDigitChars_zero]
      _ < 10 ^ digits.length * 9 + 10 ^ digits.length :=
          Nat.add_lt_add_of_le_of_lt (Nat.mul_le_mul_left _ hvalue) (ih hdigits)
      _ = 10 ^ (c :: digits).length := by
          rw [List.length_cons, Nat.pow_succ]
          omega

theorem of_integerDigits? (h : integerDigits? t = some (digits, rest)) :
    (∀ c ∈ digits, isDigit c = true) ∧ t = digits ++ rest := by
  unfold integerDigits? at h
  split at h
  · obtain ⟨rfl, rfl⟩ := Prod.mk.inj (Option.some.inj h)
    exact ⟨by simp; decide, rfl⟩
  · split at h
    · obtain ⟨rfl, rfl⟩ := Prod.mk.inj (Option.some.inj h)
      exact ⟨fun c hc => List.mem_takeWhile_imp hc, (List.takeWhile_append_dropWhile ..).symm⟩
    · cases h
  · cases h

theorem fraction_suffix (t : Text) : (fraction t).2 <:+ t := by
  unfold fraction
  split
  · split
    · exact List.suffix_refl _
    · exact (List.dropWhile_suffix _).trans (List.suffix_cons _ _)
  · exact List.suffix_refl _

theorem exponent_suffix (t : Text) : (exponent t).2 <:+ t := by
  unfold exponent
  split
  · next e rest =>
    have hend (u : Text) (hu : u <:+ rest) : u.dropWhile isDigit <:+ e :: rest :=
      ((List.dropWhile_suffix _).trans hu).trans (List.suffix_cons _ _)
    split
    · split
      next sign u hsign =>
      have hu : u <:+ rest := by
        split at hsign
        · obtain ⟨_, rfl⟩ := Prod.mk.inj hsign
          exact List.suffix_cons _ _
        · obtain ⟨_, rfl⟩ := Prod.mk.inj hsign
          exact List.suffix_cons _ _
        · obtain ⟨_, rfl⟩ := Prod.mk.inj hsign
          exact List.suffix_refl _
      split
      · exact List.suffix_refl _
      · exact hend u hu
    · exact List.suffix_refl _
  · exact List.suffix_refl _

theorem isSound_integer (negative : Bool) (hdigits : ∀ c ∈ digits, isDigit c = true)
    (hwithin : digits <:+: t) (hrest : rest <:+ t) :
    IsSound shape depth t ((integer negative digits).map fun j => (j, rest)) := by
  rw [integer]
  split
  · next hlong => exact Or.inr ⟨digits, hwithin, hlong, hdigits⟩
  · next hshort =>
    refine ⟨.int ?_, hrest⟩
    have hlt := Nat.lt_of_lt_of_le (ofDigits_lt hdigits)
      (Nat.pow_le_pow_right (by decide) (Nat.not_lt.mp hshort))
    split <;> simpa using hlt

theorem isSound_number (t : Text) : IsSound shape depth t (number t) := by
  rw [number.eq_def]
  split
  next negative unsigned hsign =>
  have hunsigned : unsigned <:+ t := by
    split at hsign
    · obtain ⟨_, rfl⟩ := Prod.mk.inj hsign
      exact List.suffix_cons _ _
    · obtain ⟨_, rfl⟩ := Prod.mk.inj hsign
      exact List.suffix_refl _
  split
  · exact isSound_refuse _ _
  · next digits u hdigits =>
    obtain ⟨hall, rfl⟩ := of_integerDigits? hdigits
    have hu : u <:+ t := (List.suffix_append digits u).trans hunsigned
    have hpoint := (fraction_suffix u).trans hu
    have hpower := (exponent_suffix (fraction u).2).trans hpoint
    simp only
    split
    · exact isSound_integer negative hall
        ((List.prefix_append digits u).isInfix.trans hunsigned.isInfix) hpower
    · exact ⟨.real _, hpower⟩

theorem of_word? (h : word? t = some (j, rest)) : j.IsReadable depth ∧ rest <:+ t := by
  obtain ⟨w, hw, heq⟩ := Option.map_eq_some_iff.mp h
  obtain ⟨rfl, rfl⟩ := Prod.mk.inj heq
  refine ⟨?_, List.drop_suffix _ _⟩
  have hmem := List.mem_of_find?_eq_some hw
  simp only [words, List.mem_cons, List.not_mem_nil, or_false] at hmem
  rcases hmem with rfl | rfl | rfl | rfl | rfl | rfl
  · exact .null
  · exact .bool true
  · exact .bool false
  · exact .real _
  · exact .real _
  · exact .real _

/-! Quoted texts go beyond no limit. -/

theorem unitEscape_ne_excess (t : Text) (e : JsonExcess) : unitEscape t ≠ .error (.excess e) := by
  unfold unitEscape
  intro h
  split at h
  · split at h
    · cases h
    · split at h
      · split at h
        · cases h
        · split at h <;> cases h
      · cases h
  · cases h

theorem quotedRest_ne_excess (opening fuel : Nat) (s : LooseText) (t : Text) (e : JsonExcess) :
    quotedRest opening fuel s t ≠ .error (.excess e) := by
  induction fuel generalizing s t with
  | zero => simp [quotedRest, refuseAt]
  | succ fuel ih =>
    cases t with
    | nil => simp [quotedRest, refuseAt]
    | cons c t =>
      simp only [quotedRest]
      split
      · intro heq
        cases heq
      · split
        · split
          · intro heq
            cases heq
          · split
            · exact ih _ _
            · next e' h =>
              intro heq
              obtain rfl := Except.error.inj heq
              exact unitEscape_ne_excess _ e h
          · split
            · exact ih _ _
            · intro heq
              cases heq
        · split
          · intro heq
            cases heq
          · exact ih _ _

/-! Lists and objects. -/

/-- Every value is read soundly with `fuel`. -/
def ReadsSoundly (fuel : Nat) : Prop :=
  ∀ depth t, IsSound depth depth t (value fuel depth t)

theorem isSound_items (hvalue : ∀ less ≤ fuel, ReadsSoundly less)
    (hread : ∀ x ∈ read, x.IsReadable depth) :
    IsSound (depth + 1) depth t (items fuel depth read t) := by
  induction fuel generalizing read t with
  | zero => trivial
  | succ fuel ih =>
    have hx := hvalue fuel (Nat.le_succ fuel) depth t
    rw [items]
    split
    · next e h =>
      rw [h] at hx
      cases e with
      | fault f => trivial
      | excess e => exact hx
    · next x rest h =>
      rw [h] at hx
      have hall : ∀ y ∈ x :: read, y.IsReadable depth := List.forall_mem_cons.mpr ⟨hx.1, hread⟩
      have hrest := (skipSpace_suffix rest).trans hx.2
      split
      · next after hend =>
        refine ⟨.list fun y hy => hall y (List.mem_reverse.mp hy), ?_⟩
        exact (List.suffix_cons ']' after).trans (hend ▸ hrest)
      · next after hnext =>
        refine (ih (fun less hless => hvalue less (Nat.le_succ_of_le hless)) hall).of_suffix ?_
        exact ((skipSpace_suffix after).trans (List.suffix_cons ',' after)).trans (hnext ▸ hrest)
      · exact isSound_refuse _ _

theorem isSound_fields (hvalue : ∀ less ≤ fuel, ReadsSoundly less)
    (hknown : (Json.object known).IsReadable (depth + 1)) :
    IsSound (depth + 1) depth t (fields fuel depth known t) := by
  induction fuel generalizing known t with
  | zero => trivial
  | succ fuel ih =>
    rw [fields.eq_def]
    dsimp only
    split
    · next rest =>
      split
      · next e h =>
        cases e with
        | fault f => trivial
        | excess e => exact (quotedRest_ne_excess _ _ _ _ _ h).elim
      · next key rest' hkey =>
        obtain ⟨hunpaired, hrest'⟩ := of_quoted hkey
        have hname := ((skipSpace_suffix rest').trans hrest').trans (List.suffix_cons '"' rest)
        split
        · next first hcolon =>
          have hfirst := ((skipSpace_suffix first).trans (List.suffix_cons ':' first)).trans
            (hcolon ▸ hname)
          have hx := hvalue fuel (Nat.le_succ fuel) depth (skipSpace first)
          split
          · next e h =>
            rw [h] at hx
            cases e with
            | fault f => trivial
            | excess e => exact Exceeds.of_suffix hx hfirst
          · next x after h =>
            rw [h] at hx
            have hafter := ((skipSpace_suffix after).trans hx.2).trans hfirst
            have hput := Json.isReadable_put hknown hunpaired hx.1
            split
            · next last hend =>
              refine ⟨hput, ?_⟩
              exact (List.suffix_cons '}' last).trans (hend ▸ hafter)
            · next last hnext =>
              have hless (less : Nat) (hless : less ≤ fuel) := hvalue less (Nat.le_succ_of_le hless)
              refine (ih hless hput).of_suffix ?_
              exact ((skipSpace_suffix last).trans (List.suffix_cons ',' last)).trans
                (hnext ▸ hafter)
            · exact isSound_refuse _ _
        · exact isSound_refuse _ _
    · exact isSound_refuse _ _

theorem readsSoundly (fuel : Nat) : ReadsSoundly fuel := by
  induction fuel using Nat.strong_induction_on with
  | _ fuel ih =>
    intro depth t
    cases fuel with
    | zero => trivial
    | succ fuel =>
      have hless (less : Nat) (h : less ≤ fuel) : ReadsSoundly less := ih less (Nat.lt_succ_of_le h)
      rw [value.eq_def]
      dsimp only
      split
      · next rest =>
        split
        · next s after h =>
          obtain ⟨hs, hafter⟩ := of_quoted h
          exact ⟨.string hs, hafter.trans (List.suffix_cons '"' rest)⟩
        · next e h =>
          cases e with
          | fault f => trivial
          | excess e => exact (quotedRest_ne_excess _ _ _ _ _ h).elim
      · next rest =>
        cases depth with
        | zero => exact Or.inl (brackets_pos (Or.inr rfl) rest)
        | succ depth =>
          dsimp only
          have hrest := skipSpace_suffix rest
          have hnone : (Json.object []).IsReadable (depth + 1) :=
            .object List.nodup_nil (List.forall_mem_nil _) (List.forall_mem_nil _)
          split
          · next after hend =>
            refine ⟨hnone, ?_⟩
            exact ((List.suffix_cons '}' after).trans (hend ▸ hrest)).trans
              (List.suffix_cons '{' rest)
          · exact (isSound_fields hless hnone).of_bracket hrest (Or.inr rfl)
      · next rest =>
        cases depth with
        | zero => exact Or.inl (brackets_pos (Or.inl rfl) rest)
        | succ depth =>
          dsimp only
          have hrest := skipSpace_suffix rest
          split
          · next after hend =>
            refine ⟨.list (List.forall_mem_nil _), ?_⟩
            exact ((List.suffix_cons ']' after).trans (hend ▸ hrest)).trans
              (List.suffix_cons '[' rest)
          · exact (isSound_items hless (List.forall_mem_nil _)).of_bracket hrest (Or.inl rfl)
      · split
        · next found h => exact of_word? h
        · exact isSound_number t

end Json.Reader

namespace Json

open Reader

variable [NestingLimit] {t : Text} {j : Json} {e : JsonExcess}

/-- What has been read is of the shape that reads back. -/
theorem isReadable_of_ofText (h : ofText t = .ok j) : j.IsReadable NestingLimit.levels := by
  have hsound := readsSoundly (2 * t.length + 2) NestingLimit.levels (skipSpace t)
  rw [ofText.eq_def] at h
  split at h
  · cases h
  · dsimp only at h
    split at h
    · cases h
    · next j' rest hvalue =>
      rw [hvalue] at hsound
      split at h
      · obtain rfl := Except.ok.inj h
        exact hsound.1
      · cases h

/-- A text goes beyond the limits of the reader only with as many brackets or digits. -/
theorem exceeds_of_ofText (h : ofText t = .error (.excess e)) :
    Exceeds NestingLimit.levels t := by
  have hsound := readsSoundly (2 * t.length + 2) NestingLimit.levels (skipSpace t)
  rw [ofText.eq_def] at h
  split at h
  · cases h
  · dsimp only at h
    split at h
    · next e' hvalue =>
      obtain rfl := Except.error.inj h
      rw [hvalue] at hsound
      exact Exceeds.of_suffix hsound (skipSpace_suffix t)
    · split at h <;> cases h

end Json

end AsmListing
