import AsmListing.Listing.Reference
import AsmListing.Proofs.FirstFound

/-! The forms of references. A line calls a symbol, notes one, or loads the address of one, and no
other name of it is a reference. -/
namespace AsmListing

namespace Reference

variable {t name : Text}

/-- The name is the operand of the first `jal` that has one and is no end of a longer word. -/
def IsCall (name t : Text) : Prop :=
  IsFirstFound (fun before rest found => IsEdge before ∧ IsOperand "jal" found rest) name t

/-- The text begins with an at sign, any number of blanks, an equals sign, and the word `name`. -/
def BeginsNote (name t : Text) : Prop :=
  ∃ gap rest, t = '@' :: (gap ++ '=' :: rest) ∧ (∀ c ∈ gap, isBlank c = true) ∧
    IsLeadingWord name rest

/-- The name is that of the first note in the text. -/
def IsNote (name t : Text) : Prop := IsFirstFound (fun _ rest found => BeginsNote found rest) name t

/-- A word stands directly behind an equals sign somewhere in the text. -/
def HasOperand (t : Text) : Prop :=
  ∃ before rest name, t = before ++ '=' :: rest ∧ IsLeadingWord name rest

/-- The word `name` stands directly behind an equals sign, and behind no later equals sign there is
a word. -/
def IsLastOperand (name t : Text) : Prop :=
  ∃ before rest, t = before ++ '=' :: rest ∧ IsLeadingWord name rest ∧ ¬ HasOperand rest

/-- The first word of the text begins with a mnemonic that loads an address, a blank follows it,
and `name` is the last operand behind that blank. -/
def IsLoad (name t : Text) : Prop :=
  ∃ word blank operands, t = word ++ blank :: operands ∧ (∀ c ∈ word, isWord c = true) ∧
    (∃ mnemonic ∈ (["la", "add", "move"] : List Text), mnemonic <+: word) ∧
    isBlank blank = true ∧ IsLastOperand name operands

/-! Calls and notes. -/

theorem called?_eq_some_iff : called? t = some name ↔ IsCall name t := by
  rw [called?, firstFoundAtEdge_eq_some_iff (by decide)]
  simp only [operand?_eq_some_iff, IsCall]

theorem noted?_eq_some_iff : noted? t = some name ↔ BeginsNote name t := by
  constructor
  · intro h
    unfold noted? at h
    split at h
    · next rest =>
      split at h
      · next operand hoperand =>
        refine ⟨rest.takeWhile isBlank, operand, ?_, fun c hc => List.mem_takeWhile_imp hc,
          leadingWord?_eq_some_iff.mp h⟩
        rw [← hoperand, List.takeWhile_append_dropWhile]
      · cases h
    · cases h
  · rintro ⟨gap, rest, rfl, hgap, hword⟩
    have hdrop : (gap ++ '=' :: rest).dropWhile isBlank = '=' :: rest := by
      rw [List.dropWhile_append_of_pos hgap, List.dropWhile_cons_of_neg (by decide)]
    simp only [noted?, hdrop]
    exact leadingWord?_eq_some_iff.mpr hword

theorem firstFound_noted?_eq_some_iff : firstFound noted? t = some name ↔ IsNote name t := by
  rw [firstFound_eq_some_iff (by decide)]
  simp only [noted?_eq_some_iff, IsNote]

/-! The last operand. -/

theorem not_hasOperand_nil : ¬ HasOperand [] := by
  rintro ⟨before, rest, name, heq, _⟩
  simp at heq

theorem HasOperand.cons (h : HasOperand t) (c : Char) : HasOperand (c :: t) := by
  obtain ⟨before, rest, name, rfl, hword⟩ := h
  exact ⟨c :: before, rest, name, rfl, hword⟩

theorem HasOperand.exists_last (h : HasOperand t) : ∃ name, IsLastOperand name t := by
  induction t with
  | nil => exact (not_hasOperand_nil h).elim
  | cons c t ih =>
    by_cases ht : HasOperand t
    · obtain ⟨name, before, rest, rfl, hword, hno⟩ := ih ht
      exact ⟨name, c :: before, rest, rfl, hword, hno⟩
    · obtain ⟨before, rest, name, heq, hword⟩ := h
      cases before with
      | nil =>
        obtain ⟨rfl, rfl⟩ := List.cons.inj heq
        exact ⟨name, [], t, rfl, hword, ht⟩
      | cons d before =>
        obtain ⟨rfl, rfl⟩ := List.cons.inj heq
        exact (ht ⟨before, rest, name, rfl, hword⟩).elim

/-- Without an operand in the text, what has been found before stays. -/
theorem lastOperand_of_not_hasOperand (h : ¬ HasOperand t) (found : Option Text) :
    lastOperand found t = found := by
  induction t generalizing found with
  | nil => rfl
  | cons c t ih =>
    have ht : ¬ HasOperand t := fun ht => h (ht.cons c)
    rw [lastOperand]
    split
    · next hc =>
      subst hc
      cases hword : leadingWord? t with
      | none => exact ih ht found
      | some name => exact (h ⟨[], t, name, rfl, leadingWord?_eq_some_iff.mp hword⟩).elim
    · exact ih ht found

theorem lastOperand_of_isLastOperand (h : IsLastOperand name t) (found : Option Text) :
    lastOperand found t = some name := by
  obtain ⟨before, rest, rfl, hword, hno⟩ := h
  induction before generalizing found with
  | nil =>
    rw [List.nil_append, lastOperand, if_pos rfl, leadingWord?_eq_some_iff.mpr hword]
    exact lastOperand_of_not_hasOperand hno _
  | cons c before ih =>
    rw [List.cons_append, lastOperand]
    split
    · split
      · exact ih _
      · exact ih _
    · exact ih _

theorem lastOperand_eq_some_iff : lastOperand none t = some name ↔ IsLastOperand name t := by
  constructor
  · intro h
    by_cases hop : HasOperand t
    · obtain ⟨last, hlast⟩ := hop.exists_last
      rw [lastOperand_of_isLastOperand hlast] at h
      exact Option.some.inj h ▸ hlast
    · rw [lastOperand_of_not_hasOperand hop] at h
      cases h
  · intro h
    exact lastOperand_of_isLastOperand h none

/-! Loads. -/

/-- A mnemonic is made of word characters, so it is looked for in the first word. -/
theorem any_isPrefixOf_iff : (addressMnemonics.any fun m => List.isPrefixOf m t) = true ↔
    ∃ mnemonic ∈ addressMnemonics, mnemonic <+: t.takeWhile isWord := by
  have hall : (addressMnemonics.all fun m => m.all isWord) = true := by decide
  simp only [List.any_eq_true, List.isPrefixOf_iff_prefix]
  constructor
  · rintro ⟨mnemonic, hmem, rest, rfl⟩
    refine ⟨mnemonic, hmem, ?_⟩
    have hword := List.all_eq_true.mp (List.all_eq_true.mp hall mnemonic hmem)
    rw [List.takeWhile_append_of_pos hword]
    exact List.prefix_append _ _
  · rintro ⟨mnemonic, hmem, hprefix⟩
    exact ⟨mnemonic, hmem, hprefix.trans (List.takeWhile_prefix isWord)⟩

/-- A blank ends the first word. -/
theorem isWord_head?_of_isBlank {c : Char} (hc : isBlank c = true) (operands : Text) :
    ∀ d ∈ (c :: operands).head?, isWord d = false := by
  rintro d ⟨⟩
  cases hword : isWord c with
  | false => rfl
  | true => simp [isBlank_of_isWord hword] at hc

theorem takeWhile_ne_lineFeed (h : '\n' ∉ t) : (t.takeWhile fun d => d != '\n') = t := by
  rw [List.takeWhile_eq_self_iff]
  intro d hd
  simpa using fun heq : d = '\n' => h (heq ▸ hd)

theorem loaded?_eq_some_iff (hline : '\n' ∉ t) : loaded? t = some name ↔ IsLoad name t := by
  constructor
  · intro h
    unfold loaded? at h
    split at h
    · next hmnemonic =>
      split at h
      · next c operands hdrop =>
        split at h
        · next hc =>
          have heq : t.takeWhile isWord ++ c :: operands = t := by
            rw [← hdrop, List.takeWhile_append_dropWhile]
          have hoperands : '\n' ∉ operands := by
            intro hmem
            rw [← heq] at hline
            simp [hmem] at hline
          rw [takeWhile_ne_lineFeed hoperands, lastOperand_eq_some_iff] at h
          exact ⟨t.takeWhile isWord, c, operands, heq.symm, fun d hd => List.mem_takeWhile_imp hd,
            any_isPrefixOf_iff.mp hmnemonic, hc, h⟩
        · cases h
      · cases h
    · cases h
  · rintro ⟨word, c, operands, rfl, hword, hmnemonic, hc, hlast⟩
    have hedge := isWord_head?_of_isBlank hc operands
    have hoperands : '\n' ∉ operands := fun hmem => hline (by simp [hmem])
    rw [← takeWhile_isWord hword hedge] at hmnemonic
    rw [loaded?, if_pos (any_isPrefixOf_iff.mpr hmnemonic), dropWhile_isWord hword hedge]
    simp only [hc, if_true, takeWhile_ne_lineFeed hoperands]
    exact lastOperand_eq_some_iff.mpr hlast

/-- The references of a line without line feeds are its call, its note and its load, in this order,
each where there is one. -/
theorem ofLine_eq_forms {line : Text} (hline : '\n' ∉ line) : ∃ called noted loaded : Option Text,
    ofLine line = called.toList ++ noted.toList ++ loaded.toList ∧
    (∀ name, called = some name ↔ IsCall name line.trim) ∧
    (∀ name, noted = some name ↔ IsNote name line.trim) ∧
    ∀ name, loaded = some name ↔ IsLoad name line.trim := by
  have htrim : '\n' ∉ line.trim := by
    obtain ⟨u, v, heq, _, _⟩ := Text.exists_eq_trim line
    intro hmem
    rw [heq] at hline
    simp [hmem] at hline
  exact ⟨_, _, _, rfl, fun name => called?_eq_some_iff,
    fun name => firstFound_noted?_eq_some_iff, fun name => loaded?_eq_some_iff htrim⟩

/-- A line with a reference of each form and a near miss of each. -/
def tangledLine : Text := "\taddiu $a0, =A, @B, =, @ =C ; jalr D, jal E "

/-- The word behind a note may be loaded as well. -/
theorem ofLine_eq_forms_of_tangledLine :
    '\n' ∉ tangledLine ∧ ofLine tangledLine = (["E", "C", "C"] : List Text) ∧
    ∃ called noted loaded : Option Text,
      ofLine tangledLine = called.toList ++ noted.toList ++ loaded.toList ∧
      (∀ name, called = some name ↔ IsCall name tangledLine.trim) ∧
      (∀ name, noted = some name ↔ IsNote name tangledLine.trim) ∧
      ∀ name, loaded = some name ↔ IsLoad name tangledLine.trim := by
  have hline : '\n' ∉ tangledLine := by decide
  exact ⟨hline, by decide, ofLine_eq_forms hline⟩

end Reference

end AsmListing
