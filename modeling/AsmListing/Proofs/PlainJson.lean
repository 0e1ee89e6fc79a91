import AsmListing.Proofs.LooseText
import AsmListing.Proofs.PrintedJson
import AsmListing.Proofs.Utf8
import AsmListing.Settings.Basic
import AsmListing.Text.ControlSequence

/-! The characters of printed values: printable ASCII and line feeds alone. So a printed value keeps
its text when line breaks are made alike and when control sequences are left out, and the bytes of
settings that have been written give these settings back. -/
namespace AsmListing

/-- Without carriage returns the lines are joined with what has ended them. -/
theorem Listing.joinWith_prepend {c : Char} {ls : Listing} (hc : c ≠ '\r') (hls : ls ≠ []) :
    Text.joinWith ['\n'] (prepend c ls).contents = c :: Text.joinWith ['\n'] ls.contents := by
  obtain ⟨l, rest, rfl⟩ := List.exists_cons_of_ne_nil hls
  by_cases hn : c = '\n'
  · subst hn
    simp [prepend, contents, Text.joinWith, List.intercalate]
  · rw [prepend, if_neg hn, if_neg hc]
    cases rest <;> simp [contents, Text.joinWith, List.intercalate]

namespace Text

variable {c : Char} {t u : Text} {n : Nat}

/-- Printable ASCII or a line feed. -/
def IsPlainChar (c : Char) : Prop := c = '\n' ∨ 32 ≤ c.toNat ∧ c.toNat < 127

instance : Decidable (IsPlainChar c) := inferInstanceAs (Decidable (_ ∨ _ ∧ _))

/-- The text is printable ASCII and line feeds. -/
def IsPlain (t : Text) : Prop := ∀ c ∈ t, IsPlainChar c

-- by the characters of the text, not by all that there are
instance : Decidable (IsPlain t) := List.decidableBAll IsPlainChar t

theorem IsPlain.append (ht : t.IsPlain) (hu : u.IsPlain) : IsPlain (t ++ u) :=
  List.forall_mem_append.mpr ⟨ht, hu⟩

theorem IsPlain.cons (hc : IsPlainChar c) (ht : t.IsPlain) : IsPlain (c :: t) :=
  List.forall_mem_cons.mpr ⟨hc, ht⟩

/-! What is done to texts leaves plain ones as they are. -/

theorem withLineFeeds_of_isPlain (h : t.IsPlain) : t.withLineFeeds = t := by
  induction t with
  | nil => rfl
  | cons c t ih =>
    obtain ⟨hc, ht⟩ := List.forall_mem_cons.mp h
    have hreturn : c ≠ '\r' := by
      rintro rfl
      exact absurd hc (by decide)
    rw [withLineFeeds, Listing.ofText_cons,
      Listing.joinWith_prepend hreturn (Listing.ofText_ne_nil t)]
    exact congrArg (c :: ·) (ih ht)

theorem stripFrom_eq_append (skipped : Nat) (kept t : Text) :
    ControlSequence.stripFrom skipped kept t =
      kept.reverse ++ ControlSequence.stripFrom skipped [] t := by
  induction t generalizing skipped kept with
  | nil => simp [ControlSequence.stripFrom]
  | cons c t ih =>
    cases skipped with
    | succ skipped => exact ih skipped kept
    | zero =>
      simp only [ControlSequence.stripFrom]
      split
      · next length _ => exact ih length kept
      · rw [ih 0 (c :: kept), ih 0 [c], List.reverse_cons, List.append_assoc,
          List.reverse_singleton]

/-- No control sequence begins in a plain text. -/
theorem withoutControlSequences_append (h : t.IsPlain) (u : Text) :
    (t ++ u).withoutControlSequences = t ++ u.withoutControlSequences := by
  induction t with
  | nil => rfl
  | cons c t ih =>
    obtain ⟨hc, ht⟩ := List.forall_mem_cons.mp h
    have hescape : c ≠ ControlSequence.escape := by
      rintro rfl
      exact absurd hc (by decide)
    rw [withoutControlSequences, List.cons_append, ControlSequence.stripFrom, if_neg hescape]
    rw [stripFrom_eq_append]
    exact congrArg (c :: ·) (ih ht)

theorem withoutControlSequences_of_isPlain (h : t.IsPlain) : t.withoutControlSequences = t := by
  simpa [withoutControlSequences, ControlSequence.stripFrom] using
    withoutControlSequences_append h []

theorem stripRuns_loose_append (run t : Text) (u : LooseText) :
    LooseText.stripRuns run (t.loose ++ u) = LooseText.stripRuns (t.reverse ++ run) u := by
  induction t generalizing run with
  | nil => rfl
  | cons c t ih =>
    rw [loose_cons, List.cons_append, LooseText.stripRuns, ih, List.reverse_cons, List.append_assoc,
      List.singleton_append]

theorem loose_withoutControlSequences (t : Text) :
    t.loose.withoutControlSequences = t.withoutControlSequences.loose := by
  have hruns := stripRuns_loose_append [] t []
  rwa [List.append_nil, List.append_nil, LooseText.stripRuns, List.reverse_reverse] at hruns

theorem stripRuns_of_isPlain (h : t.IsPlain) (run : Text) (u : LooseText) :
    LooseText.stripRuns (run ++ t.reverse) u = t.loose ++ LooseText.stripRuns run u := by
  induction u generalizing run with
  | nil =>
    rw [LooseText.stripRuns, List.reverse_append, List.reverse_reverse,
      withoutControlSequences_append h, loose_append, LooseText.stripRuns]
  | cons p u ih =>
    cases p with
    | char c => exact ih (c :: run)
    | surrogate i =>
      rw [LooseText.stripRuns, List.reverse_append, List.reverse_reverse,
        withoutControlSequences_append h, loose_append, LooseText.stripRuns, List.append_assoc]

/-- A plain text stays where a text with surrogates follows it. -/
theorem withoutControlSequences_loose_append (h : t.IsPlain) (u : LooseText) :
    (t.loose ++ u).withoutControlSequences = t.loose ++ u.withoutControlSequences := by
  have hplain := stripRuns_of_isPlain h [] u
  rwa [List.nil_append, ← List.append_nil t.reverse, ← stripRuns_loose_append] at hplain

/-! Numbers. -/

theorem isPlainChar_digitChar (h : n < 16) : IsPlainChar (Nat.digitChar n) := by
  have hall : ∀ i : Fin 16, IsPlainChar (Nat.digitChar i) := by decide
  exact hall ⟨n, h⟩

theorem isPlain_ofNat (n : Nat) : IsPlain (ofNat n) := by
  intro c hc
  have hdigit := isDigit_of_mem_ofNat hc
  simp only [Json.Reader.isDigit, Char.le_def, UInt32.le_iff_toNat_le, Bool.and_eq_true,
    decide_eq_true_eq] at hdigit
  have hzero : '0'.val.toNat = 48 := rfl
  have hnine : '9'.val.toNat = 57 := rfl
  have hc : c.toNat = c.val.toNat := rfl
  exact Or.inr (by omega)

theorem isPlain_ofInt (i : Int) : IsPlain (ofInt i) := by
  cases i with
  | ofNat n => exact isPlain_ofNat n
  | negSucc n => exact (isPlain_ofNat (n + 1)).cons (by decide)

theorem isPlain_ofHex_four (h : n < 0x10000) : IsPlain (ofHex 4 n) := by
  rw [ofHex_four h]
  exact .cons (isPlainChar_digitChar (by omega)) (.cons (isPlainChar_digitChar (by omega))
    (.cons (isPlainChar_digitChar (by omega)) (.cons (isPlainChar_digitChar (by omega)) (by nofun))))

end Text

/-! Printed values. -/

namespace Json

variable {n level : Nat} {j : Json}

open Text (IsPlain)

theorem isPlain_unitEscape (h : n < 0x10000) : IsPlain (unitEscape n) :=
  .append (by decide) (Text.isPlain_ofHex_four h)

theorem isPlain_quotedChar (c : Char) : IsPlain (quotedChar c) := by
  simp only [quotedChar]
  split_ifs with _ _ _ _ _ _ _ hprintable hunit
  · decide
  · decide
  · decide
  · decide
  · decide
  · decide
  · decide
  · exact .cons (Or.inr hprintable) (List.forall_mem_nil _)
  · exact isPlain_unitEscape hunit
  · have hhigh := isPlain_unitEscape (CodePoint.highUnit_lt c)
    exact hhigh.append (isPlain_unitEscape (CodePoint.lowUnit_lt c))

theorem isPlain_quotedPoint (p : CodePoint) : IsPlain (quotedPoint p) := by
  cases p with
  | char c => exact isPlain_quotedChar c
  | surrogate i =>
    refine isPlain_unitEscape ?_
    rw [CodePoint.value]
    omega

theorem isPlain_quotedText (t : LooseText) : IsPlain (quotedText t) := by
  refine .append (.cons (by decide) fun c hc => ?_) (by decide)
  obtain ⟨p, _, hp⟩ := List.mem_flatMap.mp hc
  exact isPlain_quotedPoint p c hp

theorem isPlain_newLine (level : Nat) : IsPlain (newLine level) := by
  refine .cons (by decide) fun c hc => ?_
  rw [List.eq_of_mem_replicate hc]
  decide

theorem isPlain_printItems {xs : List Json} (h : ∀ x ∈ xs, IsPlain (print level x)) :
    IsPlain (printItems level xs) := by
  induction xs with
  | nil => nofun
  | cons x xs ih =>
    obtain ⟨hx, hxs⟩ := List.forall_mem_cons.mp h
    exact .append (.append (.cons (by decide) (isPlain_newLine level)) hx) (ih hxs)

theorem isPlain_printFields {fs : Fields} (h : ∀ e ∈ fs, IsPlain (print level e.2)) :
    IsPlain (printFields level fs) := by
  induction fs with
  | nil => nofun
  | cons e fs ih =>
    obtain ⟨hx, hfs⟩ := List.forall_mem_cons.mp h
    have hkey := (isPlain_newLine level).append (isPlain_quotedText e.1)
    exact .append (.append (.append (.cons (by decide) hkey) (by decide)) hx) (ih hfs)

theorem isPlain_print (h : j.IsWhole) (level : Nat) : IsPlain (print level j) := by
  induction h generalizing level with
  | null => exact (by decide : IsPlain "null")
  | bool b =>
    cases b with
    | false => exact (by decide : IsPlain "false")
    | true => exact (by decide : IsPlain "true")
  | int i => exact Text.isPlain_ofInt i
  | string t => exact isPlain_quotedText t
  | @list items h ih =>
    cases items with
    | nil => exact (by decide : IsPlain ['[', ']'])
    | cons x xs =>
      obtain ⟨hx, hxs⟩ := List.forall_mem_cons.mp ih
      have hfirst := (isPlain_newLine (level + 1)).append (hx (level + 1))
      have hitems := isPlain_printItems fun y hy => hxs y hy (level + 1)
      rw [print]
      exact .append (.append (.append (.cons (by decide) hfirst) hitems) (isPlain_newLine level))
        (by decide)
  | @object fields h ih =>
    cases fields with
    | nil => exact (by decide : IsPlain ['{', '}'])
    | cons e fs =>
      obtain ⟨hx, hfs⟩ := List.forall_mem_cons.mp ih
      have hkey := (isPlain_newLine (level + 1)).append (isPlain_quotedText e.1)
      have hfirst := (hkey.append (by decide : IsPlain ": ")).append (hx (level + 1))
      have hfields := isPlain_printFields fun y hy => hfs y hy (level + 1)
      rw [print]
      exact .append (.append (.append (.cons (by decide) hfirst) hfields) (isPlain_newLine level))
        (by decide)

theorem isPlain_toText (h : j.IsWhole) : IsPlain j.toText := isPlain_print h 0

end Json

/-! The file with settings. -/

namespace Settings

variable [NestingLimit] {fields : Fields}

/-- The bytes of settings that have been written give these settings back. -/
theorem parse_render (h : fields.AreStorable) (hkeys : fields.keys.Nodup) (name : LooseText) :
    parse name (Utf8.encode (render fields)) = .ok fields := by
  have hplain : Text.IsPlain (render fields) :=
    (Json.isPlain_toText h.isWhole).append (by decide)
  have hread : Json.ofText (render fields) = .ok (.object fields) :=
    Json.ofText_toText (h.isReadable hkeys) h.isWhole
  simp only [parse, Utf8.decode_encode, Text.withLineFeeds_of_isPlain hplain, hread]

end Settings

end AsmListing
