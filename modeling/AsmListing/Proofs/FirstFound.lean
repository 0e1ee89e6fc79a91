import AsmListing.Proofs.Declarations

/-! What the readers of a line find. A word is taken whole, a name stands behind a keyword and
blanks, and a search through a text ends at the first place where there is something to read. -/
namespace AsmListing

variable {t rest name keyword : Text} {c : Char} {read : Text → Option Text} {behindWord : Bool}
  {holds : Text → Text → Text → Prop}

/-- The text begins with the word `name`, and the word ends there. -/
def IsLeadingWord (name t : Text) : Prop :=
  name ≠ [] ∧ (∀ c ∈ name, isWord c = true) ∧
    ∃ rest, t = name ++ rest ∧ ∀ c ∈ rest.head?, isWord c = false

/-- The text begins with the keyword, one blank or more, and the word `name`. -/
def IsOperand (keyword name t : Text) : Prop :=
  ∃ gap rest, t = keyword ++ (gap ++ rest) ∧ gap ≠ [] ∧ (∀ c ∈ gap, isBlank c = true) ∧
    IsLeadingWord name rest

/-- No word character stands right before the place behind `before`. -/
def IsEdge (before : Text) : Prop := ∀ c ∈ before.getLast?, isWord c = false

/-- The text is cut in two where `holds` gives a name to the two parts, and `name` is the one at the
first such place. -/
def IsFirstFound (holds : Text → Text → Text → Prop) (name t : Text) : Prop :=
  ∃ before rest, t = before ++ rest ∧ holds before rest name ∧
    ∀ before' rest' other, t = before' ++ rest' → holds before' rest' other →
      before.length ≤ before'.length

/-! Words. -/

/-- A word that ends where a text is cut is the longest run of word characters. -/
theorem takeWhile_isWord (hname : ∀ c ∈ name, isWord c = true)
    (hrest : ∀ c ∈ rest.head?, isWord c = false) : (name ++ rest).takeWhile isWord = name := by
  rw [List.takeWhile_append_of_pos hname]
  cases rest with
  | nil => simp
  | cons c rest => simp [hrest c rfl]

theorem dropWhile_isWord (hname : ∀ c ∈ name, isWord c = true)
    (hrest : ∀ c ∈ rest.head?, isWord c = false) : (name ++ rest).dropWhile isWord = rest := by
  rw [List.dropWhile_append_of_pos hname]
  cases rest with
  | nil => rfl
  | cons c rest => simp [hrest c rfl]

theorem isWord_head?_dropWhile (t : Text) : ∀ c ∈ (t.dropWhile isWord).head?, isWord c = false := by
  intro c hc
  have hnot := List.head?_dropWhile_not isWord t
  rw [Option.mem_def.mp hc] at hnot
  simpa using hnot

theorem leadingWord?_eq_some_iff : leadingWord? t = some name ↔ IsLeadingWord name t := by
  constructor
  · intro h
    obtain rfl := eq_takeWhile_of_leadingWord? h
    refine ⟨?_, fun c hc => List.mem_takeWhile_imp hc, t.dropWhile isWord,
      List.takeWhile_append_dropWhile.symm, isWord_head?_dropWhile t⟩
    intro hnil
    simp [leadingWord?, hnil] at h
  · rintro ⟨hne, hname, rest, rfl, hrest⟩
    unfold leadingWord?
    rw [takeWhile_isWord hname hrest]
    split
    · contradiction
    · rfl

/-- A word does not begin with a blank. -/
theorem IsLeadingWord.dropWhile_isBlank (h : IsLeadingWord name t) : t.dropWhile isBlank = t := by
  obtain ⟨hne, hname, rest, rfl, _⟩ := h
  obtain ⟨c, name, rfl⟩ := List.exists_cons_of_ne_nil hne
  exact List.dropWhile_cons_of_neg (by simp [isBlank_of_isWord (hname c (by simp))])

theorem operand?_append_cons (keyword : Text) (c : Char) (rest : Text) :
    operand? keyword (keyword ++ c :: rest) =
      if isBlank c then leadingWord? (rest.dropWhile isBlank) else none := by
  simp [operand?]

theorem operand?_eq_some_iff : operand? keyword t = some name ↔ IsOperand keyword name t := by
  constructor
  · intro h
    obtain ⟨behind, rfl⟩ := isPrefix_of_operand? h
    cases behind with
    | nil => simp [operand?] at h
    | cons c rest =>
      rw [operand?_append_cons] at h
      split at h
      · next hc =>
        refine ⟨c :: rest.takeWhile isBlank, rest.dropWhile isBlank, by simp, by simp, ?_,
          leadingWord?_eq_some_iff.mp h⟩
        exact List.forall_mem_cons.mpr ⟨hc, fun d hd => List.mem_takeWhile_imp hd⟩
      · cases h
  · rintro ⟨gap, rest, rfl, hgap, hblank, hword⟩
    obtain ⟨c, gap, rfl⟩ := List.exists_cons_of_ne_nil hgap
    obtain ⟨hc, hblank⟩ := List.forall_mem_cons.mp hblank
    rw [List.cons_append, operand?_append_cons, if_pos hc, List.dropWhile_append_of_pos hblank,
      hword.dropWhile_isBlank]
    exact leadingWord?_eq_some_iff.mpr hword

/-! The first place. -/

theorem isFirstFound_nil : IsFirstFound holds name [] ↔ holds [] [] name := by
  constructor
  · rintro ⟨before, rest, heq, h, _⟩
    obtain ⟨rfl, rfl⟩ := List.nil_eq_append_iff.mp heq
    exact h
  · intro h
    exact ⟨[], [], rfl, h, fun _ _ _ _ _ => Nat.zero_le _⟩

/-- The first place is the beginning, or it is the first place of what follows. -/
theorem isFirstFound_cons : IsFirstFound holds name (c :: t) ↔ holds [] (c :: t) name ∨
    (∀ other, ¬ holds [] (c :: t) other) ∧
      IsFirstFound (fun before => holds (c :: before)) name t := by
  constructor
  · rintro ⟨before, rest, heq, h, hfirst⟩
    cases before with
    | nil =>
      obtain rfl : c :: t = rest := heq
      exact .inl h
    | cons d before =>
      obtain ⟨rfl, rfl⟩ := List.cons.inj heq
      refine .inr ⟨fun other hother => ?_, before, rest, rfl, h, ?_⟩
      · exact absurd (hfirst [] _ other rfl hother) (by simp)
      · intro before' rest' other heq' h'
        exact Nat.le_of_succ_le_succ (hfirst (c :: before') rest' other (by rw [heq']; rfl) h')
  · rintro (h | ⟨hno, before, rest, rfl, h, hfirst⟩)
    · exact ⟨[], c :: t, rfl, h, fun _ _ _ _ _ => Nat.zero_le _⟩
    · refine ⟨c :: before, rest, rfl, h, ?_⟩
      intro before' rest' other heq' h'
      cases before' with
      | nil =>
        obtain rfl : c :: (before ++ rest) = rest' := heq'
        exact (hno other h').elim
      | cons d before' =>
        obtain ⟨rfl, htail⟩ := List.cons.inj heq'
        exact Nat.succ_le_succ (hfirst before' rest' other htail h')

theorem firstFound_eq_some_iff (hnil : read [] = none) : firstFound read t = some name ↔
    IsFirstFound (fun _ rest found => read rest = some found) name t := by
  induction t with
  | nil => simp [firstFound, isFirstFound_nil, hnil]
  | cons c t ih =>
    rw [isFirstFound_cons, firstFound]
    cases hread : read (c :: t) with
    | none => simpa using ih
    | some found => simp

/-- A word character stands right before the place behind `before`; `behindWord` says whether one
stands before the whole text. -/
def isBehindWord (behindWord : Bool) (before : Text) : Bool :=
  before.getLast?.elim behindWord isWord

theorem isBehindWord_cons (behindWord : Bool) (c : Char) (before : Text) :
    isBehindWord behindWord (c :: before) = isBehindWord (isWord c) before := by
  cases before with
  | nil => rfl
  | cons d before => simp [isBehindWord, List.getLast?_cons]

theorem isEdge_iff {before : Text} : IsEdge before ↔ isBehindWord false before = false := by
  cases h : before.getLast? <;> simp [IsEdge, isBehindWord, h]

/-- The search carries along whether a word character has just been passed. -/
theorem firstFoundAtEdge_behind_iff (hnil : read [] = none) :
    firstFoundAtEdge read behindWord t = some name ↔
      IsFirstFound (fun before rest found => isBehindWord behindWord before = false ∧
        read rest = some found) name t := by
  induction t generalizing behindWord with
  | nil => simp [firstFoundAtEdge, isFirstFound_nil, hnil]
  | cons c t ih =>
    simp only [isFirstFound_cons, firstFoundAtEdge, isBehindWord_cons]
    rw [← ih]
    cases behindWord with
    | true => simp [isBehindWord]
    | false =>
      cases hread : read (c :: t) with
      | none => simp
      | some found => simp [isBehindWord]

theorem firstFoundAtEdge_eq_some_iff (hnil : read [] = none) :
    firstFoundAtEdge read false t = some name ↔
      IsFirstFound (fun before rest found => IsEdge before ∧ read rest = some found) name t := by
  simp only [isEdge_iff]
  exact firstFoundAtEdge_behind_iff hnil

end AsmListing
