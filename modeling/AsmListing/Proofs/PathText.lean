import AsmListing.Disk.Path
import AsmListing.Proofs.LooseText

/-! Relative paths as texts. Names joined by slashes are read back as these names, and the suffix of
a path is that of its last name. A path has a flaw where one of its names has. -/
namespace AsmListing

variable {name t : LooseText} {names more : List LooseText} {p : CodePoint}

/-- What stands in joined parts stands in a part or in the separator. -/
theorem mem_intercalate_iff {α : Type} {sep : List α} {parts : List (List α)} {c : α}
    (hsep : c ∉ sep) : c ∈ List.intercalate sep parts ↔ ∃ part ∈ parts, c ∈ part := by
  induction parts with
  | nil => simp [List.intercalate]
  | cons part parts ih =>
    cases parts with
    | nil => simp [List.intercalate]
    | cons next parts =>
      have hcons : List.intercalate sep (part :: next :: parts) =
          part ++ sep ++ List.intercalate sep (next :: parts) := by simp [List.intercalate]
      rw [hcons, List.mem_append, List.mem_append, ih, List.exists_mem_cons_iff]
      simp [hsep]

/-- A code point that no path can hold. -/
def CodePoint.IsBarred (p : CodePoint) : Prop := p.isNameable = false ∨ p = .char (Char.ofNat 0)

theorem CodePoint.IsBarred.ne_char (h : p.IsBarred) {c : Char}
    (hc : c ≠ Char.ofNat 0) : p ≠ .char c := by
  rintro rfl
  rcases h with h | h
  · simp [CodePoint.isNameable, CodePoint.isChar, CodePoint.char?] at h
  · exact hc (CodePoint.char.inj h)

/-- A name that an entry of a directory can have. -/
structure IsEntryName (name : LooseText) : Prop where
  ne_nil : name ≠ []
  ne_stay : name ≠ FilePath.stay
  ne_back : name ≠ FilePath.back
  not_mem_slash : .char '/' ∉ name
  flawless : name.pathFlaw? = none
  known_eq : FileName.known name = name

instance : Decidable (IsEntryName name) :=
  decidable_of_iff (name ≠ [] ∧ name ≠ FilePath.stay ∧ name ≠ FilePath.back ∧ .char '/' ∉ name ∧
      name.pathFlaw? = none ∧ FileName.known name = name)
    ⟨fun ⟨h₁, h₂, h₃, h₄, h₅, h₆⟩ => ⟨h₁, h₂, h₃, h₄, h₅, h₆⟩,
      fun ⟨h₁, h₂, h₃, h₄, h₅, h₆⟩ => ⟨h₁, h₂, h₃, h₄, h₅, h₆⟩⟩

namespace LooseText

theorem pathFlaw?_eq_none_iff : t.pathFlaw? = none ↔ ∀ p ∈ t, ¬ p.IsBarred := by
  have hnull : .char (Char.ofNat 0) ∉ t ↔ ∀ p ∈ t, p ≠ .char (Char.ofNat 0) :=
    ⟨fun h p hp heq => h (heq ▸ hp), fun h hmem => h _ hmem rfl⟩
  have hfits := @misfit?_eq_none_iff t .unicode CodePoint.isNameable CodePoint.isChar
  unfold pathFlaw?
  split
  · next fault hfault =>
    obtain ⟨hmem, hfirst⟩ := of_misfit? hfault
    simp only [reduceCtorEq, false_iff, not_forall]
    exact ⟨_, hmem, not_not_intro (.inl hfirst)⟩
  · next hnone =>
    have hall := hfits.mp hnone
    simp only [CodePoint.IsBarred, not_or, ite_eq_right_iff, reduceCtorEq, imp_false,
      List.contains_eq_mem, decide_eq_true_eq, hnull]
    exact forall₂_congr fun p hp => by simp [hall p hp]

/-- The flaw of a text stands in it. -/
theorem exists_barred_of_pathFlaw? {flaw : PathFlaw} (h : t.pathFlaw? = some flaw) :
    match flaw with
    | .null => .char (Char.ofNat 0) ∈ t
    | .unencodable fault => fault.first ∈ t ∧ fault.first.isNameable = false := by
  unfold pathFlaw? at h
  split at h
  · next fault hfault =>
    obtain rfl := Option.some.inj h
    exact of_misfit? hfault
  · split at h
    · next hnull =>
      obtain rfl := Option.some.inj h
      simpa using hnull
    · cases h

theorem joinWith_slash (names : List LooseText) :
    joinWith ['/'] names = List.intercalate [.char '/'] names := rfl

theorem splitOn_joinWith (hnames : ∀ name ∈ names, IsEntryName name) (hne : names ≠ []) :
    List.splitOn (.char '/') (joinWith ['/'] names) = names :=
  List.splitOn_intercalate _ (fun name h => (hnames name h).not_mem_slash) hne

theorem joinWith_cons (name : LooseText) (hne : names ≠ []) :
    joinWith ['/'] (name :: names) = name ++ .char '/' :: joinWith ['/'] names := by
  obtain ⟨next, rest, rfl⟩ := List.exists_cons_of_ne_nil hne
  simp [joinWith_slash, List.intercalate]

theorem joinWith_append (hnames : names ≠ []) (hmore : more ≠ []) :
    joinWith ['/'] (names ++ more) =
      joinWith ['/'] names ++ .char '/' :: joinWith ['/'] more := by
  induction names with
  | nil => contradiction
  | cons name names ih =>
    by_cases hrest : names = []
    · subst hrest
      simpa [joinWith_slash, List.intercalate] using joinWith_cons name hmore
    · rw [List.cons_append, joinWith_cons _ (by simp [hrest]), ih hrest, joinWith_cons _ hrest,
        List.append_assoc, List.cons_append]

/-- Paths are the same where their names are. -/
theorem joinWith_inj (hnames : ∀ name ∈ names, IsEntryName name) (hne : names ≠ [])
    (hmore : ∀ name ∈ more, IsEntryName name) (hne' : more ≠ [])
    (h : joinWith ['/'] names = joinWith ['/'] more) : names = more := by
  rw [← splitOn_joinWith hnames hne, h, splitOn_joinWith hmore hne']

/-- A path that begins with a directory has the names that lead to it in front. -/
theorem exists_joinWith_of_append (hnames : ∀ name ∈ names, IsEntryName name) (hne : names ≠ [])
    (hmore : ∀ name ∈ more, IsEntryName name) (hne' : more ≠ [])
    (h : joinWith ['/'] names ++ .char '/' :: t = joinWith ['/'] more) :
    ∃ rest, rest ≠ [] ∧ more = names ++ rest ∧ t = joinWith ['/'] rest := by
  refine ⟨List.splitOn (.char '/') t, List.splitOnP_ne_nil _ _, ?_, ?_⟩
  · rw [← splitOn_joinWith hmore hne', ← h, List.splitOn,
      List.splitOnP_append_cons _ _ (by simp), ← List.splitOn, splitOn_joinWith hnames hne,
      List.splitOn]
  · rw [joinWith_slash, List.intercalate_splitOn]

/-- A path begins as its first name does. -/
theorem exists_joinWith_eq (p : CodePoint) (name : LooseText) (names : List LooseText) :
    ∃ t, joinWith ['/'] ((p :: name) :: names) = p :: t := by
  cases names with
  | nil => exact ⟨name, by simp [joinWith_slash, List.intercalate]⟩
  | cons next rest => exact ⟨_, joinWith_cons _ (by simp)⟩

end LooseText

namespace FilePath

variable {path : FilePath}

/-- What stands in the text of a path, its slashes and dots apart, stands in one of its parts. -/
theorem mem_toText_iff (hslash : p ≠ .char '/') (hdot : p ≠ .char '.') :
    p ∈ path.toText ↔ ∃ part ∈ path.parts, p ∈ part := by
  have hsep : p ∉ Text.loose ['/'] := by simpa [Text.loose] using hslash
  have hanchor : p ∉ path.anchor.toText := by
    cases path.anchor with
    | relative => exact List.not_mem_nil
    | root => simpa [Anchor.toText, Text.loose] using hslash
    | doubleRoot => simpa [Anchor.toText, Text.loose] using hslash
  unfold toText
  split
  · next h => simpa [h.2, stay, Text.loose] using hdot
  · rw [List.mem_append, LooseText.joinWith, mem_intercalate_iff hsep]
    simp [hanchor]

/-- A disk takes a path if it takes the parts. -/
theorem flaw?_eq_none_iff : path.flaw? = none ↔ ∀ part ∈ path.parts, part.pathFlaw? = none := by
  simp only [flaw?, LooseText.pathFlaw?_eq_none_iff]
  constructor
  · intro h part hpart p hp hbarred
    have hmem := (mem_toText_iff (hbarred.ne_char (by decide)) (hbarred.ne_char (by decide))).mpr
      ⟨part, hpart, hp⟩
    exact h p hmem hbarred
  · intro h p hp hbarred
    obtain ⟨part, hpart, hmem⟩ :=
      (mem_toText_iff (hbarred.ne_char (by decide)) (hbarred.ne_char (by decide))).mp hp
    exact h part hpart p hmem hbarred

theorem flaw?_child (h : path.flaw? = none) (hname : name.pathFlaw? = none) :
    (path.child name).flaw? = none := by
  rw [flaw?_eq_none_iff] at h ⊢
  intro part hpart
  rcases List.mem_append.mp hpart with hpart | hpart
  · exact h part hpart
  · obtain rfl := List.mem_singleton.mp hpart
    exact hname

/-- A relative path is read back from its text. -/
theorem ofText_joinWith (hnames : ∀ name ∈ names, IsEntryName name) (hne : names ≠ []) :
    ofText (LooseText.joinWith ['/'] names) = ⟨.relative, names⟩ := by
  have hparts : (List.splitOn (.char '/') (LooseText.joinWith ['/'] names)).filter
      (fun part => part != [] && part != stay) = names := by
    rw [LooseText.splitOn_joinWith hnames hne, List.filter_eq_self]
    intro name h
    simp [(hnames name h).ne_nil, (hnames name h).ne_stay]
  have hslashes :
      (LooseText.joinWith ['/'] names).takeWhile (fun c => c == .char '/') = [] := by
    obtain ⟨name, rest, rfl⟩ := List.exists_cons_of_ne_nil hne
    have hname := hnames name List.mem_cons_self
    obtain ⟨p, name, rfl⟩ := List.exists_cons_of_ne_nil hname.ne_nil
    obtain ⟨t, ht⟩ := LooseText.exists_joinWith_eq p name rest
    have hp : p ≠ .char '/' := fun heq => hname.not_mem_slash (by simp [heq])
    simp [ht, hp]
  simp [ofText, hparts, hslashes]

theorem takeWhile_append_cons {f : CodePoint → Bool} (hp : f p = false) (u v : LooseText) :
    (u ++ p :: v).takeWhile f = u.takeWhile f := by
  induction u with
  | nil => simp [hp]
  | cons d u ih => rw [List.cons_append, List.takeWhile_cons, List.takeWhile_cons, ih]

/-- The suffix is looked for behind the last slash. -/
theorem suffix_append_slash (u v : LooseText) : suffix (u ++ .char '/' :: v) = suffix v := by
  have hreverse : (u ++ .char '/' :: v).reverse = v.reverse ++ .char '/' :: u.reverse := by simp
  unfold suffix
  rw [hreverse, takeWhile_append_cons (by decide)]

end FilePath

end AsmListing
