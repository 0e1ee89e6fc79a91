import AsmListing.Proofs.Layout

/-! Well-formed listings: whatever looks like a declaration is one, no name is declared twice, and
each routine gives its own size before the next declaration. Such a listing is laid out in closed
routines, and no declaration of it is found inside another line. -/
namespace AsmListing

variable {t content name other : Text} {ls ms : Listing} {l : Line}

/-- The line is a declaration and nothing else, but for blanks at its ends. -/
def Declares (content name : Text) : Prop :=
  ∃ gap, content.trim = ("glabel" : Text) ++ (gap ++ name) ∧ gap ≠ [] ∧
    (∀ c ∈ gap, isBlank c = true) ∧ name ≠ [] ∧ ∀ c ∈ name, isWord c = true

/-- The line holds the keyword of a declaration, wherever it stands. -/
def MentionsKeyword (content : Text) : Prop := ("glabel" : Text) <:+: content

instance : Decidable (MentionsKeyword content) := inferInstanceAs (Decidable (_ <:+: _))

/-- Every mention of the keyword is a declaration, the declared names are distinct, and the size of
each one is given before the keyword is mentioned again. -/
structure WellFormed (ls : Listing) : Prop where
  sole : ∀ l ∈ ls, MentionsKeyword l.content → ∃ name, Declares l.content name
  distinct : ls.Pairwise fun l m => ∀ name, Declares l.content name → ¬ Declares m.content name
  sized : ∀ l after name, l :: after <:+ ls → Declares l.content name →
    ∃ mid final rest, after = mid ++ final :: rest ∧ Marker.ofLine final.content = .size name ∧
      ∀ m ∈ mid, ¬ MentionsKeyword m.content

/-! Blanks and words. -/

theorem isWord_ofNat_blankCodes : ∀ n ∈ blankCodes, isWord (Char.ofNat n) = false := by
  decide +kernel

theorem isBlank_of_isWord {c : Char} (h : isWord c = true) : isBlank c = false := by
  cases hb : isBlank c with
  | false => rfl
  | true =>
    have hmem : c.toNat ∈ blankCodes := by simpa [isBlank] using hb
    have hno := isWord_ofNat_blankCodes c.toNat hmem
    rw [Char.ofNat_toNat] at hno
    simp [hno] at h

/-- A text is its trimmed part between blanks. -/
theorem Text.exists_eq_trim (t : Text) : ∃ u v, t = u ++ (t.trim ++ v) ∧
    (∀ c ∈ u, isBlank c = true) ∧ ∀ c ∈ v, isBlank c = true := by
  refine ⟨t.takeWhile isBlank, ((t.dropWhile isBlank).reverse.takeWhile isBlank).reverse,
    ?_, ?_, ?_⟩
  · rw [trim, ← List.reverse_append, List.takeWhile_append_dropWhile, List.reverse_reverse,
      List.takeWhile_append_dropWhile]
  · intro c hc
    exact List.mem_takeWhile_imp hc
  · intro c hc
    exact List.mem_takeWhile_imp (List.mem_reverse.mp hc)

theorem Text.length_trim_le (t : Text) : t.trim.length ≤ t.length := by
  obtain ⟨u, v, heq, _, _⟩ := exists_eq_trim t
  have hlength := congrArg List.length heq
  simp only [List.length_append] at hlength
  omega

/-- The last run of characters that are not blank. -/
def Text.lastRun (t : Text) : Text :=
  ((t.reverse.dropWhile isBlank).takeWhile fun c => !isBlank c).reverse

theorem Text.lastRun_append {u v : Text} {b : Char} (hb : isBlank b = true) (hne : name ≠ [])
    (hn : ∀ c ∈ name, isBlank c = false) (hv : ∀ c ∈ v, isBlank c = true) :
    lastRun (u ++ b :: (name ++ v)) = name := by
  obtain ⟨w, y, rfl⟩ := (List.eq_nil_or_concat name).resolve_left hne
  have hy : isBlank y = false := hn y (by simp)
  have hw : ∀ c ∈ w.reverse, (!isBlank c) = true := by
    intro c hc
    simp [hn c (by simp [List.mem_reverse.mp hc])]
  have hv' : ∀ c ∈ v.reverse, isBlank c = true := fun c hc => hv c (List.mem_reverse.mp hc)
  have hrev : (u ++ b :: (w.concat y ++ v)).reverse =
      v.reverse ++ (y :: (w.reverse ++ b :: u.reverse)) := by simp
  rw [lastRun, hrev, List.dropWhile_append_of_pos hv', List.dropWhile_cons_of_neg (by simp [hy]),
    List.takeWhile_cons_of_pos (by simp [hy]), List.takeWhile_append_of_pos hw,
    List.takeWhile_cons_of_neg (by simp [hb])]
  simp

/-- The declared name ends the line, whatever is put in front of it. -/
theorem Declares.lastRun_append (h : Declares content name) (p : Text) :
    (p ++ content).lastRun = name := by
  obtain ⟨gap, htrim, hgap, hblank, hne, hword⟩ := h
  obtain ⟨u, v, heq, _, hv⟩ := Text.exists_eq_trim content
  obtain ⟨g, b, rfl⟩ := (List.eq_nil_or_concat gap).resolve_left hgap
  have hsplit : p ++ content =
      (p ++ (u ++ (("glabel" : Text) ++ g))) ++ b :: (name ++ v) := by
    rw [heq, htrim]
    simp
  rw [hsplit]
  exact Text.lastRun_append (hblank b (by simp)) hne (fun c hc => isBlank_of_isWord (hword c hc)) hv

theorem Declares.unique (h : Declares content name) (h' : Declares content other) :
    name = other := (h.lastRun_append []).symm.trans (h'.lastRun_append [])

theorem Declares.eq_of_append {p : Text} (h : Declares content name)
    (h' : Declares (p ++ content) other) : name = other :=
  (h.lastRun_append p).symm.trans (h'.lastRun_append [])

theorem Declares.mentionsKeyword (h : Declares content name) : MentionsKeyword content := by
  obtain ⟨gap, htrim, _⟩ := h
  obtain ⟨u, v, heq, _, _⟩ := Text.exists_eq_trim content
  refine ⟨u, gap ++ (name ++ v), ?_⟩
  rw [heq, htrim]
  simp

theorem MentionsKeyword.append (h : MentionsKeyword content) (p : Text) :
    MentionsKeyword (p ++ content) := h.trans (List.suffix_append p content).isInfix

/-! Markers. -/

theorem leadingWord?_of_isWord (hne : name ≠ []) (h : ∀ c ∈ name, isWord c = true) :
    leadingWord? name = some name := by
  have hall : name.takeWhile isWord = name := List.takeWhile_eq_self_iff.mpr h
  unfold leadingWord?
  rw [hall]
  split
  · contradiction
  · rfl

theorem eq_takeWhile_of_leadingWord? (h : leadingWord? t = some name) :
    name = t.takeWhile isWord := by
  unfold leadingWord? at h
  split at h
  · cases h
  · exact (Option.some.inj h).symm

theorem Declares.marker (h : Declares content name) : Marker.ofLine content = .start name := by
  obtain ⟨gap, htrim, hgap, hblank, hne, hword⟩ := h
  obtain ⟨b, gap, rfl⟩ := List.exists_cons_of_ne_nil hgap
  rw [List.forall_mem_cons] at hblank
  have hdrop : (gap ++ name).dropWhile isBlank = name := by
    obtain ⟨y, w, rfl⟩ := List.exists_cons_of_ne_nil hne
    rw [List.dropWhile_append_of_pos hblank.2, List.dropWhile_cons_of_neg]
    simp [isBlank_of_isWord (hword y (by simp))]
  have hoperand : operand? "glabel" (("glabel" : Text) ++ (b :: gap ++ name)) = some name := by
    simp [operand?, hblank.1, hdrop, leadingWord?_of_isWord hne hword]
  have hstart : Marker.startName? (("glabel" : Text) ++ (b :: gap ++ name)) = some name := by
    have hcons : ("glabel" : Text) ++ (b :: gap ++ name) = 'g' :: ("label" ++ (b :: gap ++ name)) :=
      rfl
    rw [hcons] at hoperand ⊢
    simp only [Marker.startName?, firstFoundAtEdge, hoperand]
    rfl
  rw [Marker.ofLine, htrim, Marker.ofTrimmed, hstart]

theorem exists_of_firstFoundAtEdge {read : Text → Option Text} {behindWord : Bool}
    (h : firstFoundAtEdge read behindWord t = some name) : ∃ u, u <:+ t ∧ read u = some name := by
  induction t generalizing behindWord with
  | nil => simp [firstFoundAtEdge] at h
  | cons c t ih =>
    cases hr : if behindWord then none else read (c :: t) with
    | none =>
      simp only [firstFoundAtEdge, hr] at h
      obtain ⟨u, hu, hread⟩ := ih h
      exact ⟨u, hu.trans (List.suffix_cons c t), hread⟩
    | some found =>
      simp only [firstFoundAtEdge, hr, Option.some.injEq] at h
      refine ⟨c :: t, List.suffix_rfl, ?_⟩
      cases behindWord <;> simp_all

theorem isPrefix_of_operand? {keyword : Text} (h : operand? keyword t = some name) :
    keyword <+: t := by
  rw [← List.isPrefixOf_iff_prefix]
  cases hp : keyword.isPrefixOf t with
  | true => rfl
  | false => simp [operand?, hp] at h

theorem startName?_of_ofLine (h : Marker.ofLine content = .start name) :
    Marker.startName? content.trim = some name := by
  simp only [Marker.ofLine, Marker.ofTrimmed] at h
  split at h
  · simp_all
  · repeat' split at h
    all_goals contradiction

theorem labelName?_of_ofLine (h : Marker.ofLine content = .label name) :
    Marker.labelName? content.trim = some name := by
  simp only [Marker.ofLine, Marker.ofTrimmed] at h
  repeat' split at h
  all_goals simp_all

/-- A name that is read behind a keyword leaves room for the keyword and a blank. -/
theorem length_lt_of_operand? {keyword : Text} (h : operand? keyword t = some name) :
    keyword.length + name.length < t.length := by
  unfold operand? at h
  split at h
  · next hp =>
    obtain ⟨behind, rfl⟩ := List.isPrefixOf_iff_prefix.mp hp
    rw [List.drop_left] at h
    split at h
    · cases h
    · next c rest =>
      split at h
      · obtain rfl := eq_takeWhile_of_leadingWord? h
        have hword := (List.takeWhile_prefix isWord (l := rest.dropWhile isBlank)).length_le
        have hrest := (List.dropWhile_suffix isBlank (l := rest)).length_le
        simp only [List.length_append, List.length_cons]
        omega
      · cases h
  · cases h

theorem length_lt_of_labelName? (h : Marker.labelName? t = some name) :
    name.length < t.length := by
  unfold Marker.labelName? at h
  split at h
  · next rest hrest =>
    obtain rfl := eq_takeWhile_of_leadingWord? h
    have hlength := congrArg List.length (List.takeWhile_append_dropWhile (p := isWord) (l := t))
    simp only [hrest, List.length_append, List.length_cons] at hlength
    omega
  · cases h

/-- A line is longer than the name that it declares or has as a label. -/
theorem length_lt_of_ofLine
    (h : Marker.ofLine content = .start name ∨ Marker.ofLine content = .label name) :
    name.length < content.length := by
  refine Nat.lt_of_lt_of_le ?_ (Text.length_trim_le content)
  rcases h with h | h
  · obtain ⟨u, hu, hread⟩ := exists_of_firstFoundAtEdge (startName?_of_ofLine h)
    have hlt := length_lt_of_operand? hread
    have hle := hu.length_le
    omega
  · exact length_lt_of_labelName? (labelName?_of_ofLine h)

/-- Nothing is declared without the keyword. -/
theorem mentionsKeyword_of_start (h : Marker.ofLine content = .start name) :
    MentionsKeyword content := by
  obtain ⟨u, hu, hread⟩ := exists_of_firstFoundAtEdge (startName?_of_ofLine h)
  obtain ⟨v, w, heq, _, _⟩ := Text.exists_eq_trim content
  have htrim : content.trim <:+: content := ⟨v, w, by rw [List.append_assoc, ← heq]⟩
  exact ((isPrefix_of_operand? hread).isInfix.trans hu.isInfix).trans htrim

/-- Among the lines with a property there is a first one. -/
theorem Listing.exists_first {P : Line → Prop} (hl : l ∈ ls) (hp : P l) :
    ∃ before m after, ls = before ++ m :: after ∧ P m ∧ ∀ x ∈ before, ¬ P x := by
  induction ls with
  | nil => simp at hl
  | cons a ls ih =>
    by_cases ha : P a
    · exact ⟨[], a, ls, rfl, ha, by simp⟩
    · rcases List.mem_cons.mp hl with rfl | hl
      · exact (ha hp).elim
      · obtain ⟨before, m, after, rfl, hm, hno⟩ := ih hl
        refine ⟨a :: before, m, after, rfl, hm, ?_⟩
        exact List.forall_mem_cons.mpr ⟨ha, hno⟩

namespace WellFormed

theorem of_suffix (h : WellFormed ls) (hs : ms <:+ ls) : WellFormed ms where
  sole l hl := h.sole l (hs.mem hl)
  distinct := h.distinct.sublist hs.sublist
  sized l after name hla := h.sized l after name (hla.trans hs)

/-- A line that does not mention the keyword may be put in front. -/
theorem cons (h : WellFormed ls) (hl : ¬ MentionsKeyword l.content) : WellFormed (l :: ls) where
  sole m hm hmk := by
    rcases List.mem_cons.mp hm with rfl | hm
    · exact (hl hmk).elim
    · exact h.sole m hm hmk
  distinct := by
    refine List.pairwise_cons.mpr ⟨?_, h.distinct⟩
    intro m _ name hd
    exact (hl hd.mentionsKeyword).elim
  sized m after name hs hd := by
    rcases List.suffix_cons_iff.mp hs with heq | hs
    · obtain ⟨rfl, rfl⟩ := List.cons.inj heq
      exact (hl hd.mentionsKeyword).elim
    · exact h.sized m after name hs hd

theorem nil : WellFormed [] where
  sole := by simp
  distinct := .nil
  sized := by simp

/-- A declaration may be put in front of lines that give its size and do not declare it again. -/
theorem cons_declaration {mid rest : Listing} {final : Line} (h : WellFormed ls)
    (hls : ls = mid ++ final :: rest) (hd : Declares l.content name)
    (hnew : ∀ m ∈ ls, Marker.ofLine m.content ≠ .start name)
    (hquiet : ∀ m ∈ mid, ¬ MentionsKeyword m.content)
    (hsize : Marker.ofLine final.content = .size name) : WellFormed (l :: ls) where
  sole m hm hmk := by
    rcases List.mem_cons.mp hm with rfl | hm
    · exact ⟨name, hd⟩
    · exact h.sole m hm hmk
  distinct := by
    refine List.pairwise_cons.mpr ⟨?_, h.distinct⟩
    intro m hm other hother hagain
    obtain rfl := hd.unique hother
    exact hnew m hm hagain.marker
  sized m after other hs hother := by
    rcases List.suffix_cons_iff.mp hs with heq | hs
    · obtain ⟨rfl, rfl⟩ := List.cons.inj heq
      obtain rfl := hd.unique hother
      exact ⟨mid, final, rest, hls, hsize, hquiet⟩
    · exact h.sized m after other hs hother

/-- In a well-formed listing the lines that declare something are the declarations. -/
theorem declares_of_start (h : WellFormed ls) (hl : l ∈ ls)
    (hs : Marker.ofLine l.content = .start name) : Declares l.content name := by
  obtain ⟨other, hd⟩ := h.sole l hl (mentionsKeyword_of_start hs)
  have heq : other = name := by simpa [hs] using hd.marker.symm
  exact heq ▸ hd

/-- A name is declared on one line only. -/
theorem unique_line {before after before' after' : Listing} {l' : Line} (h : WellFormed ls)
    (heq : ls = before ++ l :: after) (heq' : ls = before' ++ l' :: after')
    (hd : Declares l.content name) (hd' : Declares l'.content name) :
    before = before' ∧ l = l' := by
  have hl : ls[before.length]? = some l := by simp [heq]
  have hl' : ls[before'.length]? = some l' := by simp [heq']
  obtain ⟨hlt, rfl⟩ := List.getElem?_eq_some_iff.mp hl
  obtain ⟨hlt', rfl⟩ := List.getElem?_eq_some_iff.mp hl'
  have hdistinct := List.pairwise_iff_getElem.mp h.distinct
  rcases Nat.lt_trichotomy before.length before'.length with hless | hlen | hless
  · exact (hdistinct _ _ hlt hlt' hless name hd hd').elim
  · obtain ⟨hbefore, hrest⟩ := List.append_inj (heq.symm.trans heq') hlen
    exact ⟨hbefore, (List.cons.inj hrest).1⟩
  · exact (hdistinct _ _ hlt' hlt hless name hd' hd).elim

/-- The lines between a declaration and the first size of what it declares. -/
theorem exists_size {first : Line} {after : Listing} (h : WellFormed ls) (hs : first :: after <:+ ls)
    (hfirst : Marker.ofLine first.content = .start name) :
    ∃ mid final behind, after = mid ++ final :: behind ∧
      Marker.ofLine final.content = .size name ∧
      ∀ m ∈ mid, (∀ f, Marker.ofLine m.content ≠ .start f) ∧
        Marker.ofLine m.content ≠ .size name := by
  have hd : Declares first.content name := h.declares_of_start (hs.mem (by simp)) hfirst
  obtain ⟨quiet, size, rest, rfl, hsize, hquiet⟩ := h.sized first after name hs hd
  obtain ⟨mid, final, between, hmid, hfinal, hno⟩ :=
    Listing.exists_first (P := fun m => Marker.ofLine m.content = .size name)
      (List.mem_append_right quiet (List.mem_singleton_self size)) hsize
  have hafter : quiet ++ size :: rest = mid ++ final :: (between ++ rest) := by
    have happend : quiet ++ size :: rest = (quiet ++ [size]) ++ rest := by simp
    rw [happend, hmid]
    simp
  refine ⟨mid, final, between ++ rest, hafter, hfinal, ?_⟩
  intro m hm
  have hmem : m ∈ quiet ++ [size] := by simp [hmid, hm]
  rw [List.mem_append, List.mem_singleton] at hmem
  rcases hmem with hmem | rfl
  · exact ⟨fun f hf => hquiet m hmem (mentionsKeyword_of_start hf), hno m hm⟩
  · exact (hno m hm hsize).elim

/-- The lines that declare nothing before the first declaration, and the first size of what that
one declares. -/
theorem exists_routine (h : WellFormed ls) (hl : l ∈ ls)
    (hs : Marker.ofLine l.content = .start other) :
    ∃ before first mid final behind name, ls = before ++ first :: (mid ++ final :: behind) ∧
      (∀ m ∈ before, ∀ f, Marker.ofLine m.content ≠ .start f) ∧
      Marker.ofLine first.content = .start name ∧ Marker.ofLine final.content = .size name ∧
      ∀ m ∈ mid, (∀ f, Marker.ofLine m.content ≠ .start f) ∧
        Marker.ofLine m.content ≠ .size name := by
  obtain ⟨before, first, after, rfl, ⟨name, hfirst⟩, hbefore⟩ :=
    Listing.exists_first (P := fun m => ∃ f, Marker.ofLine m.content = .start f) hl ⟨other, hs⟩
  obtain ⟨mid, final, behind, rfl, hfinal, hmid⟩ := h.exists_size (List.suffix_append _ _) hfirst
  refine ⟨before, first, mid, final, behind, name, rfl, ?_, hfirst, hfinal, hmid⟩
  intro m hm f hf
  exact hbefore m hm ⟨f, hf⟩

end WellFormed

end AsmListing
