import AsmListing.CommandLine.Run
import AsmListing.Proofs.SettingsWrite

/-! What is printed about a change. A text has no bytes only where a surrogate stands in it, and none
stands in what is told in JSON. A report on a removal takes one from the name of the module only, and
one on the settings from the path of their file or, where they are shown, from a suffix or a glob. -/
namespace AsmListing

/-- A surrogate stands in the text. -/
def LooseText.HasSurrogate (t : LooseText) : Prop := ∃ c ∈ t, c.isChar = false

/-- A suffix or a glob in the settings holds a surrogate. -/
def Settings.HasSurrogate (fields : Fields) : Prop :=
  ∃ t ∈ extensions fields ++ exclude fields, t.HasSurrogate

namespace LooseText

variable {t u : LooseText} {c : CodePoint} {run : Text}

theorem not_hasSurrogate_loose (t : Text) : ¬ t.loose.HasSurrogate := fun ⟨_, hmem, hc⟩ =>
  Text.not_mem_loose hc t hmem

theorem hasSurrogate_append : HasSurrogate (t ++ u) ↔ t.HasSurrogate ∨ u.HasSurrogate := by
  simp only [HasSurrogate, List.mem_append, or_and_right, exists_or]

theorem hasSurrogate_joinWith {sep : Text} {parts : List LooseText} :
    (joinWith sep parts).HasSurrogate ↔ ∃ part ∈ parts, part.HasSurrogate := by
  constructor
  · rintro ⟨c, hmem, hc⟩
    obtain ⟨part, hpart, hmem⟩ := (mem_intercalate_iff (Text.not_mem_loose hc sep)).mp hmem
    exact ⟨part, hpart, c, hmem, hc⟩
  · rintro ⟨part, hpart, c, hmem, hc⟩
    exact ⟨c, (mem_intercalate_iff (Text.not_mem_loose hc sep)).mpr ⟨part, hpart, hmem⟩, hc⟩

/-- A surrogate belongs to no control sequence. -/
theorem mem_stripRuns_iff (hc : c.isChar = false) : c ∈ stripRuns run t ↔ c ∈ t := by
  induction t generalizing run with
  | nil => exact iff_of_false (Text.not_mem_loose hc _) List.not_mem_nil
  | cons p t ih =>
    cases p with
    | char a =>
      have hne : c ≠ .char a := by
        rintro rfl
        cases hc
      rw [stripRuns, ih, List.mem_cons, or_iff_right hne]
    | surrogate i =>
      rw [stripRuns, List.mem_append, List.mem_cons, List.mem_cons, ih,
        or_iff_right (Text.not_mem_loose hc _)]

/-- A text has bytes as it is shown unless a surrogate stands in it. -/
theorem encodeFault?_withoutControlSequences :
    t.withoutControlSequences.encodeFault? = none ↔ ¬ t.HasSurrogate := by
  rw [encodeFault?_eq_none_iff, HasSurrogate]
  constructor
  · rintro h ⟨c, hmem, hc⟩
    have hchar := h c ((mem_stripRuns_iff hc).mpr hmem)
    rw [hc] at hchar
    cases hchar
  · intro h p hp
    by_contra hp'
    have hsurrogate : p.isChar = false := by simpa using hp'
    exact h ⟨p, (mem_stripRuns_iff hsurrogate).mp hp, hsurrogate⟩

end LooseText

namespace Program

variable {answer : List LooseText} {output : Text} {fault : EncodeFault}

/-- An answer is printed to its end unless a surrogate stands in it. -/
theorem print_snd_eq_none_iff : (print answer).2 = none ↔ ∀ t ∈ answer, ¬ t.HasSurrogate := by
  induction answer with
  | nil => simp [print]
  | cons t rest ih =>
    rw [List.forall_mem_cons, ← ih, ← LooseText.encodeFault?_withoutControlSequences]
    cases hfault : t.withoutControlSequences.encodeFault? with
    | some fault => simp [print, hfault]
    | none => simp [print, hfault]

theorem hasSurrogate_of_print (h : print answer = (output, some fault)) :
    ∃ t ∈ answer, t.HasSurrogate := by
  by_contra hno
  have hnone : (print answer).2 = none :=
    print_snd_eq_none_iff.mpr fun t ht hsurrogate => hno ⟨t, ht, hsurrogate⟩
  rw [h] at hnone
  cases hnone

end Program

namespace Change

open LooseText (hasSurrogate_append hasSurrogate_joinWith not_hasSurrogate_loose)

variable {ctx : Context} {fields current : Fields} {edit : SettingsEdit} {display dryRun : Bool}
  {module t : LooseText} {report : RemovalReport}

/-- An answer in JSON is made of characters. -/
theorem not_hasSurrogate_enveloped {command : Text} {summary payload : Fields}
    (h : t ∈ Answer.enveloped ctx command summary payload) : ¬ t.HasSurrogate := by
  obtain rfl := List.mem_singleton.mp h
  exact not_hasSurrogate_loose _

/-- A surrogate in the lines on the settings stands in a suffix or a glob. -/
theorem hasSurrogate_of_settingsLines (hmem : t ∈ settingsLines fields) (ht : t.HasSurrogate) :
    Settings.HasSurrogate fields := by
  simp only [settingsLines, List.mem_cons, List.not_mem_nil, or_false] at hmem
  rcases hmem with rfl | rfl | rfl
  · obtain ⟨x, hx, hsurrogate⟩ := hasSurrogate_joinWith.mp
      ((hasSurrogate_append.mp ht).resolve_left (not_hasSurrogate_loose _))
    exact ⟨x, List.mem_append_left _ hx, hsurrogate⟩
  · have hglobs := (hasSurrogate_append.mp ht).resolve_left (not_hasSurrogate_loose _)
    split at hglobs
    · exact (not_hasSurrogate_loose _ hglobs).elim
    · obtain ⟨x, hx, hsurrogate⟩ := hasSurrogate_joinWith.mp hglobs
      exact ⟨x, List.mem_append_right _ hx, hsurrogate⟩
  · have hvalue := (hasSurrogate_append.mp ht).resolve_left (not_hasSurrogate_loose _)
    split at hvalue
    · exact (not_hasSurrogate_loose _ hvalue).elim
    · exact (not_hasSurrogate_loose _ hvalue).elim

/-- The keys of the updates are made of characters. -/
theorem exists_loose_of_mem_keys {k : LooseText} (h : k ∈ (edit.updates current).keys) :
    ∃ t : Text, k = t.loose := by
  obtain ⟨⟨key, value⟩, hmem, rfl⟩ := List.mem_map.mp h
  rcases Settings.of_mem_updates hmem with ⟨_, rfl, _⟩ | ⟨_, rfl, _⟩ | ⟨_, rfl, _⟩
  · exact ⟨_, rfl⟩
  · exact ⟨_, rfl⟩
  · exact ⟨_, rfl⟩

/-- A surrogate in the report on settings stands in the path of their file, where that is told of
updates, or in a suffix or a glob, where the settings are shown. -/
theorem hasSurrogate_of_settingsReport
    (hmem : t ∈ settingsReport ctx (edit.updates current) fields display) (ht : t.HasSurrogate) :
    ctx.json = false ∧
      (edit.updates current ≠ [] ∧ (Settings.file ctx.root).toText.HasSurrogate ∨
        (display = true ∨ edit.updates current = []) ∧ Settings.HasSurrogate fields) := by
  unfold settingsReport at hmem
  dsimp only at hmem
  split at hmem
  · exact (not_hasSurrogate_enveloped hmem ht).elim
  · next hjson =>
    refine ⟨by simpa using hjson, ?_⟩
    rcases List.mem_append.mp hmem with hhead | hlines
    · split at hhead
      · cases hhead
      · next hne =>
        obtain rfl := List.mem_singleton.mp hhead
        simp only [hasSurrogate_append, not_hasSurrogate_loose, or_false, false_or] at ht
        refine Or.inl ⟨by simpa using hne, ht.resolve_right fun hkeys => ?_⟩
        obtain ⟨k, hk, hsurrogate⟩ := hasSurrogate_joinWith.mp hkeys
        obtain ⟨key, rfl⟩ := exists_loose_of_mem_keys (List.mem_mergeSort.mp hk)
        exact not_hasSurrogate_loose key hsurrogate
    · split at hlines
      · next hshown =>
        exact Or.inr ⟨by simpa using hshown, hasSurrogate_of_settingsLines hlines ht⟩
      · cases hlines

end Change

end AsmListing
