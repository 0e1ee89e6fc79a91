import AsmListing.Proofs.Arguments
import AsmListing.Proofs.ChangeReport
import AsmListing.Proofs.SortedJson

/-! Settings as edits leave them: each suffix with its dot, each glob with something in it, none of
them twice, and all made of characters or of what the arguments have given. What an edit takes away
is gone, even if the same edit adds it. -/
namespace AsmListing

namespace SettingsEdit

variable {xs : List LooseText} {item add remove : Option LooseText} {x t : LooseText}

/-- The list with the item in it. -/
def added (item : Option LooseText) (items : List LooseText) : List LooseText :=
  (adding item items).getD items

/-- The list without the item. -/
def removed (item : Option LooseText) (items : List LooseText) : List LooseText :=
  (removing item items).getD items

theorem added_some (y : LooseText) (xs : List LooseText) :
    added (some y) xs = if y ∈ xs then xs else xs ++ [y] := by
  by_cases hy : y ∈ xs <;> simp [added, adding, hy]

theorem removed_some (y : LooseText) (xs : List LooseText) :
    removed (some y) xs = xs.filter fun x => x != y := by
  by_cases hy : y ∈ xs
  · simp [removed, removing, hy]
  · have hkeep : xs.filter (fun x => x != y) = xs := by
      refine List.filter_eq_self.mpr fun x hx => bne_iff_ne.mpr ?_
      rintro rfl
      exact hy hx
    simp [removed, removing, hy, hkeep]

theorem mem_added : x ∈ added item xs ↔ x ∈ xs ∨ item = some x := by
  cases item with
  | none => simp [added, adding]
  | some y =>
    rw [added_some, Option.some.injEq]
    split
    · next hy =>
      refine ⟨Or.inl, fun h => ?_⟩
      rcases h with hx | rfl
      · exact hx
      · exact hy
    · rw [List.mem_append, List.mem_singleton, eq_comm]

theorem mem_removed : x ∈ removed item xs ↔ x ∈ xs ∧ item ≠ some x := by
  cases item with
  | none => simp [removed, removing]
  | some y =>
    rw [removed_some, List.mem_filter, bne_iff_ne, Ne, Ne, Option.some.injEq]
    exact and_congr_right fun _ => not_congr eq_comm

theorem nodup_added (h : xs.Nodup) (item : Option LooseText) : (added item xs).Nodup := by
  cases item with
  | none => exact h
  | some y =>
    rw [added_some]
    split
    · exact h
    · next hy =>
      exact (List.perm_append_singleton y xs).nodup_iff.mpr (List.nodup_cons.mpr ⟨hy, h⟩)

theorem nodup_removed (h : xs.Nodup) (item : Option LooseText) : (removed item xs).Nodup := by
  cases item with
  | none => exact h
  | some y =>
    rw [removed_some]
    exact h.filter _

/-- An item is added first, and one is taken away then. -/
theorem getD_changed (add remove : Option LooseText) (xs : List LooseText) :
    (changed add remove xs).getD xs = removed remove (added add xs) := by
  simp only [changed, removed, added]
  cases removing remove ((adding add xs).getD xs) <;> rfl

theorem mem_changed : x ∈ (changed add remove xs).getD xs ↔
    (x ∈ xs ∨ add = some x) ∧ remove ≠ some x := by
  rw [getD_changed, mem_removed, mem_added]

theorem nodup_changed (h : xs.Nodup) (add remove : Option LooseText) :
    ((changed add remove xs).getD xs).Nodup := by
  rw [getD_changed]
  exact nodup_removed (nodup_added h _) _

theorem asked_eq_some_iff {asking : Option LooseText} :
    asked asking = some t ↔ asking = some t ∧ t ≠ [] := by
  simp [asked, Option.filter_eq_some_iff]

theorem head?_dotted (t : LooseText) : (dotted t).head? = some (.char '.') := by
  unfold dotted
  split
  · next h => exact h
  · rfl

/-- The suffixes after an edit. -/
def extensionsAfter (e : SettingsEdit) (current : Fields) : List LooseText :=
  (changed ((asked e.addExtension).map dotted) ((asked e.removeExtension).map dotted)
    (Settings.extensions current)).getD (Settings.extensions current)

/-- A suffix that is taken away is gone, be it added or not. -/
theorem not_mem_extensionsAfter {e : SettingsEdit} (h : asked e.removeExtension = some t)
    (current : Fields) : dotted t ∉ e.extensionsAfter current := by
  intro hmem
  refine (mem_changed.mp hmem).2 ?_
  rw [h]
  rfl

/-- The globs after an edit. -/
def excludeAfter (e : SettingsEdit) (current : Fields) : List LooseText :=
  (changed (asked e.addExclude) (asked e.removeExclude) (Settings.exclude current)).getD
    (Settings.exclude current)

/-- A glob that is taken away is gone, be it added or not. -/
theorem not_mem_excludeAfter {e : SettingsEdit} (h : asked e.removeExclude = some t)
    (current : Fields) : t ∉ e.excludeAfter current := fun hmem =>
  (mem_changed.mp hmem).2 h

/-- A suffix after an edit has been there before, or it has been added. -/
theorem of_mem_extensionsAfter {e : SettingsEdit} {current : Fields}
    (h : x ∈ e.extensionsAfter current) :
    x ∈ Settings.extensions current ∨ ∃ t, e.addExtension = some t ∧ x = dotted t := by
  refine (mem_changed.mp h).1.imp_right fun hadded => ?_
  obtain ⟨t, hasked, rfl⟩ := Option.map_eq_some_iff.mp hadded
  exact ⟨t, (asked_eq_some_iff.mp hasked).1, rfl⟩

/-- A glob after an edit has been there before, or it has been added and has something in it. -/
theorem of_mem_excludeAfter {e : SettingsEdit} {current : Fields}
    (h : x ∈ e.excludeAfter current) :
    x ∈ Settings.exclude current ∨ e.addExclude = some x ∧ x ≠ [] :=
  (mem_changed.mp h).1.imp_right asked_eq_some_iff.mp

end SettingsEdit

/-! What an edit gives a setting. -/

namespace LooseText

variable {given more : List LooseText} {x t : LooseText}

/-- The text is made of characters, or it stands at the end of a text that was given, but for a dot
in front of it. -/
def IsMadeOf (given : List LooseText) (x : LooseText) : Prop :=
  (∃ t : Text, x = t.loose) ∨ ∃ argument ∈ given, ∃ t, t <:+ argument ∧ (x = t ∨ x = .char '.' :: t)

theorem IsMadeOf.mono (h : x.IsMadeOf given) (hsub : given ⊆ more) : x.IsMadeOf more :=
  h.imp_right fun ⟨argument, hmem, hx⟩ => ⟨argument, hsub hmem, hx⟩

theorem IsMadeOf.isUnpaired (h : x.IsMadeOf given) (hgiven : ∀ t ∈ given, t.IsUnpaired) :
    x.IsUnpaired := by
  obtain ⟨t, rfl⟩ | ⟨argument, hmem, t, hsuffix, rfl | rfl⟩ := h
  · exact isUnpaired_loose t
  · exact (hgiven argument hmem).suffix hsuffix
  · exact ((hgiven argument hmem).suffix hsuffix).cons (by simp)

/-- A surrogate in such a text stands in one that was given. -/
theorem IsMadeOf.exists_hasSurrogate (h : x.IsMadeOf given) (hx : x.HasSurrogate) :
    ∃ argument ∈ given, argument.HasSurrogate := by
  obtain ⟨c, hc, hbad⟩ := hx
  obtain ⟨t, rfl⟩ | ⟨argument, hmem, t, hsuffix, rfl | rfl⟩ := h
  · exact absurd hc (Text.not_mem_loose hbad t)
  · exact ⟨argument, hmem, c, hsuffix.subset hc, hbad⟩
  · rcases List.mem_cons.mp hc with rfl | hc
    · cases hbad
    · exact ⟨argument, hmem, c, hsuffix.subset hc, hbad⟩

theorem isMadeOf_dotted (h : ∃ argument ∈ given, t <:+ argument) :
    (SettingsEdit.dotted t).IsMadeOf given := by
  obtain ⟨argument, hmem, hsuffix⟩ := h
  refine Or.inr ⟨argument, hmem, t, hsuffix, ?_⟩
  unfold SettingsEdit.dotted
  split
  · exact Or.inl rfl
  · exact Or.inr rfl

end LooseText

namespace Json

variable {j : Json}

/-- The value is a list of texts that can be read back, or a truth value. -/
inductive IsFlat : Json → Prop
  | strings {xs : List LooseText} (h : ∀ x ∈ xs, x.IsUnpaired) : IsFlat (.list (xs.map .string))
  | bool (b : Bool) : IsFlat (.bool b)

theorem IsFlat.isReadable (h : j.IsFlat) (depth : Nat) : j.IsReadable (depth + 1) := by
  cases h with
  | strings h => exact .list (List.forall_mem_map.mpr fun x hx => .string (h x hx))
  | bool b => exact .bool b

theorem IsFlat.isWhole (h : j.IsFlat) : j.IsWhole := by
  cases h with
  | strings h => exact .list (List.forall_mem_map.mpr fun x _ => .string x)
  | bool b => exact .bool b

/-- No object stands in the value. -/
theorem IsFlat.sortKeys_eq (h : j.IsFlat) : j.sortKeys = j := by
  cases h with
  | strings h =>
    rw [sortKeys, sortKeysItems_eq_map, List.map_map]
    rfl
  | bool b => rfl

end Json

namespace Fields

variable {fields updates : Fields}

/-- The fields have flat values, and keys that can be read back. -/
def AreFlat (fields : Fields) : Prop := ∀ e ∈ fields, e.1.IsUnpaired ∧ e.2.IsFlat

theorem AreFlat.putAll (hfields : fields.AreFlat) (hupdates : updates.AreFlat) :
    (fields.putAll updates).AreFlat := fun e he => (mem_putAll he).elim (hfields e) (hupdates e)

theorem AreFlat.areStorable [NestingLimit] (h : fields.AreFlat) : fields.AreStorable := by
  intro e he
  obtain ⟨hkey, hvalue⟩ := h e he
  obtain ⟨n, hn⟩ := NestingLimit.exists_levels
  rw [Json.IsStorable, hn]
  exact ⟨hkey, hvalue.isReadable _, hvalue.isWhole⟩

/-- An object with flat values reads back where it stands in another object. -/
theorem AreFlat.isStorable [NestingLimit] (h : fields.AreFlat) (hkeys : fields.keys.Nodup) :
    (Json.object fields).IsStorable := by
  refine ⟨?_, h.areStorable.isWhole⟩
  obtain ⟨n, hn⟩ := NestingLimit.exists_levels
  rw [hn]
  refine .object hkeys (fun key hkey => ?_) fun e he => (h e he).2.isReadable _
  obtain ⟨e, he, rfl⟩ := List.mem_map.mp hkey
  exact (h e he).1

/-- Sorting leaves each key of flat fields its value. -/
theorem AreFlat.get?_sortedFields (h : fields.AreFlat) (hkeys : fields.keys.Nodup)
    (key : LooseText) : (Json.sortedFields fields).get? key = fields.get? key := by
  rw [Json.get?_sortedFields hkeys]
  cases hvalue : fields.get? key with
  | none => rfl
  | some value =>
    have hmem := (get?_eq_some_iff hkeys).mp hvalue
    rw [Option.map_some, (h _ hmem).2.sortKeys_eq]

end Fields

namespace Settings

open SettingsEdit

variable {current known : Fields} {edit : SettingsEdit} {x : LooseText}

theorem get?_toList {α : Type} (key k : LooseText) (f : α → Json) (value : Option α) :
    Fields.get? (value.map fun v => (key, f v)).toList.reverse k =
      if k = key then value.map f else none := by
  cases value with
  | none => simp [Fields.get?]
  | some v => exact Fields.get?_cons key (f v) [] k

/-- The updates of an edit by their keys. -/
theorem get?_updates (edit : SettingsEdit) (current : Fields) (k : LooseText) :
    Fields.get? (edit.updates current).reverse k =
      (if k = collapseKey then edit.collapse.map Json.bool else none).or
        ((if k = excludeKey then
          (changed (asked edit.addExclude) (asked edit.removeExclude) (exclude current)).map
            Json.strings else none).or
          (if k = extensionsKey then
            (changed ((asked edit.addExtension).map dotted)
              ((asked edit.removeExtension).map dotted) (extensions current)).map
              Json.strings else none)) := by
  rw [updates, List.reverse_append, List.reverse_append, Fields.get?_append, Fields.get?_append,
    get?_toList, get?_toList, get?_toList]

theorem asTexts?_putAll_updates {change : Option (List LooseText)} {key : LooseText}
    (h : Fields.get? (edit.updates current).reverse key = change.map Json.strings) :
    (((current.putAll (edit.updates current)).get? key).bind Json.asTexts?).getD [] =
      change.getD (((current.get? key).bind Json.asTexts?).getD []) := by
  rw [Fields.get?_putAll, h]
  cases change with
  | none => rfl
  | some xs =>
    simp only [Option.map_some, Option.some_or, Option.bind_some, Json.strings,
      Json.asTexts?_strings, Option.getD_some]

theorem extensions_putAll_updates (edit : SettingsEdit) (current : Fields) :
    extensions (current.putAll (edit.updates current)) = edit.extensionsAfter current := by
  have hexclude : extensionsKey ≠ excludeKey := by decide
  have hcollapse : extensionsKey ≠ collapseKey := by decide
  refine asTexts?_putAll_updates ?_
  rw [get?_updates, if_neg hcollapse, if_neg hexclude, if_pos rfl, Option.none_or, Option.none_or]

theorem exclude_putAll_updates (edit : SettingsEdit) (current : Fields) :
    exclude (current.putAll (edit.updates current)) = edit.excludeAfter current := by
  have hextensions : excludeKey ≠ extensionsKey := by decide
  have hcollapse : excludeKey ≠ collapseKey := by decide
  refine asTexts?_putAll_updates ?_
  rw [get?_updates, if_neg hcollapse, if_neg hextensions, if_pos rfl, Option.none_or,
    Option.or_none]

/-- Valid settings in which every suffix has its dot, every glob has something in it, none of them
stands twice, and all are made of characters or of what was given. -/
structure IsTidy (given : List LooseText) (current : Fields) : Prop where
  valid : flaw? current = none
  extensions_nodup : (extensions current).Nodup
  dotted : ∀ x ∈ extensions current, x.head? = some (.char '.')
  exclude_nodup : (exclude current).Nodup
  nonempty : [] ∉ exclude current
  made : ∀ x ∈ extensions current ++ exclude current, x.IsMadeOf given

/-- The suffixes that hold by default. -/
def suffixes : List LooseText := [".s", ".asm", ".S", ".inc"]

theorem exists_loose_of_mem_suffixes {x : LooseText} (h : x ∈ suffixes) :
    ∃ t : Text, x = t.loose := by
  have hloose : suffixes = [".s", ".asm", ".S", ".inc"].map Text.loose := rfl
  rw [hloose] at h
  obtain ⟨t, _, rfl⟩ := List.mem_map.mp h
  exact ⟨t, rfl⟩

theorem isTidy_defaults (given : List LooseText) : IsTidy given defaults where
  valid := flaw?_defaults
  extensions_nodup := by decide
  dotted := by decide
  exclude_nodup := by decide
  nonempty := by decide
  made x hx := by
    have hdefaults : extensions defaults ++ exclude defaults = suffixes := by decide
    exact Or.inl (exists_loose_of_mem_suffixes (hdefaults ▸ hx))

theorem areFlat_defaults : defaults.AreFlat := by
  have hsuffixes : ∀ x ∈ suffixes, x.IsUnpaired := fun x hx => by
    obtain ⟨t, rfl⟩ := exists_loose_of_mem_suffixes hx
    exact LooseText.isUnpaired_loose t
  have hglobs : ∀ x ∈ ([] : List LooseText), x.IsUnpaired := by nofun
  refine List.forall_mem_cons.mpr ⟨⟨LooseText.isUnpaired_loose _, .strings hsuffixes⟩, ?_⟩
  refine List.forall_mem_cons.mpr ⟨⟨LooseText.isUnpaired_loose _, .strings hglobs⟩, ?_⟩
  exact List.forall_mem_singleton.mpr ⟨LooseText.isUnpaired_loose _, .bool true⟩

theorem IsTidy.mono {given more : List LooseText} (h : IsTidy given current) (hsub : given ⊆ more) :
    IsTidy more current :=
  { h with made := fun x hx => (h.made x hx).mono hsub }

/-- An edit leaves settings tidy. -/
theorem IsTidy.edited {given : List LooseText} (h : IsTidy given current)
    (hedit : edit.IsOf given) :
    IsTidy given (current.putAll (edit.updates current)) where
  valid := flaw?_putAll h.valid fun _ _ hmem => suits_of_mem_updates hmem
  extensions_nodup := by
    rw [extensions_putAll_updates]
    exact nodup_changed h.extensions_nodup _ _
  dotted := by
    rw [extensions_putAll_updates]
    intro x hx
    obtain hold | ⟨t, _, rfl⟩ := of_mem_extensionsAfter hx
    · exact h.dotted x hold
    · exact head?_dotted t
  exclude_nodup := by
    rw [exclude_putAll_updates]
    exact nodup_changed h.exclude_nodup _ _
  nonempty := by
    rw [exclude_putAll_updates]
    intro hx
    obtain hold | ⟨_, hne⟩ := of_mem_excludeAfter hx
    · exact h.nonempty hold
    · exact hne rfl
  made := by
    rw [extensions_putAll_updates, exclude_putAll_updates]
    intro x hx
    rcases List.mem_append.mp hx with hx | hx
    · obtain hold | ⟨t, hadded, rfl⟩ := of_mem_extensionsAfter hx
      · exact h.made x (List.mem_append_left _ hold)
      · exact LooseText.isMadeOf_dotted (hedit t (Or.inl hadded))
    · obtain hold | ⟨hadded, _⟩ := of_mem_excludeAfter hx
      · exact h.made x (List.mem_append_right _ hold)
      · obtain ⟨argument, hmem, hsuffix⟩ := hedit x (Or.inr hadded)
        exact Or.inr ⟨argument, hmem, x, hsuffix, Or.inl rfl⟩

/-- An edit of tidy settings gives flat values. -/
theorem IsTidy.areFlat_updates {given : List LooseText} (h : IsTidy given current)
    (hedit : edit.IsOf given) (hgiven : ∀ t ∈ given, t.IsUnpaired) :
    (edit.updates current).AreFlat := by
  have hmade := (h.edited hedit).made
  rw [extensions_putAll_updates, exclude_putAll_updates] at hmade
  rintro ⟨key, value⟩ he
  simp only [updates, List.mem_append, Option.mem_toList, Option.map_eq_some_iff,
    Prod.mk.injEq] at he
  rcases he with (⟨xs, hxs, rfl, rfl⟩ | ⟨xs, hxs, rfl, rfl⟩) | ⟨b, _, rfl, rfl⟩
  · refine ⟨LooseText.isUnpaired_loose _, .strings fun x hx => ?_⟩
    refine (hmade x (List.mem_append_left _ ?_)).isUnpaired hgiven
    rwa [extensionsAfter, hxs]
  · refine ⟨LooseText.isUnpaired_loose _, .strings fun x hx => ?_⟩
    refine (hmade x (List.mem_append_right _ ?_)).isUnpaired hgiven
    rwa [excludeAfter, hxs]
  · exact ⟨LooseText.isUnpaired_loose _, .bool b⟩

/-- A surrogate in tidy settings stands in a text that was given. -/
theorem IsTidy.exists_hasSurrogate {given : List LooseText} (h : IsTidy given current)
    (hsurrogate : HasSurrogate current) : ∃ argument ∈ given, argument.HasSurrogate := by
  obtain ⟨x, hx, hbad⟩ := hsurrogate
  exact (h.made x hx).exists_hasSurrogate hbad

end Settings

end AsmListing
