import AsmListing.Proofs.Fields
import AsmListing.Settings.Edit

/-! Valid settings. Each key asks for a value of its kind, and updates with such values keep settings
valid; the updates that an edit makes are of this kind. -/
namespace AsmListing

theorem Json.asTexts?_strings (xs : List LooseText) :
    (Json.list (xs.map .string)).asTexts? = some xs := by
  rw [asTexts?]
  induction xs with
  | nil => rfl
  | cons x xs ih => simp [ih]

/-! Valid settings. -/

namespace Settings

variable {fields updates current : Fields} {key : LooseText} {value : Json}
  {edit : SettingsEdit}

/-- The value is of the kind that the key asks for. -/
def Suits (key : LooseText) (value : Json) : Prop :=
  (key = extensionsKey ∨ key = excludeKey → value.asTexts?.isSome) ∧
    (key = collapseKey → value.asBool?.isSome)

theorem flaw?_eq_none_iff : flaw? fields = none ↔
    ((fields.get? extensionsKey).bind Json.asTexts?).isSome ∧
    ((fields.get? excludeKey).bind Json.asTexts?).isSome ∧
    ((fields.get? collapseKey).bind Json.asBool?).isSome := by
  unfold flaw?
  cases (fields.get? extensionsKey).bind Json.asTexts? <;>
    cases (fields.get? excludeKey).bind Json.asTexts? <;>
    cases (fields.get? collapseKey).bind Json.asBool? <;> simp

theorem flaw?_put (h : flaw? fields = none) (hs : Suits key value) :
    flaw? (fields.put key value) = none := by
  rw [flaw?_eq_none_iff] at h ⊢
  obtain ⟨hextensions, hexclude, hcollapse⟩ := h
  simp only [Fields.get?_put]
  refine ⟨?_, ?_, ?_⟩
  · split
    · next hkey => exact hs.1 (Or.inl hkey.symm)
    · exact hextensions
  · split
    · next hkey => exact hs.1 (Or.inr hkey.symm)
    · exact hexclude
  · split
    · next hkey => exact hs.2 hkey.symm
    · exact hcollapse

/-- Valid settings stay valid under suitable updates. -/
theorem flaw?_putAll (h : flaw? fields = none)
    (hs : ∀ key value, (key, value) ∈ updates → Suits key value) :
    flaw? (fields.putAll updates) = none := by
  induction updates generalizing fields with
  | nil => exact h
  | cons e updates ih =>
    have hput := flaw?_put h (hs e.1 e.2 List.mem_cons_self)
    exact ih hput fun key value hmem => hs key value (List.mem_cons_of_mem _ hmem)

theorem flaw?_defaults : flaw? defaults = none := by decide

/-- An edit updates three settings at most. -/
theorem of_mem_updates (h : (key, value) ∈ edit.updates current) :
    (∃ xs : List LooseText, key = extensionsKey ∧ value = .list (xs.map .string)) ∨
      (∃ xs : List LooseText, key = excludeKey ∧ value = .list (xs.map .string)) ∨
      ∃ b, key = collapseKey ∧ value = .bool b := by
  simp only [SettingsEdit.updates, List.mem_append, Option.mem_toList, Option.map_eq_some_iff,
    Prod.mk.injEq] at h
  rcases h with (⟨xs, _, rfl, rfl⟩ | ⟨xs, _, rfl, rfl⟩) | ⟨b, _, rfl, rfl⟩
  · exact Or.inl ⟨xs, rfl, rfl⟩
  · exact Or.inr (Or.inl ⟨xs, rfl, rfl⟩)
  · exact Or.inr (Or.inr ⟨b, rfl, rfl⟩)

/-- The updates of an edit suit their keys. -/
theorem suits_of_mem_updates (h : (key, value) ∈ edit.updates current) : Suits key value := by
  have hextensions : extensionsKey ≠ collapseKey := by decide
  have hexclude : excludeKey ≠ collapseKey := by decide
  have hcollapse : collapseKey ≠ extensionsKey ∧ collapseKey ≠ excludeKey := by decide
  rcases of_mem_updates h with ⟨xs, rfl, rfl⟩ | ⟨xs, rfl, rfl⟩ | ⟨b, rfl, rfl⟩
  · simp [Suits, Json.asTexts?_strings, hextensions]
  · simp [Suits, Json.asTexts?_strings, hexclude]
  · simp [Suits, Json.asBool?, hcollapse]

end Settings

end AsmListing
