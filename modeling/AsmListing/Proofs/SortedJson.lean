import AsmListing.Proofs.PlainJson
import AsmListing.Report.Table

/-! Values with the fields of their objects in order. Sorting changes neither what a key has in an
object nor whether a value reads back; so what a command answers in JSON reads back as the envelope,
field by field. -/
namespace AsmListing

namespace Json

variable {depth : Nat} {j : Json} {fields : Fields}

theorem sortKeysItems_eq_map (items : List Json) : sortKeysItems items = items.map sortKeys := by
  induction items with
  | nil => rfl
  | cons x items ih => rw [sortKeysItems, ih, List.map_cons]

theorem sortKeysFields_eq_map (fields : Fields) :
    sortKeysFields fields = fields.map fun e => (e.1, sortKeys e.2) := by
  induction fields with
  | nil => rfl
  | cons e fields ih => rw [sortKeysFields, ih, List.map_cons]

/-- The fields of an object in order, and those of all objects in it. -/
def sortedFields (fields : Fields) : Fields :=
  (sortKeysFields fields).mergeSort fun a b => LooseText.le a.1 b.1

theorem perm_sortedFields (fields : Fields) :
    (sortedFields fields).Perm (fields.map fun e => (e.1, sortKeys e.2)) := by
  rw [← sortKeysFields_eq_map]
  exact List.mergeSort_perm _ _

theorem perm_keys_sortedFields (fields : Fields) :
    (sortedFields fields).keys.Perm fields.keys := by
  have hkeys := (perm_sortedFields fields).map Prod.fst
  rwa [List.map_map] at hkeys

/-- Sorting leaves each key its value, which is sorted itself. -/
theorem get?_sortedFields (h : fields.keys.Nodup) (key : LooseText) :
    (sortedFields fields).get? key = (fields.get? key).map sortKeys := by
  have hnodup := (perm_keys_sortedFields fields).nodup_iff.mpr h
  rw [← Fields.get?_map]
  exact (Fields.get?_of_perm hnodup (perm_sortedFields fields) key).symm

theorem isReadable_sortKeys (h : j.IsReadable depth) : j.sortKeys.IsReadable depth := by
  induction h with
  | null => exact .null
  | bool b => exact .bool b
  | int hi => exact .int hi
  | real x => exact .real x
  | string ht => exact .string ht
  | list h ih =>
    rw [sortKeys, sortKeysItems_eq_map]
    exact .list (List.forall_mem_map.mpr ih)
  | @object depth fields hkeys htexts h ih =>
    have hperm := perm_keys_sortedFields fields
    refine .object (hperm.nodup_iff.mpr hkeys) (fun key hkey => ?_) fun e he => ?_
    · exact htexts key (hperm.mem_iff.mp hkey)
    · obtain ⟨e', he', rfl⟩ := List.mem_map.mp ((perm_sortedFields fields).mem_iff.mp he)
      exact ih e' he'

theorem isWhole_sortKeys (h : j.IsWhole) : j.sortKeys.IsWhole := by
  induction h with
  | null => exact .null
  | bool b => exact .bool b
  | int i => exact .int i
  | string t => exact .string t
  | list h ih =>
    rw [sortKeys, sortKeysItems_eq_map]
    exact .list (List.forall_mem_map.mpr ih)
  | @object fields h ih =>
    refine .object fun e he => ?_
    obtain ⟨e', he', rfl⟩ := List.mem_map.mp ((perm_sortedFields fields).mem_iff.mp he)
    exact ih e' he'

end Json

namespace Report

open Json (sortedFields)

variable {clock command : Text} {summary payload : Fields}

/-- The fields of an envelope. -/
def envelopeFields (clock command : Text) (summary payload : Fields) : Fields :=
  Fields.put (Fields.putAll
    [("schema", .text schemaName), ("schema_version", .text schemaVersion),
      ("command", .text command), ("version", .text version), ("summary", .object summary)] payload)
    "_meta" (.object [("timestamp", .text clock)])

theorem nodup_envelopeFields (clock command : Text) (summary payload : Fields) :
    (envelopeFields clock command summary payload).keys.Nodup := by
  have hhead : (["schema", "schema_version", "command", "version", "summary"] :
      List LooseText).Nodup := by decide
  refine Fields.nodup_put (Fields.nodup_putAll ?_ payload) _ _
  exact hhead

variable [NestingLimit]

/-- An envelope is made of what the answer gives, and of texts. -/
theorem of_mem_envelopeFields {key : LooseText} {value : Json}
    (hsummary : (Json.object summary).IsStorable) (hpayload : payload.AreStorable)
    (he : (key, value) ∈ envelopeFields clock command summary payload) :
    key.IsUnpaired ∧ value.IsStorable := by
  have hloose (t : Text) : t.loose.IsUnpaired := LooseText.isUnpaired_loose t
  rcases Fields.mem_put he with hmem | ⟨rfl, rfl⟩
  · rcases Fields.mem_putAll hmem with hmem | hmem
    · simp only [List.mem_cons, List.not_mem_nil, or_false, Prod.mk.injEq] at hmem
      rcases hmem with ⟨rfl, rfl⟩ | ⟨rfl, rfl⟩ | ⟨rfl, rfl⟩ | ⟨rfl, rfl⟩ | ⟨rfl, rfl⟩
      · exact ⟨hloose _, Json.isStorable_text _⟩
      · exact ⟨hloose _, Json.isStorable_text _⟩
      · exact ⟨hloose _, Json.isStorable_text _⟩
      · exact ⟨hloose _, Json.isStorable_text _⟩
      · exact ⟨hloose _, hsummary⟩
    · exact hpayload _ hmem
  · have hkeys : (["timestamp"] : List LooseText).Nodup := by decide
    obtain ⟨n, hn⟩ := NestingLimit.exists_levels
    have hlevels : NestingLimit.levels - 1 = n + 2 := by rw [hn]; rfl
    rw [Json.IsStorable, hlevels]
    refine ⟨hloose _, .object hkeys ?_ ?_, .object ?_⟩
    · exact List.forall_mem_singleton.mpr (hloose _)
    · exact List.forall_mem_singleton.mpr (.string (hloose clock))
    · exact List.forall_mem_singleton.mpr (.string _)

theorem areStorable_envelopeFields (clock command : Text)
    (hsummary : (Json.object summary).IsStorable) (hpayload : payload.AreStorable) :
    (envelopeFields clock command summary payload).AreStorable := fun _ he =>
  of_mem_envelopeFields hsummary hpayload he

/-- Nothing in the text of an envelope is left out where it is shown. -/
theorem isPlain_envelope (hsummary : (Json.object summary).IsStorable)
    (hpayload : payload.AreStorable) :
    Text.IsPlain (envelope clock command summary payload).toSortedText :=
  have hstorable := areStorable_envelopeFields clock command hsummary hpayload
  Json.isPlain_toText (Json.isWhole_sortKeys hstorable.isWhole)

/-- An envelope reads back with its fields in order. -/
theorem ofText_envelope (hsummary : (Json.object summary).IsStorable)
    (hpayload : payload.AreStorable) :
    Json.ofText ((envelope clock command summary payload).toSortedText ++ ['\n']) =
      .ok (.object (sortedFields (envelopeFields clock command summary payload))) := by
  have hstorable := areStorable_envelopeFields clock command hsummary hpayload
  have hreadable := hstorable.isReadable (nodup_envelopeFields clock command summary payload)
  exact Json.ofText_toText (Json.isReadable_sortKeys hreadable)
    (Json.isWhole_sortKeys hstorable.isWhole)

end Report

end AsmListing
