import AsmListing.Json.Basic
import Mathlib.Data.List.Basic

/-! Fields of an object. Putting a field changes the value of its key alone, and keeps the places of
the keys. Fields with distinct keys that are put into others one by one, updates last, make the same
object whether the updates are put into them before or after. -/
namespace AsmListing

namespace Fields

variable {fields updates : Fields} {key k : LooseText} {value v : Json}

theorem get?_cons (k' : LooseText) (v : Json) (fields : Fields) (k : LooseText) :
    get? ((k', v) :: fields) k = if k = k' then some v else fields.get? k := by
  rw [get?, List.lookup_cons]
  split
  · next h => rw [if_pos (by simpa using h)]
  · next h => rw [if_neg (by simpa using h), get?]

theorem get?_put (fields : Fields) (key : LooseText) (value : Json) (k : LooseText) :
    (fields.put key value).get? k = if k = key then some value else fields.get? k := by
  induction fields with
  | nil => exact get?_cons key value [] k
  | cons e fields ih =>
    obtain ⟨k', v'⟩ := e
    rw [put, get?_cons]
    by_cases hkey : k' = key
    · rw [if_pos hkey, get?_cons, hkey]
      by_cases hk : k = key <;> simp [hk]
    · rw [if_neg hkey, get?_cons, ih]
      by_cases hk : k = k' <;> simp [hk, hkey]

theorem mem_put (h : (k, v) ∈ fields.put key value) : (k, v) ∈ fields ∨ (k = key ∧ v = value) := by
  induction fields with
  | nil => simpa [put] using h
  | cons e fields ih =>
    obtain ⟨k', v'⟩ := e
    rw [put] at h
    split at h
    · rcases List.mem_cons.mp h with heq | hmem
      · exact Or.inr (Prod.mk.inj heq)
      · exact Or.inl (List.mem_cons_of_mem _ hmem)
    · rcases List.mem_cons.mp h with heq | hmem
      · exact Or.inl (heq ▸ List.mem_cons_self)
      · exact (ih hmem).imp_left (List.mem_cons_of_mem _)

theorem mem_putAll (h : (k, v) ∈ fields.putAll updates) : (k, v) ∈ fields ∨ (k, v) ∈ updates := by
  induction updates generalizing fields with
  | nil => exact Or.inl h
  | cons e updates ih =>
    rcases ih h with hput | hmem
    · rcases mem_put hput with hmem | ⟨rfl, rfl⟩
      · exact Or.inl hmem
      · exact Or.inr List.mem_cons_self
    · exact Or.inr (List.mem_cons_of_mem _ hmem)

/-! Keys and their places. -/

theorem keys_put (fields : Fields) (key : LooseText) (value : Json) :
    (fields.put key value).keys =
      if key ∈ fields.keys then fields.keys else fields.keys ++ [key] := by
  induction fields with
  | nil => rfl
  | cons e fields ih =>
    obtain ⟨k', v'⟩ := e
    by_cases hkey : k' = key
    · simp [put, keys, hkey]
    · have hne : key ≠ k' := Ne.symm hkey
      rw [put, if_neg hkey]
      simp only [keys, List.map_cons, List.mem_cons, hne, false_or] at ih ⊢
      rw [ih]
      by_cases hmem : key ∈ fields.map Prod.fst <;> simp [hmem]

theorem nodup_put (h : fields.keys.Nodup) (key : LooseText) (value : Json) :
    (fields.put key value).keys.Nodup := by
  rw [keys_put]
  split
  · exact h
  · next hno => exact (List.perm_append_singleton key _).nodup_iff.mpr (List.nodup_cons.mpr ⟨hno, h⟩)

theorem nodup_putAll (h : fields.keys.Nodup) (updates : Fields) :
    (fields.putAll updates).keys.Nodup := by
  induction updates generalizing fields with
  | nil => exact h
  | cons e updates ih => exact ih (nodup_put h e.1 e.2)

/-- A new key comes last. -/
theorem put_of_not_mem (h : key ∉ fields.keys) (value : Json) :
    fields.put key value = fields ++ [(key, value)] := by
  induction fields with
  | nil => rfl
  | cons e fields ih =>
    rw [keys, List.map_cons, List.mem_cons, not_or] at h
    rw [put, if_neg (Ne.symm h.1), ih h.2, List.cons_append]

theorem not_mem_of_nodup {rest : Fields} (h : (keys (fields ++ (key, value) :: rest)).Nodup) :
    key ∉ fields.keys := by
  rw [keys, List.map_append, List.map_cons, List.nodup_append] at h
  intro hmem
  exact h.2.2 key hmem key List.mem_cons_self rfl

theorem putAll_cons (fields : Fields) (key : LooseText) (value : Json) (updates : Fields) :
    fields.putAll ((key, value) :: updates) = (fields.put key value).putAll updates := rfl

/-- Keys that are there keep their places, and new ones follow in their order. -/
theorem keys_putAll (fields updates : Fields) : (fields.putAll updates).keys =
    fields.keys ++ (updates.keys.filter fun k => decide (k ∉ fields.keys)).eraseDups := by
  induction updates generalizing fields with
  | nil => simp [putAll, keys]
  | cons e updates ih =>
    obtain ⟨k, v⟩ := e
    have hkeys : keys ((k, v) :: updates) = k :: keys updates := rfl
    rw [putAll_cons, ih, keys_put, hkeys]
    by_cases hmem : k ∈ fields.keys
    · simp [hmem]
    · simp only [hmem, if_false, List.append_assoc, List.filter_cons, not_false_eq_true,
        decide_true, if_true, List.eraseDups_cons, List.filter_filter, List.cons_append,
        List.nil_append, List.mem_append, List.mem_singleton, not_or]
      congr 4
      funext k'
      by_cases hk : k' = k <;> simp [hk]

theorem get?_append (fields more : Fields) (k : LooseText) :
    get? (fields ++ more) k = (fields.get? k).or (more.get? k) := by
  induction fields with
  | nil => rfl
  | cons e fields ih =>
    rw [List.cons_append, get?_cons, get?_cons, ih]
    split <;> rfl

/-- Of several updates with one key the last one counts. -/
theorem get?_putAll (fields updates : Fields) (k : LooseText) :
    (fields.putAll updates).get? k = (get? updates.reverse k).or (fields.get? k) := by
  induction updates generalizing fields with
  | nil => rfl
  | cons e updates ih =>
    obtain ⟨k', v⟩ := e
    rw [putAll_cons, ih, get?_put, List.reverse_cons, get?_append, get?_cons, Option.or_assoc]
    split <;> rfl

theorem get?_eq_none_iff : fields.get? k = none ↔ k ∉ fields.keys := by
  induction fields with
  | nil => simp [get?, keys]
  | cons e fields ih =>
    rw [get?_cons, keys, List.map_cons, List.mem_cons, not_or]
    by_cases hk : k = e.1 <;> simp [hk, ih, keys]

theorem get?_eq_some_iff (h : fields.keys.Nodup) : fields.get? k = some v ↔ (k, v) ∈ fields := by
  induction fields with
  | nil => simp [get?]
  | cons e fields ih =>
    obtain ⟨k', v'⟩ := e
    rw [keys, List.map_cons, List.nodup_cons] at h
    rw [get?_cons, List.mem_cons, Prod.mk.injEq]
    by_cases hk : k = k'
    · subst hk
      have hno : (k, v) ∉ fields := fun hmem => h.1 (List.mem_map.mpr ⟨_, hmem, rfl⟩)
      simp [hno, eq_comm]
    · simp [hk, ih h.2]

/-- Where keys are distinct, their order does not matter. -/
theorem get?_of_perm {fields' : Fields} (hnodup : fields.keys.Nodup) (h : fields.Perm fields')
    (k : LooseText) : fields'.get? k = fields.get? k := by
  have hnodup' : fields'.keys.Nodup := (h.map Prod.fst).nodup_iff.mp hnodup
  ext v
  rw [get?_eq_some_iff hnodup, get?_eq_some_iff hnodup', h.mem_iff]

theorem get?_map (f : Json → Json) (fields : Fields) (k : LooseText) :
    get? (fields.map fun e => (e.1, f e.2)) k = (fields.get? k).map f := by
  induction fields with
  | nil => rfl
  | cons e fields ih =>
    rw [List.map_cons, get?_cons, get?_cons, ih]
    split <;> rfl

/-- Fields with the same distinct keys and the same values are the same. -/
theorem ext_of_keys {fields' : Fields} (hnodup : fields.keys.Nodup)
    (hkeys : fields'.keys = fields.keys) (h : ∀ k, fields'.get? k = fields.get? k) :
    fields' = fields := by
  induction fields generalizing fields' with
  | nil => simpa [keys] using hkeys
  | cons e fields ih =>
    cases fields' with
    | nil => simp [keys] at hkeys
    | cons e' fields' =>
      obtain ⟨k, v⟩ := e
      obtain ⟨k', v'⟩ := e'
      rw [keys, keys, List.map_cons, List.map_cons, List.cons.injEq] at hkeys
      obtain ⟨rfl, hkeys⟩ := hkeys
      rw [keys, List.map_cons, List.nodup_cons] at hnodup
      have hv : v' = v := by simpa [get?_cons] using h k'
      have hrest : fields' = fields := by
        refine ih hnodup.2 hkeys fun k => ?_
        by_cases hk : k = k'
        · subst hk
          have hno : k ∉ fields'.map Prod.fst := hkeys ▸ hnodup.1
          rw [get?_eq_none_iff.mpr hnodup.1, get?_eq_none_iff.mpr hno]
        · simpa [get?_cons, hk] using h k
      rw [hv, hrest]

/-! Merging. -/

theorem put_put (fields : Fields) (key : LooseText) (v value : Json) :
    (fields.put key v).put key value = fields.put key value := by
  induction fields with
  | nil => simp [put]
  | cons e fields ih =>
    obtain ⟨k', v'⟩ := e
    by_cases hkey : k' = key <;> simp [put, hkey, ih]

theorem mem_keys_put (key k : LooseText) (v : Json) :
    key ∈ (fields.put k v).keys ↔ key ∈ fields.keys ∨ key = k := by
  rw [keys_put]
  split
  · next hk => exact ⟨Or.inl, fun h => h.elim id fun heq => heq ▸ hk⟩
  · rw [List.mem_append, List.mem_singleton]

/-- The value of a key that is there may be changed before another field is put or after that. -/
theorem put_comm (hmem : key ∈ fields.keys) (hne : k ≠ key) (value v : Json) :
    (fields.put k v).put key value = (fields.put key value).put k v := by
  induction fields with
  | nil => cases hmem
  | cons e fields ih =>
    obtain ⟨k', v'⟩ := e
    by_cases hk : k' = k
    · subst hk
      simp [put, hne]
    · by_cases hkey : k' = key
      · subst hkey
        simp [put, hk]
      · have hmem' : key ∈ keys fields := by
          simpa [keys, Ne.symm hkey] using hmem
        simp [put, hk, hkey, ih hmem']

theorem put_putAll {middle : Fields} (hmem : key ∈ fields.keys) (hno : key ∉ middle.keys)
    (value : Json) :
    (fields.putAll middle).put key value = (fields.put key value).putAll middle := by
  induction middle generalizing fields with
  | nil => rfl
  | cons e middle ih =>
    obtain ⟨k, v⟩ := e
    rw [keys, List.map_cons, List.mem_cons, not_or] at hno
    rw [putAll_cons, putAll_cons, ih ((mem_keys_put key k v).mpr (Or.inl hmem)) hno.2,
      put_comm hmem (Ne.symm hno.1)]

theorem putAll_put {middle : Fields} (h : middle.keys.Nodup) (fields : Fields) (key : LooseText)
    (value : Json) :
    fields.putAll (middle.put key value) = (fields.putAll middle).put key value := by
  induction middle generalizing fields with
  | nil => rfl
  | cons e middle ih =>
    obtain ⟨k', v'⟩ := e
    rw [keys, List.map_cons, List.nodup_cons] at h
    rw [putAll_cons, put]
    split
    · next hkey =>
      subst hkey
      have hmem : k' ∈ (fields.put k' v').keys := (mem_keys_put k' k' v').mpr (Or.inr rfl)
      rw [putAll_cons, put_putAll hmem h.1, put_put]
    · rw [putAll_cons, ih h.2]

/-- Fields may be put into others after their updates or before these. -/
theorem putAll_putAll {middle : Fields} (h : middle.keys.Nodup) (fields updates : Fields) :
    fields.putAll (middle.putAll updates) = (fields.putAll middle).putAll updates := by
  induction updates generalizing middle with
  | nil => rfl
  | cons e updates ih =>
    obtain ⟨k, v⟩ := e
    rw [putAll_cons, putAll_cons, ih (nodup_put h k v), putAll_put h]

theorem mem_keys_putAll (h : k ∈ updates.keys) : k ∈ (fields.putAll updates).keys := by
  rw [keys_putAll, List.mem_append, List.mem_eraseDups, List.mem_filter, decide_eq_true_eq]
  by_cases hk : k ∈ fields.keys
  · exact Or.inl hk
  · exact Or.inr ⟨h, hk⟩

/-- Updates that have been made once change nothing when they are made again. -/
theorem putAll_putAll_self (h : fields.keys.Nodup) (updates : Fields) :
    (fields.putAll updates).putAll updates = fields.putAll updates := by
  refine ext_of_keys (nodup_putAll h updates) ?_ fun k => ?_
  · have hnone : (updates.keys.filter fun k => decide (k ∉ (fields.putAll updates).keys)) = [] := by
      refine List.filter_eq_nil_iff.mpr fun k hk => ?_
      simpa using mem_keys_putAll hk
    rw [keys_putAll, hnone, List.eraseDups_nil, List.append_nil]
  · rw [get?_putAll, get?_putAll, ← Option.or_assoc, Option.or_self]

end Fields

end AsmListing
