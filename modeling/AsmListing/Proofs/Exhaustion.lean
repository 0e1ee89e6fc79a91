import AsmListing.Proofs.Remainder

/-! Removals come to an end. A removal may leave a longer text, as gaps between lines may grow, and
other routines may come to light where it was cut. But whatever goes begins with a line that is
longer than the name, so the characters that are no line breaks get fewer each time. -/
namespace AsmListing.Text

variable {t u name : Text} {names : List Text}

/-- The names that are removed when each one is looked for in turn, and the text that is left. A
name that is not found changes nothing. -/
def removeEach (t : Text) : List Text → List Text × Text
  | [] => ([], t)
  | name :: names =>
    match t.removeRoutine? name with
    | some u => (name :: (removeEach u names).1, (removeEach u names).2)
    | none => removeEach t names

theorem removeRoutine?_eq_none_iff :
    t.removeRoutine? name = none ↔ (Listing.ofText t).span? name = none := by
  rw [removeRoutine?, Option.map_eq_none_iff]
  cases hspan : (Listing.ofText t).span? name with
  | none => simp [Removal.plan?_eq_none hspan]
  | some sp => simp [Removal.plan?_eq hspan]

/-- One removal. -/
theorem length_solid_of_removeRoutine? (h : t.removeRoutine? name = some u) :
    u.solid.length + (name.length + 1) ≤ t.solid.length := by
  obtain ⟨r, hr, rfl⟩ := Option.map_eq_some_iff.mp h
  exact Removal.length_solid_text_add_lt hr

/-- A run of removals, of which some may fail: what goes and what is left. -/
theorem length_solid_removeEach (t : Text) (names : List Text) :
    (t.removeEach names).1.length + (t.removeEach names).1.flatten.length +
      (t.removeEach names).2.solid.length ≤ t.solid.length := by
  induction names generalizing t with
  | nil => simp [removeEach]
  | cons name names ih =>
    cases h : t.removeRoutine? name with
    | none => simpa only [removeEach, h] using ih t
    | some u =>
      have hstep := length_solid_of_removeRoutine? h
      have hrest := ih u
      simp only [removeEach, h, List.length_cons, List.flatten_cons, List.length_append]
      omega

theorem foldlM_removeEach (t : Text) (names : List Text) :
    (t.removeEach names).1.foldlM removeRoutine? t = some (t.removeEach names).2 := by
  induction names generalizing t with
  | nil => rfl
  | cons name names ih =>
    cases h : t.removeRoutine? name with
    | none => simpa only [removeEach, h] using ih t
    | some u =>
      rw [removeEach, h, List.foldlM_cons, h]
      exact ih u

/-- A name can be removed until it is not found. -/
theorem exists_foldlM_replicate (t name : Text) :
    ∃ n u, n * (name.length + 1) + u.solid.length ≤ t.solid.length ∧
      (List.replicate n name).foldlM removeRoutine? t = some u ∧ u.removeRoutine? name = none := by
  induction hlength : t.solid.length using Nat.strongRecOn generalizing t with
  | ind m ih =>
    cases h : t.removeRoutine? name with
    | none => exact ⟨0, t, by omega, rfl, h⟩
    | some u =>
      have hstep := length_solid_of_removeRoutine? h
      obtain ⟨n, v, hle, hrun, hnone⟩ := ih u.solid.length (by omega) u rfl
      refine ⟨n + 1, v, ?_, ?_, hnone⟩
      · rw [Nat.succ_mul]
        omega
      · rw [List.replicate_succ, List.foldlM_cons, h]
        exact hrun

/-- Removals come to an end. Each one takes more characters that are no line breaks out of the text
than its name has. So of any names that are looked for in turn, no more are removed than the text
has such characters; and a name that is removed again and again is not found some time. -/
theorem removals_end (t : Text) :
    (∀ name u, t.removeRoutine? name = some u →
      u.solid.length + (name.length + 1) ≤ t.solid.length) ∧
    (∀ names, (t.removeEach names).1.length ≤ t.solid.length ∧
      (t.removeEach names).1.foldlM removeRoutine? t = some (t.removeEach names).2) ∧
    ∀ name, ∃ n u, n * (name.length + 1) ≤ t.solid.length ∧
      (List.replicate n name).foldlM removeRoutine? t = some u ∧
      u.removeRoutine? name = none ∧ (Listing.ofText u).span? name = none := by
  refine ⟨fun name u h => length_solid_of_removeRoutine? h, fun names => ?_, fun name => ?_⟩
  · refine ⟨?_, foldlM_removeEach t names⟩
    have hrun := length_solid_removeEach t names
    omega
  · obtain ⟨n, u, hle, hrun, hnone⟩ := exists_foldlM_replicate t name
    exact ⟨n, u, by omega, hrun, hnone, removeRoutine?_eq_none_iff.mp hnone⟩

/-- Three gaps grow by more than the label that goes. -/
example : removeRoutine? "f:\nglabel g\r\n\na\r\n\na\r\n\na" "f" =
    some "\nglabel g\r\n\r\na\r\n\r\na\r\n\r\na".toList := by
  decide +kernel

end AsmListing.Text
