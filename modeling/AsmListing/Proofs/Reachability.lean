import AsmListing.Graph.Component
import Mathlib.Data.List.Basic
import Mathlib.Data.Nat.Bitwise
import Mathlib.Logic.Relation

/-! The closure of a table is reachability: whatever it says is a path, and it is transitive since
each node has been allowed on the way, which stays so when other nodes are allowed later. -/
namespace AsmListing

namespace ReachTable

variable {rows : ReachTable} {step : Nat → Nat → Prop} {i j k : Nat} {nodes ks : List Nat}
  {successors : List (List Nat)}

@[simp] theorem testBit_ofNodes : (ofNodes nodes).testBit j = true ↔ j ∈ nodes := by
  have hfold : ∀ set, (nodes.foldl (fun set i => set ||| 1 <<< i) set).testBit j = true ↔
      set.testBit j = true ∨ j ∈ nodes := by
    induction nodes with
    | nil => simp
    | cons i nodes ih =>
      intro set
      rw [List.foldl_cons, ih, Nat.testBit_or, Nat.one_shiftLeft, Nat.testBit_two_pow,
        List.mem_cons, Bool.or_eq_true, decide_eq_true_eq, or_assoc, eq_comm (a := i)]
  simp [ofNodes, hfold]

theorem reaches_of_size_le (h : rows.size ≤ i) : rows.reaches i j = false := by
  simp [reaches, Array.getD, Nat.not_lt.mpr h]

/-- Behind the permission to pass `k` there is a path if there was one, or if there was one to `k`
and one from `k` on. -/
theorem reaches_allow : (allow rows k).reaches i j = true ↔
    rows.reaches i j = true ∨ rows.reaches i k = true ∧ rows.reaches k j = true := by
  by_cases hi : i < rows.size
  · simp only [reaches, allow, Array.getD, hi, Array.size_map, dite_true]
    simp only [Array.getInternal_eq_getElem, Array.getElem_map]
    split
    · next h => simp [h]
    · next h => simp [h]
  · have hsize : (allow rows k).size ≤ i := by simpa [allow] using Nat.not_lt.mp hi
    rw [reaches_of_size_le hsize, reaches_of_size_le (Nat.not_lt.mp hi),
      reaches_of_size_le (Nat.not_lt.mp hi)]
    simp

@[simp] theorem size_allow (rows : ReachTable) (k : Nat) : (allow rows k).size = rows.size := by
  simp [allow]

@[simp] theorem size_foldl_allow (rows : ReachTable) (ks : List Nat) :
    (ks.foldl allow rows).size = rows.size := by
  induction ks generalizing rows with
  | nil => rfl
  | cons k ks ih => rw [List.foldl_cons, ih, size_allow]

/-! What the closure says is a path. -/

/-- The table says nothing that is not a path along `step`. -/
def IsSound (step : Nat → Nat → Prop) (rows : ReachTable) : Prop :=
  ∀ i j, rows.reaches i j = true → Relation.ReflTransGen step i j

theorem IsSound.allow (h : IsSound step rows) (k : Nat) : IsSound step (allow rows k) := by
  intro i j hij
  rcases reaches_allow.mp hij with hij | ⟨hik, hkj⟩
  · exact h i j hij
  · exact (h i k hik).trans (h k j hkj)

theorem IsSound.foldl (h : IsSound step rows) (ks : List Nat) :
    IsSound step (ks.foldl ReachTable.allow rows) := by
  induction ks generalizing rows with
  | nil => exact h
  | cons k ks ih => exact ih (h.allow k)

/-! The closure has every path. -/

/-- The table has all paths that it has in two pieces with `k` between them. -/
def Passes (rows : ReachTable) (k : Nat) : Prop :=
  ∀ i j, rows.reaches i k = true → rows.reaches k j = true → rows.reaches i j = true

theorem passes_allow_self (rows : ReachTable) (k : Nat) : (allow rows k).Passes k := by
  intro i j hik hkj
  rw [reaches_allow] at *
  have hik : rows.reaches i k = true := hik.elim id And.left
  have hkj : rows.reaches k j = true := hkj.elim id And.right
  exact Or.inr ⟨hik, hkj⟩

/-- A node that may be passed may still be passed when another one is allowed. -/
theorem Passes.allow (h : rows.Passes k) (k' : Nat) : (allow rows k').Passes k := by
  intro i j hik hkj
  rw [reaches_allow] at *
  rcases hik with hik | ⟨hik', hk'k⟩
  · rcases hkj with hkj | ⟨hkk', hk'j⟩
    · exact Or.inl (h i j hik hkj)
    · exact Or.inr ⟨h i k' hik hkk', hk'j⟩
  · rcases hkj with hkj | ⟨_, hk'j⟩
    · exact Or.inr ⟨hik', h k' j hk'k hkj⟩
    · exact Or.inr ⟨hik', hk'j⟩

theorem Passes.foldl (h : rows.Passes k) (ks : List Nat) :
    (ks.foldl ReachTable.allow rows).Passes k := by
  induction ks generalizing rows with
  | nil => exact h
  | cons k' ks ih => exact ih (h.allow k')

theorem passes_foldl (rows : ReachTable) (hk : k ∈ ks) : (ks.foldl allow rows).Passes k := by
  induction ks generalizing rows with
  | nil => simp at hk
  | cons k' ks ih =>
    rcases List.mem_cons.mp hk with rfl | hk
    · exact (passes_allow_self rows k).foldl ks
    · exact ih (allow rows k') hk

theorem reaches_foldl (h : rows.reaches i j = true) (ks : List Nat) :
    (ks.foldl allow rows).reaches i j = true := by
  induction ks generalizing rows with
  | nil => exact h
  | cons k ks ih => exact ih (reaches_allow.mpr (Or.inl h))

/-- Nothing leads from a number that is not a node, so every node on the way has been allowed. -/
theorem passes_closure (rows : ReachTable) (k : Nat) : rows.closure.Passes k := by
  by_cases hk : k < rows.size
  · exact passes_foldl rows (List.mem_range.mpr hk)
  · intro i j _ hkj
    have hsize : rows.closure.size ≤ k := by simpa [closure] using Nat.not_lt.mp hk
    rw [reaches_of_size_le hsize] at hkj
    contradiction

/-! The table of a graph. -/

theorem reaches_direct : (direct successors).reaches i j = true ↔
    ∃ next, successors[i]? = some next ∧ (j = i ∨ j ∈ next) := by
  rw [reaches, direct]
  cases hi : successors[i]? with
  | none =>
    have hle : successors.length ≤ i := List.getElem?_eq_none_iff.mp hi
    simp [Array.getD, Nat.not_lt.mpr hle]
  | some next =>
    obtain ⟨hlt, hnext⟩ := List.getElem?_eq_some_iff.mp hi
    simp [Array.getD, hlt, hnext]

@[simp] theorem size_closure_direct (successors : List (List Nat)) :
    (direct successors).closure.size = successors.length := by
  simp [closure, direct]

/-- The closed table of a graph says of each node which nodes it reaches. -/
theorem reaches_closure_direct : (direct successors).closure.reaches i j = true ↔
    i < successors.length ∧
      Relation.ReflTransGen (fun a b => ∃ next, successors[a]? = some next ∧ b ∈ next) i j := by
  constructor
  · intro hij
    have hsound : IsSound (fun a b => ∃ next, successors[a]? = some next ∧ b ∈ next)
        (direct successors) := by
      intro a b hab
      obtain ⟨next, ha, rfl | hb⟩ := reaches_direct.mp hab
      · exact .refl
      · exact .single ⟨next, ha, hb⟩
    refine ⟨?_, hsound.foldl _ i j hij⟩
    by_contra hi
    rw [reaches_of_size_le (by simpa using hi)] at hij
    contradiction
  · rintro ⟨hi, hpath⟩
    induction hpath with
    | refl =>
      exact reaches_foldl (reaches_direct.mpr ⟨_, List.getElem?_eq_getElem hi, Or.inl rfl⟩) _
    | tail _ hstep ih =>
      obtain ⟨next, hb, hc⟩ := hstep
      exact passes_closure _ _ i _ ih
        (reaches_foldl (reaches_direct.mpr ⟨next, hb, Or.inr hc⟩) _)

end ReachTable

end AsmListing
