import AsmListing.Graph.Component
import AsmListing.Proofs.Reachability
import Mathlib.Data.List.Nodup
import Mathlib.Data.List.Perm.Basic

/-! Components of a closed table. Each node is in the component of exactly one leader. Being above is
a strict order, so among any remaining leaders there is one that none of them is above, and the order
by taking such leaders never gets stuck. -/
namespace AsmListing

namespace ReachTable

variable {rows : ReachTable} {i j k l l' n : Nat} {remaining : List Nat}

/-- Every node reaches itself, and paths join. -/
structure IsPreorder (rows : ReachTable) : Prop where
  refl : ∀ i < rows.size, rows.reaches i i = true
  trans : ∀ i k j, rows.reaches i k = true → rows.reaches k j = true → rows.reaches i j = true

theorem isPreorder_closure_direct (successors : List (List Nat)) :
    (direct successors).closure.IsPreorder :=
  ⟨fun _ hi => reaches_closure_direct.mpr ⟨by simpa using hi, .refl⟩,
    fun i k j hik hkj => passes_closure _ k i j hik hkj⟩

/-! Components and their leaders. -/

theorem together_iff : rows.together i j = true ↔
    rows.reaches i j = true ∧ rows.reaches j i = true := by
  rw [together, Bool.and_eq_true]

theorem mem_component : j ∈ rows.component i ↔
    j < rows.size ∧ rows.reaches i j = true ∧ rows.reaches j i = true := by
  rw [component, List.mem_filter, List.mem_range, together_iff]

theorem pairwise_component (rows : ReachTable) (i : Nat) :
    (rows.component i).Pairwise (· < ·) :=
  List.pairwise_lt_range.filter _

theorem mem_leaders : l ∈ rows.leaders ↔ l < rows.size ∧ (rows.component l).head? = some l := by
  simp [leaders]

theorem above_iff : rows.above i j = true ↔ rows.reaches i j = true ∧ rows.reaches j i = false := by
  rw [above, Bool.and_eq_true, Bool.not_eq_true']

theorem nodup_leaders (rows : ReachTable) : rows.leaders.Nodup := List.nodup_range.filter _

namespace IsPreorder

variable (h : rows.IsPreorder)
include h

/-- Nodes that reach each other have the same component. -/
theorem component_eq (hj : j ∈ rows.component i) : rows.component j = rows.component i := by
  obtain ⟨_, hij, hji⟩ := mem_component.mp hj
  refine List.filter_congr fun k _ => ?_
  rw [Bool.eq_iff_iff, together_iff, together_iff]
  constructor
  · rintro ⟨hjk, hkj⟩
    exact ⟨h.trans i j k hij hjk, h.trans k j i hkj hji⟩
  · rintro ⟨hik, hki⟩
    exact ⟨h.trans j i k hji hik, h.trans k i j hki hij⟩

theorem exists_leader (hi : i < rows.size) : ∃ l ∈ rows.leaders, i ∈ rows.component l := by
  have hself : i ∈ rows.component i := mem_component.mpr ⟨hi, h.refl i hi, h.refl i hi⟩
  obtain ⟨l, hl⟩ := Option.ne_none_iff_exists'.mp
    (mt List.head?_eq_none_iff.mp (List.ne_nil_of_mem hself))
  have hmem : l ∈ rows.component i := List.mem_of_head? hl
  have heq := h.component_eq hmem
  exact ⟨l, mem_leaders.mpr ⟨(mem_component.mp hmem).1, heq ▸ hl⟩, heq ▸ hself⟩

theorem leader_unique (hl : l ∈ rows.leaders) (hl' : l' ∈ rows.leaders)
    (hi : i ∈ rows.component l) (hi' : i ∈ rows.component l') : l = l' := by
  have heq : rows.component l = rows.component l' :=
    (h.component_eq hi).symm.trans (h.component_eq hi')
  have hhead := (mem_leaders.mp hl).2
  rw [heq, (mem_leaders.mp hl').2] at hhead
  exact (Option.some.inj hhead).symm

/-! The order of the leaders. -/

theorem above_trans (hij : rows.above i j = true) (hjk : rows.above j k = true) :
    rows.above i k = true := by
  rw [above_iff] at *
  refine ⟨h.trans i j k hij.1 hjk.1, ?_⟩
  by_contra hki
  rw [h.trans k i j (by simpa using hki) hij.1] at hjk
  exact Bool.noConfusion hjk.2

/-- Some remaining node has none of the others above it. -/
theorem exists_root (hne : remaining ≠ []) :
    ∃ i ∈ remaining, ∀ j ∈ remaining, rows.above j i = false := by
  have irrefl (i : Nat) : rows.above i i = false := by simp [above]
  induction remaining with
  | nil => exact absurd rfl hne
  | cons a remaining ih =>
    by_cases hrest : remaining = []
    · exact ⟨a, by simp, by simp [hrest, irrefl]⟩
    · obtain ⟨i, hi, hroot⟩ := ih hrest
      cases hai : rows.above a i with
      | false => exact ⟨i, List.mem_cons_of_mem a hi, List.forall_mem_cons.mpr ⟨hai, hroot⟩⟩
      | true =>
        refine ⟨a, List.mem_cons_self, List.forall_mem_cons.mpr ⟨irrefl a, fun j hj => ?_⟩⟩
        by_contra hja
        have hji := h.above_trans (by simpa using hja) hai
        rw [hroot j hj] at hji
        contradiction

/-- One step takes a node that none of the remaining ones is above. -/
theorem rootsFirst_succ (hne : remaining ≠ []) (hn : remaining.length ≤ n + 1) :
    ∃ i ∈ remaining, (∀ j ∈ remaining, rows.above j i = false) ∧ (remaining.erase i).length ≤ n ∧
      rows.rootsFirst (n + 1) remaining = i :: rows.rootsFirst n (remaining.erase i) := by
  have hsome : (remaining.find? fun i => remaining.all fun j => !rows.above j i).isSome := by
    obtain ⟨i, hi, hroot⟩ := h.exists_root hne
    exact List.find?_isSome.mpr ⟨i, hi, by simpa using hroot⟩
  obtain ⟨i, hfind⟩ := Option.isSome_iff_exists.mp hsome
  have hroot := List.find?_some hfind
  have hi := List.mem_of_find?_eq_some hfind
  refine ⟨i, hi, by simpa using hroot, ?_, by rw [rootsFirst, hfind]⟩
  rw [List.length_erase_of_mem hi]
  omega

/-- No node is left out. -/
theorem rootsFirst_perm (hn : remaining.length ≤ n) :
    (rows.rootsFirst n remaining).Perm remaining := by
  induction n generalizing remaining with
  | zero =>
    rw [List.eq_nil_of_length_eq_zero (Nat.le_zero.mp hn)]
    exact .refl []
  | succ n ih =>
    by_cases hne : remaining = []
    · simp [hne, rootsFirst]
    · obtain ⟨i, hi, _, hlen, hstep⟩ := h.rootsFirst_succ hne hn
      rw [hstep]
      exact ((ih hlen).cons i).trans (List.perm_cons_erase hi).symm

/-- No later node is above an earlier one. -/
theorem pairwise_rootsFirst (hn : remaining.length ≤ n) :
    (rows.rootsFirst n remaining).Pairwise fun i j => rows.above j i = false := by
  induction n generalizing remaining with
  | zero => exact .nil
  | succ n ih =>
    by_cases hne : remaining = []
    · simp [hne, rootsFirst]
    · obtain ⟨i, _, hroot, hlen, hstep⟩ := h.rootsFirst_succ hne hn
      rw [hstep, List.pairwise_cons]
      refine ⟨fun j hj => hroot j ?_, ih hlen⟩
      exact List.mem_of_mem_erase ((h.rootsFirst_perm hlen).mem_iff.mp hj)

/-- The leaders stand in an order such that no earlier one is above a later one. -/
theorem exists_order : ∃ order : List Nat, rows.leafFirst = order.map rows.component ∧
    order.Perm rows.leaders ∧ order.Pairwise fun i j => rows.above i j = false :=
  ⟨_, rfl, (List.reverse_perm _).trans (h.rootsFirst_perm (Nat.le_refl _)),
    List.pairwise_reverse.mpr (h.pairwise_rootsFirst (Nat.le_refl _))⟩

end IsPreorder

end ReachTable

end AsmListing
