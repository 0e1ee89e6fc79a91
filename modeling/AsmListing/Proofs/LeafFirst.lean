import AsmListing.Proofs.CallGraph
import AsmListing.Proofs.Component

/-! The leaf-first order of a call graph. The table of the graph is reachability along the edges, so
the groups in the order are the components, and none stands behind a group that reaches it. -/
namespace AsmListing

namespace CallGraph

variable {modules : List (LooseText × Text)} {g : CallGraph} {numbers order : List Nat}
  {u v w name : Text} {i j l : Nat}

/-- There is a path along the edges, or the two symbols are the same. -/
def Reaches (g : CallGraph) : Text → Text → Prop :=
  Relation.ReflTransGen fun a b => (a, b) ∈ g.edges

/-! Symbols and their numbers. -/

theorem pairwise_symbols (g : CallGraph) : g.symbols.Pairwise (· < ·) := Text.pairwise_sortUnique _

theorem number_unique (hi : g.symbols[i]? = some u) (hj : g.symbols[j]? = some u) : i = j := by
  have hnodup : g.symbols.Nodup := (pairwise_symbols g).imp fun h => ne_of_lt h
  exact (List.getElem?_inj (List.getElem?_eq_some_iff.mp hi).1 hnodup).mp (hi.trans hj.symm)

theorem mem_symbols_of_mem_edges (h : (u, v) ∈ g.edges) : v ∈ g.symbols :=
  mem_symbols.mpr (Or.inr ⟨u, h⟩)

theorem mem_symbols_of_reaches (hu : u ∈ g.symbols) (h : g.Reaches u v) : v ∈ g.symbols := by
  cases h with
  | refl => exact hu
  | tail _ hedge => exact mem_symbols_of_mem_edges hedge

/-- The numbers of the symbols that an edge leads to, for each symbol. -/
def successors (g : CallGraph) : List (List Nat) :=
  g.symbols.map fun name => (g.callees name).map g.symbols.idxOf

theorem reachTable_eq (g : CallGraph) :
    g.reachTable = (ReachTable.direct g.successors).closure := rfl

/-- One step in the table is an edge. -/
theorem successors_iff (hi : g.symbols[i]? = some u) :
    (∃ next, g.successors[i]? = some next ∧ j ∈ next) ↔
      ∃ v, g.symbols[j]? = some v ∧ (u, v) ∈ g.edges := by
  rw [successors, List.getElem?_map, hi]
  constructor
  · rintro ⟨_, ⟨⟩, hj⟩
    obtain ⟨v, hv, rfl⟩ := List.mem_map.mp hj
    have hedge := mem_callees.mp hv
    exact ⟨v, List.getElem?_idxOf (mem_symbols_of_mem_edges hedge), hedge⟩
  · rintro ⟨v, hj, hedge⟩
    refine ⟨_, rfl, List.mem_map.mpr ⟨v, mem_callees.mpr hedge, ?_⟩⟩
    exact number_unique (List.getElem?_idxOf (mem_symbols_of_mem_edges hedge)) hj

/-- The table of the graph says which symbols reach which. -/
theorem reaches_reachTable (hi : g.symbols[i]? = some u) :
    g.reachTable.reaches i j = true ↔ ∃ v, g.symbols[j]? = some v ∧ g.Reaches u v := by
  have hlt : i < g.successors.length := by
    simpa [successors] using (List.getElem?_eq_some_iff.mp hi).1
  rw [reachTable_eq, ReachTable.reaches_closure_direct]
  constructor
  · rintro ⟨_, hpath⟩
    induction hpath with
    | refl => exact ⟨u, hi, .refl⟩
    | tail _ hstep ih =>
      obtain ⟨v, hv, hreach⟩ := ih
      obtain ⟨w, hw, hedge⟩ := (successors_iff hv).mp hstep
      exact ⟨w, hw, hreach.tail hedge⟩
  · rintro ⟨v, hj, hreach⟩
    refine ⟨hlt, ?_⟩
    induction hreach generalizing j with
    | refl =>
      rw [number_unique hi hj]
    | tail hreach hedge ih =>
      have hmem := mem_symbols_of_reaches (List.mem_of_getElem? hi) hreach
      have hk := List.getElem?_idxOf hmem
      exact (ih hk).tail ((successors_iff hk).mpr ⟨_, hj, hedge⟩)

theorem reaches_iff (hi : g.symbols[i]? = some u) (hj : g.symbols[j]? = some v) :
    g.reachTable.reaches i j = true ↔ g.Reaches u v := by
  rw [reaches_reachTable hi]
  simp [hj]

theorem size_reachTable (g : CallGraph) : g.reachTable.size = g.symbols.length := by
  simp [reachTable_eq, successors]

theorem isPreorder_reachTable (g : CallGraph) : g.reachTable.IsPreorder :=
  ReachTable.isPreorder_closure_direct g.successors

/-! Groups of symbols. -/

theorem symbolsAt_eq (g : CallGraph) (numbers : List Nat) :
    g.symbolsAt numbers = numbers.filterMap fun i => g.symbols[i]? := by
  simp [symbolsAt]

theorem pairwise_symbolsAt (h : numbers.Pairwise (· < ·)) :
    (g.symbolsAt numbers).Pairwise (· < ·) := by
  rw [symbolsAt_eq, List.pairwise_filterMap]
  refine h.imp ?_
  intro i j hlt u hu v hv
  obtain ⟨hi, rfl⟩ := List.getElem?_eq_some_iff.mp hu
  obtain ⟨hj, rfl⟩ := List.getElem?_eq_some_iff.mp hv
  exact List.pairwise_iff_getElem.mp (pairwise_symbols g) i j hi hj hlt

theorem mem_symbolsAt : v ∈ g.symbolsAt numbers ↔ ∃ j ∈ numbers, g.symbols[j]? = some v := by
  rw [symbolsAt_eq, List.mem_filterMap]

/-- A symbol stands in the component of one leader, with all that reaches it and is reached by it.
-/
theorem exists_component (hu : u ∈ g.symbols) : ∃ i l,
    g.symbols[i]? = some u ∧ l ∈ g.reachTable.leaders ∧ i ∈ g.reachTable.component l ∧
    ∀ v, v ∈ g.symbolsAt (g.reachTable.component l) ↔ g.Reaches u v ∧ g.Reaches v u := by
  have hi := List.getElem?_idxOf hu
  have hpre := isPreorder_reachTable g
  have hlt := (List.getElem?_eq_some_iff.mp hi).1
  rw [← size_reachTable] at hlt
  obtain ⟨l, hl, hmem⟩ := hpre.exists_leader hlt
  refine ⟨_, l, hi, hl, hmem, fun v => ?_⟩
  rw [mem_symbolsAt, ← hpre.component_eq hmem]
  constructor
  · rintro ⟨j, hj, hjv⟩
    obtain ⟨_, hij, hji⟩ := ReachTable.mem_component.mp hj
    exact ⟨(reaches_iff hi hjv).mp hij, (reaches_iff hjv hi).mp hji⟩
  · rintro ⟨huv, hvu⟩
    have hj := List.getElem?_idxOf (mem_symbols_of_reaches hu huv)
    have hjlt := (List.getElem?_eq_some_iff.mp hj).1
    rw [← size_reachTable] at hjlt
    exact ⟨_, ReachTable.mem_component.mpr
      ⟨hjlt, (reaches_iff hi hj).mpr huv, (reaches_iff hj hi).mpr hvu⟩, hj⟩

/-- The defined symbols in the component of a number. -/
def group (g : CallGraph) (l : Nat) : List Text :=
  (g.symbolsAt (g.reachTable.component l)).filter fun name => (g.find? name).isSome

theorem pairwise_group (g : CallGraph) (l : Nat) : (g.group l).Pairwise (· < ·) :=
  (pairwise_symbolsAt (ReachTable.pairwise_component _ l)).filter _

theorem mem_group : v ∈ (ofModules modules).group l ↔ v ∈ (ofModules modules).defined ∧
    ∃ j ∈ (ofModules modules).reachTable.component l,
      (ofModules modules).symbols[j]? = some v := by
  rw [group, List.mem_filter, isSome_find?_iff, mem_symbolsAt, and_comm]

/-- The groups stand in an order of the leaders in which none is above a later one. -/
theorem exists_leafFirst_eq (g : CallGraph) : ∃ order : List Nat,
    g.leafFirst = order.flatMap g.group ∧ order.Perm g.reachTable.leaders ∧
      order.Pairwise fun i j => g.reachTable.above i j = false := by
  obtain ⟨order, heq, hperm, hpair⟩ := (isPreorder_reachTable g).exists_order
  refine ⟨order, ?_, hperm, hpair⟩
  rw [leafFirst, heq, List.flatMap_map, List.filter_flatMap]
  rfl

/-- A defined symbol stands in the group of one leader, with what reaches it and is reached by it.
-/
theorem exists_group (hu : u ∈ (ofModules modules).defined) : ∃ i l,
    (ofModules modules).symbols[i]? = some u ∧ l ∈ (ofModules modules).reachTable.leaders ∧
    i ∈ (ofModules modules).reachTable.component l ∧
    ∀ v, v ∈ (ofModules modules).group l ↔ v ∈ (ofModules modules).defined ∧
      (ofModules modules).Reaches u v ∧ (ofModules modules).Reaches v u := by
  obtain ⟨i, l, hi, hl, hmem, hclass⟩ := exists_component (mem_symbols.mpr (Or.inl hu))
  refine ⟨i, l, hi, hl, hmem, fun v => ?_⟩
  rw [group, List.mem_filter, isSome_find?_iff, hclass, and_comm]

theorem mem_leafFirst : u ∈ (ofModules modules).leafFirst ↔ u ∈ (ofModules modules).defined := by
  obtain ⟨order, heq, hperm, _⟩ := exists_leafFirst_eq (ofModules modules)
  rw [heq, List.mem_flatMap]
  constructor
  · rintro ⟨l, _, hu⟩
    exact (mem_group.mp hu).1
  · intro hu
    obtain ⟨_, l, _, hl, _, hgroup⟩ := exists_group hu
    exact ⟨l, hperm.mem_iff.mpr hl, (hgroup u).mpr ⟨hu, .refl, .refl⟩⟩

theorem nodup_leafFirst (modules : List (LooseText × Text)) :
    (ofModules modules).leafFirst.Nodup := by
  obtain ⟨order, heq, hperm, _⟩ := exists_leafFirst_eq (ofModules modules)
  rw [heq, List.nodup_flatMap]
  refine ⟨fun l _ => (pairwise_group _ l).imp fun h => ne_of_lt h, ?_⟩
  have hnodup := hperm.nodup_iff.mpr (ReachTable.nodup_leaders _)
  refine (List.nodup_iff_pairwise_ne.mp hnodup).imp_of_mem ?_
  intro l l' hl hl' hne u hu hu'
  obtain ⟨_, i, hi, hiu⟩ := mem_group.mp hu
  obtain ⟨_, i', hi', hiu'⟩ := mem_group.mp hu'
  obtain rfl := number_unique hiu hiu'
  exact hne ((isPreorder_reachTable _).leader_unique (hperm.mem_iff.mp hl)
    (hperm.mem_iff.mp hl') hi hi')

/-- What is reached, but does not reach back, stands in front. -/
theorem sublist_leafFirst (hu : u ∈ (ofModules modules).defined)
    (hv : v ∈ (ofModules modules).defined) (huv : (ofModules modules).Reaches u v)
    (hvu : ¬ (ofModules modules).Reaches v u) : [v, u].Sublist (ofModules modules).leafFirst := by
  obtain ⟨order, heq, hperm, hpair⟩ := exists_leafFirst_eq (ofModules modules)
  obtain ⟨i, l, hi, hl, hil, hgroup⟩ := exists_group hu
  obtain ⟨j, m, hj, hm, hjm, hgroup'⟩ := exists_group hv
  have hpre := isPreorder_reachTable (ofModules modules)
  have hu' : u ∈ (ofModules modules).group l := (hgroup u).mpr ⟨hu, .refl, .refl⟩
  have hv' : v ∈ (ofModules modules).group m := (hgroup' v).mpr ⟨hv, .refl, .refl⟩
  have hab : (ofModules modules).reachTable.above l m = true := by
    obtain ⟨_, hli, hil⟩ := ReachTable.mem_component.mp hil
    obtain ⟨_, hmj, hjm⟩ := ReachTable.mem_component.mp hjm
    have hij := (reaches_iff hi hj).mpr huv
    refine ReachTable.above_iff.mpr ⟨hpre.trans l i m hli (hpre.trans i j m hij hjm), ?_⟩
    by_contra hml
    have hji := hpre.trans j m i hjm (hpre.trans m l i (by simpa using hml) hli)
    exact hvu ((reaches_iff hj hi).mp hji)
  -- the leader of `u` is above that of `v`, so it does not stand in front of it
  obtain ⟨front, rear, rfl⟩ := List.append_of_mem (hperm.mem_iff.mpr hm)
  have hrear : l ∈ rear := by
    rcases List.mem_append.mp (hperm.mem_iff.mpr hl) with hfront | hcons
    · have hno := (List.pairwise_append.mp hpair).2.2 l hfront m List.mem_cons_self
      rw [hab] at hno
      contradiction
    · refine (List.mem_cons.mp hcons).resolve_left ?_
      rintro rfl
      simp [ReachTable.above] at hab
  rw [heq, List.flatMap_append, List.flatMap_cons]
  refine List.Sublist.trans ?_ (List.sublist_append_right _ _)
  exact (List.singleton_sublist.mpr hv').append
    (List.singleton_sublist.mpr (List.mem_flatMap.mpr ⟨l, hrear, hu'⟩))

/-- The order lists each defined symbol once, and no other symbol. The defined symbols that reach
each other stand together, in order of their names, and a symbol stands behind each one that it
reaches and that does not reach it. -/
theorem leafFirst_orders_components (modules : List (LooseText × Text)) :
    (ofModules modules).leafFirst.Nodup ∧
    (∀ u, u ∈ (ofModules modules).leafFirst ↔ u ∈ (ofModules modules).defined) ∧
    (∀ u ∈ (ofModules modules).defined, ∃ before group behind,
      (ofModules modules).leafFirst = before ++ (group ++ behind) ∧ group.Pairwise (· < ·) ∧
      ∀ v, v ∈ group ↔ v ∈ (ofModules modules).defined ∧
        (ofModules modules).Reaches u v ∧ (ofModules modules).Reaches v u) ∧
    ∀ u ∈ (ofModules modules).defined, ∀ v ∈ (ofModules modules).defined,
      (ofModules modules).Reaches u v → ¬ (ofModules modules).Reaches v u →
      [v, u].Sublist (ofModules modules).leafFirst := by
  refine ⟨nodup_leafFirst modules, fun u => mem_leafFirst, fun u hu => ?_,
    fun u hu v hv => sublist_leafFirst hu hv⟩
  obtain ⟨order, heq, hperm, _⟩ := exists_leafFirst_eq (ofModules modules)
  obtain ⟨_, l, _, hl, _, hgroup⟩ := exists_group hu
  obtain ⟨front, rear, rfl⟩ := List.append_of_mem (hperm.mem_iff.mpr hl)
  rw [List.flatMap_append, List.flatMap_cons] at heq
  exact ⟨_, _, _, heq, pairwise_group _ l, hgroup⟩

end CallGraph

end AsmListing
