import AsmListing.Proofs.LeafFirst

/-! The groups of symbols that reach each other. Each component of the table gives one class of
symbols, and different components give classes without a common symbol; the groups are the classes
of the wanted size in their order. -/
namespace AsmListing

namespace CallGraph

variable {modules : List (LooseText × Text)} {g : CallGraph} {a b : List Text} {group : List Text}
  {minSize : Int} {u v : Text} {l : Nat}

/-- The group has the symbols that some symbol of the graph reaches and is reached by. -/
def IsClass (g : CallGraph) (group : List Text) : Prop :=
  ∃ u ∈ g.symbols, ∀ v, v ∈ group ↔ g.Reaches u v ∧ g.Reaches v u

theorem IsClass.ne_nil (h : g.IsClass group) : group ≠ [] := by
  obtain ⟨u, _, hu⟩ := h
  exact List.ne_nil_of_mem ((hu u).mpr ⟨.refl, .refl⟩)

/-- Each member of a class can stand for it. -/
theorem IsClass.mem_iff (h : g.IsClass group) (hu : u ∈ group) :
    v ∈ group ↔ g.Reaches u v ∧ g.Reaches v u := by
  obtain ⟨w, _, hw⟩ := h
  obtain ⟨hwu, huw⟩ := (hw u).mp hu
  rw [hw]
  constructor
  · rintro ⟨hwv, hvw⟩
    exact ⟨huw.trans hwv, hvw.trans hwu⟩
  · rintro ⟨huv, hvu⟩
    exact ⟨hwu.trans huv, hvu.trans huw⟩

/-- A class of several symbols has an edge from each of them. -/
theorem IsClass.exists_edge (h : g.IsClass group) (hu : u ∈ group) (hv : v ∈ group) (hne : u ≠ v) :
    ∃ w, (u, w) ∈ g.edges := by
  obtain ⟨huv, _⟩ := (h.mem_iff hu).mp hv
  rcases huv.cases_head with heq | ⟨w, hedge, _⟩
  · exact absurd heq hne
  · exact ⟨w, hedge⟩

/-! The classes of the table. -/

/-- The symbols of each component. -/
def classes (g : CallGraph) : List (List Text) :=
  g.reachTable.leaders.map fun l => g.symbolsAt (g.reachTable.component l)

theorem pairwise_of_mem_classes (h : group ∈ g.classes) : group.Pairwise (· < ·) := by
  obtain ⟨l, _, rfl⟩ := List.mem_map.mp h
  exact pairwise_symbolsAt (ReachTable.pairwise_component _ l)

theorem isClass_of_mem_classes (h : group ∈ g.classes) : g.IsClass group := by
  obtain ⟨l, hl, rfl⟩ := List.mem_map.mp h
  obtain ⟨hlt, hhead⟩ := ReachTable.mem_leaders.mp hl
  rw [size_reachTable] at hlt
  have hu := List.getElem?_eq_getElem hlt
  obtain ⟨i, l', hi, hl', hmem, hclass⟩ := exists_component (List.mem_of_getElem? hu)
  obtain rfl := number_unique hi hu
  obtain rfl := (isPreorder_reachTable g).leader_unique hl hl' (List.mem_of_head? hhead) hmem
  exact ⟨_, List.mem_of_getElem? hu, hclass⟩

/-- Different components have no symbol in common. -/
theorem pairwise_disjoint_classes (g : CallGraph) : g.classes.Pairwise List.Disjoint := by
  refine List.pairwise_map.mpr ?_
  refine (List.nodup_iff_pairwise_ne.mp (ReachTable.nodup_leaders _)).imp_of_mem ?_
  intro l l' hl hl' hne u hu hu'
  obtain ⟨i, hi, hiu⟩ := mem_symbolsAt.mp hu
  obtain ⟨i', hi', hiu'⟩ := mem_symbolsAt.mp hu'
  obtain rfl := number_unique hiu hiu'
  exact hne ((isPreorder_reachTable g).leader_unique hl hl' hi hi')

theorem nodup_classes (g : CallGraph) : g.classes.Nodup := by
  refine (pairwise_disjoint_classes g).imp_of_mem ?_
  rintro a b ha _ hdisjoint rfl
  obtain ⟨u, hu⟩ := List.exists_mem_of_ne_nil a (isClass_of_mem_classes ha).ne_nil
  exact hdisjoint hu hu

/-- Every class in order is one of them. -/
theorem mem_classes : group ∈ g.classes ↔ group.Pairwise (· < ·) ∧ g.IsClass group := by
  refine ⟨fun h => ⟨pairwise_of_mem_classes h, isClass_of_mem_classes h⟩, ?_⟩
  rintro ⟨hsorted, u, hu, hmem⟩
  obtain ⟨i, l, _, hl, _, hclass⟩ := exists_component hu
  have hmemclass : g.symbolsAt (g.reachTable.component l) ∈ g.classes := List.mem_map_of_mem hl
  have hsorted' := pairwise_of_mem_classes hmemclass
  have heq : group = g.symbolsAt (g.reachTable.component l) :=
    hsorted.eq_of_mem_iff hsorted' fun v => by rw [hmem, hclass]
  rw [heq]
  exact hmemclass

/-! The order of the groups. -/

/-- Groups are compared by their sizes, larger ones first, and then by their members. -/
def groupKey (group : List Text) : ℕᵒᵈ ×ₗ List Text := toLex (OrderDual.toDual group.length, group)

theorem groupKey_lt_iff : groupKey a < groupKey b ↔
    b.length < a.length ∨ a.length = b.length ∧ a < b := by
  simp [groupKey, Prod.Lex.toLex_lt_toLex]

theorem groupLe_iff : groupLe a b = true ↔ ¬ groupKey b < groupKey a := by
  rw [groupLe, groupKey_lt_iff]
  split
  · next h =>
    rw [lexLe_iff_not_lt fun _ _ => Text.le_iff_not_lt]
    simp [h]
  · next h => simp [Ne.symm h]

/-- The groups are the classes of the wanted size, in order. -/
theorem cycles_eq (g : CallGraph) (minSize : Int) : g.cycles minSize =
    (g.classes.filter fun c => decide (minSize ≤ c.length)).mergeSort groupLe := by
  rw [cycles, ReachTable.components, List.map_map]
  rfl

theorem mem_cycles : group ∈ g.cycles minSize ↔ minSize ≤ group.length ∧ group ∈ g.classes := by
  rw [cycles_eq, List.mem_mergeSort, List.mem_filter, decide_eq_true_eq, and_comm]

theorem pairwise_cycles (g : CallGraph) (minSize : Int) :
    (g.cycles minSize).Pairwise fun a b => groupKey a < groupKey b := by
  rw [cycles_eq]
  refine pairwise_lt_mergeSort (fun _ _ => groupLe_iff) (List.Nodup.map_on ?_ ?_)
  · intro a _ b _ hkey
    exact congrArg (fun key => (ofLex key).2) hkey
  · exact (nodup_classes g).filter _

theorem pairwise_disjoint_cycles (g : CallGraph) (minSize : Int) :
    (g.cycles minSize).Pairwise List.Disjoint := by
  rw [cycles_eq]
  refine ((List.mergeSort_perm _ _).pairwise_iff List.disjoint_symm).mpr ?_
  exact (pairwise_disjoint_classes g).filter _

/-- The groups are the classes of symbols that reach each other, as far as they have the wanted
size. No two of them have a symbol in common, the symbols of each increase, and larger groups come
first, groups of one size in the order of their members. A group of several symbols has defined
symbols only. -/
theorem cycles_are_classes (modules : List (LooseText × Text)) (minSize : Int) :
    (∀ group, group ∈ (ofModules modules).cycles minSize ↔
      minSize ≤ group.length ∧ group.Pairwise (· < ·) ∧
      ∃ u ∈ (ofModules modules).symbols, ∀ v, v ∈ group ↔
        (ofModules modules).Reaches u v ∧ (ofModules modules).Reaches v u) ∧
    ((ofModules modules).cycles minSize).Pairwise List.Disjoint ∧
    ((ofModules modules).cycles minSize).Pairwise (fun a b =>
      b.length < a.length ∨ a.length = b.length ∧ a < b) ∧
    (2 ≤ minSize → ∀ group ∈ (ofModules modules).cycles minSize, ∀ u ∈ group,
      u ∈ (ofModules modules).defined) := by
  refine ⟨fun group => ?_, pairwise_disjoint_cycles _ _, ?_, fun htwo group hgroup u hu => ?_⟩
  · rw [mem_cycles, mem_classes]
    rfl
  · exact (pairwise_cycles _ _).imp groupKey_lt_iff.mp
  · obtain ⟨hsize, hmem⟩ := mem_cycles.mp hgroup
    obtain ⟨hsorted, hclass⟩ := mem_classes.mp hmem
    have hnodup : group.Nodup := hsorted.imp ne_of_lt
    have hseveral : group ≠ [u] := by
      rintro rfl
      simp only [List.length_singleton] at hsize
      omega
    obtain ⟨v, hv, hne⟩ := ((hnodup.ne_singleton_iff u).mp hseveral).resolve_left hclass.ne_nil
    obtain ⟨w, hedge⟩ := hclass.exists_edge hu hv hne.symm
    exact defined_of_mem_edges hedge

end CallGraph

end AsmListing
