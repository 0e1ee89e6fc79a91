import AsmListing.Graph.CallGraph
import AsmListing.Proofs.Agreement
import AsmListing.Proofs.LooseText
import Mathlib.Data.Prod.Lex

/-! What stands in the call graph of a set of modules: the routines of all catalogs by module and
line, the definition of each name, and an edge for each reference of a routine to another symbol. -/
namespace AsmListing

/-- A place stands before another one if its module does, or in the same module its line. -/
def Before (a b : LooseText × Nat) : Prop := a.1 < b.1 ∨ a.1 = b.1 ∧ a.2 < b.2

/-- The definition lists the places of all routines with its name, in order, and has the module and
the lines of the first one. -/
structure Definition.Records (f : Definition) (modules : List (LooseText × Text)) : Prop where
  sorted : f.locations.Pairwise Before
  locations : ∀ path line, (path, line) ∈ f.locations ↔ ∃ text, (path, text) ∈ modules ∧
    ∃ r ∈ (Listing.ofText text).routines, r.name = f.name ∧ r.span.first = line
  first : f.locations.head? = some (f.module, f.span.first)
  lines : ∃ text, (f.module, text) ∈ modules ∧
    ∃ r ∈ (Listing.ofText text).routines, r.name = f.name ∧ r.span = f.span

namespace CallGraph

variable {modules other : List (LooseText × Text)} {routines : List (LooseText × Routine)}
  {r : Routine} {g : CallGraph} {f : Definition} {path : LooseText} {name u v n : Text}
  {a b : Text × Text}

/-! The routines of all modules. -/

theorem mem_located : (path, r) ∈ located modules ↔
    ∃ text, (path, text) ∈ modules ∧ r ∈ (Listing.ofText text).routines := by
  rw [located, List.mem_flatMap]
  constructor
  · rintro ⟨⟨p, text⟩, hm, hr⟩
    obtain ⟨r', hr', ⟨⟩⟩ := List.mem_map.mp hr
    exact ⟨text, List.mem_mergeSort.mp hm, hr'⟩
  · rintro ⟨text, hm, hr⟩
    exact ⟨(path, text), List.mem_mergeSort.mpr hm, List.mem_map_of_mem hr⟩

theorem pairwise_sorted_modules (h : (modules.map Prod.fst).Nodup) :
    (modules.mergeSort fun a b => LooseText.le a.1 b.1).Pairwise fun a b => a.1 < b.1 :=
  pairwise_lt_mergeSort (fun _ _ => LooseText.le_iff_not_lt) h

/-- The routines are listed by module, and in a module by line. -/
theorem pairwise_located (h : (modules.map Prod.fst).Nodup) :
    (located modules).Pairwise fun x y => Before (x.1, x.2.span.first) (y.1, y.2.span.first) := by
  refine List.pairwise_flatMap.mpr ⟨fun m _ => ?_, (pairwise_sorted_modules h).imp ?_⟩
  · refine List.pairwise_map.mpr ?_
    refine (Listing.pairwise_routines _).imp_of_mem fun {r r'} hr _ hlt => Or.inr ⟨rfl, ?_⟩
    exact Nat.lt_of_le_of_lt (Listing.first_le_last_of_mem_routines hr) hlt
  · intro m m' hlt x hx y hy
    obtain ⟨r, _, rfl⟩ := List.mem_map.mp hx
    obtain ⟨r', _, rfl⟩ := List.mem_map.mp hy
    exact Or.inl hlt

/-- The order in which the modules are given does not matter. -/
theorem located_perm (h : (modules.map Prod.fst).Nodup) (hperm : other.Perm modules) :
    located other = located modules := by
  have hother : (other.map Prod.fst).Nodup := (hperm.map Prod.fst).nodup_iff.mpr h
  have hsorted := ((List.mergeSort_perm other fun a b => LooseText.le a.1 b.1).trans hperm).trans
    (List.mergeSort_perm modules fun a b => LooseText.le a.1 b.1).symm
  rw [located, located, eq_of_perm_of_pairwise_lt (pairwise_sorted_modules hother)
    (pairwise_sorted_modules h) hsorted]

theorem ofModules_perm (h : (modules.map Prod.fst).Nodup) (hperm : other.Perm modules) :
    ofModules other = ofModules modules := by
  rw [ofModules, ofModules, located_perm h hperm]

/-! Definitions. -/

theorem definition?_eq_none :
    definition? routines name = none ↔ ∀ x ∈ routines, x.2.name ≠ name := by
  simp [definition?]

theorem name_of_definition? (h : definition? routines name = some f) : f.name = name := by
  obtain ⟨x, _, rfl⟩ := Option.map_eq_some_iff.mp h
  rfl

theorem records_of_definition? (h : (modules.map Prod.fst).Nodup)
    (hf : definition? (located modules) name = some f) : f.Records modules := by
  obtain ⟨⟨path, r⟩, hhead, rfl⟩ := Option.map_eq_some_iff.mp hf
  have hown : ∀ p s, (p, s) ∈ (located modules).filter (·.2.name == name) ↔
      ∃ text, (p, text) ∈ modules ∧ s ∈ (Listing.ofText text).routines ∧ s.name = name := by
    intro p s
    simp only [List.mem_filter, mem_located, beq_iff_eq, ← and_assoc, exists_and_right]
  constructor
  · exact List.pairwise_map.mpr ((pairwise_located h).filter _)
  · intro p line
    rw [List.mem_map]
    constructor
    · rintro ⟨⟨_, s⟩, hs, ⟨⟩⟩
      obtain ⟨text, hm, hs, hname⟩ := (hown _ s).mp hs
      exact ⟨text, hm, s, hs, hname, rfl⟩
    · rintro ⟨text, hm, s, hs, hname, rfl⟩
      exact ⟨(p, s), (hown p s).mpr ⟨text, hm, hs, hname⟩, rfl⟩
  · rw [List.head?_map, hhead, Option.map_some]
  · obtain ⟨text, hm, hr, hname⟩ := (hown path r).mp (List.mem_of_head? hhead)
    exact ⟨text, hm, r, hr, hname, rfl⟩

theorem defined_ofModules (modules : List (LooseText × Text)) :
    (ofModules modules).defined = Text.sortUnique ((located modules).map (·.2.name)) := by
  have hsome : ∀ n ∈ Text.sortUnique ((located modules).map (·.2.name)),
      (definition? (located modules) n).map Definition.name = some n := by
    intro n hn
    rw [Text.mem_sortUnique, List.mem_map] at hn
    obtain ⟨x, hx, hname⟩ := hn
    obtain ⟨f, hf⟩ := Option.ne_none_iff_exists'.mp fun h => definition?_eq_none.mp h x hx hname
    rw [hf, Option.map_some, name_of_definition? hf]
  rw [defined, ofModules, List.map_filterMap, List.filterMap_congr hsome, List.filterMap_some]

theorem pairwise_defined (modules : List (LooseText × Text)) :
    (ofModules modules).defined.Pairwise (· < ·) := by
  rw [defined_ofModules]
  exact Text.pairwise_sortUnique _

theorem mem_defined : n ∈ (ofModules modules).defined ↔ ∃ x ∈ located modules, x.2.name = n := by
  rw [defined_ofModules, Text.mem_sortUnique, List.mem_map]

theorem mem_defined_iff_routineNames : n ∈ (ofModules modules).defined ↔
    ∃ m ∈ modules, n ∈ (Listing.ofText m.2).routineNames := by
  rw [mem_defined]
  constructor
  · rintro ⟨⟨path, r⟩, hx, rfl⟩
    obtain ⟨text, hm, hr⟩ := mem_located.mp hx
    exact ⟨_, hm, List.mem_map_of_mem hr⟩
  · rintro ⟨⟨path, text⟩, hm, hn⟩
    obtain ⟨r, hr, rfl⟩ := List.mem_map.mp hn
    exact ⟨(path, r), mem_located.mpr ⟨text, hm, hr⟩, rfl⟩

/-- The graph finds a definition where the routines have one. -/
theorem find?_ofModules (modules : List (LooseText × Text)) (n : Text) :
    (ofModules modules).find? n = definition? (located modules) n := by
  have hkeys : ((ofModules modules).definitions.map Definition.name).Nodup :=
    (pairwise_defined modules).imp fun h => ne_of_lt h
  ext f
  rw [find?, find?_eq_some_iff_of_nodup hkeys, ofModules, List.mem_filterMap]
  constructor
  · rintro ⟨⟨n', _, hf⟩, rfl⟩
    rwa [name_of_definition? hf]
  · intro hf
    obtain ⟨x, hx, hname⟩ : ∃ x ∈ located modules, x.2.name = n := by
      by_contra hno
      rw [definition?_eq_none.mpr fun x hx hname => hno ⟨x, hx, hname⟩] at hf
      contradiction
    refine ⟨⟨n, ?_, hf⟩, name_of_definition? hf⟩
    exact Text.mem_sortUnique.mpr (List.mem_map.mpr ⟨x, hx, hname⟩)

theorem isSome_find?_iff :
    ((ofModules modules).find? n).isSome ↔ n ∈ (ofModules modules).defined := by
  rw [find?_ofModules, mem_defined, ← not_iff_not, Option.not_isSome_iff_eq_none,
    definition?_eq_none]
  simp

/-! Edges. -/

theorem mem_outgoing : (u, v) ∈ outgoing r ↔ r.name = u ∧ v ∈ r.code.references ∧ v ≠ u := by
  simp only [outgoing, List.mem_map, List.mem_filter, Prod.mk.injEq, bne_iff_ne]
  constructor
  · rintro ⟨_, ⟨hv, hne⟩, rfl, rfl⟩
    exact ⟨rfl, hv, hne⟩
  · rintro ⟨rfl, hv, hne⟩
    exact ⟨v, ⟨hv, hne⟩, rfl, rfl⟩

theorem mem_edges : (u, v) ∈ (ofModules modules).edges ↔
    ∃ x ∈ located modules, (u, v) ∈ outgoing x.2 := by
  rw [ofModules, List.mem_mergeSort, List.mem_eraseDups, List.mem_flatMap]

theorem edgeLe_iff : edgeLe a b = true ↔ ¬ toLex b < toLex a := by
  rw [edgeLe, Prod.Lex.toLex_lt_toLex]
  split
  · next h => simp [h, Text.le_iff_not_lt]
  · next h => simp [Text.le_iff_not_lt, Ne.symm h]

theorem pairwise_edges (modules : List (LooseText × Text)) :
    (ofModules modules).edges.Pairwise fun a b => toLex a < toLex b :=
  pairwise_lt_mergeSort (fun _ _ => edgeLe_iff)
    ((nodup_eraseDups _).map_on fun _ _ _ _ h => toLex.injective h)

/-- Edges lead from defined symbols. -/
theorem defined_of_mem_edges (h : (u, v) ∈ (ofModules modules).edges) :
    u ∈ (ofModules modules).defined := by
  obtain ⟨x, hx, hout⟩ := mem_edges.mp h
  exact mem_defined.mpr ⟨x, hx, (mem_outgoing.mp hout).1⟩

theorem mem_callees : v ∈ g.callees u ↔ (u, v) ∈ g.edges := by
  simp [callees]

theorem mem_callers : u ∈ g.callers v ↔ (u, v) ∈ g.edges := by
  simp [callers]

theorem pairwise_callees (modules : List (LooseText × Text)) (u : Text) :
    ((ofModules modules).callees u).Pairwise (· < ·) := by
  refine List.pairwise_map.mpr (((pairwise_edges modules).filter _).imp_of_mem ?_)
  intro a b ha hb hlt
  have hfst : a.1 = b.1 := by
    rw [List.mem_filter, beq_iff_eq] at ha hb
    exact ha.2.trans hb.2.symm
  rw [Prod.Lex.toLex_lt_toLex] at hlt
  exact hlt.resolve_left (fun h => lt_irrefl _ (hfst ▸ h)) |>.2

theorem pairwise_callers (modules : List (LooseText × Text)) (v : Text) :
    ((ofModules modules).callers v).Pairwise (· < ·) := by
  refine List.pairwise_map.mpr (((pairwise_edges modules).filter _).imp_of_mem ?_)
  intro a b ha hb hlt
  have hsnd : a.2 = b.2 := by
    rw [List.mem_filter, beq_iff_eq] at ha hb
    exact ha.2.trans hb.2.symm
  rw [Prod.Lex.toLex_lt_toLex] at hlt
  exact hlt.resolve_right fun h => lt_irrefl _ (hsnd ▸ h.2)

theorem eq_referencesOf_of_lookup {ls : Listing} {refs : List Text}
    (h : ls.routineReferences.lookup u = some refs) : refs = Listing.referencesOf ls.routines u := by
  obtain ⟨before, behind, heq, _⟩ := List.lookup_eq_some_iff.mp h
  have hmem : (u, refs) ∈ ls.routineReferences := by simp [heq]
  obtain ⟨n, _, ⟨⟩⟩ := List.mem_map.mp hmem
  rfl

/-- An edge leads from a symbol to another one that the catalog of some module lists among its
references. -/
theorem mem_edges_iff_references : (u, v) ∈ (ofModules modules).edges ↔ u ≠ v ∧
    ∃ m ∈ modules, ∃ refs,
      (Listing.ofText m.2).routineReferences.lookup u = some refs ∧ v ∈ refs := by
  rw [mem_edges]
  constructor
  · rintro ⟨⟨path, r⟩, hx, hout⟩
    obtain ⟨rfl, hv, hne⟩ := mem_outgoing.mp hout
    obtain ⟨text, hm, hr⟩ := mem_located.mp hx
    exact ⟨hne.symm, _, hm, _, Listing.lookup_routineReferences hr,
      Listing.references_subset_referencesOf hr hv⟩
  · rintro ⟨hne, ⟨path, text⟩, hm, refs, hlookup, hv⟩
    obtain rfl := eq_referencesOf_of_lookup hlookup
    rw [Listing.referencesOf, Text.mem_sortUnique, List.mem_flatMap] at hv
    obtain ⟨r, hr, hvr⟩ := hv
    rw [List.mem_filter, beq_iff_eq] at hr
    exact ⟨(path, r), mem_located.mpr ⟨text, hm, hr.1⟩,
      mem_outgoing.mpr ⟨hr.2, hvr, hne.symm⟩⟩

theorem mem_symbols : n ∈ g.symbols ↔ n ∈ g.defined ∨ ∃ u, (u, n) ∈ g.edges := by
  simp [symbols, Text.mem_sortUnique]

theorem mem_externals : n ∈ (ofModules modules).externals ↔
    n ∉ (ofModules modules).defined ∧ ∃ u, (u, n) ∈ (ofModules modules).edges := by
  rw [externals, List.mem_filter, mem_symbols, ← isSome_find?_iff]
  cases (ofModules modules).find? n <;> simp

theorem pairwise_externals (g : CallGraph) : g.externals.Pairwise (· < ·) :=
  (Text.pairwise_sortUnique _).filter _

end CallGraph

end AsmListing
