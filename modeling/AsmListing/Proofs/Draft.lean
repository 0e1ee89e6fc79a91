import AsmListing.Proofs.CallGraph
import Mathlib.Data.List.Induction
import Mathlib.Logic.Function.Basic

/-! The call graph drawn step by step, in two passes over the routines: the first one takes down the
definitions, the second one draws the edges and adds each symbol that is not known yet. Nothing fails
on the way, and the draft shows the call graph. -/
namespace AsmListing

/-- What is known of a name; only a definition has a list of places. -/
inductive Symbol where
  | external
  | defined (definition : Definition)

/-- A call graph under construction: the symbols and the edges so far. -/
structure Draft where
  symbol : Text → Option Symbol
  edges : List (Text × Text)

namespace Draft

def empty : Draft := ⟨fun _ => none, []⟩

def put (d : Draft) (name : Text) (s : Symbol) : Draft :=
  { d with symbol := Function.update d.symbol name (some s) }

/-- Takes down the definition of a routine. One more place is noted of a name that is known, which
fails where this symbol has no list of places. -/
def define? (d : Draft) (path : LooseText) (r : Routine) : Option Draft :=
  let place := (path, r.span.first)
  match d.symbol r.name with
  | none => some (d.put r.name (.defined ⟨r.name, path, r.span, [place]⟩))
  | some (.defined f) =>
    some (d.put r.name (.defined { f with locations := f.locations ++ [place] }))
  | some .external => none

/-- Adds the name where it is not known yet. -/
def mention (d : Draft) (name : Text) : Draft :=
  match d.symbol name with
  | none => d.put name .external
  | some _ => d

/-- Draws the edge of a reference, but none from a symbol to itself. -/
def refer (source : Text) (d : Draft) (target : Text) : Draft :=
  if target = source then d
  else
    let d := (d.mention target).mention source
    { d with edges := d.edges.insert (source, target) }

/-- Draws the edges of a routine. -/
def referAll (d : Draft) (r : Routine) : Draft := r.code.references.foldl (refer r.name) d

/-- Both passes over the routines. -/
def ofRoutines? (routines : List (LooseText × Routine)) : Option Draft :=
  (routines.foldlM (fun d x => define? d x.1 x.2) empty).map fun d =>
    routines.foldl (fun d x => d.referAll x.2) d

variable {d : Draft} {routines : List (LooseText × Routine)} {x : LooseText × Routine} {r : Routine}
  {name source target u v n : Text} {f : Definition} {e : Text × Text}

@[simp] theorem symbol_put_self (d : Draft) (name : Text) (s : Symbol) :
    (d.put name s).symbol name = some s :=
  Function.update_self ..

theorem symbol_put_of_ne (d : Draft) (s : Symbol) (h : n ≠ name) :
    (d.put name s).symbol n = d.symbol n :=
  Function.update_of_ne h ..

@[simp] theorem edges_put (d : Draft) (name : Text) (s : Symbol) : (d.put name s).edges = d.edges :=
  rfl

/-! The first pass. -/

/-- The draft holds the definitions of these routines, and nothing else. -/
structure Defines (d : Draft) (routines : List (LooseText × Routine)) : Prop where
  symbol : ∀ n, d.symbol n = (CallGraph.definition? routines n).map .defined
  edges : d.edges = []

/-- One more routine with the name adds its place to the definition, or is the definition. -/
theorem definition?_concat_self (routines : List (LooseText × Routine)) (path : LooseText)
    (r : Routine) :
    CallGraph.definition? (routines ++ [(path, r)]) r.name =
      some (match CallGraph.definition? routines r.name with
        | none => ⟨r.name, path, r.span, [(path, r.span.first)]⟩
        | some f => { f with locations := f.locations ++ [(path, r.span.first)] }) := by
  rw [CallGraph.definition?, CallGraph.definition?, List.filter_append]
  cases routines.filter (·.2.name == r.name) <;> simp

theorem definition?_concat_of_ne (routines : List (LooseText × Routine)) (path : LooseText)
    (h : n ≠ r.name) : CallGraph.definition? (routines ++ [(path, r)]) n =
      CallGraph.definition? routines n := by
  simp [CallGraph.definition?, List.filter_append, Ne.symm h]

theorem Defines.define? (h : d.Defines routines) (path : LooseText) (r : Routine) :
    ∃ d', d.define? path r = some d' ∧ d'.Defines (routines ++ [(path, r)]) := by
  have hself := definition?_concat_self routines path r
  have hsymbol := h.symbol r.name
  -- what is put at the name is its definition among the routines with the new one
  have put (f : Definition) (hf : CallGraph.definition? (routines ++ [(path, r)]) r.name = some f) :
      (d.put r.name (.defined f)).Defines (routines ++ [(path, r)]) := by
    refine ⟨fun n => ?_, h.edges⟩
    by_cases hn : n = r.name
    · rw [hn, symbol_put_self, hf, Option.map_some]
    · rw [symbol_put_of_ne _ _ hn, h.symbol, definition?_concat_of_ne _ _ hn]
  cases hdef : CallGraph.definition? routines r.name with
  | none =>
    rw [hdef] at hself hsymbol
    exact ⟨_, by rw [Draft.define?, hsymbol]; rfl, put _ hself⟩
  | some f =>
    rw [hdef] at hself hsymbol
    exact ⟨_, by rw [Draft.define?, hsymbol]; rfl, put _ hself⟩

/-- The first pass never comes to a name without a list of places. -/
theorem exists_defines (routines : List (LooseText × Routine)) :
    ∃ d, routines.foldlM (fun d x => define? d x.1 x.2) empty = some d ∧ d.Defines routines := by
  induction routines using List.reverseRecOn with
  | nil => exact ⟨empty, rfl, fun _ => rfl, rfl⟩
  | append_singleton routines x ih =>
    obtain ⟨d, hd, hdefines⟩ := ih
    obtain ⟨d', hd', hnext⟩ := hdefines.define? x.1 x.2
    exact ⟨d', by simp [hd, hd'], hnext⟩

/-! The second pass. -/

/-- Beside the definitions of the routines, the draft holds the other ends of its edges. -/
structure Mentions (d : Draft) (routines : List (LooseText × Routine)) : Prop where
  defined : ∀ n f, d.symbol n = some (.defined f) ↔ CallGraph.definition? routines n = some f
  external : ∀ n, d.symbol n = some .external ↔
    CallGraph.definition? routines n = none ∧ ∃ u, (u, n) ∈ d.edges
  nodup : d.edges.Nodup

theorem Defines.mentions (h : d.Defines routines) : d.Mentions routines := by
  refine ⟨fun n f => ?_, fun n => ?_, by simp [h.edges]⟩
  · rw [h.symbol]
    cases CallGraph.definition? routines n <;> simp
  · rw [h.symbol, h.edges]
    cases CallGraph.definition? routines n <;> simp

theorem mention_of_isSome (h : (d.symbol name).isSome) : d.mention name = d := by
  obtain ⟨s, hs⟩ := Option.isSome_iff_exists.mp h
  rw [mention, hs]

theorem edges_mention (d : Draft) (name : Text) : (d.mention name).edges = d.edges := by
  rw [mention]
  split <;> rfl

theorem symbol_mention_of_ne (h : n ≠ name) : (d.mention name).symbol n = d.symbol n := by
  rw [mention]
  split
  · exact symbol_put_of_ne d .external h
  · rfl

theorem symbol_mention_self (d : Draft) (name : Text) :
    (d.mention name).symbol name = some ((d.symbol name).getD .external) := by
  rw [mention]
  split
  · next h => simp [h]
  · next s h => simp [h]

theorem Mentions.refer (h : d.Mentions routines)
    (hsource : CallGraph.definition? routines source = some f) (target : Text) :
    (refer source d target).Mentions routines := by
  by_cases hself : target = source
  · rwa [Draft.refer, if_pos hself]
  have hknown : ((d.mention target).symbol source).isSome := by
    rw [symbol_mention_of_ne (Ne.symm hself), (h.defined source f).mpr hsource]
    rfl
  rw [Draft.refer, if_neg hself, mention_of_isSome hknown]
  simp only [edges_mention]
  constructor
  · intro n f'
    by_cases hn : n = target
    · subst hn
      rw [← h.defined, symbol_mention_self]
      cases d.symbol n <;> simp
    · rw [symbol_mention_of_ne hn, h.defined]
  · intro n
    by_cases hn : n = target
    · subst hn
      rw [symbol_mention_self]
      cases hs : d.symbol n with
      | none =>
        have hnone : CallGraph.definition? routines n = none := by
          by_contra hne
          obtain ⟨f', hf'⟩ := Option.ne_none_iff_exists'.mp hne
          rw [(h.defined n f').mpr hf'] at hs
          contradiction
        simp [hnone]
      | some s =>
        cases s with
        | external => simp [((h.external n).mp hs).1]
        | defined f' => simp [(h.defined n f').mp hs]
    · rw [symbol_mention_of_ne hn, h.external]
      simp [hn]
  · exact h.nodup.insert

theorem mem_edges_refer : e ∈ (refer source d target).edges ↔
    e ∈ d.edges ∨ e = (source, target) ∧ target ≠ source := by
  rw [refer]
  split
  · next h => simp [h]
  · next h => simp [edges_mention, h, or_comm]

theorem Mentions.foldl_refer (h : d.Mentions routines)
    (hsource : CallGraph.definition? routines source = some f) (targets : List Text) :
    (targets.foldl (Draft.refer source) d).Mentions routines ∧
      ∀ e, e ∈ (targets.foldl (Draft.refer source) d).edges ↔
        e ∈ d.edges ∨ ∃ v ∈ targets, e = (source, v) ∧ v ≠ source := by
  induction targets generalizing d with
  | nil => exact ⟨h, by simp⟩
  | cons v targets ih =>
    obtain ⟨hmentions, hedges⟩ := ih (h.refer hsource v)
    refine ⟨hmentions, fun e => ?_⟩
    rw [List.foldl_cons, hedges, mem_edges_refer, or_assoc, List.exists_mem_cons_iff]

theorem Mentions.referAll (h : d.Mentions routines)
    (hr : CallGraph.definition? routines r.name = some f) :
    (d.referAll r).Mentions routines ∧
      ∀ e, e ∈ (d.referAll r).edges ↔ e ∈ d.edges ∨ e ∈ CallGraph.outgoing r := by
  obtain ⟨hmentions, hedges⟩ := h.foldl_refer hr r.code.references
  refine ⟨hmentions, fun e => ?_⟩
  obtain ⟨u, v⟩ := e
  rw [Draft.referAll, hedges, CallGraph.mem_outgoing]
  constructor
  · rintro (he | ⟨v, hv, ⟨⟩, hne⟩)
    · exact Or.inl he
    · exact Or.inr ⟨rfl, hv, hne⟩
  · rintro (he | ⟨rfl, hv, hne⟩)
    · exact Or.inl he
    · exact Or.inr ⟨v, hv, rfl, hne⟩

/-- The second pass over routines that are all taken down. -/
theorem Mentions.foldl_referAll (h : d.Mentions routines) {rest : List (LooseText × Routine)}
    (hrest : ∀ x ∈ rest, ∃ f, CallGraph.definition? routines x.2.name = some f) :
    (rest.foldl (fun d x => d.referAll x.2) d).Mentions routines ∧
      ∀ e, e ∈ (rest.foldl (fun d x => d.referAll x.2) d).edges ↔
        e ∈ d.edges ∨ ∃ x ∈ rest, e ∈ CallGraph.outgoing x.2 := by
  induction rest generalizing d with
  | nil => exact ⟨h, by simp⟩
  | cons x rest ih =>
    obtain ⟨⟨f, hf⟩, hrest⟩ := List.forall_mem_cons.mp hrest
    obtain ⟨hmentions, hedges⟩ := h.referAll hf
    obtain ⟨hall, hmem⟩ := ih hmentions hrest
    refine ⟨hall, fun e => ?_⟩
    rw [List.foldl_cons, hmem, hedges, or_assoc, List.exists_mem_cons_iff]

/-- The draft has the symbols of the graph, and each of its edges once. -/
structure Shows (d : Draft) (g : CallGraph) : Prop where
  defined : ∀ n f, d.symbol n = some (.defined f) ↔ g.find? n = some f
  external : ∀ n, d.symbol n = some .external ↔ n ∈ g.externals
  nodup : d.edges.Nodup
  edges : ∀ e, e ∈ d.edges ↔ e ∈ g.edges

/-- Nothing fails while the graph is drawn, and the draft shows the graph. -/
theorem exists_shows (modules : List (LooseText × Text)) :
    ∃ d, ofRoutines? (CallGraph.located modules) = some d ∧
      d.Shows (CallGraph.ofModules modules) := by
  obtain ⟨d, hd, hdefines⟩ := exists_defines (CallGraph.located modules)
  have htaken : ∀ x ∈ CallGraph.located modules,
      ∃ f, CallGraph.definition? (CallGraph.located modules) x.2.name = some f := by
    intro x hx
    exact Option.ne_none_iff_exists'.mp fun hnone =>
      CallGraph.definition?_eq_none.mp hnone x hx rfl
  obtain ⟨hmentions, hedges⟩ := hdefines.mentions.foldl_referAll htaken
  have hmem : ∀ e,
      e ∈ ((CallGraph.located modules).foldl (fun d x => d.referAll x.2) d).edges ↔
        e ∈ (CallGraph.ofModules modules).edges := by
    intro e
    rw [hedges, hdefines.edges, ← Prod.eta e, CallGraph.mem_edges]
    simp
  refine ⟨_, by rw [ofRoutines?, hd, Option.map_some], ⟨fun n f => ?_, fun n => ?_,
    hmentions.nodup, hmem⟩⟩
  · rw [hmentions.defined, CallGraph.find?_ofModules]
  · rw [hmentions.external, CallGraph.mem_externals, ← CallGraph.isSome_find?_iff,
      CallGraph.find?_ofModules, Option.not_isSome_iff_eq_none]
    simp only [hmem]

end Draft

namespace CallGraph

variable {modules : List (LooseText × Text)}

/-- The call graph is the relation of the references in the catalogs. The defined symbols are the
names in the catalogs, each with all its places and the lines of the first one. An edge leads from a
symbol to each other one among its references, and the external symbols are the ends of edges that
no catalog has. Both ends of the edges list each other, in order. The order of the modules does not
matter, and nothing fails while the graph is drawn. -/
theorem ofModules_shows_references (h : (modules.map Prod.fst).Nodup) :
    (∀ n, n ∈ (ofModules modules).defined ↔
      ∃ m ∈ modules, n ∈ (Listing.ofText m.2).routineNames) ∧
    (∀ u v, (u, v) ∈ (ofModules modules).edges ↔ u ≠ v ∧ ∃ m ∈ modules, ∃ refs,
      (Listing.ofText m.2).routineReferences.lookup u = some refs ∧ v ∈ refs) ∧
    (∀ n, n ∈ (ofModules modules).externals ↔ (∃ u, (u, n) ∈ (ofModules modules).edges) ∧
      ∀ m ∈ modules, n ∉ (Listing.ofText m.2).routineNames) ∧
    (∀ n ∈ (ofModules modules).defined, ∃ f,
      (ofModules modules).find? n = some f ∧ f.name = n ∧ f.Records modules) ∧
    (∀ u, ((ofModules modules).callees u).Pairwise (· < ·)) ∧
    (∀ v, ((ofModules modules).callers v).Pairwise (· < ·)) ∧
    (∀ u v, v ∈ (ofModules modules).callees u ↔ (u, v) ∈ (ofModules modules).edges) ∧
    (∀ u v, v ∈ (ofModules modules).callees u ↔ u ∈ (ofModules modules).callers v) ∧
    (ofModules modules).externals.Pairwise (· < ·) ∧
    (∀ n ∈ (ofModules modules).externals, (ofModules modules).callees n = []) ∧
    ∀ other, other.Perm modules → ofModules other = ofModules modules ∧
      ∃ d, Draft.ofRoutines? (located other) = some d ∧ d.Shows (ofModules modules) := by
  refine ⟨fun n => mem_defined_iff_routineNames, fun u v => mem_edges_iff_references, fun n => ?_,
    fun n hn => ?_, pairwise_callees modules, pairwise_callers modules, fun u v => mem_callees,
    fun u v => mem_callees.trans mem_callers.symm, pairwise_externals _, fun n hn => ?_,
    fun other hperm => ?_⟩
  · rw [mem_externals, mem_defined_iff_routineNames, and_comm]
    simp
  · obtain ⟨f, hf⟩ := Option.isSome_iff_exists.mp (isSome_find?_iff.mpr hn)
    have hdef := find?_ofModules modules n ▸ hf
    exact ⟨f, hf, name_of_definition? hdef, records_of_definition? h hdef⟩
  · rw [List.eq_nil_iff_forall_not_mem]
    intro v hv
    exact (mem_externals.mp hn).1 (defined_of_mem_edges (mem_callees.mp hv))
  · rw [located_perm h hperm]
    exact ⟨ofModules_perm h hperm, Draft.exists_shows modules⟩

/-- Two modules that define the same name, not in the order of their paths. -/
def twoModules : List (LooseText × Text) :=
  [("b.s", "glabel f\njal g\n.size f, .-f\n"), ("a.s", "glabel f\njal f\njal h\nglabel g\n")]

/-- The definition in the module that is listed last comes first, the references of both count, and
the reference of a symbol to itself does not. -/
theorem ofModules_shows_references_of_twoModules :
    (twoModules.map Prod.fst).Nodup ∧
    ("f".toList, "f".toList) ∉ (ofModules twoModules).edges ∧
    "h".toList ∈ (ofModules twoModules).externals ∧
    (∃ f, (ofModules twoModules).find? "f" = some f ∧ f.Records twoModules ∧
      f.locations = [(("a.s" : LooseText), 0), (("b.s" : LooseText), 0)]) ∧
    ofModules twoModules.reverse = ofModules twoModules := by
  have hnodup : (twoModules.map Prod.fst).Nodup := by decide
  have hsorted : (twoModules.mergeSort fun a b => LooseText.le a.1 b.1) = twoModules.reverse :=
    eq_of_perm_of_pairwise_lt (pairwise_sorted_modules hnodup) (by decide)
      ((List.mergeSort_perm ..).trans twoModules.reverse_perm.symm)
  have hlocated : located twoModules =
      [(("a.s" : LooseText), (⟨"f", ⟨0, 2⟩, "glabel f\njal f\njal h"⟩ : Routine)),
        (("a.s" : LooseText), ⟨"g", ⟨3, 4⟩, "glabel g\n"⟩),
        (("b.s" : LooseText), ⟨"f", ⟨0, 2⟩, "glabel f\njal g\n.size f, .-f"⟩)] := by
    rw [located, hsorted]
    decide +kernel
  obtain ⟨_, hedges, hexternals, hdefined, _, _, _, _, _, _, hperm⟩ :=
    ofModules_shows_references hnodup
  obtain ⟨f, hf, _, hrecords⟩ := hdefined "f".toList (mem_defined.mpr (by rw [hlocated]; simp))
  have hplaces : ((ofModules twoModules).find? "f").map Definition.locations =
      some [(("a.s" : LooseText), 0), (("b.s" : LooseText), 0)] := by
    rw [find?_ofModules, hlocated]
    decide +kernel
  have hedge : ("f".toList, "h".toList) ∈ (ofModules twoModules).edges := by
    refine mem_edges.mpr ⟨_, hlocated ▸ List.mem_cons_self, mem_outgoing.mpr ⟨rfl, ?_, by decide⟩⟩
    exact Text.mem_references.mpr (by decide +kernel)
  refine ⟨hnodup, fun hloop => ((hedges _ _).mp hloop).1 rfl,
    (hexternals _).mpr ⟨⟨_, hedge⟩, by decide +kernel⟩,
    ⟨f, hf, hrecords, ?_⟩, (hperm _ twoModules.reverse_perm).1⟩
  rw [hf] at hplaces
  exact Option.some.inj hplaces

end CallGraph

end AsmListing
