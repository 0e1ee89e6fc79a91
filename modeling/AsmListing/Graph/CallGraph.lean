import AsmListing.Graph.Component
import AsmListing.Listing.Reference
import AsmListing.Text.CodePoint

/-!
The call graph of a set of modules. Its nodes are the symbols that a module defines or that a
routine refers to; an edge leads from a routine to each other symbol it refers to.
-/
namespace AsmListing

/-- A symbol that some module defines: its first definition, and all places of definitions. -/
structure Definition where
  name : Text
  module : LooseText
  span : Span
  locations : List (LooseText × Nat)
  deriving DecidableEq, Repr

/-- Definitions by name and edges by both ends, each once and in order. -/
structure CallGraph where
  definitions : List Definition
  edges : List (Text × Text)
  deriving DecidableEq, Repr

namespace CallGraph

/-- The routines of all modules with the module of each, by module path and then in file order. -/
def located (modules : List (LooseText × Text)) : List (LooseText × Routine) :=
  (modules.mergeSort fun a b => LooseText.le a.1 b.1).flatMap fun (path, text) =>
    (Listing.ofText text).routines.map fun r => (path, r)

/-- The definition of a name among the located routines. -/
def definition? (routines : List (LooseText × Routine)) (name : Text) : Option Definition :=
  let own := routines.filter (·.2.name == name)
  own.head?.map fun (path, r) =>
    ⟨name, path, r.span, own.map fun (p, s) => (p, s.span.first)⟩

/-- The references of a routine to other symbols. -/
def outgoing (r : Routine) : List (Text × Text) :=
  (r.code.references.filter (· != r.name)).map fun target => (r.name, target)

def edgeLe (a b : Text × Text) : Bool :=
  if a.1 = b.1 then Text.le a.2 b.2 else Text.le a.1 b.1

/-- The graph of the modules, given as pairs of a path and a text. -/
def ofModules (modules : List (LooseText × Text)) : CallGraph :=
  let routines := located modules
  let names := Text.sortUnique (routines.map (·.2.name))
  { definitions := names.filterMap (definition? routines)
    edges := ((routines.flatMap fun (_, r) => outgoing r).eraseDups).mergeSort edgeLe }

variable (g : CallGraph)

/-- The names of the defined symbols, in order. -/
def defined : List Text := g.definitions.map Definition.name

/-- All symbols, in order. -/
def symbols : List Text := Text.sortUnique (g.defined ++ g.edges.map Prod.snd)

def find? (name : Text) : Option Definition := g.definitions.find? (·.name == name)

def callees (name : Text) : List Text := (g.edges.filter (·.1 == name)).map Prod.snd

def callers (name : Text) : List Text := (g.edges.filter (·.2 == name)).map Prod.fst

/-- The symbols that no module defines, in order. -/
def externals : List Text := g.symbols.filter fun name => (g.find? name).isNone

/-- Which symbols reach which, by their numbers in the order of `symbols`. -/
def reachTable : ReachTable :=
  let names := g.symbols
  (ReachTable.direct (names.map fun name => (g.callees name).map names.idxOf)).closure

/-- The symbols with the given numbers. -/
def symbolsAt (numbers : List Nat) : List Text :=
  let names := g.symbols.toArray
  numbers.filterMap fun i => names[i]?

/-- Larger groups come first, groups of one size by their members. -/
def groupLe (a b : List Text) : Bool :=
  if a.length = b.length then lexLe Text.le a b else decide (b.length ≤ a.length)

/-- The groups of at least `minSize` symbols that all reach each other. -/
def cycles (minSize : Int) : List (List Text) :=
  ((g.reachTable.components.map g.symbolsAt).filter fun c => decide (minSize ≤ c.length)).mergeSort
    groupLe

/-- The defined symbols, each behind all it depends on; symbols that depend on each other stand
together in order of their names. -/
def leafFirst : List Text :=
  (g.reachTable.leafFirst.flatMap g.symbolsAt).filter fun name => (g.find? name).isSome

end CallGraph

end AsmListing
