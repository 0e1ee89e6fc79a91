/-!
Reachability in a finite graph whose nodes are the numbers below a bound, and the components of the
graph: the classes of nodes that reach each other, and the order of these classes in which each
comes behind all it reaches. Row `i` of a table holds a set of nodes as the bits of a number, the
nodes that `i` is known to reach.
-/
namespace AsmListing

/-- A table of node sets, one row a node. -/
abbrev ReachTable := Array Nat

namespace ReachTable

/-- The set of the given nodes. -/
def ofNodes (nodes : List Nat) : Nat := nodes.foldl (fun set i => set ||| 1 <<< i) 0

/-- Node `i` is known to reach node `j`. -/
def reaches (rows : ReachTable) (i j : Nat) : Bool := (rows.getD i 0).testBit j

/-- Allows paths through node `k`: whatever reaches `k` also reaches what `k` reaches. -/
def allow (rows : ReachTable) (k : Nat) : ReachTable :=
  let through := rows.getD k 0
  rows.map fun row => if row.testBit k then row ||| through else row

/-- Every node reaches itself and its direct successors. -/
def direct (successors : List (List Nat)) : ReachTable :=
  ((successors.zipIdx).map fun (next, i) => ofNodes (i :: next)).toArray

/-- All paths of any length: every node in turn is allowed on the way. -/
def closure (rows : ReachTable) : ReachTable := (List.range rows.size).foldl allow rows

/-- Each of the two nodes reaches the other. -/
def together (rows : ReachTable) (i j : Nat) : Bool := rows.reaches i j && rows.reaches j i

/-- The nodes in the class of `i`, in increasing order. -/
def component (rows : ReachTable) (i : Nat) : List Nat :=
  (List.range rows.size).filter (rows.together i)

/-- The smallest members of the classes, in increasing order. -/
def leaders (rows : ReachTable) : List Nat :=
  (List.range rows.size).filter fun i => (rows.component i).head? == some i

/-- The classes, by increasing smallest member. -/
def components (rows : ReachTable) : List (List Nat) := rows.leaders.map rows.component

/-- Node `i` reaches node `j`, which does not reach it. -/
def above (rows : ReachTable) (i j : Nat) : Bool := rows.reaches i j && !rows.reaches j i

/-- Takes the smallest node that none of the remaining ones is above, again and again, at most
`steps` times. -/
def rootsFirst (rows : ReachTable) : Nat → List Nat → List Nat
  | 0, _ => []
  | steps + 1, remaining =>
    match remaining.find? fun i => remaining.all fun j => !rows.above j i with
    | some i => i :: rootsFirst rows steps (remaining.erase i)
    | none => []

/-- The classes such that each comes behind all that its members reach; of several such orders, the
last class is the smallest possible one, then the last but one, and so on. -/
def leafFirst (rows : ReachTable) : List (List Nat) :=
  ((rows.rootsFirst rows.leaders.length rows.leaders).reverse).map rows.component

end ReachTable

end AsmListing
