import CodeAtlas.Graph.Query
import CodeAtlas.Search.Loop
/-!
# Strongly connected components

Nodes belong together when each can be reached from the other. The search numbers the nodes as it
discovers them and keeps, for each, the lowest number known to be reachable within the nodes not yet
assigned; a node whose lowest number is its own closes a component.
-/

namespace CodeAtlas

structure ComponentSearch where
  /-- The number of each discovered node. -/
  index : Assoc Nat := []
  /-- The lowest number found from each discovered node. -/
  low : Assoc Nat := []
  /-- Discovered nodes that have no component yet, latest first. -/
  pending : List String := []
  /-- Open nodes with the successors still to look at, deepest first. -/
  work : List (String × List String) := []
  /-- The finished components, each latest node first. -/
  found : List (List String) := []
  /-- The number of the next node. -/
  next : Nat := 0
  deriving Inhabited

namespace ComponentSearch

def indexOf (s : ComponentSearch) (id : String) : Nat :=
  (s.index.get? id).getD 0

/-- The lowest number found from a discovered node. -/
def lowOf (s : ComponentSearch) (id : String) : Nat :=
  (s.low.get? id).getD 0

/-- Numbers a new node and opens it. -/
def discover (s : ComponentSearch) (successors : String → List String) (id : String) :
    ComponentSearch :=
  { s with
    index := s.index.set id s.next
    low := s.low.set id s.next
    pending := id :: s.pending
    work := (id, successors id) :: s.work
    next := s.next + 1 }

/-- Notes that `bound` can be reached from a node. -/
def lower (s : ComponentSearch) (id : String) (bound : Nat) : ComponentSearch :=
  { s with low := s.low.set id (min (s.lowOf id) bound) }

/-- Passes what was found from a closed node on to the node it was opened from. -/
def report (s : ComponentSearch) (id : String) : ComponentSearch :=
  match s.work with
  | [] => s
  | (parent, _) :: _ => s.lower parent (s.lowOf id)

/-- Makes a component of the pending nodes down to `id`, if nothing older can be reached from it. -/
def close (s : ComponentSearch) (id : String) : ComponentSearch :=
  if s.lowOf id == s.indexOf id then
    { s with
      found := s.found ++ [s.pending.takeWhile (· != id) ++ [id]]
      pending := (s.pending.dropWhile (· != id)).tail }
  else s

/-- Looks at the next successor of the deepest open node, or closes that node. -/
def step (successors : String → List String) (s : ComponentSearch) : Option ComponentSearch :=
  match s.work with
  | [] => none
  | (n, m :: rest) :: below =>
    let s := { s with work := (n, rest) :: below }
    if !s.index.has m then some (s.discover successors m)
    else if s.pending.contains m then some (s.lower n (s.indexOf m))
    else some s
  | (n, []) :: below =>
    let s := { s with work := below }
    some ((s.report n).close n)

/-- Searches everything that can be reached from `root`, unless it is discovered already. -/
def searchFrom (successors : String → List String) (budget : Nat) (s : ComponentSearch)
    (root : String) : ComponentSearch :=
  if s.index.has root then s else iterate (step successors) budget (s.discover successors root)

end ComponentSearch

namespace Graph

/-- A bound on the steps of a component search: every node is opened and closed once, and each of
its successors looked at once. -/
def componentBudget (g : Graph) : Nat :=
  g.nodes.length * (g.nodes.length + 1) + 1

/-- The finished component search. -/
def componentSearch (g : Graph) : ComponentSearch :=
  let successors (id : String) := g.successors id none
  g.nodeIds.foldl (ComponentSearch.searchFrom successors g.componentBudget) {}

/-- The strongly connected components; one comes before those from which it can be reached. -/
def components (g : Graph) : List (List String) :=
  g.componentSearch.found

end Graph

end CodeAtlas
