import CodeAtlas.Graph.Store
import CodeAtlas.Graph.Query
/-!
# Transitive closure

Adds an inferred dependency between any two nodes that are linked only indirectly. What each node
reaches is found by allowing one more intermediate node at a time.
-/

namespace CodeAtlas

/-- The items of both lists, the new ones of the second last. -/
def union (as bs : List String) : List String :=
  as ++ bs.filter (!as.contains ·)

/-- For each node the nodes it reaches. -/
abbrev Reach := Assoc (List String)

namespace Reach

def of (r : Reach) (id : String) : List String :=
  (r.get? id).getD []

/-- Lets every node that reaches `via` also reach what `via` reaches. -/
def through (r : Reach) (via : String) : Reach :=
  let beyond := r.of via
  r.map fun (id, targets) => (id, if targets.contains via then union targets beyond else targets)

end Reach

namespace Graph

/-- What each node reaches by a single admitted edge. -/
def directReach (g : Graph) (filter : KindFilter) : Reach :=
  g.nodeIds.map fun id => (id, g.successors id filter)

/-- What each node reaches by any number of admitted edges, at least one. -/
def fullReach (g : Graph) (filter : KindFilter) : Reach :=
  g.nodeIds.foldl Reach.through (g.directReach filter)

/-- The ordered pairs of nodes linked indirectly and not directly. -/
def indirectPairs (g : Graph) (filter : KindFilter) : List (String × String) :=
  let direct := g.directReach filter
  let full := g.fullReach filter
  g.nodeIds.flatMap fun source =>
    let reached := full.of source
    let linked := direct.of source
    (g.nodeIds.filter fun target =>
      target != source && reached.contains target && !linked.contains target).map fun target =>
        (source, target)

def inferredMetadata : Fields :=
  [("transitive", .bool true)]

/-- Adds the inferred edge of a pair, under a generated id. -/
def addInferred (g : Graph) (pair : String × String) : Except Fault Graph :=
  match g.connect pair.1 pair.2 .dependsOn inferredMetadata none with
  | (g, .ok _) => .ok g
  | (_, .error fault) => .error fault

/-- A copy with an inferred edge for each indirect pair. -/
def closureOver (g : Graph) (filter : KindFilter) : Except Fault Graph := do
  let h ← g.copy
  (g.indirectPairs filter).foldlM addInferred h

/-- The transitive closure over edges of the named kinds. -/
def closure (g : Graph) (kinds : Option (List Value)) : Except Fault Graph := do
  let filter ← KindFilter.ofValues kinds
  g.closureOver filter

end Graph

end CodeAtlas
