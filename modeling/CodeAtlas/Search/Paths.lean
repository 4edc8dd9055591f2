import CodeAtlas.Search.Slice
import CodeAtlas.Search.Trail
/-!
# Simple paths

All ways from one node to another that visit no node twice, depth first in the order of the edges.
Several edges between two nodes count as one.
-/

namespace CodeAtlas

structure PathSearch where
  trail : Trail
  /-- The paths found so far, latest first. -/
  found : List (List String) := []
  deriving Inhabited

namespace PathSearch

/-- Tries the next successor of the current node, or goes back. With `k` nodes on the trail the
successor would be reached by `k` edges. -/
def step (successors : String → List String) (finish : String) (limit : Option Int)
    (s : PathSearch) : Option PathSearch :=
  match s.trail.todo with
  | [] => none
  | [] :: _ => some { s with trail := s.trail.leave }
  | (m :: rest) :: below =>
    let t := { s.trail with todo := rest :: below }
    if t.visiting.contains m then some { s with trail := t }
    else if m == finish then
      if within limit t.path.length then
        some { trail := t, found := (m :: t.path).reverse :: s.found }
      else some { s with trail := t }
    else if within limit (t.path.length + 1) then some { s with trail := t.enter successors m }
    else some { s with trail := t }

end PathSearch

namespace Graph

def pathSearch (g : Graph) (start finish : String) (limit : Option Int) (filter : KindFilter) :
    PathSearch :=
  let successors (id : String) := g.successors id filter
  iterate (PathSearch.step successors finish limit)
    (searchBudget g.nodes.length g.nodes.length + 1) { trail := Trail.start successors start }

/-- The simple paths from `start` to `finish` with at most `limit` edges. -/
def pathsBetween (g : Graph) (start finish : String) (limit : Option Int) (filter : KindFilter) :
    List (List String) :=
  (g.pathSearch start finish limit filter).found.reverse

/-- The limit in force: the one asked for, or the one in the settings. -/
def pathLimit (g : Graph) (maxDepth : Option Int) : Option Int :=
  maxDepth <|> g.config.analysis.pathMaxDepth

/-- The simple paths from `start` to `finish`; the nodes are checked before the kinds. -/
def paths (g : Graph) (start finish : String) (maxDepth : Option Int)
    (kinds : Option (List Value)) : Except Fault (List (List String)) := do
  g.requireNode start
  g.requireNode finish
  let filter ← KindFilter.ofValues kinds
  return g.pathsBetween start finish (g.pathLimit maxDepth) filter

end Graph

end CodeAtlas
