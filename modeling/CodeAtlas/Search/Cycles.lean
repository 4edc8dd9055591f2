import CodeAtlas.Graph.Query
import CodeAtlas.Search.Trail
/-!
# Simple cycles

All closed ways that visit no node twice, searched for from every node in turn. A cycle is written
from the node where its search began; rotations of a cycle already reported can be left out.
-/

namespace CodeAtlas

def least : List String → Option String
  | [] => none
  | s :: rest =>
    match least rest with
    | none => some s
    | some t => if t < s then some t else some s

/-- The rotation of a cycle that starts at its least node. -/
def rotationKey (cycle : List String) : List String :=
  match least cycle with
  | none => []
  | some pivot => cycle.dropWhile (· != pivot) ++ cycle.takeWhile (· != pivot)

structure CycleReport where
  /-- Cycles, latest first. -/
  found : List (List String) := []
  /-- The rotation keys of the reported cycles. -/
  seen : List (List String) := []
  deriving Inhabited

/-- Reports a cycle, when asked only if no rotation of it was reported before. -/
def CycleReport.add (r : CycleReport) (unique : Bool) (cycle : List String) : CycleReport :=
  let key := rotationKey cycle
  if !unique || !r.seen.contains key then { found := cycle :: r.found, seen := key :: r.seen }
  else r

structure CycleSearch where
  trail : Trail
  report : CycleReport
  deriving Inhabited

namespace CycleSearch

/-- Tries the next successor of the current node, or goes back. Coming back to `home` closes a
cycle whatever the limit; only going on is limited. -/
def step (successors : String → List String) (home : String) (limit : Option Int) (unique : Bool)
    (s : CycleSearch) : Option CycleSearch :=
  match s.trail.todo with
  | [] => none
  | [] :: _ => some { s with trail := s.trail.leave }
  | (m :: rest) :: below =>
    let t := { s.trail with todo := rest :: below }
    if m == home then some { trail := t, report := s.report.add unique t.path.reverse }
    else if t.visiting.contains m then some { s with trail := t }
    else if within limit (t.path.length + 1) then some { s with trail := t.enter successors m }
    else some { s with trail := t }

end CycleSearch

namespace Graph

/-- The finished search for cycles through `home`. -/
def cycleSearch (g : Graph) (limit : Option Int) (unique : Bool) (budget : Nat)
    (report : CycleReport) (home : String) : CycleSearch :=
  let successors (id : String) := g.successors id none
  iterate (CycleSearch.step successors home limit unique) budget
    { trail := Trail.start successors home, report }

/-- The simple cycles, of which none that is longer than a positive `limit` is reported. -/
def cyclesWithin (g : Graph) (limit : Option Int) (unique : Bool) : List (List String) :=
  let budget := searchBudget g.nodes.length g.nodes.length + 1
  let report := g.nodeIds.foldl
    (fun report home => (g.cycleSearch limit unique budget report home).report) {}
  report.found.reverse

/-- The limit in force: the one asked for, or the one in the settings. -/
def cycleLimit (g : Graph) (maxLength : Option Int) : Option Int :=
  maxLength <|> g.config.analysis.cycleMaxLength

/-- The simple cycles, with what is not asked for taken from the settings. -/
def cycles (g : Graph) (maxLength : Option Int) (unique : Option Bool) : List (List String) :=
  g.cyclesWithin (g.cycleLimit maxLength) (unique.getD g.config.analysis.uniqueCycles)

end Graph

end CodeAtlas
