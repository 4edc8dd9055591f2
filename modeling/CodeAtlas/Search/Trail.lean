import CodeAtlas.Search.Loop
/-!
# Trails

A backtracking search stands at the end of a trail of nodes, none of them twice, and remembers for
each node on it which successors are still to be tried.
-/

namespace CodeAtlas

/-- Whether a number of edges or nodes keeps within a limit. -/
def within (limit : Option Int) (n : Nat) : Bool :=
  match limit with
  | none => true
  | some l => n ≤ l

/-- Where a backtracking search stands. -/
structure Trail where
  /-- Successors still to try of each node on the way, deepest first. -/
  todo : List (List String)
  /-- The nodes from the current one back to the start. -/
  path : List String
  /-- The nodes that may not be entered now. -/
  visiting : List String
  deriving Inhabited, DecidableEq

namespace Trail

variable (successors : String → List String)

def start (id : String) : Trail :=
  { todo := [successors id], path := [id], visiting := [id] }

/-- The trail that goes on to a node. -/
def enter (t : Trail) (id : String) : Trail :=
  { todo := successors id :: t.todo, path := id :: t.path, visiting := id :: t.visiting }

/-- The trail that goes back from its last node. -/
def leave (t : Trail) : Trail :=
  { todo := t.todo.tail
    path := t.path.tail
    visiting := match t.path with
      | [] => t.visiting
      | id :: _ => t.visiting.erase id }

end Trail

end CodeAtlas
