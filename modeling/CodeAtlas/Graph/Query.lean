import CodeAtlas.Graph.Basic
import CodeAtlas.Distinct
import CodeAtlas.Value.Likeness
/-!
# Questions to a graph

Everything that can be asked of a graph without a search. Asking about an absent node or edge gives
an empty answer.
-/

namespace CodeAtlas

/-- Which neighbours are meant: those an edge leads to, those an edge comes from, or both. -/
inductive Side where
  | out
  | into
  | both
  deriving DecidableEq, Inhabited

instance : Spelled Side where
  all := [.out, .into, .both]
  text
    | .out => "out"
    | .into => "in"
    | .both => "both"

/-- Counts of what a graph holds; kinds stand in the order of their first item. -/
structure Stats where
  nodes : Nat
  edges : Nat
  files : Nat
  nodeKinds : List (NodeKind × Nat)
  edgeKinds : List (EdgeKind × Nat)
  deriving DecidableEq, Inhabited

/-- How often each item occurs, in the order of first occurrence. -/
def tally {α : Type} [DecidableEq α] (as : List α) : List (α × Nat) :=
  (distinct as).map fun a => (a, as.count a)

namespace Node

/-- Whether two nodes agree in everything but the edges at them. -/
def isLike (a b : Node) : Bool :=
  a.id == b.id && a.kind == b.kind && a.name == b.name && a.file == b.file
    && a.location == b.location && a.code == b.code && Fields.isLike a.metadata b.metadata

end Node

namespace Edge

/-- Whether two edges agree in everything. -/
def isLike (a b : Edge) : Bool :=
  a.id == b.id && a.source == b.source && a.target == b.target && a.kind == b.kind
    && Fields.isLike a.metadata b.metadata

end Edge

namespace Graph

/-! ## Selections -/

def nodesOfKind (g : Graph) (kind : NodeKind) : List Node :=
  g.nodes.filter (·.kind == kind)

def edgesOfKind (g : Graph) (kind : EdgeKind) : List Edge :=
  g.edges.filter (·.kind == kind)

def nodesInFile (g : Graph) (file : String) : List Node :=
  g.nodes.filter (·.file == file)

/-- The files that nodes come from, sorted; a node without a file does not count. -/
def files (g : Graph) : List String :=
  (distinct ((g.nodes.map (·.file)).filter (!·.isEmpty))).mergeSort

/-! ## Edges at a node -/

/-- The edges that leave a node, oldest first. -/
def outgoingEdges (g : Graph) (id : String) : List Edge :=
  match g.node? id with
  | some n => n.outgoing.filterMap g.edge?
  | none => []

/-- The edges that enter a node, oldest first. -/
def incomingEdges (g : Graph) (id : String) : List Edge :=
  match g.node? id with
  | some n => n.incoming.filterMap g.edge?
  | none => []

/-- Targets of the admitted edges that leave a node, one for each edge. -/
def targets (g : Graph) (id : String) (filter : KindFilter) : List String :=
  ((g.outgoingEdges id).filter (filter.admits ·.kind)).map (·.target)

/-- Sources of the admitted edges that enter a node, one for each edge. -/
def sources (g : Graph) (id : String) (filter : KindFilter) : List String :=
  ((g.incomingEdges id).filter (filter.admits ·.kind)).map (·.source)

/-- The neighbours of a node on one side or both, one for each edge. -/
def neighbors (g : Graph) (id : String) (filter : KindFilter) : Side → List String
  | .out => g.targets id filter
  | .into => g.sources id filter
  | .both => g.targets id filter ++ g.sources id filter

/-- Neighbours by words: an unknown side has none, an unknown kind admits nothing. -/
def neighborsNamed (g : Graph) (id : String) (kinds : Option (List String)) (side : String) :
    List String :=
  match (Spelled.ofText? side : Option Side) with
  | some side => g.neighbors id (kinds.map (·.filterMap Spelled.ofText?)) side
  | none => []

/-- Distinct targets of the admitted edges that leave a node, first edge first. -/
def successors (g : Graph) (id : String) (filter : KindFilter) : List String :=
  distinct (g.targets id filter)

/-! ## Figures -/

def stats (g : Graph) : Stats :=
  { nodes := g.nodes.length
    edges := g.edges.length
    files := g.files.length
    nodeKinds := tally (g.nodes.map (·.kind))
    edgeKinds := tally (g.edges.map (·.kind)) }

def summary (g : Graph) : String :=
  "CodeGraph(nodes=" ++ toString g.nodes.length ++ ", edges=" ++ toString g.edges.length ++ ")"

end Graph

end CodeAtlas
