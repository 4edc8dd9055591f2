import CodeAtlas.Value
import CodeAtlas.Kind
import CodeAtlas.Config.Basic
/-!
# Code graphs

A graph owns nodes and edges in the order in which they were added. An edge names its ends by node
id and a node lists the ids of the edges at it, so neither holds the other.
-/

namespace CodeAtlas

/-- Where in its file an entity stands; zero when unknown. -/
structure Location where
  line : Int := 0
  column : Int := 0
  deriving DecidableEq, Inhabited

/-- A code entity. -/
structure Node where
  id : String
  kind : NodeKind
  name : String := ""
  file : String := ""
  location : Location := {}
  code : String := ""
  metadata : Fields := []
  /-- Ids of the edges that leave the node, oldest first. -/
  outgoing : List String := []
  /-- Ids of the edges that enter the node, oldest first. -/
  incoming : List String := []
  deriving Inhabited

/-- A relation between two nodes. -/
structure Edge where
  id : String
  source : String
  target : String
  kind : EdgeKind := .dependsOn
  metadata : Fields := []
  deriving Inhabited

/-- A graph with its settings. The counters are the last numbers used in generated ids. -/
structure Graph where
  config : Config := {}
  metadata : Fields := []
  nodes : List Node := []
  edges : List Edge := []
  nodeCounter : Nat := 0
  edgeCounter : Nat := 0
  deriving Inhabited

namespace Node

/-- What a node is called: its name, or its id when it has none. -/
def label (n : Node) : String :=
  if n.name.isEmpty then n.id else n.name

/-- The node without the edges at it. -/
def detached (n : Node) : Node :=
  { n with outgoing := [], incoming := [] }

@[simp] theorem detached_id (n : Node) : n.detached.id = n.id := rfl

@[simp] theorem detached_detached (n : Node) : n.detached.detached = n.detached := rfl

end Node

namespace Graph

def node? (g : Graph) (id : String) : Option Node :=
  g.nodes.find? (·.id == id)

def edge? (g : Graph) (id : String) : Option Edge :=
  g.edges.find? (·.id == id)

def hasNode (g : Graph) (id : String) : Bool :=
  g.nodes.any (·.id == id)

def hasEdge (g : Graph) (id : String) : Bool :=
  g.edges.any (·.id == id)

/-- The ids of the nodes, oldest first. -/
def nodeIds (g : Graph) : List String :=
  g.nodes.map (·.id)

/-- The ids of the edges, oldest first. -/
def edgeIds (g : Graph) : List String :=
  g.edges.map (·.id)

theorem node?_isSome (g : Graph) (id : String) : (g.node? id).isSome = g.hasNode id := by
  unfold node? hasNode
  rw [Bool.eq_iff_iff, List.find?_isSome, List.any_eq_true]

theorem edge?_isSome (g : Graph) (id : String) : (g.edge? id).isSome = g.hasEdge id := by
  unfold edge? hasEdge
  rw [Bool.eq_iff_iff, List.find?_isSome, List.any_eq_true]

theorem hasNode_iff (g : Graph) (id : String) : g.hasNode id = true ↔ id ∈ g.nodeIds := by
  simp [hasNode, nodeIds]

theorem hasEdge_iff (g : Graph) (id : String) : g.hasEdge id = true ↔ id ∈ g.edgeIds := by
  simp [hasEdge, edgeIds]

end Graph

end CodeAtlas
