import CodeAtlas.Graph.Basic
/-!
# Networks

A directed network with several links between two nodes, kept as nested ordered maps from source to
target to key. It behaves as networkx documents its `MultiDiGraph`: adding a link makes its ends if
they are missing, and adding a node or a link that is there updates its attributes.
-/

namespace CodeAtlas

/-- The links of a network: source, target, key, attributes. -/
abbrev Links := Assoc (Assoc (Assoc Fields))

/-- A network with attributes of its own, of its nodes and of its links. -/
structure Network where
  attributes : Fields := []
  nodes : Assoc Fields := []
  links : Links := []
  deriving Inhabited

/-- Sets every field of the second set in the first. -/
def Fields.update (fields more : Fields) : Fields :=
  more.foldl (fun acc f => acc.set f.1 f.2) fields

namespace Network

/-- Makes a node, or updates the attributes of one that is there. -/
def addNode (net : Network) (id : String) (attributes : Fields) : Network :=
  { net with
    nodes := net.nodes.set id (Fields.update ((net.nodes.get? id).getD []) attributes)
    links := if net.links.has id then net.links else net.links.set id [] }

/-- Makes a node unless it is there. -/
def ensureNode (net : Network) (id : String) : Network :=
  if net.nodes.has id then net else net.addNode id []

/-- Makes a link, or updates the attributes of the one with these ends and this key. -/
def addLink (net : Network) (source target key : String) (attributes : Fields) : Network :=
  let net := (net.ensureNode source).ensureNode target
  let targets := (net.links.get? source).getD []
  let keys := (targets.get? target).getD []
  let link := Fields.update ((keys.get? key).getD []) attributes
  { net with links := net.links.set source (targets.set target (keys.set key link)) }

structure Link where
  source : String
  target : String
  key : String
  attributes : Fields
  deriving Inhabited

/-- All links, by source, then target, then key, each in the order in which it came up. -/
def allLinks (net : Network) : List Link :=
  net.links.flatMap fun (source, targets) =>
    targets.flatMap fun (target, keys) =>
      keys.map fun (key, attributes) => { source, target, key, attributes }

def nodeAttributes (n : Node) : Fields :=
  [("node_type", .str (Spelled.text n.kind)), ("name", .str n.name), ("file_path", .str n.file),
    ("line", .int n.location.line), ("column", .int n.location.column),
    ("metadata", .object n.metadata)]

def edgeAttributes (e : Edge) : Fields :=
  [("edge_type", .str (Spelled.text e.kind)), ("metadata", .object e.metadata)]

end Network

/-- The network of a graph; the ids of the edges are the keys of the links. -/
def Graph.toNetwork (g : Graph) : Network :=
  let net : Network := { attributes := Fields.update [] g.metadata }
  let net := g.nodes.foldl (fun net n => net.addNode n.id (Network.nodeAttributes n)) net
  g.edges.foldl (fun net e => net.addLink e.source e.target e.id (Network.edgeAttributes e)) net

end CodeAtlas
