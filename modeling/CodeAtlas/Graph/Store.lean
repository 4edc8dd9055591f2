import CodeAtlas.Graph.Basic
import CodeAtlas.Fault
/-!
# Adding and removing

Nodes and edges enter a graph one at a time and leave it again. An edge needs both its ends, a
removed node takes its edges along, and a generated id is used up even if what asked for it fails.
-/

namespace CodeAtlas

namespace Location

/-- A location from its line and column in this order; missing parts are zero. -/
def ofList : List Int → Except Fault Location
  | [] => .ok {}
  | [line] => .ok { line }
  | [line, column] => .ok { line, column }
  | parts => .error (.surplusPosition parts.length)

end Location

namespace NodeKind

def ofValue (v : Value) : Except Fault NodeKind :=
  match v.text?.bind Spelled.ofText? with
  | some kind => .ok kind
  | none => .error (.unknownWord .nodeKind v)

end NodeKind

namespace EdgeKind

def ofValue (v : Value) : Except Fault EdgeKind :=
  match v.text?.bind Spelled.ofText? with
  | some kind => .ok kind
  | none => .error (.unknownWord .edgeKind v)

end EdgeKind

namespace KindFilter

/-- The filter that a list of values names; the first value that names no kind is the fault. -/
def ofValues : Option (List Value) → Except Fault KindFilter
  | none => .ok none
  | some vs => (vs.mapM EdgeKind.ofValue).map some

end KindFilter

namespace Node

/-- Lists `e` at a node that is one of its ends. -/
def attach (e : Edge) (n : Node) : Node :=
  { n with
    outgoing := if n.id == e.source then n.outgoing ++ [e.id] else n.outgoing
    incoming := if n.id == e.target then n.incoming ++ [e.id] else n.incoming }

/-- Strikes `e` from a node that is one of its ends. -/
def detach (e : Edge) (n : Node) : Node :=
  { n with
    outgoing := if n.id == e.source then n.outgoing.erase e.id else n.outgoing
    incoming := if n.id == e.target then n.incoming.erase e.id else n.incoming }

@[simp] theorem attach_id (e : Edge) (n : Node) : (n.attach e).id = n.id := rfl

@[simp] theorem detach_id (e : Edge) (n : Node) : (n.detach e).id = n.id := rfl

end Node

/-! ## Generated ids -/

/-- The id made of a stem and a number. -/
def numberedId (stem : String) (k : Nat) : String :=
  stem ++ toString k

/-- The first number above `k` whose id is not taken, looking past at most `tries` taken ones. -/
def nextFree (stem : String) (taken : List String) : Nat → Nat → Nat
  | 0, k => k + 1
  | tries + 1, k =>
    if taken.contains (numberedId stem (k + 1)) then nextFree stem taken tries (k + 1) else k + 1

def nodeStem : String := "node_"

def edgeStem : String := "edge_"

/-- Everything about a new node but its kind and, unless given, its id. -/
structure NodeDraft where
  name : String := ""
  file : String := ""
  location : Location := {}
  code : String := ""
  metadata : Fields := []
  id : Option String := none
  deriving Inhabited

namespace Graph

def empty (config : Config) (metadata : Fields) : Graph :=
  { config, metadata }

/-! ## Nodes -/

/-- Adds a node without the edges at it. -/
def addNode (g : Graph) (n : Node) : Except Fault Graph :=
  if g.hasNode n.id then .error (.duplicateNode n.id)
  else .ok { g with nodes := g.nodes ++ [n.detached] }

/-- A fresh node id, with the counter moved on to it. -/
def freshNodeId (g : Graph) : Graph × String :=
  let k := nextFree nodeStem g.nodeIds g.nodeIds.length g.nodeCounter
  ({ g with nodeCounter := k }, numberedId nodeStem k)

/-- The id to use for a new node: the one given, or a fresh one. -/
def claimNodeId (g : Graph) : Option String → Graph × String
  | some id => (g, id)
  | none => g.freshNodeId

/-- Builds a node of a known kind and adds it. -/
def putNode (g : Graph) (kind : NodeKind) (draft : NodeDraft) : Graph × Except Fault Node :=
  let (g, id) := g.claimNodeId draft.id
  let n : Node :=
    { id, kind, name := draft.name, file := draft.file, location := draft.location,
      code := draft.code, metadata := draft.metadata }
  match g.addNode n with
  | .error fault => (g, .error fault)
  | .ok g => (g, .ok n)

/-- Builds a node and adds it. The id is settled first, then the kind, then whether the id is
free. -/
def createNode (g : Graph) (kind : Value) (draft : NodeDraft) : Graph × Except Fault Node :=
  match NodeKind.ofValue kind with
  | .error fault => ((g.claimNodeId draft.id).1, .error fault)
  | .ok kind => g.putNode kind draft

/-! ## Edges -/

/-- Adds an edge and lists it at both its ends. Its id has to be free and its ends present. -/
def addEdge (g : Graph) (e : Edge) : Except Fault Graph :=
  if g.hasEdge e.id then .error (.duplicateEdge e.id)
  else if !g.hasNode e.source then .error (.missingEndpoint e.source (some e.id))
  else if !g.hasNode e.target then .error (.missingEndpoint e.target (some e.id))
  else .ok { g with edges := g.edges ++ [e], nodes := g.nodes.map (Node.attach e) }

/-- A fresh edge id, with the counter moved on to it. -/
def freshEdgeId (g : Graph) : Graph × String :=
  let k := nextFree edgeStem g.edgeIds g.edgeIds.length g.edgeCounter
  ({ g with edgeCounter := k }, numberedId edgeStem k)

/-- The id to use for a new edge: the one given, or a fresh one. -/
def claimEdgeId (g : Graph) : Option String → Graph × String
  | some id => (g, id)
  | none => g.freshEdgeId

/-- Builds an edge of a known kind and adds it. -/
def connect (g : Graph) (source target : String) (kind : EdgeKind) (metadata : Fields)
    (id : Option String) : Graph × Except Fault Edge :=
  let (g, id) := g.claimEdgeId id
  let e : Edge := { id, source, target, kind, metadata }
  match g.addEdge e with
  | .error fault => (g, .error fault)
  | .ok g => (g, .ok e)

/-- Builds an edge and adds it. The id is settled first, then the kind, then the ends. -/
def createEdge (g : Graph) (source target : String) (kind : Value) (metadata : Fields)
    (id : Option String) : Graph × Except Fault Edge :=
  match EdgeKind.ofValue kind with
  | .error fault => ((g.claimEdgeId id).1, .error fault)
  | .ok kind => g.connect source target kind metadata id

/-! ## Removal -/

/-- Removes an edge and strikes it from both its ends; `none` when there is none of that id. -/
def removeEdge? (g : Graph) (id : String) : Option Graph :=
  (g.edge? id).map fun e =>
    { g with edges := g.edges.eraseP (·.id == id), nodes := g.nodes.map (Node.detach e) }

/-- Removes an edge if there is one of that id. -/
def removeEdge (g : Graph) (id : String) : Graph :=
  (g.removeEdge? id).getD g

/-- Removes a node after all edges at it; `none` when there is none of that id. -/
def removeNode? (g : Graph) (id : String) : Option Graph :=
  (g.node? id).map fun n =>
    let bare := (n.outgoing ++ n.incoming).foldl removeEdge g
    { bare with nodes := bare.nodes.eraseP (·.id == id) }

/-- Removes a node if there is one of that id. -/
def removeNode (g : Graph) (id : String) : Graph :=
  (g.removeNode? id).getD g

/-! ## Rebuilding -/

def addNodes (g : Graph) (nodes : List Node) : Except Fault Graph :=
  nodes.foldlM addNode g

def addEdges (g : Graph) (edges : List Edge) : Except Fault Graph :=
  edges.foldlM addEdge g

/-- An independent graph with the same contents, order, ids and counters. -/
def copy (g : Graph) : Except Fault Graph := do
  let h ← (empty g.config g.metadata).addNodes g.nodes
  let h ← h.addEdges g.edges
  return { h with nodeCounter := g.nodeCounter, edgeCounter := g.edgeCounter }

/-! ## Attributes -/

def setMetadata (g : Graph) (key : String) (v : Value) : Graph :=
  { g with metadata := Assoc.set g.metadata key v }

def setNodeMetadata (g : Graph) (id key : String) (v : Value) : Graph :=
  { g with nodes := g.nodes.map fun n =>
      if n.id == id then { n with metadata := Assoc.set n.metadata key v } else n }

def setEdgeMetadata (g : Graph) (id key : String) (v : Value) : Graph :=
  { g with edges := g.edges.map fun e =>
      if e.id == id then { e with metadata := Assoc.set e.metadata key v } else e }

end Graph

end CodeAtlas
