import CodeAtlas.Check
import CodeAtlas.Graph.Store
/-!
# Graph documents

The lossless form of a graph as data: records of nodes and edges in order, and the attributes of
the graph. Reading checks a document against its schema and reports every fault; building the graph
then decides what becomes of edges whose ends are missing.
-/

namespace CodeAtlas

/-- The contents of a graph; the nodes carry no edges. -/
structure Document where
  nodes : List Node
  edges : List Edge
  metadata : Fields
  deriving Inhabited

namespace Document

/-! ## Writing -/

def ofGraph (g : Graph) : Document :=
  { nodes := g.nodes.map Node.detached, edges := g.edges, metadata := g.metadata }

def nodeRecord (n : Node) : Value :=
  .object [
    ("id", .str n.id),
    ("type", .str (Spelled.text n.kind)),
    ("name", .str n.name),
    ("file", .str n.file),
    ("location", .object [("line", .int n.location.line), ("column", .int n.location.column)]),
    ("code", .str n.code),
    ("metadata", .object n.metadata)]

def edgeRecord (e : Edge) : Value :=
  .object [
    ("id", .str e.id),
    ("source", .str e.source),
    ("target", .str e.target),
    ("type", .str (Spelled.text e.kind)),
    ("metadata", .object e.metadata)]

def toValue (d : Document) : Value :=
  .object [
    ("nodes", .list (d.nodes.map nodeRecord)),
    ("edges", .list (d.edges.map edgeRecord)),
    ("metadata", .object d.metadata)]

/-! ## Reading -/

/-- Checks the fields of a location; missing parts are zero. -/
def checkLocation (fields : Fields) : Checked Location :=
  Checked.map₂ Location.mk (Check.optional fields "line" 0 Check.int)
    (Check.optional fields "column" 0 Check.int)

/-- Checks the fields of a node record, in the order in which they are declared. -/
def checkNode (fields : Fields) : Checked Node :=
  let ident := Check.required fields "id" Check.nonemptyText
  let kind := Check.required fields "type" (Check.word NodeKind .unknownKind)
  let name := Check.optional fields "name" "" Check.text
  let file := Check.optional fields "file" "" Check.text
  let location := Check.optional fields "location" {} (Check.record checkLocation)
  let code := Check.optional fields "code" "" Check.text
  let metadata := Check.optional fields "metadata" [] Check.object
  let head := (ident.both kind).both (name.both file)
  let tail := (location.both code).both metadata
  (head.both tail).map fun (((id, kind), (name, file)), ((location, code), metadata)) =>
    { id, kind, name, file, location, code, metadata }

/-- Checks the fields of an edge record, in the order in which they are declared. -/
def checkEdge (fields : Fields) : Checked Edge :=
  let ident := Check.required fields "id" Check.nonemptyText
  let source := Check.required fields "source" Check.nonemptyText
  let target := Check.required fields "target" Check.nonemptyText
  let kind := Check.required fields "type" (Check.word EdgeKind .unknownKind)
  let metadata := Check.optional fields "metadata" [] Check.object
  ((ident.both (source.both target)).both (kind.both metadata)).map
    fun ((id, (source, target)), (kind, metadata)) => { id, source, target, kind, metadata }

def checkFields (fields : Fields) : Checked Document :=
  let nodes := Check.required fields "nodes" (Check.listOf (Check.record checkNode))
  let edges := Check.required fields "edges" (Check.listOf (Check.record checkEdge))
  let metadata := Check.optional fields "metadata" [] Check.object
  ((nodes.both edges).both metadata).map fun ((nodes, edges), metadata) =>
    { nodes, edges, metadata }

def ofValue (v : Value) : Checked Document :=
  Check.record checkFields v

/-! ## Building the graph -/

/-- An edge that was left out, and the ends it lacks. -/
structure Drop where
  edge : String
  missing : List String
  deriving DecidableEq, Inhabited

/-- The course of a load: the edges left out on the way, and how it ended. -/
structure Loading where
  drops : List Drop
  outcome : Except Fault Graph
  deriving Inhabited

namespace Loading

/-- A load that fails before any edge is looked at. -/
def failed (fault : Fault) : Loading :=
  { drops := [], outcome := .error fault }

end Loading

/-- The ends of an edge that are not in the graph, the source first. -/
def missingEnds (g : Graph) (e : Edge) : List String :=
  [e.source, e.target].filter (!g.hasNode ·)

/-- Adds nodes in order; a repeated id is a fault of the document. -/
def loadNodes (g : Graph) : List Node → Except Fault Graph
  | [] => .ok g
  | n :: rest =>
    match g.addNode n with
    | .ok g => loadNodes g rest
    | .error (.duplicateNode id) => .error (.document (.duplicateNode id))
    | .error fault => .error fault

/-- Adds edges in order. An edge without its ends is dropped or refused before its id is looked
at. -/
def loadEdges (policy : DanglingPolicy) (g : Graph) (drops : List Drop) : List Edge → Loading
  | [] => { drops, outcome := .ok g }
  | e :: rest =>
    match missingEnds g e with
    | [] =>
      match g.addEdge e with
      | .ok g => loadEdges policy g drops rest
      | .error (.duplicateEdge id) => { drops, outcome := .error (.document (.duplicateEdge id)) }
      | .error fault => { drops, outcome := .error fault }
    | missing =>
      match policy with
      | .reject => { drops, outcome := .error (.document (.dangling e.id missing)) }
      | .drop => loadEdges policy g (drops ++ [{ edge := e.id, missing }]) rest

/-- Builds the graph of a document: nodes first, then edges. -/
def build (d : Document) (policy : DanglingPolicy) (config : Config) : Loading :=
  match loadNodes (Graph.empty config d.metadata) d.nodes with
  | .error fault => .failed fault
  | .ok g => loadEdges policy g [] d.edges

end Document

/-! ## Loading -/

/-- The policy that a value names; a vacant value leaves the choice to the settings. -/
def DanglingPolicy.ofValue (v : Value) (config : Config) : Except Fault DanglingPolicy :=
  if v.isVacant then .ok config.serialization.onDanglingEdge
  else match v.text?.bind Spelled.ofText? with
    | some policy => .ok policy
    | none => .error (.unknownPolicy (v.text?.getD v.display))

namespace Graph

def toData (g : Graph) : Value :=
  (Document.ofGraph g).toValue

/-- Rebuilds a graph from data. The policy is checked first, then the schema. -/
def loadData (data policy : Value) (config : Config) : Document.Loading :=
  match DanglingPolicy.ofValue policy config with
  | .error fault => .failed fault
  | .ok policy =>
    match Document.ofValue data with
    | .rejected issues => .failed (.document (.invalid issues))
    | .accepted d => d.build policy config

end Graph

end CodeAtlas
