import CodeAtlas.Config.Files
import CodeAtlas.DocumentText
import CodeAtlas.Search.Slice
import CodeAtlas.Search.Paths
import CodeAtlas.Search.Components
import CodeAtlas.Search.Cycles
import CodeAtlas.Search.Closure
/-!
# Journal

Operations note what they did as events. A filter lets through the events from some severity on.
-/

namespace CodeAtlas

inductive Severity where
  | debug
  | info
  | warning
  | error
  | critical
  deriving DecidableEq, Inhabited

instance : Spelled Severity where
  all := [.debug, .info, .warning, .error, .critical]
  text
    | .debug => "debug"
    | .info => "info"
    | .warning => "warning"
    | .error => "error"
    | .critical => "critical"

def Severity.rank : Severity → Nat
  | .debug => 10
  | .info => 20
  | .warning => 30
  | .error => 40
  | .critical => 50

/-- What an operation notes. -/
inductive Event where
  | nodeRemoved (node : String)
  | sliceComputed (start : String) (direction : Direction) (nodes edges : Nat)
  | pathsEnumerated (start finish : String) (paths : Nat) (limit : Option Int)
  | componentsFound (components : Nat)
  | cyclesEnumerated (cycles : Nat) (limit : Option Int)
  | edgeDropped (edge : String) (missing : List String)
  | graphLoaded (nodes edges dropped : Nat)
  | closureComputed (nodes edges inferred : Nat)
  deriving DecidableEq, Inhabited

namespace Event

def severity : Event → Severity
  | .closureComputed .. => .info
  | _ => .debug

def title : Event → String
  | .nodeRemoved .. => "Node removed"
  | .sliceComputed .. => "Slice computed"
  | .pathsEnumerated .. => "Paths enumerated"
  | .componentsFound .. => "Strongly connected components found"
  | .cyclesEnumerated .. => "Cycles enumerated"
  | .edgeDropped .. => "Dropping dangling edge"
  | .graphLoaded .. => "Graph loaded from JSON"
  | .closureComputed .. => "Transitive closure computed"

def limitValue : Option Int → Value
  | none => .null
  | some l => .int l

def details : Event → Fields
  | .nodeRemoved node => [("node_id", .str node)]
  | .sliceComputed start direction nodes edges =>
    [("start", .str start), ("direction", .str (Spelled.text direction)), ("nodes", .int nodes),
      ("edges", .int edges)]
  | .pathsEnumerated start finish paths limit =>
    [("start", .str start), ("end", .str finish), ("paths", .int paths),
      ("max_depth", limitValue limit)]
  | .componentsFound components => [("components", .int components)]
  | .cyclesEnumerated cycles limit => [("cycles", .int cycles), ("max_length", limitValue limit)]
  | .edgeDropped edge missing =>
    [("edge_id", .str edge), ("missing", .list (missing.map .str))]
  | .graphLoaded nodes edges dropped =>
    [("nodes", .int nodes), ("edges", .int edges), ("dropped_edges", .int dropped)]
  | .closureComputed nodes edges inferred =>
    [("nodes", .int nodes), ("edges", .int edges), ("transitive_edges", .int inferred)]

def toValue (e : Event) : Value :=
  .object (e.details ++ [("event", .str e.title), ("log_level", .str (Spelled.text e.severity))])

end Event

/-! ## Filters -/

/-- The least rank that is let through; without one everything is. -/
abbrev LogFilter := Option Nat

namespace LogFilter

def passes (filter : LogFilter) (s : Severity) : Bool :=
  match filter with
  | none => true
  | some rank => rank ≤ s.rank

/-- The ranks that can be asked for by name. -/
def named : List (String × Nat) :=
  [("DEBUG", 10), ("INFO", 20), ("WARN", 30), ("WARNING", 30), ("ERROR", 40), ("CRITICAL", 50),
    ("FATAL", 50), ("NOTSET", 0)]

/-- Capital letters for names of ranks. Besides `a` to `z`, dotless i and long s have a plain
capital. -/
def capital (c : Char) : Char :=
  if c.toNat == 0x131 then 'I' else if c.toNat == 0x17F then 'S' else c.toUpper

/-- The filter of a named rank in any case of letters; an unknown name means `INFO`. -/
def ofName (name : String) : LogFilter :=
  some ((named.lookup (name.map capital)).getD 20)

/-- The filter that is asked for by name, or else the one that the settings tell. -/
def configured (yaml : Yaml.Reader) (files : FileSystem) (env : Environment)
    (level : Option String) : Except ConfigFault LogFilter :=
  match level with
  | some name => .ok (ofName name)
  | none => (Config.load yaml files env none none).map fun c => ofName (Spelled.text c.logLevel)

def through (filter : LogFilter) : List Severity :=
  (Spelled.all : List Severity).filter filter.passes

end LogFilter

/-! ## Operations that note events -/

/-- A result and the events on the way to it. -/
structure Logged (α : Type) where
  value : α
  events : List Event
  deriving Inhabited

namespace Graph

def removeNodeLogged (g : Graph) (id : String) : Logged (Option Graph) :=
  match g.removeNode? id with
  | some h => ⟨some h, [.nodeRemoved id]⟩
  | none => ⟨none, []⟩

/-- Takes a slice and notes its size. -/
def sliceLogged (g : Graph) (start : String) (direction : Value) (o : SliceOptions) :
    Logged (Except Fault Graph) :=
  match g.slice start direction o, Direction.ofValue direction with
  | .ok h, .ok d => ⟨.ok h, [.sliceComputed start d h.nodes.length h.edges.length]⟩
  | outcome, _ => ⟨outcome, []⟩

def pathsLogged (g : Graph) (start finish : String) (maxDepth : Option Int)
    (kinds : Option (List Value)) : Logged (Except Fault (List (List String))) :=
  match g.paths start finish maxDepth kinds with
  | .ok found =>
    ⟨.ok found, [.pathsEnumerated start finish found.length (g.pathLimit maxDepth)]⟩
  | .error fault => ⟨.error fault, []⟩

def componentsLogged (g : Graph) : Logged (List (List String)) :=
  let found := g.components
  ⟨found, [.componentsFound found.length]⟩

def cyclesLogged (g : Graph) (maxLength : Option Int) (unique : Option Bool) :
    Logged (List (List String)) :=
  let found := g.cycles maxLength unique
  ⟨found, [.cyclesEnumerated found.length (g.cycleLimit maxLength)]⟩

/-- Closes a graph and notes how many edges were inferred. -/
def closureLogged (g : Graph) (kinds : Option (List Value)) : Logged (Except Fault Graph) :=
  match g.closure kinds with
  | .ok h =>
    ⟨.ok h, [.closureComputed g.nodes.length g.edges.length (h.edges.length - g.edges.length)]⟩
  | .error fault => ⟨.error fault, []⟩

end Graph

namespace Document.Loading

/-- Notes each edge left out and, if the load succeeded, its result. -/
def logged (l : Loading) : Logged (Except Fault Graph) :=
  let dropped := l.drops.map fun d => Event.edgeDropped d.edge d.missing
  match l.outcome with
  | .ok g =>
    ⟨.ok g, dropped ++ [.graphLoaded g.nodes.length g.edges.length l.drops.length]⟩
  | .error fault => ⟨.error fault, dropped⟩

end Document.Loading

end CodeAtlas
