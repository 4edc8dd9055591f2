import CodeAtlas.Issue
import CodeAtlas.Kind
import CodeAtlas.Value.Display
import CodeAtlas.Json.Fault
/-!
# Faults

Everything that can be refused, as causes, with one function that words each of them. Looking up
something that is absent is not a fault.
-/

namespace CodeAtlas

/-- Why settings cannot be had. -/
inductive ConfigFault where
  /-- Fields fail their checks. -/
  | invalid (issues : List Issue)
  /-- The variable of this field holds no JSON. -/
  | unreadableVariable (field : String)
  | fileMissing (path : String)
  | isDirectory
  | unreadableFile
  | unsupportedFormat (suffix : String)
  | badJson (fault : Json.Fault)
  | badToml
  | badYaml
  /-- The file holds a value of this shape in place of a mapping. -/
  | notMapping (shape : String)
  | nonTextKey
  deriving DecidableEq, Inhabited

/-- Why a document does not describe a graph. -/
inductive DocumentFault where
  | badJson (fault : Json.Fault)
  | invalid (issues : List Issue)
  | duplicateNode (id : String)
  | duplicateEdge (id : String)
  | dangling (edge : String) (missing : List String)
  /-- Refused by an application, in its own words. -/
  | remark (words : String)
  deriving DecidableEq, Inhabited

/-- The vocabulary that a word was looked up in. -/
inductive Vocabulary where
  | nodeKind
  | edgeKind
  | direction
  deriving DecidableEq, Inhabited

/-- Why an operation is refused. -/
inductive Fault where
  /-- Refused by an application, in its own words. -/
  | remark (words : String)
  /-- A node is not in the graph; a nonempty `note` replaces the wording. -/
  | nodeNotFound (node : String) (note : Option String)
  /-- An edge names a node that is not in the graph. -/
  | missingEndpoint (node : String) (edge : Option String)
  | duplicateNode (node : String)
  | duplicateEdge (edge : String)
  | document (fault : DocumentFault)
  | unknownWord (vocabulary : Vocabulary) (given : Value)
  | negativeDepth (given : Int)
  | unknownPolicy (given : String)
  /-- A position is given by more than a line and a column. -/
  | surplusPosition (given : Nat)
  | config (fault : ConfigFault)
  deriving Inhabited

/-- The wording of a fault of the settings. Faults that carry a list of issues, or that a reader of
another format reports, have none of their own. -/
def ConfigFault.message? : ConfigFault → Option String
  | .invalid _ => none
  | .unreadableVariable field =>
    some ("error parsing value for field \"" ++ field ++ "\" from source \"EnvSettingsSource\"")
  | .fileMissing path => some ("Configuration file not found: " ++ path)
  | .isDirectory => none
  | .unreadableFile => none
  | .unsupportedFormat suffix => some ("Unsupported config format: " ++ suffix)
  | .badJson fault => some fault.message
  | .badToml => none
  | .badYaml => none
  | .notMapping shape =>
    some ("depgraph.config.GraphConfig() argument after ** must be a mapping, not " ++ shape)
  | .nonTextKey => some "keywords must be strings"

def DocumentFault.message : DocumentFault → String
  | .badJson fault => "Invalid JSON: " ++ fault.message
  | .invalid issues => "Invalid graph document (" ++ toString issues.length ++ " errors)"
  | .duplicateNode id => "Duplicate node id: " ++ Text.quoted id
  | .duplicateEdge id => "Duplicate edge id: " ++ Text.quoted id
  | .dangling edge missing =>
    "Edge " ++ Text.quoted edge ++ " references unknown node(s): "
      ++ String.intercalate ", " missing
  | .remark words => words

def Vocabulary.text : Vocabulary → String
  | .nodeKind => "NodeType"
  | .edgeKind => "EdgeType"
  | .direction => "SliceDirection"

def missingEndpointMessage (node : String) : Option String → String
  | none => "Edge endpoint not in graph: " ++ Text.quoted node
  | some edge =>
    if edge.isEmpty then "Edge endpoint not in graph: " ++ Text.quoted node
    else "Edge " ++ Text.quoted edge ++ " endpoint not in graph: " ++ Text.quoted node

def Fault.message? : Fault → Option String
  | .remark words => some words
  | .nodeNotFound node note =>
    match note with
    | some words => some (if words.isEmpty then "Node not found: " ++ Text.quoted node else words)
    | none => some ("Node not found: " ++ Text.quoted node)
  | .missingEndpoint node edge => some (missingEndpointMessage node edge)
  | .duplicateNode node => some ("Duplicate node id: " ++ Text.quoted node)
  | .duplicateEdge edge => some ("Duplicate edge id: " ++ Text.quoted edge)
  | .document fault => some fault.message
  | .unknownWord vocabulary given => some (given.display ++ " is not a valid " ++ vocabulary.text)
  | .negativeDepth given => some ("max_depth must be >= 0, got " ++ toString given)
  | .unknownPolicy given => some ("Unknown dangling edge policy: " ++ given)
  | .surplusPosition given =>
    some ("Location.__init__() takes from 1 to 3 positional arguments but "
      ++ toString (given + 1) ++ " were given")
  | .config fault => fault.message?

/-- The groups by which callers tell faults apart. A fault may belong to several. -/
inductive FaultGroup where
  | graph
  | nodeNotFound
  | missingEndpoint
  | duplicateNode
  | duplicateEdge
  | document
  | absentKey
  | badValue
  deriving DecidableEq, Inhabited

/-- The groups a fault belongs to; a missing endpoint is also a node that was not found. -/
def Fault.groups : Fault → List FaultGroup
  | .remark _ => [.graph]
  | .nodeNotFound _ _ => [.graph, .nodeNotFound, .absentKey]
  | .missingEndpoint _ _ => [.graph, .nodeNotFound, .missingEndpoint, .absentKey]
  | .duplicateNode _ => [.graph, .duplicateNode, .badValue]
  | .duplicateEdge _ => [.graph, .duplicateEdge, .badValue]
  | .document _ => [.graph, .document, .badValue]
  | .surplusPosition _ => []
  | .config _ => []
  | _ => [.badValue]

end CodeAtlas
