import CodeAtlas.Graph.Basic
/-!
# Drawings

A graph as text for a graph drawing tool: one statement for each node and then one for each edge,
in order. Labels and colours are functions that a caller may replace.
-/

namespace CodeAtlas

def NodeKind.color : NodeKind → String
  | .func => "blue"
  | .var => "green"
  | .cls => "red"
  | .method => "purple"
  | .property => "orange"
  | .importItem => "brown"
  | .exportItem => "pink"
  | .statement => "black"
  | .expression => "black"

def EdgeKind.color : EdgeKind → String
  | .calls => "blue"
  | .defines => "green"
  | .uses => "red"
  | .contains => "purple"
  | .imports => "brown"
  | .exports => "pink"
  | .inherits => "black"
  | .implements => "black"
  | .dependsOn => "black"

/-- How a drawing looks; what is not given comes from the settings of the graph. -/
structure DotOptions where
  nodeLabel : Node → String := Node.label
  nodeColor : Node → String := fun n => n.kind.color
  edgeLabel : Edge → String := fun e => Spelled.text e.kind
  edgeColor : Edge → String := fun e => e.kind.color
  graphName : Option String := none
  rankDir : Option String := none
  indent : Option Int := none

namespace Dot

def replaceChar (old : Char) (new text : List Char) : List Char :=
  text.flatMap fun c => if c == old then new else [c]

/-- Escapes a text for double quotes. Backslashes are doubled first, so that those put before quotes
and in place of line breaks stay single. -/
def escape (text : List Char) : List Char :=
  replaceChar '\n' ['\\', 'n']
    (replaceChar '"' ['\\', '"'] (replaceChar '\\' ['\\', '\\'] text))

/-- What the three replacements together make of one character. -/
def escapeChar (c : Char) : List Char :=
  if c == '\\' then ['\\', '\\']
  else if c == '"' then ['\\', '"']
  else if c == '\n' then ['\\', 'n']
  else [c]

theorem escape_singleton (c : Char) : escape [c] = escapeChar c := by
  unfold escape replaceChar escapeChar
  by_cases hslash : c = '\\'
  · subst hslash
    rfl
  · by_cases hquote : c = '"'
    · subst hquote
      rfl
    · by_cases hbreak : c = '\n'
      · subst hbreak
        rfl
      · simp [hslash, hquote, hbreak]

theorem replaceChar_append (old : Char) (new text more : List Char) :
    replaceChar old new (text ++ more) = replaceChar old new text ++ replaceChar old new more :=
  List.flatMap_append

theorem escape_append (text more : List Char) :
    escape (text ++ more) = escape text ++ escape more := by
  simp only [escape, replaceChar_append]

/-- Each character is escaped by itself: no replacement undoes or repeats an earlier one. -/
theorem escape_eq_flatMap (text : List Char) : escape text = text.flatMap escapeChar := by
  induction text with
  | nil => rfl
  | cons c text ih =>
    rw [← List.singleton_append, escape_append, escape_singleton, ih, List.flatMap_append,
      List.flatMap_singleton]

def quote (s : String) : String :=
  String.ofList ('"' :: (escape s.toList ++ ['"']))

/-- Whether a character may start a plain name. -/
def isNameStart (c : Char) : Bool :=
  c.isAlpha || c == '_'

/-- Whether a character may go on in a plain name. -/
def isNameRest (c : Char) : Bool :=
  c.isAlphanum || c == '_'

/-- Whether the characters after the first may stand unquoted; one line break may end them. -/
def isPlainRest : List Char → Bool
  | [] => true
  | ['\n'] => true
  | c :: rest => isNameRest c && isPlainRest rest

/-- Whether a name may stand unquoted. -/
def isPlainName : List Char → Bool
  | [] => false
  | c :: rest => isNameStart c && isPlainRest rest

/-- A graph name, quoted unless it is plain. -/
def writeName (name : String) : String :=
  if isPlainName name.toList then name else quote name

def firstNonempty (choice : Option String) (otherwise : String) : String :=
  match choice with
  | some s => if s.isEmpty then otherwise else s
  | none => otherwise

/-- The bracketed label and colour that end a statement. -/
def attributes (label color : String) : String :=
  " [label=" ++ quote label ++ ", color=" ++ quote color ++ "];"

def nodeLine (o : DotOptions) (pad : String) (n : Node) : String :=
  pad ++ quote n.id ++ attributes (o.nodeLabel n) (o.nodeColor n)

def edgeLine (o : DotOptions) (pad : String) (e : Edge) : String :=
  pad ++ quote e.source ++ " -> " ++ quote e.target ++ attributes (o.edgeLabel e) (o.edgeColor e)

/-- The layout direction in force, empty when there is none. -/
def rankDir (o : DotOptions) (settings : ExportSettings) : String :=
  firstNonempty o.rankDir ((settings.dotRankDir.map Spelled.text).getD "")

/-- The lines of a drawing. -/
def lines (g : Graph) (o : DotOptions) : List String :=
  let settings := g.config.serialization
  let name := firstNonempty o.graphName settings.dotGraphName
  let rank := rankDir o settings
  let pad := String.ofList (List.replicate (o.indent.getD settings.dotIndent).toNat ' ')
  ["digraph " ++ writeName name ++ " \x7b"]
    ++ (if rank.isEmpty then [] else [pad ++ "rankdir=" ++ rank ++ ";"])
    ++ g.nodes.map (nodeLine o pad)
    ++ g.edges.map (edgeLine o pad)
    ++ ["\x7d"]

end Dot

/-- The drawing of a graph, each line ended by a line break. -/
def Graph.toDot (g : Graph) (o : DotOptions) : String :=
  String.join ((Dot.lines g o).map (· ++ "\n"))

end CodeAtlas
