import CodeAtlas.Spelled
/-!
# Kinds of code entities and relations

The closed vocabularies of a code graph: what a node stands for, what an edge says, and which way a
slice follows the edges.
-/

namespace CodeAtlas

/-- What kind of code entity a node stands for. -/
inductive NodeKind where
  | func
  | var
  | cls
  | method
  | property
  | importItem
  | exportItem
  | statement
  | expression
  deriving DecidableEq, Inhabited

instance : Spelled NodeKind where
  all := [.func, .var, .cls, .method, .property, .importItem, .exportItem, .statement, .expression]
  text
    | .func => "function"
    | .var => "variable"
    | .cls => "class"
    | .method => "method"
    | .property => "property"
    | .importItem => "import"
    | .exportItem => "export"
    | .statement => "statement"
    | .expression => "expression"

/-- What an edge says about its source and its target. -/
inductive EdgeKind where
  | calls
  | defines
  | uses
  | contains
  | imports
  | exports
  | inherits
  | implements
  | dependsOn
  deriving DecidableEq, Inhabited

instance : Spelled EdgeKind where
  all := [.calls, .defines, .uses, .contains, .imports, .exports, .inherits, .implements,
    .dependsOn]
  text
    | .calls => "calls"
    | .defines => "defines"
    | .uses => "uses"
    | .contains => "contains"
    | .imports => "imports"
    | .exports => "exports"
    | .inherits => "extends"
    | .implements => "implements"
    | .dependsOn => "depends_on"

/-- Which edges of a node a slice follows. -/
inductive Direction where
  | forward
  | backward
  | bidirectional
  deriving DecidableEq, Inhabited

instance : Spelled Direction where
  all := [.forward, .backward, .bidirectional]
  text
    | .forward => "forward"
    | .backward => "backward"
    | .bidirectional => "bidirectional"

/-- The edge kinds that a search follows; `none` admits every kind. -/
abbrev KindFilter := Option (List EdgeKind)

def KindFilter.admits (filter : KindFilter) (kind : EdgeKind) : Bool :=
  match filter with
  | none => true
  | some kinds => kinds.contains kind

end CodeAtlas
