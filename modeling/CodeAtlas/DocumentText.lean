import CodeAtlas.Document
import CodeAtlas.Json.Reader
import CodeAtlas.Json.Writer
/-!
# Graph documents as text

A graph is saved as the JSON text of its document and rebuilt from it.
-/

namespace CodeAtlas.Graph

/-- The JSON text of a graph; the settings decide when no indentation is given. -/
def toText (g : Graph) (indent : Option Int) : String :=
  Json.render (indent <|> g.config.serialization.jsonIndent) g.toData

/-- Rebuilds a graph from JSON text. The settings are needed only once the text is read. -/
def loadText (text : String) (policy : Value) (config : Except Fault Config) : Document.Loading :=
  match Json.parse text with
  | .error fault => .failed (.document (.badJson fault))
  | .ok data =>
    match config with
    | .error fault => .failed fault
    | .ok config => loadData data policy config

end CodeAtlas.Graph
