import CodeAtlas.Check
import CodeAtlas.Config.Basic
/-!
# Settings as data

How settings are read from the fields of an object, and written as one. Within a group unknown
fields do not matter; at the top they are issues, reported after those of the known fields.
-/

namespace CodeAtlas

namespace AnalysisSettings

/-- The names of the fields, in the order in which they are checked. -/
def fieldNames : List String := ["path_max_depth", "cycle_max_length", "unique_cycles"]

def ofFields (fields : Fields) : Checked AnalysisSettings :=
  let bound := Check.nullable (Check.intBetween 1 10000)
  let pathMaxDepth := Check.optional fields "path_max_depth" none bound
  let cycleMaxLength := Check.optional fields "cycle_max_length" none bound
  let uniqueCycles := Check.optional fields "unique_cycles" true Check.bool
  ((pathMaxDepth.both cycleMaxLength).both uniqueCycles).map
    fun ((pathMaxDepth, cycleMaxLength), uniqueCycles) =>
      { pathMaxDepth, cycleMaxLength, uniqueCycles }

def toValue (s : AnalysisSettings) : Value :=
  .object [
    ("path_max_depth", (s.pathMaxDepth.map Value.int).getD .null),
    ("cycle_max_length", (s.cycleMaxLength.map Value.int).getD .null),
    ("unique_cycles", .bool s.uniqueCycles)]

end AnalysisSettings

namespace ExportSettings

/-- The names of the fields, in the order in which they are checked. -/
def fieldNames : List String :=
  ["dot_graph_name", "dot_indent", "dot_rankdir", "on_dangling_edge", "json_indent"]

def ofFields (fields : Fields) : Checked ExportSettings :=
  let width := Check.intBetween 0 8
  let dotGraphName := Check.optional fields "dot_graph_name" "CodeGraph" Check.nonemptyText
  let dotIndent := Check.optional fields "dot_indent" 2 width
  let dotRankDir :=
    Check.optional fields "dot_rankdir" none (Check.nullable (Check.word RankDir .notAChoice))
  let onDanglingEdge :=
    Check.optional fields "on_dangling_edge" .drop (Check.word DanglingPolicy .notAChoice)
  let jsonIndent := Check.optional fields "json_indent" (some 2) (Check.nullable width)
  ((dotGraphName.both dotIndent).both (dotRankDir.both (onDanglingEdge.both jsonIndent))).map
    fun ((dotGraphName, dotIndent), (dotRankDir, (onDanglingEdge, jsonIndent))) =>
      { dotGraphName, dotIndent, dotRankDir, onDanglingEdge, jsonIndent }

def toValue (s : ExportSettings) : Value :=
  .object [
    ("dot_graph_name", .str s.dotGraphName),
    ("dot_indent", .int s.dotIndent),
    ("dot_rankdir", (s.dotRankDir.map fun r => Value.str (Spelled.text r)).getD .null),
    ("on_dangling_edge", .str (Spelled.text s.onDanglingEdge)),
    ("json_indent", (s.jsonIndent.map Value.int).getD .null)]

end ExportSettings

namespace Config

/-- The names of the top fields, in the order in which they are checked. -/
def fieldNames : List String := ["log_level", "analysis", "serialization"]

def checkUnknown (fields : Fields) : Checked Unit :=
  match fields.filter fun f => !fieldNames.contains f.1 with
  | [] => .accepted ()
  | unknown => .rejected (unknown.map fun f => ⟨[.field f.1], .unknownField⟩)

def ofFields (fields : Fields) : Checked Config :=
  let logLevel := Check.optional fields "log_level" .info (Check.word LogLevel .notAChoice)
  let analysis :=
    Check.optional fields "analysis" {} (Check.record AnalysisSettings.ofFields)
  let serialization :=
    Check.optional fields "serialization" {} (Check.record ExportSettings.ofFields)
  (((logLevel.both analysis).both serialization).both (checkUnknown fields)).map
    fun (((logLevel, analysis), serialization), _) => { logLevel, analysis, serialization }

def toValue (c : Config) : Value :=
  .object [
    ("log_level", .str (Spelled.text c.logLevel)),
    ("analysis", c.analysis.toValue),
    ("serialization", c.serialization.toValue)]

end Config

end CodeAtlas
