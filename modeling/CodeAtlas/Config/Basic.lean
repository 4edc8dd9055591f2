import CodeAtlas.Spelled
/-!
# Settings

The settings a graph carries: defaults for the searches and the layout of exported text.
-/

namespace CodeAtlas

/-- The least severity a configured log lets through. -/
inductive LogLevel where
  | debug
  | info
  | warning
  | error
  deriving DecidableEq, Inhabited

instance : Spelled LogLevel where
  all := [.debug, .info, .warning, .error]
  text
    | .debug => "DEBUG"
    | .info => "INFO"
    | .warning => "WARNING"
    | .error => "ERROR"

/-- The direction in which a drawing is laid out. -/
inductive RankDir where
  | topBottom
  | leftRight
  | bottomTop
  | rightLeft
  deriving DecidableEq, Inhabited

instance : Spelled RankDir where
  all := [.topBottom, .leftRight, .bottomTop, .rightLeft]
  text
    | .topBottom => "TB"
    | .leftRight => "LR"
    | .bottomTop => "BT"
    | .rightLeft => "RL"

/-- What loading does with an edge that names a missing node. -/
inductive DanglingPolicy where
  | drop
  | reject
  deriving DecidableEq, Inhabited

instance : Spelled DanglingPolicy where
  all := [.drop, .reject]
  text
    | .drop => "drop"
    | .reject => "error"

/-- Default bounds of the searches; `none` is unbounded. -/
structure AnalysisSettings where
  pathMaxDepth : Option Int := none
  cycleMaxLength : Option Int := none
  uniqueCycles : Bool := true
  deriving DecidableEq, Inhabited

/-- Layout of the exported text; without `jsonIndent` a document is one line. -/
structure ExportSettings where
  dotGraphName : String := "CodeGraph"
  dotIndent : Int := 2
  dotRankDir : Option RankDir := none
  onDanglingEdge : DanglingPolicy := .drop
  jsonIndent : Option Int := some 2
  deriving DecidableEq, Inhabited

structure Config where
  logLevel : LogLevel := .info
  analysis : AnalysisSettings := {}
  serialization : ExportSettings := {}
  deriving DecidableEq, Inhabited

end CodeAtlas
