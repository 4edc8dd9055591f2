import CodeAtlas.Value
import CodeAtlas.Value.Display
import CodeAtlas.Value.Likeness
import CodeAtlas.Decimal.FloatText
import CodeAtlas.Json.Reader
import CodeAtlas.Json.Writer
import CodeAtlas.Check
import CodeAtlas.Config.Basic
import CodeAtlas.Fault
import CodeAtlas.Graph.Store
import CodeAtlas.Graph.Query
import CodeAtlas.Search.Slice
import CodeAtlas.Search.Paths
import CodeAtlas.Search.Components
import CodeAtlas.Search.Cycles
import CodeAtlas.Search.Closure
import CodeAtlas.Dot
import CodeAtlas.Network
import CodeAtlas.Journal
import CodeAtlas.Config.Environment
import CodeAtlas.Toml.Reader
import CodeAtlas.Config.Files
import CodeAtlas.Config.FileTree
import CodeAtlas.Yaml.Reader
import CodeAtlas.Proofs.Graph.Consistent
import CodeAtlas.Proofs.Graph.Reachable
import CodeAtlas.Proofs.Graph.Adjacency
import CodeAtlas.Proofs.Search.ComponentInvariant
import CodeAtlas.Proofs.Search.Components
import CodeAtlas.Proofs.Document.Rebuild
import CodeAtlas.Proofs.Document.RoundTrip
import CodeAtlas.Proofs.Json.RoundTrip
import CodeAtlas.Proofs.Document.TextRoundTrip
import CodeAtlas.Proofs.Document.Cascade
import CodeAtlas.Proofs.Graph.Copy
import CodeAtlas.Proofs.Graph.FreshIds
import CodeAtlas.Proofs.Search.Closure
import CodeAtlas.Proofs.Graph.Walks
import CodeAtlas.Proofs.Search.Backtracking
import CodeAtlas.Proofs.Search.Paths
import CodeAtlas.Proofs.Search.SliceWalk
import CodeAtlas.Proofs.Search.Slices
import CodeAtlas.Proofs.Search.Agreement
import CodeAtlas.Proofs.Search.Cycles
import CodeAtlas.Proofs.Search.CycleComponents
import CodeAtlas.Proofs.Graph.Lookups
import CodeAtlas.Proofs.Search.Readiness
import CodeAtlas.Proofs.Search.Safety
import CodeAtlas.Proofs.Graph.Updates
import CodeAtlas.Proofs.Graph.GeneratedIds
import CodeAtlas.Proofs.Graph.Sessions
import CodeAtlas.Proofs.Search.Reversal
import CodeAtlas.Proofs.Search.Reslicing
import CodeAtlas.Proofs.Search.Reclosing
import CodeAtlas.Proofs.Dot.Unambiguous
import CodeAtlas.Proofs.Config.DistinctNames
import CodeAtlas.Proofs.Config.Spelling
import CodeAtlas.Proofs.Config.Layers
import CodeAtlas.Proofs.Config.Variables
import CodeAtlas.Proofs.Config.Loading
import CodeAtlas.Proofs.Config.Moments
import CodeAtlas.Proofs.Search.PathEnumeration
import CodeAtlas.Proofs.Search.CycleEnumeration
import CodeAtlas.Proofs.Search.Distances
import CodeAtlas.Proofs.Config.Likeness
import CodeAtlas.Proofs.Config.Reloading
import CodeAtlas.Proofs.Search.ComponentOrder
import CodeAtlas.Proofs.Search.InferredEdges
import CodeAtlas.Proofs.Search.Rotations
import CodeAtlas.Proofs.Document.DanglingEdges
import CodeAtlas.Proofs.Document.Grammar
import CodeAtlas.Proofs.Graph.Removals
import CodeAtlas.Proofs.Search.DepthFirst
import CodeAtlas.Proofs.Search.LengthBound
import CodeAtlas.Proofs.Dot.WellFormed
import CodeAtlas.Proofs.Graph.Neighbors
import CodeAtlas.Proofs.Graph.Network
import CodeAtlas.Proofs.Search.Reopening
import CodeAtlas.Proofs.Search.Trails
