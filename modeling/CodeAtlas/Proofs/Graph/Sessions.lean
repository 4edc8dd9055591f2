import CodeAtlas.Dot
import CodeAtlas.Network
import CodeAtlas.Search.Components
import CodeAtlas.Search.Cycles
import CodeAtlas.Search.Paths
import CodeAtlas.Proofs.Graph.Copy
import CodeAtlas.Proofs.Graph.Updates

/-!
# Sessions

A session is a row of requests to one graph: changes, questions, searches and exports, each with its
answer. A copy rebuilds the lists at its nodes from the edges, and these lists decide the order of
every search; on a reachable graph it gets them back as they were, and so a copy can take the place
of the graph before any request without changing an answer.
-/

namespace CodeAtlas

inductive Request where
  | change (op : Operation)
  | node (id : String)
  | edge (id : String)
  | nodes
  | edges
  | nodesOfKind (kind : Value)
  | edgesOfKind (kind : Value)
  | nodesInFile (file : String)
  | files
  | outgoing (id : String)
  | incoming (id : String)
  | neighbors (id : String) (kinds : Option (List String)) (side : String)
  | stats
  | size
  | hasNode (id : String)
  | hasEdge (id : String)
  | summary
  | attributes
  | settings
  | copy
  | slice (start : String) (direction : Value) (maxDepth : Option Int) (kinds : Option (List Value))
  | paths (start finish : String) (maxDepth : Option Int) (kinds : Option (List Value))
  | components
  | cycles (maxLength : Option Int) (unique : Option Bool)
  | closure (kinds : Option (List Value))
  | drawing (o : DotOptions)
  | data
  | text (indent : Option Int)
  | network

inductive Answer where
  | refused (fault : Fault)
  | changed (outcome : Outcome)
  | node (n : Option Node)
  | edge (e : Option Edge)
  | nodes (ns : List Node)
  | edges (es : List Edge)
  | names (ids : List String)
  | rows (rows : List (List String))
  | flag (b : Bool)
  | number (n : Nat)
  | figures (s : Stats)
  | attributes (fields : Fields)
  | settings (config : Config)
  | graph (g : Graph)
  | words (s : String)
  | data (v : Value)
  | network (net : Network)
  deriving Inhabited

/-- The answer that a result amounts to. -/
def Answer.ofResult {α : Type} (answer : α → Answer) : Except Fault α → Answer
  | .ok a => answer a
  | .error fault => .refused fault

namespace Graph

def answer (g : Graph) : Request → Answer
  | .change op => .ofResult .changed (g.outcome op)
  | .node id => .node (g.node? id)
  | .edge id => .edge (g.edge? id)
  | .nodes => .nodes g.nodes
  | .edges => .edges g.edges
  | .nodesOfKind kind => .ofResult (fun kind => .nodes (g.nodesOfKind kind)) (NodeKind.ofValue kind)
  | .edgesOfKind kind => .ofResult (fun kind => .edges (g.edgesOfKind kind)) (EdgeKind.ofValue kind)
  | .nodesInFile file => .nodes (g.nodesInFile file)
  | .files => .names g.files
  | .outgoing id => .edges (g.outgoingEdges id)
  | .incoming id => .edges (g.incomingEdges id)
  | .neighbors id kinds side => .names (g.neighborsNamed id kinds side)
  | .stats => .figures g.stats
  | .size => .number g.nodes.length
  | .hasNode id => .flag (g.hasNode id)
  | .hasEdge id => .flag (g.hasEdge id)
  | .summary => .words g.summary
  | .attributes => .attributes g.metadata
  | .settings => .settings g.config
  | .copy => .ofResult .graph g.copy
  | .slice start direction maxDepth kinds =>
    .ofResult .graph (SliceOptions.ofRaw maxDepth kinds >>= g.slice start direction)
  | .paths start finish maxDepth kinds => .ofResult .rows (g.paths start finish maxDepth kinds)
  | .components => .rows g.components
  | .cycles maxLength unique => .rows (g.cycles maxLength unique)
  | .closure kinds => .ofResult .graph (g.closure kinds)
  | .drawing o => .words (g.toDot o)
  | .data => .data g.toData
  | .text indent => .words (g.toText indent)
  | .network => .network g.toNetwork

/-- The graph that later requests are put to: only an operation changes it. -/
def after (g : Graph) : Request → Graph
  | .change op => g.perform op
  | _ => g

def answers (g : Graph) : List Request → List Answer
  | [] => []
  | request :: requests => g.answer request :: (g.after request).answers requests

/-- The graph itself, or a copy of it. -/
def selfOrCopy (g : Graph) (copied : Bool) : Except Fault Graph :=
  if copied then g.copy else .ok g

/-- The answers of a session that goes over to a copy of the graph before every request that is
marked. -/
def answersOnCopies (g : Graph) : List (Bool × Request) → Except Fault (List Answer)
  | [] => .ok []
  | (marked, request) :: steps => do
    let g ← g.selfOrCopy marked
    let later ← (g.after request).answersOnCopies steps
    return g.answer request :: later

variable {g : Graph}

theorem Reachable.after (hg : g.Reachable) (request : Request) : (g.after request).Reachable := by
  unfold Graph.after
  split
  · exact hg.perform _
  · exact hg

theorem Reachable.copy_eq (hg : g.Reachable) : g.copy = .ok g :=
  hg.consistent.copy_eq

/-- Wherever a session goes over to a copy, its answers stay the same. -/
theorem Reachable.answersOnCopies_eq (hg : g.Reachable) (steps : List (Bool × Request)) :
    g.answersOnCopies steps = .ok (g.answers (steps.map Prod.snd)) := by
  induction steps generalizing g with
  | nil => rfl
  | cons step steps ih =>
    obtain ⟨marked, request⟩ := step
    have hsame : g.selfOrCopy marked = .ok g := by
      rw [selfOrCopy, hg.copy_eq, ite_self]
    rw [answersOnCopies, hsame]
    show ((g.after request).answersOnCopies steps >>= fun later =>
      .ok (g.answer request :: later)) = _
    rw [ih (hg.after request)]
    rfl

/-- **Copies are indistinguishable.** A reachable graph can be copied. The copy has the same nodes
and edges in the same order, with all their fields and with the same lists at every node, and the
same attributes, settings and counters. Every session with the copy gets the answers that it gets
with the graph, generated ids included, and so does one that goes over to a copy at any points. -/
theorem copy_indistinguishable (hg : g.Reachable) :
    ∃ twin, g.copy = .ok twin ∧
      twin.nodes = g.nodes ∧ twin.edges = g.edges ∧
      (∀ id, (twin.node? id).map Node.outgoing = (g.node? id).map Node.outgoing ∧
        (twin.node? id).map Node.incoming = (g.node? id).map Node.incoming) ∧
      twin.metadata = g.metadata ∧ twin.config = g.config ∧
      twin.nodeCounter = g.nodeCounter ∧ twin.edgeCounter = g.edgeCounter ∧
      (∀ requests, twin.answers requests = g.answers requests) ∧
      ∀ steps, g.answersOnCopies steps = .ok (g.answers (steps.map Prod.snd)) :=
  ⟨g, hg.copy_eq, rfl, rfl, fun _ => ⟨rfl, rfl⟩, rfl, rfl, rfl, rfl, fun _ => rfl,
    hg.answersOnCopies_eq⟩

/-- The next edge gets the same id from the copy, after an edge was removed and added again. -/
theorem copy_indistinguishable_tangle :
    tangle.Reachable ∧ ∃ twin, tangle.copy = .ok twin ∧ twin.nodes = tangle.nodes ∧
      twin.answers [.change (.createEdge "b" "a" (.str "uses") [] none), .outgoing "b"] =
        [.changed (.edge { id := "edge_4", source := "b", target := "a", kind := .uses }),
          .edges [{ id := "edge_4", source := "b", target := "a", kind := .uses }]] := by
  obtain ⟨twin, hcopy, hnodes, -, -, -, -, -, -, hanswers, -⟩ :=
    copy_indistinguishable tangle_reachable
  exact ⟨tangle_reachable, twin, hcopy, hnodes, hanswers _⟩

end Graph

end CodeAtlas
