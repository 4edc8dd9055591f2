import CodeAtlas.DocumentText
import CodeAtlas.Search.Closure
import CodeAtlas.Search.Slice
import CodeAtlas.Proofs.Graph.Consistent

/-!
# Reachable graphs

The graphs that a program can come to hold: built from an empty graph by operations that succeed or
are refused, or returned by a copy, a slice, a closure or a load. All of them are consistent.
-/

namespace CodeAtlas

/-! ## Operations -/

/-- A change asked of a graph. -/
inductive Operation where
  | addNode (n : Node)
  /-- A `position`, if given, is the line and column in place of the location of the draft. -/
  | createNode (kind : Value) (position : Option (List Int)) (draft : NodeDraft)
  | removeNode (id : String)
  | addEdge (e : Edge)
  | createEdge (source target : String) (kind : Value) (metadata : Fields) (id : Option String)
  | removeEdge (id : String)
  deriving Inhabited

/-- The draft with its location read off a position, if one is given. -/
def NodeDraft.placed (draft : NodeDraft) : Option (List Int) → Except Fault NodeDraft
  | none => .ok draft
  | some position => (Location.ofList position).map fun location => { draft with location }

namespace Graph

/-- The graph after an operation. One that is refused leaves it alone, except that a generated id
may be used up. -/
def perform (g : Graph) : Operation → Graph
  | .addNode n => (g.addNode n).toOption.getD g
  | .createNode kind position draft =>
    match draft.placed position with
    | .ok draft => (g.createNode kind draft).1
    | .error _ => g
  | .removeNode id => g.removeNode id
  | .addEdge e => (g.addEdge e).toOption.getD g
  | .createEdge source target kind metadata id => (g.createEdge source target kind metadata id).1
  | .removeEdge id => g.removeEdge id

/-- The graph after a row of operations. -/
def performAll (g : Graph) (ops : List Operation) : Graph :=
  ops.foldl perform g

/-- A graph that a program can come to hold. -/
inductive Reachable : Graph → Prop
  | empty (config : Config) (metadata : Fields) : Reachable (Graph.empty config metadata)
  | perform {g : Graph} (op : Operation) : Reachable g → Reachable (g.perform op)
  | copy {g h : Graph} : Reachable g → g.copy = .ok h → Reachable h
  | slice {g h : Graph} {start : String} {direction : Value} {o : SliceOptions} :
      Reachable g → g.slice start direction o = .ok h → Reachable h
  | closure {g h : Graph} {kinds : Option (List Value)} :
      Reachable g → g.closure kinds = .ok h → Reachable h
  | loadData {data policy : Value} {config : Config} {h : Graph} :
      (loadData data policy config).outcome = .ok h → Reachable h
  | loadText {text : String} {policy : Value} {config : Except Fault Config} {h : Graph} :
      (loadText text policy config).outcome = .ok h → Reachable h

theorem Reachable.performAll {g : Graph} (hg : g.Reachable) (ops : List Operation) :
    (g.performAll ops).Reachable := by
  induction ops generalizing g with
  | nil => exact hg
  | cons op ops ih => exact ih (hg.perform op)

namespace Consistent

variable {g h : Graph}

/-! ## One operation -/

theorem claimNodeId (hg : g.Consistent) (id : Option String) :
    (g.claimNodeId id).1.Consistent := by
  cases id with
  | none => exact hg.of_eq rfl rfl
  | some id => exact hg

theorem claimEdgeId (hg : g.Consistent) (id : Option String) :
    (g.claimEdgeId id).1.Consistent := by
  cases id with
  | none => exact hg.of_eq rfl rfl
  | some id => exact hg

theorem createNode (hg : g.Consistent) (kind : Value) (draft : NodeDraft) :
    (g.createNode kind draft).1.Consistent := by
  unfold Graph.createNode
  split
  · exact hg.claimNodeId draft.id
  · unfold putNode
    simp only
    split
    · exact hg.claimNodeId draft.id
    · rename_i hok
      exact (hg.claimNodeId draft.id).addNode hok

theorem connect (hg : g.Consistent) (source target : String) (kind : EdgeKind) (metadata : Fields)
    (id : Option String) : (g.connect source target kind metadata id).1.Consistent := by
  unfold Graph.connect
  simp only
  split
  · exact hg.claimEdgeId id
  · rename_i hok
    exact (hg.claimEdgeId id).addEdge hok

theorem createEdge (hg : g.Consistent) (source target : String) (kind : Value) (metadata : Fields)
    (id : Option String) : (g.createEdge source target kind metadata id).1.Consistent := by
  unfold Graph.createEdge
  split
  · exact hg.claimEdgeId id
  · exact hg.connect source target _ metadata id

theorem perform (hg : g.Consistent) (op : Operation) : (g.perform op).Consistent := by
  cases op with
  | addNode n =>
    show ((g.addNode n).toOption.getD g).Consistent
    cases hok : g.addNode n with
    | error fault => exact hg
    | ok h => exact hg.addNode hok
  | createNode kind position draft =>
    unfold Graph.perform
    simp only
    split
    · exact hg.createNode kind _
    · exact hg
  | removeNode id => exact hg.removeNode id
  | addEdge e =>
    show ((g.addEdge e).toOption.getD g).Consistent
    cases hok : g.addEdge e with
    | error fault => exact hg
    | ok h => exact hg.addEdge hok
  | createEdge source target kind metadata id =>
    exact hg.createEdge source target kind metadata id
  | removeEdge id => exact hg.removeEdge id

/-! ## Graphs built from others -/

theorem ok_of_bind {α β : Type} {x : Except Fault α} {f : α → Except Fault β} {b : β}
    (hok : (x >>= f) = .ok b) : ∃ a, x = .ok a ∧ f a = .ok b := by
  cases x with
  | error fault => cases hok
  | ok a => exact ⟨a, rfl, hok⟩

theorem copy (hok : g.copy = .ok h) : h.Consistent := by
  obtain ⟨bare, hnodes, hok⟩ := ok_of_bind hok
  obtain ⟨full, hedges, hok⟩ := ok_of_bind hok
  cases hok
  exact (((consistent_empty _ _).addNodes hnodes).addEdges hedges).of_eq rfl rfl

theorem slice {start : String} {direction : Value} {o : SliceOptions}
    (hok : g.slice start direction o = .ok h) : h.Consistent := by
  obtain ⟨-, -, hok⟩ := ok_of_bind hok
  obtain ⟨d, -, hok⟩ := ok_of_bind hok
  obtain ⟨bare, hnodes, hok⟩ := ok_of_bind hok
  exact ((consistent_empty _ _).addNodes hnodes).addEdges hok

theorem addInferred (hg : g.Consistent) {pair : String × String}
    (hok : g.addInferred pair = .ok h) : h.Consistent := by
  have hconnect := hg.connect pair.1 pair.2 .dependsOn inferredMetadata none
  unfold Graph.addInferred at hok
  split at hok
  · rename_i heq
    cases hok
    rwa [heq] at hconnect
  · cases hok

theorem closureOver {filter : KindFilter} (hok : g.closureOver filter = .ok h) :
    h.Consistent := by
  obtain ⟨twin, hcopy, hok⟩ := ok_of_bind hok
  exact foldlM (fun hg hok => hg.addInferred hok) _ (copy hcopy) hok

theorem closure {kinds : Option (List Value)} (hok : g.closure kinds = .ok h) :
    h.Consistent := by
  obtain ⟨filter, -, hok⟩ := ok_of_bind hok
  exact closureOver hok

theorem loadNodes (hg : g.Consistent) (nodes : List Node)
    (hok : Document.loadNodes g nodes = .ok h) : h.Consistent := by
  induction nodes generalizing g with
  | nil =>
    cases hok
    exact hg
  | cons n nodes ih =>
    unfold Document.loadNodes at hok
    split at hok
    · rename_i hadd
      exact ih (hg.addNode hadd) hok
    · cases hok
    · cases hok

theorem loadEdges (hg : g.Consistent) (policy : DanglingPolicy) (drops : List Document.Drop)
    (edges : List Edge) (hok : (Document.loadEdges policy g drops edges).outcome = .ok h) :
    h.Consistent := by
  induction edges generalizing g drops with
  | nil =>
    cases hok
    exact hg
  | cons e edges ih =>
    unfold Document.loadEdges at hok
    split at hok
    · split at hok
      · rename_i hadd
        exact ih (hg.addEdge hadd) drops hok
      · cases hok
      · cases hok
    · split at hok
      · cases hok
      · exact ih hg _ hok

theorem build {d : Document} {policy : DanglingPolicy} {config : Config}
    (hok : (d.build policy config).outcome = .ok h) : h.Consistent := by
  unfold Document.build at hok
  split at hok
  · cases hok
  · rename_i hnodes
    exact ((consistent_empty _ _).loadNodes _ hnodes).loadEdges policy [] _ hok

theorem loadData {data policy : Value} {config : Config}
    (hok : (loadData data policy config).outcome = .ok h) : h.Consistent := by
  unfold Graph.loadData at hok
  split at hok
  · cases hok
  · split at hok
    · cases hok
    · exact build hok

theorem loadText {text : String} {policy : Value} {config : Except Fault Config}
    (hok : (loadText text policy config).outcome = .ok h) : h.Consistent := by
  unfold Graph.loadText at hok
  split at hok
  · cases hok
  · split at hok
    · cases hok
    · exact loadData hok

end Consistent

theorem Reachable.consistent {g : Graph} (hg : g.Reachable) : g.Consistent := by
  induction hg with
  | empty config metadata => exact consistent_empty config metadata
  | perform op _ ih => exact ih.perform op
  | copy _ hok _ => exact Consistent.copy hok
  | slice _ hok _ => exact Consistent.slice hok
  | closure _ hok _ => exact Consistent.closure hok
  | loadData hok => exact Consistent.loadData hok
  | loadText hok => exact Consistent.loadText hok

/-! ## The representation invariant -/

/-- Each edge stands once in the list of its own end and in no other. -/
theorem Consistent.count_idsAt {g : Graph} (hg : g.Consistent) (side : Edge → String) {e : Edge}
    (he : e ∈ g.edges) (id : String) :
    (idsAt side g.edges id).count e.id = if side e = id then 1 else 0 := by
  have hmem : e.id ∈ idsAt side g.edges id ↔ side e = id := by
    rw [mem_idsAt]
    constructor
    · rintro ⟨d, hd, hside, hid⟩
      rwa [← List.inj_on_of_nodup_map hg.edgeIds_nodup hd he hid]
    · exact fun hside => ⟨e, he, hside, rfl⟩
  rw [(hg.edgeIds_nodup.sublist (idsAt_sublist side g.edges id)).count]
  simp only [hmem]

/-- **Representation invariant.** In every reachable graph nodes and edges are found under their
own ids, which are unique; every edge has its ends; and each node lists exactly the edges at it, in
the order of the edges, so that an edge stands once at each of its ends and nowhere else. -/
theorem reachable_lists_exact {g : Graph} (hg : g.Reachable) :
    (g.nodeIds.Nodup ∧ ∀ n ∈ g.nodes, g.node? n.id = some n) ∧
    (g.edgeIds.Nodup ∧ ∀ e ∈ g.edges, g.edge? e.id = some e) ∧
    (∀ e ∈ g.edges, e.source ∈ g.nodeIds ∧ e.target ∈ g.nodeIds) ∧
    ∀ n ∈ g.nodes,
      n.outgoing = (g.edges.filter fun e => e.source = n.id).map Edge.id ∧
      n.incoming = (g.edges.filter fun e => e.target = n.id).map Edge.id ∧
      ∀ e ∈ g.edges, n.outgoing.count e.id = (if e.source = n.id then 1 else 0) ∧
        n.incoming.count e.id = if e.target = n.id then 1 else 0 := by
  have hc := hg.consistent
  refine ⟨⟨hc.nodeIds_nodup, fun n hn => hc.node?_eq_some_iff.mpr ⟨hn, rfl⟩⟩,
    ⟨hc.edgeIds_nodup, fun e he => hc.edge?_eq_some_iff.mpr ⟨he, rfl⟩⟩,
    fun e he => ⟨hc.source_mem e he, hc.target_mem e he⟩, ?_⟩
  intro n hn
  refine ⟨hc.outgoing_eq n hn, hc.incoming_eq n hn, ?_⟩
  intro e he
  rw [hc.outgoing_eq n hn, hc.incoming_eq n hn]
  exact ⟨hc.count_idsAt Edge.source he n.id, hc.count_idsAt Edge.target he n.id⟩

/-- A small graph with a history: a node that came with foreign lists, refused operations, parallel
edges, and a self-loop that was removed and added again. -/
def tangle : Graph :=
  (empty {} []).performAll [
    .addNode { id := "a", kind := .func, outgoing := ["stray"], incoming := ["stray"] },
    .createNode (.str "class") (some [3]) { id := some "b" },
    .createNode (.str "class") none { id := some "b" },
    .createEdge "a" "a" (.str "calls") [] (some "loop"),
    .createEdge "a" "b" (.str "uses") [] none,
    .createEdge "a" "c" (.str "uses") [] none,
    .createEdge "a" "b" (.str "uses") [] none,
    .removeEdge "loop",
    .createEdge "a" "a" (.str "calls") [] (some "loop")]

theorem tangle_reachable : tangle.Reachable :=
  (Reachable.empty {} []).performAll _

theorem reachable_lists_exact_tangle :
    tangle.Reachable ∧ tangle.edgeIds = ["edge_1", "edge_3", "loop"] ∧
      (tangle.node? "a").map Node.outgoing = some ["edge_1", "edge_3", "loop"] ∧
      ∀ n ∈ tangle.nodes, n.incoming = (tangle.edges.filter fun e => e.target = n.id).map Edge.id :=
  ⟨tangle_reachable, rfl, rfl, fun n hn =>
    ((reachable_lists_exact tangle_reachable).2.2.2 n hn).2.1⟩

end Graph

end CodeAtlas
