import CodeAtlas.Proofs.Document.Rebuild

/-!
# Graphs built from parts of others

Copies and slices add nodes and edges that come from a graph. Nodes with unique ids and edges with
unique ids between them are never refused, and what comes out is known: the nodes with exactly these
edges listed at them. A copy is therefore the graph itself.
-/

namespace CodeAtlas.Graph

variable {g h : Graph}

/-- Adding nodes and loading them differ only in the words of a refusal. -/
theorem addNodes_eq_ok_iff {nodes : List Node} :
    g.addNodes nodes = .ok h ↔ Document.loadNodes g nodes = .ok h := by
  induction nodes generalizing g with
  | nil => exact Iff.rfl
  | cons n nodes ih =>
    unfold addNodes Document.loadNodes
    rw [List.foldlM_cons]
    cases hadd : g.addNode n with
    | ok g' => exact ih
    | error fault =>
      constructor
      · intro hok
        cases hok
      · intro hok
        cases fault <;> cases hok

/-- A load that drops nothing has added every edge. -/
theorem addEdges_of_loadEdges {drops : List Document.Drop} {edges : List Edge}
    (hok : (Document.loadEdges .reject g drops edges).outcome = .ok h) :
    g.addEdges edges = .ok h := by
  induction edges generalizing g with
  | nil => exact hok
  | cons e edges ih =>
    unfold Document.loadEdges at hok
    unfold addEdges
    rw [List.foldlM_cons]
    split at hok
    · split at hok
      · rename_i g' hadd
        rw [hadd]
        exact ih hok
      · cases hok
      · cases hok
    · cases hok

/-- Nodes with unique ids, and edges with unique ids between them, make a graph. -/
theorem build_ok (config : Config) (metadata : Fields) {nodes : List Node} {edges : List Edge}
    (hnodes : (nodes.map Node.id).Nodup) (hedges : (edges.map Edge.id).Nodup)
    (hends : ∀ e ∈ edges, e.source ∈ nodes.map Node.id ∧ e.target ∈ nodes.map Node.id) :
    ((empty config metadata).addNodes nodes >>= fun bare => bare.addEdges edges) =
      .ok { config, metadata, nodes := nodes.map (Node.linked edges), edges } := by
  -- the nodes and edges are those of a document that loads without dropping anything
  let d : Document := { nodes, edges, metadata }
  have hbare : Document.loadNodes (empty config metadata) nodes = .ok (d.bare config) :=
    (Document.loadNodes_empty_eq_ok_iff (d := d)).mpr ⟨hnodes, rfl⟩
  have hhave : ∀ e ∈ edges, Document.HasEnds (d.bare config) e := by
    intro e he
    unfold Document.HasEnds
    rw [Document.nodeIds_bare]
    exact hends e he
  have hload := Document.loadEdges_of_hasEnds .reject [] (Document.consistent_bare config hnodes)
    hhave hedges
  have hadd := addEdges_of_loadEdges (congrArg Document.Loading.outcome hload)
  rw [addNodes_eq_ok_iff.mpr hbare]
  show (d.bare config).addEdges edges = _
  rw [hadd]
  unfold withEdges Document.bare
  rw [List.map_map]
  rfl

/-- A copy is never refused, and it is the graph itself. -/
theorem Consistent.copy_eq (hg : g.Consistent) : g.copy = .ok g := by
  have hbuild := build_ok g.config g.metadata hg.nodeIds_nodup hg.edgeIds_nodup
    fun e he => ⟨hg.source_mem e he, hg.target_mem e he⟩
  have hnodes : g.nodes.map (Node.linked g.edges) = g.nodes := congrArg Graph.nodes hg.withEdges_eq
  have hcopy : g.copy = ((empty g.config g.metadata).addNodes g.nodes >>= fun bare =>
      bare.addEdges g.edges) >>= fun h =>
        .ok { h with nodeCounter := g.nodeCounter, edgeCounter := g.edgeCounter } := by
    unfold copy
    rw [bind_assoc]
    rfl
  rw [hcopy, hbuild, hnodes]
  rfl

end CodeAtlas.Graph
