import CodeAtlas.Proofs.Document.RoundTrip

/-!
# Deleted records and removed nodes

A node can leave a graph in two ways: it is removed, and takes the edges at it along; or its record
is deleted from the document of the graph, and loading drops the edges that now lack an end. The
first goes through the lists of the node and the second through the list of edges, but both leave
the same graph.
-/

namespace CodeAtlas

namespace Document

/-! ## Deleting records -/

def recordId? (record : Value) : Option String :=
  (record.fields?.bind fun fields => Assoc.get? fields "id").bind Value.text?

/-- A list of records without those of some ids. -/
def deleteRecords (ids : List String) : Value → Value
  | .list records =>
    .list (records.filter fun record => !(recordId? record).any (ids.contains ·))
  | v => v

/-- The data of a document without the node records of some ids. -/
def deleteNodes (ids : List String) : Value → Value
  | .object fields =>
    .object (fields.map fun field =>
      if field.1 == "nodes" then (field.1, deleteRecords ids field.2) else field)
  | v => v

def without (d : Document) (ids : List String) : Document :=
  { d with nodes := d.nodes.filter fun n => n.id ∉ ids }

theorem deleteNodes_toValue (d : Document) (ids : List String) :
    deleteNodes ids d.toValue = (d.without ids).toValue := by
  have hrecord : ∀ n : Node, recordId? (nodeRecord n) = some n.id := fun _ => rfl
  have hrecords : (d.nodes.map nodeRecord).filter
      (fun record => !(recordId? record).any (ids.contains ·)) =
        (d.nodes.filter fun n => n.id ∉ ids).map nodeRecord := by
    rw [List.filter_map]
    congr 1
    apply List.filter_congr
    intro n _
    simp [hrecord]
  show Value.object [("nodes", .list _), _, _] = Value.object [("nodes", .list _), _, _]
  rw [hrecords]
  rfl

/-- The schema takes what is left of the document of a graph without empty ids. Its edges are all
there, and their ends are ids of nodes of the graph. -/
theorem ofValue_deleteNodes {g : Graph} (hg : g.Consistent) (hnamed : g.Named)
    (ids : List String) :
    ofValue (deleteNodes ids g.toData) = .accepted ((ofGraph g).without ids) := by
  obtain ⟨hnodes, hedges⟩ := hnamed
  have hrecords : ∀ n ∈ ((ofGraph g).without ids).nodes, n.id ≠ "" := by
    intro n hn
    obtain ⟨m, hm, rfl⟩ := List.mem_map.mp (List.mem_of_mem_filter hn)
    exact hnodes m.id (List.mem_map_of_mem hm)
  have hends : ∀ e ∈ ((ofGraph g).without ids).edges, e.id ≠ "" ∧ e.source ≠ "" ∧ e.target ≠ "" :=
    fun e he => ⟨hedges e.id (List.mem_map_of_mem he), hnodes _ (hg.source_mem e he),
      hnodes _ (hg.target_mem e he)⟩
  have hdetached : ((ofGraph g).without ids).nodes.map Node.detached =
      ((ofGraph g).without ids).nodes := by
    rw [List.map_congr_left (g := id), List.map_id]
    intro n hn
    obtain ⟨m, -, rfl⟩ := List.mem_map.mp (List.mem_of_mem_filter hn)
    rfl
  unfold Graph.toData
  rw [deleteNodes_toValue]
  refine ofValue_toValue.mpr ⟨⟨hrecords, hends⟩, ?_⟩
  rw [hdetached]

end Document

namespace Graph

variable {g : Graph} {policy : Value} {config : Config}

/-! ## What is loaded -/

theorem nodeIds_bare_without (g : Graph) (config : Config) (ids : List String) :
    (((Document.ofGraph g).without ids).bare config).nodeIds =
      g.nodeIds.filter fun id => id ∉ ids := by
  rw [Document.nodeIds_bare]
  unfold Document.without Document.ofGraph nodeIds
  rw [List.filter_map, List.filter_map, List.map_map]
  rfl

/-- An edge keeps its ends exactly when neither of them is deleted. -/
theorem Consistent.hasEnds_without_iff (hg : g.Consistent) {e : Edge} (he : e ∈ g.edges)
    (ids : List String) :
    Document.HasEnds (((Document.ofGraph g).without ids).bare config) e ↔
      e.source ∉ ids ∧ e.target ∉ ids := by
  unfold Document.HasEnds
  rw [nodeIds_bare_without]
  simp [hg.source_mem e he, hg.target_mem e he]

/-- Loading what is left of a document gives the graph without the deleted nodes. -/
theorem Consistent.loadData_deleteNodes (hg : g.Consistent) (hnamed : g.Named)
    (hp : DanglingPolicy.ofValue policy config = .ok .drop) (ids : List String) :
    (Graph.loadData (Document.deleteNodes ids g.toData) policy config).outcome =
      .ok ((ids.foldl Graph.removeNode g).reloaded config) := by
  have hedges : (g.edges.filter fun e =>
      Document.HasEnds (((Document.ofGraph g).without ids).bare config) e) =
        g.edges.filter fun e => e.source ∉ ids ∧ e.target ∉ ids :=
    List.filter_congr fun e he => decide_eq_decide.mpr (hg.hasEnds_without_iff he ids)
  have hnodup : (((Document.ofGraph g).without ids).nodes.map Node.id).Nodup := by
    rw [← Document.nodeIds_bare _ config, nodeIds_bare_without]
    exact hg.nodeIds_nodup.filter _
  have hbuild := Document.build_drop config hnodup
    (hg.edgeIds_nodup.sublist (List.filter_sublist.map _))
  unfold Graph.loadData
  rw [hp, Document.ofValue_deleteNodes hg hnamed]
  simp only [hbuild]
  rw [hg.foldl_removeNode_eq]
  show Except.ok (withEdges _ (g.edges.filter _)) = _
  rw [hedges]
  unfold withEdges reloaded Document.bare Document.without Document.ofGraph Graph.empty
  simp only [List.filter_map, List.map_map]
  rfl

/-! ## Cascade -/

/-- **Removal is deletion.** Take a reachable graph without empty ids and any nodes of it. Deleting
the records of these nodes from its document and loading the rest, with edges dropped that lack an
end, gives the nodes with their lists, the edges and the metadata of the graph from which the nodes
were removed, in whatever order that was done. -/
theorem loadData_deleteNodes_eq_removeNode (hg : g.Reachable) (hnodes : ∀ id ∈ g.nodeIds, id ≠ "")
    (hedges : ∀ id ∈ g.edgeIds, id ≠ "") (hp : DanglingPolicy.ofValue policy config = .ok .drop)
    {ids order : List String} (horder : ∀ id, id ∈ order ↔ id ∈ ids) :
    ∃ h, (loadData (Document.deleteNodes ids g.toData) policy config).outcome = .ok h ∧
      h.nodes = (order.foldl removeNode g).nodes ∧
      h.edges = (order.foldl removeNode g).edges ∧
      h.metadata = (order.foldl removeNode g).metadata := by
  have hc := hg.consistent
  have hsame : order.foldl removeNode g = ids.foldl removeNode g := by
    rw [hc.foldl_removeNode_eq, hc.foldl_removeNode_eq]
    simp only [horder]
  rw [hsame]
  exact ⟨_, hc.loadData_deleteNodes ⟨hnodes, hedges⟩ hp ids, rfl, rfl, rfl⟩

/-- Two parallel edges of the tangle lead to the node `b`, and a self-loop stays behind; `ghost` is
no node of it. -/
theorem loadData_deleteNodes_eq_removeNode_tangle :
    tangle.Reachable ∧ DanglingPolicy.ofValue .null {} = .ok .drop ∧
      ((["b", "ghost"].foldl removeNode tangle).nodeIds = ["a"] ∧
        (["b", "ghost"].foldl removeNode tangle).edgeIds = ["loop"]) ∧
      ∃ h, (loadData (Document.deleteNodes ["ghost", "b"] tangle.toData) .null {}).outcome = .ok h ∧
        h.nodes = (["b", "ghost"].foldl removeNode tangle).nodes ∧
        h.edges = (["b", "ghost"].foldl removeNode tangle).edges := by
  have hp : DanglingPolicy.ofValue .null {} = .ok .drop := rfl
  have horder : ∀ id, id ∈ ["b", "ghost"] ↔ id ∈ ["ghost", "b"] := by
    intro id
    simp [or_comm]
  obtain ⟨h, hok, hnodes, hedges, -⟩ := loadData_deleteNodes_eq_removeNode tangle_reachable
    (by decide) (by decide) hp horder
  exact ⟨tangle_reachable, hp, ⟨rfl, rfl⟩, h, hok, hnodes, hedges⟩

end Graph

end CodeAtlas
