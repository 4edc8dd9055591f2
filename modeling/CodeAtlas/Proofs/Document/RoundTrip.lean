import CodeAtlas.Proofs.Document.Rebuild
import CodeAtlas.Proofs.Document.Schema
import CodeAtlas.Proofs.Graph.Reachable

/-!
# Documents give graphs back

The document of a graph leaves the lists of the nodes out. They come back from the edges when the
document is loaded, so loading loses nothing but the settings and the counters; it is refused
exactly when the graph uses an empty id, which the graph allows and the schema does not.
-/

namespace CodeAtlas

namespace Graph

variable {g h : Graph} {data policy : Value} {config : Config}

/-- The contents of a graph under other settings, with its counters at the start. -/
def reloaded (g : Graph) (config : Config) : Graph :=
  { g with config, nodeCounter := 0, edgeCounter := 0 }

/-- No node and no edge has the empty id. -/
def Named (g : Graph) : Prop :=
  (∀ id ∈ g.nodeIds, id ≠ "") ∧ ∀ id ∈ g.edgeIds, id ≠ ""

/-! ## Refusal and success -/

theorem loadData_eq_ok_iff :
    (loadData data policy config).outcome = .ok h ↔
      ∃ p d, DanglingPolicy.ofValue policy config = .ok p ∧ Document.ofValue data = .accepted d ∧
        (d.build p config).outcome = .ok h := by
  unfold loadData
  cases DanglingPolicy.ofValue policy config with
  | error fault => simp [Document.Loading.failed]
  | ok p =>
    cases Document.ofValue data with
    | rejected issues => simp [Document.Loading.failed]
    | accepted d => simp

/-- The schema takes the document of a graph exactly when the graph has no empty id. The ends of
the edges need no mention: they are ids of nodes. -/
theorem Consistent.ofValue_toData (hg : g.Consistent) {d : Document} :
    Document.ofValue g.toData = .accepted d ↔ g.Named ∧ d = Document.ofGraph g := by
  unfold toData
  rw [Document.ofValue_toValue]
  have hdetached : { Document.ofGraph g with
      nodes := (Document.ofGraph g).nodes.map Node.detached } = Document.ofGraph g := by
    simp [Document.ofGraph, Node.detached]
  have hids : ((∀ n ∈ (Document.ofGraph g).nodes, n.id ≠ "") ∧
      ∀ e ∈ (Document.ofGraph g).edges, e.id ≠ "" ∧ e.source ≠ "" ∧ e.target ≠ "") ↔ g.Named := by
    simp only [Named, Document.ofGraph, nodeIds, edgeIds, List.forall_mem_map]
    constructor
    · rintro ⟨hnodes, hedges⟩
      exact ⟨hnodes, fun e he => (hedges e he).1⟩
    · rintro ⟨hnodes, hedges⟩
      have hends : ∀ id ∈ g.nodeIds, id ≠ "" := List.forall_mem_map.mpr hnodes
      exact ⟨hnodes, fun e he => ⟨hedges e he, hends _ (hg.source_mem e he),
        hends _ (hg.target_mem e he)⟩⟩
  rw [hdetached, hids]

/-! ## What is rebuilt -/

/-- The nodes are added bare, and the edges put their lists back. -/
theorem Consistent.build_ofGraph (hg : g.Consistent) (p : DanglingPolicy) (config : Config) :
    (Document.ofGraph g).build p config = { drops := [], outcome := .ok (g.reloaded config) } := by
  have hids : (Document.ofGraph g).nodes.map Node.id = g.nodeIds := by
    simp [Document.ofGraph, nodeIds]
  have hlinked : ((Document.ofGraph g).bare config).withEdges g.edges = g.reloaded config := by
    have hnodes := congrArg Graph.nodes hg.withEdges_eq
    simp only [withEdges] at hnodes
    simp [withEdges, Document.bare, Document.ofGraph, reloaded, Graph.empty, Function.comp_def,
      hnodes]
  have hends : ∀ e ∈ (Document.ofGraph g).edges,
      Document.HasEnds ((Document.ofGraph g).bare config) e := by
    intro e he
    unfold Document.HasEnds
    rw [Document.nodeIds_bare, hids]
    exact ⟨hg.source_mem e he, hg.target_mem e he⟩
  have hbuild := Document.build_of_hasEnds p config (hids ▸ hg.nodeIds_nodup)
    (show ((Document.ofGraph g).edges.map Edge.id).Nodup from hg.edgeIds_nodup) hends
  rw [hbuild, ← hlinked]
  rfl

theorem Consistent.loadData_toData (hg : g.Consistent) {p : DanglingPolicy}
    (hp : DanglingPolicy.ofValue policy config = .ok p) (hnamed : g.Named) :
    Graph.loadData g.toData policy config =
      { drops := [], outcome := .ok (g.reloaded config) } := by
  unfold Graph.loadData
  rw [hp, hg.ofValue_toData.mpr ⟨hnamed, rfl⟩]
  exact hg.build_ofGraph p config

/-! ## What was loaded -/

/-- A loaded graph has no empty ids, carries the settings it was loaded with, and counts from the
start. -/
theorem of_loadData (hok : (loadData data policy config).outcome = .ok h) :
    h.Named ∧ h.reloaded config = h := by
  obtain ⟨p, d, -, hd, hbuild⟩ := loadData_eq_ok_iff.mp hok
  obtain ⟨hnodes, hedges⟩ := Document.ids_ne_of_ofValue hd
  rw [Document.eq_of_build hbuild]
  refine ⟨⟨?_, ?_⟩, rfl⟩
  · rw [nodeIds_withEdges, Document.nodeIds_bare]
    exact List.forall_mem_map.mpr hnodes
  · unfold edgeIds
    rw [edges_withEdges]
    exact List.forall_mem_map.mpr fun e he => hedges e (List.mem_of_mem_filter he)

/-! ## The round trip -/

/-- **Documents are lossless.** The document of a reachable graph loads, under either policy,
exactly when the graph has no empty id; then no edge is dropped, and nodes with their lists, edges
and metadata are those of the graph. A graph that was loaded comes back unchanged. -/
theorem loadData_toData_lossless (hg : g.Reachable) {p : DanglingPolicy}
    (hp : DanglingPolicy.ofValue policy config = .ok p) :
    ((∃ h, (loadData g.toData policy config).outcome = .ok h) ↔
      (∀ id ∈ g.nodeIds, id ≠ "") ∧ ∀ id ∈ g.edgeIds, id ≠ "") ∧
    (∀ h, (loadData g.toData policy config).outcome = .ok h →
      (loadData g.toData policy config).drops = [] ∧
        h = { g with config := config, nodeCounter := 0, edgeCounter := 0 }) ∧
    ∀ data firstPolicy h, (loadData data firstPolicy config).outcome = .ok h →
      loadData h.toData policy config = { drops := [], outcome := .ok h } := by
  have hc := hg.consistent
  have hload : ∀ h, (loadData g.toData policy config).outcome = .ok h → g.Named := by
    intro h hok
    obtain ⟨-, d, -, hd, -⟩ := loadData_eq_ok_iff.mp hok
    exact (hc.ofValue_toData.mp hd).1
  refine ⟨⟨?_, ?_⟩, ?_, ?_⟩
  · rintro ⟨h, hok⟩
    exact hload h hok
  · intro hnamed
    rw [hc.loadData_toData hp hnamed]
    exact ⟨_, rfl⟩
  · intro h hok
    have hnamed := hload h hok
    rw [hc.loadData_toData hp hnamed] at hok ⊢
    exact ⟨rfl, (Except.ok.inj hok).symm⟩
  · intro data firstPolicy h hok
    obtain ⟨hnamed, hsame⟩ := of_loadData hok
    rw [(Reachable.loadData hok).consistent.loadData_toData hp hnamed, hsame]

theorem loadData_toData_lossless_tangle :
    tangle.Reachable ∧ DanglingPolicy.ofValue (.str "error") {} = .ok .reject ∧
      ∃ h, (loadData tangle.toData (.str "error") {}).outcome = .ok h ∧
        h = { tangle with config := {}, nodeCounter := 0, edgeCounter := 0 } := by
  have hp : DanglingPolicy.ofValue (.str "error") {} = .ok .reject := rfl
  obtain ⟨hiff, hsame, -⟩ := loadData_toData_lossless tangle_reachable hp
  obtain ⟨h, hok⟩ := hiff.mpr ⟨by decide, by decide⟩
  exact ⟨tangle_reachable, hp, h, hok, (hsame h hok).2⟩

end Graph

end CodeAtlas
