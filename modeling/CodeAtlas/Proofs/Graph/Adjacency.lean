import CodeAtlas.Graph.Query
import CodeAtlas.Proofs.Graph.Consistent
import Mathlib.Data.List.Perm.Subperm
import Mathlib.Logic.Relation

/-!
# Edges at a node, and what can be reached

On a consistent graph the edges found through the list of a node are the edges with that end, so
the questions a search asks can be answered from the list of edges alone.
-/

namespace CodeAtlas.Graph

/-- Some admitted edge leads from `a` to `b`. -/
def Adjacent (g : Graph) (filter : KindFilter) (a b : String) : Prop :=
  ∃ e ∈ g.edges, e.source = a ∧ e.target = b ∧ filter.admits e.kind

/-- `b` can be reached from `a` along zero or more admitted edges. -/
def Reaches (g : Graph) (filter : KindFilter) : String → String → Prop :=
  Relation.ReflTransGen (g.Adjacent filter)

/-- The distinct nodes that admitted edges lead to from `a`, in the order of the first edge to each. -/
def nextNodes (g : Graph) (filter : KindFilter) (a : String) : List String :=
  distinct ((g.edges.filter fun e => e.source = a ∧ filter.admits e.kind).map Edge.target)

theorem adjacent_none_iff {g : Graph} {a b : String} :
    g.Adjacent none a b ↔ ∃ e ∈ g.edges, e.source = a ∧ e.target = b :=
  exists_congr fun _ => and_congr_right fun _ => and_congr_right fun _ => and_iff_left rfl

theorem length_nodeIds (g : Graph) : g.nodeIds.length = g.nodes.length :=
  List.length_map _

namespace Consistent

variable {g : Graph} (hg : g.Consistent)

include hg

/-- Looking up the ids of some edges gives these edges. -/
theorem filterMap_edge?_idsAt (side : Edge → String) (id : String) :
    (idsAt side g.edges id).filterMap g.edge? = edgesAt side g.edges id := by
  unfold idsAt
  rw [List.filterMap_map]
  have hfound : ∀ e ∈ edgesAt side g.edges id, (g.edge? ∘ Edge.id) e = some e :=
    fun e he => hg.edge?_eq_some_iff.mpr ⟨(mem_edgesAt.mp he).1, rfl⟩
  rw [List.filterMap_congr hfound, List.filterMap_some]

omit hg in
theorem edgesAt_eq_nil {side : Edge → String} (hside : ∀ e ∈ g.edges, side e ∈ g.nodeIds)
    {id : String} (hid : g.node? id = none) : edgesAt side g.edges id = [] := by
  rw [← Option.not_isSome_iff_eq_none, node?_isSome, hasNode_iff] at hid
  apply List.filter_eq_nil_iff.mpr
  intro e he heq
  exact hid (of_decide_eq_true heq ▸ hside e he)

theorem outgoingEdges_eq (id : String) : g.outgoingEdges id = edgesAt Edge.source g.edges id := by
  unfold outgoingEdges
  split
  · rename_i n hfind
    obtain ⟨hn, rfl⟩ := hg.node?_eq_some_iff.mp hfind
    rw [hg.outgoing_eq n hn, hg.filterMap_edge?_idsAt]
  · rename_i hfind
    exact (edgesAt_eq_nil hg.source_mem hfind).symm

theorem incomingEdges_eq (id : String) : g.incomingEdges id = edgesAt Edge.target g.edges id := by
  unfold incomingEdges
  split
  · rename_i n hfind
    obtain ⟨hn, rfl⟩ := hg.node?_eq_some_iff.mp hfind
    rw [hg.incoming_eq n hn, hg.filterMap_edge?_idsAt]
  · rename_i hfind
    exact (edgesAt_eq_nil hg.target_mem hfind).symm

theorem mem_successors_iff {filter : KindFilter} {a b : String} :
    b ∈ g.successors a filter ↔ g.Adjacent filter a b := by
  unfold successors targets Adjacent
  rw [mem_distinct, hg.outgoingEdges_eq]
  simp only [List.mem_map, List.mem_filter, mem_edgesAt]
  constructor
  · rintro ⟨e, ⟨⟨he, hs⟩, hk⟩, ht⟩
    exact ⟨e, he, hs, ht, hk⟩
  · rintro ⟨e, he, hs, ht, hk⟩
    exact ⟨e, ⟨⟨he, hs⟩, hk⟩, ht⟩

/-- A search tries the successors of a node in the order of the edges. -/
theorem successors_eq_nextNodes (filter : KindFilter) :
    (g.successors · filter) = g.nextNodes filter := by
  funext a
  show distinct (g.targets a filter) = g.nextNodes filter a
  unfold targets nextNodes
  rw [hg.outgoingEdges_eq, edgesAt, List.filter_filter]
  simp [Bool.and_comm]

/-- The successors that a search asks for are the adjacent nodes. -/
theorem successors_rel (filter : KindFilter) :
    (fun a b => b ∈ g.successors a filter) = g.Adjacent filter := by
  funext a b
  exact propext hg.mem_successors_iff

theorem adjacent_mem {filter : KindFilter} {a b : String} (h : g.Adjacent filter a b) :
    b ∈ g.nodeIds := by
  obtain ⟨e, he, -, rfl, -⟩ := h
  exact hg.target_mem e he

theorem successors_subset (id : String) (filter : KindFilter) :
    g.successors id filter ⊆ g.nodeIds := by
  intro b hb
  obtain ⟨e, he, -, rfl, -⟩ := hg.mem_successors_iff.mp hb
  exact hg.target_mem e he

theorem length_successors_le (id : String) (filter : KindFilter) :
    (g.successors id filter).length ≤ g.nodes.length := by
  have hsub := List.subperm_of_subset (nodup_distinct (g.targets id filter))
    (hg.successors_subset id filter)
  exact g.length_nodeIds ▸ hsub.length_le

end Consistent

end CodeAtlas.Graph
