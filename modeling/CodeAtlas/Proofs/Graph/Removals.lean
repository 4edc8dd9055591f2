import CodeAtlas.Proofs.Graph.Reachable

/-!
# Removals

Removing a node works through the lists at it: each edge listed there is removed in turn, which
changes these lists and those at the other ends, and a self-loop comes up twice. What is left does
not depend on any of this. It is the part of the graph that no removal names, and so the order of
removals, and how often one is repeated, make no difference.
-/

namespace CodeAtlas

inductive Removal where
  | node (id : String)
  | edge (id : String)
  deriving DecidableEq

def Removal.operation : Removal → Operation
  | .node id => .removeNode id
  | .edge id => .removeEdge id

/-- Leaving edges out strikes their ids from the ids at every node, and no others. -/
theorem idsAt_filter {edges : List Edge} (h : (edges.map Edge.id).Nodup) (p : Edge → Prop)
    [DecidablePred p] (side : Edge → String) (id : String) :
    idsAt side (edges.filter fun e => ¬p e) id =
      (idsAt side edges id).filter fun i => i ∉ (edges.filter fun e => p e).map Edge.id := by
  have hstruck : ∀ e ∈ edges, e.id ∈ (edges.filter fun e => p e).map Edge.id ↔ p e := by
    intro e he
    rw [List.mem_map]
    constructor
    · rintro ⟨d, hd, hid⟩
      obtain ⟨hd, hp⟩ := List.mem_filter.mp hd
      rw [← List.inj_on_of_nodup_map h hd he hid]
      exact of_decide_eq_true hp
    · exact fun hp => ⟨e, List.mem_filter.mpr ⟨he, decide_eq_true hp⟩, rfl⟩
  unfold idsAt edgesAt
  rw [List.filter_map, List.filter_filter, List.filter_filter]
  congr 1
  apply List.filter_congr
  intro e he
  simp only [Function.comp_apply, hstruck e he, Bool.and_comm]

namespace Graph

/-- The ids of the edges that have `id` for an end. -/
def edgeIdsTouching (g : Graph) (id : String) : List String :=
  (g.edges.filter fun e => e.source = id ∨ e.target = id).map Edge.id

/-- What is left of a graph when all that is named in `rs` is gone, with the edges at its nodes. -/
def without (g : Graph) (rs : List Removal) : Graph :=
  ({ g with nodes := g.nodes.filter fun n => .node n.id ∉ rs } : Graph).withEdges
    (g.edges.filter fun e => .edge e.id ∉ rs ∧ .node e.source ∉ rs ∧ .node e.target ∉ rs)

/-- What is left depends on what is named, not on how it is named. -/
theorem without_congr {rs rs' : List Removal} (h : ∀ r, r ∈ rs ↔ r ∈ rs') (g : Graph) :
    g.without rs = g.without rs' := by
  unfold without
  simp only [h]

theorem without_without (g : Graph) (rs rs' : List Removal) :
    (g.without rs).without rs' = g.without (rs ++ rs') := by
  have hnodes : ((g.nodes.filter fun n => .node n.id ∉ rs).filter fun n => .node n.id ∉ rs') =
      g.nodes.filter fun n => .node n.id ∉ rs ++ rs' := by
    rw [List.filter_filter]
    apply List.filter_congr
    intro n _
    grind
  have hedges : ((g.edges.filter fun e =>
        .edge e.id ∉ rs ∧ .node e.source ∉ rs ∧ .node e.target ∉ rs).filter fun e =>
        .edge e.id ∉ rs' ∧ .node e.source ∉ rs' ∧ .node e.target ∉ rs') =
      g.edges.filter fun e => .edge e.id ∉ rs ++ rs' ∧ .node e.source ∉ rs ++ rs' ∧
        .node e.target ∉ rs ++ rs' := by
    rw [List.filter_filter]
    apply List.filter_congr
    intro e _
    grind
  unfold without withEdges
  simp only [List.filter_map, List.map_map]
  rw [← hnodes, ← hedges]
  rfl

theorem removeNode?_of_mem {g : Graph} {id : String} (hid : id ∈ g.nodeIds) :
    g.removeNode? id = some (g.removeNode id) := by
  have hfound : (g.removeNode? id).isSome = true := by
    rw [removeNode?, Option.isSome_map, node?_isSome, hasNode_iff]
    exact hid
  obtain ⟨h, hh⟩ := Option.isSome_iff_exists.mp hfound
  rw [removeNode, hh]
  rfl

theorem removeNode?_of_not_mem {g : Graph} {id : String} (hid : id ∉ g.nodeIds) :
    g.removeNode? id = none := by
  rw [← Option.not_isSome_iff_eq_none, removeNode?, Option.isSome_map, node?_isSome, hasNode_iff]
  exact hid

namespace Consistent

variable {g h : Graph} (hg : g.Consistent)

include hg

/-! ## One removal -/

/-- A node keeps all of its data, and of its lists what is not struck with the edges. -/
theorem linked_filter (p : Edge → Prop) [DecidablePred p] {n : Node} (hn : n ∈ g.nodes) :
    n.linked (g.edges.filter fun e => ¬p e) =
      { n with
        outgoing := n.outgoing.filter fun i => i ∉ (g.edges.filter fun e => p e).map Edge.id
        incoming := n.incoming.filter fun i => i ∉ (g.edges.filter fun e => p e).map Edge.id } := by
  unfold Node.linked
  rw [idsAt_filter hg.edgeIds_nodup, idsAt_filter hg.edgeIds_nodup, ← hg.outgoing_eq n hn,
    ← hg.incoming_eq n hn]

theorem removeNode?_eq {id : String} (hid : id ∈ g.nodeIds) :
    g.removeNode? id = some
      { g with
        nodes := (g.nodes.filter fun n => n.id ≠ id).map fun n =>
          { n with
            outgoing := n.outgoing.filter fun i => i ∉ g.edgeIdsTouching id
            incoming := n.incoming.filter fun i => i ∉ g.edgeIdsTouching id }
        edges := g.edges.filter fun e => e.source ≠ id ∧ e.target ≠ id } := by
  have hedges : (g.edges.filter fun e => e.source ≠ id ∧ e.target ≠ id) =
      g.edges.filter fun e => ¬(e.source = id ∨ e.target = id) :=
    List.filter_congr fun e _ => decide_eq_decide.mpr not_or.symm
  rw [removeNode?_of_mem hid, hg.removeNode_eq hid, hedges]
  unfold withEdges
  congr 2
  apply List.map_congr_left
  intro n hn
  exact hg.linked_filter (fun e => e.source = id ∨ e.target = id) (List.mem_of_mem_filter hn)

/-- An edge that was just added is the last at both its ends, and its id stands nowhere else. -/
theorem removeEdge?_of_addEdge {e : Edge} (hok : g.addEdge e = .ok h) :
    h.removeEdge? e.id = some g := by
  have hh := hg.addEdge hok
  obtain ⟨⟨hnew, -⟩, -⟩ := addEdge_eq_ok_iff.mp hok
  have heq := hg.addEdge_eq hok
  have hold : ((g.edges ++ [e]).filter fun d => d.id ≠ e.id) = g.edges := by
    rw [List.filter_append, List.filter_eq_self.mpr, List.filter_eq_nil_iff.mpr, List.append_nil]
    · simp
    · exact fun d hd => decide_eq_true fun hid => hnew (hid ▸ List.mem_map_of_mem hd)
  have hmem : e ∈ h.edges := by
    rw [heq]
    exact List.mem_append_right _ (List.mem_singleton.mpr rfl)
  have hremove := hh.removeEdge_eq e.id
  rw [heq, edges_withEdges, hold, withEdges_withEdges, hg.withEdges_eq, ← heq] at hremove
  unfold Graph.removeEdge at hremove
  rw [← hremove]
  unfold removeEdge?
  rw [hh.edge?_eq_some_iff.mpr ⟨hmem, rfl⟩]
  rfl

theorem perform_removal (r : Removal) : g.perform r.operation = g.without [r] := by
  cases r with
  | node id =>
    show g.removeNode id = _
    rw [hg.removeNode_eq_withEdges]
    unfold without
    simp [eq_comm]
  | edge id =>
    show g.removeEdge id = _
    rw [hg.removeEdge_eq]
    unfold without
    simp [eq_comm]

/-! ## Many removals -/

/-- **A row of removals.** However they are mixed, removals leave what none of them names. -/
theorem performAll_removals (rs : List Removal) :
    g.performAll (rs.map Removal.operation) = g.without rs := by
  induction rs generalizing g with
  | nil => simp [performAll, without, hg.withEdges_eq]
  | cons r rs ih =>
    have hstep := ih (hg.perform r.operation)
    rw [hg.perform_removal, without_without] at hstep
    rw [List.map_cons, performAll, List.foldl_cons, hg.perform_removal]
    exact hstep

end Consistent

/-- **Removals are exact.** From a reachable graph, removing a node that is there leaves the other
nodes and the edges between other nodes, both in their order; the nodes keep their data, and their
lists lose just the ids of the edges that went; attributes, settings and counters stay. Removing a
node that is not there says so and changes nothing. Two rows of removals that name the same nodes
and edges leave the same graph, whatever their order. And an edge that was added and is removed
again leaves the graph as it was. -/
theorem removals_exact {g : Graph} (hg : g.Reachable) :
    (∀ id ∈ g.nodeIds, g.removeNode? id = some
      { g with
        nodes := (g.nodes.filter fun n => n.id ≠ id).map fun n =>
          { n with
            outgoing := n.outgoing.filter fun i => i ∉ g.edgeIdsTouching id
            incoming := n.incoming.filter fun i => i ∉ g.edgeIdsTouching id }
        edges := g.edges.filter fun e => e.source ≠ id ∧ e.target ≠ id }) ∧
    (∀ id, id ∉ g.nodeIds → g.removeNode? id = none ∧ g.removeNode id = g) ∧
    (∀ rs rs' : List Removal, (∀ r, r ∈ rs ↔ r ∈ rs') →
      g.performAll (rs.map Removal.operation) = g.performAll (rs'.map Removal.operation)) ∧
    ∀ e h, g.addEdge e = .ok h → h.removeEdge? e.id = some g := by
  have hc := hg.consistent
  refine ⟨fun id hid => hc.removeNode?_eq hid, fun id hid => ?_, fun rs rs' hsame => ?_,
    fun e h hok => hc.removeEdge?_of_addEdge hok⟩
  · exact ⟨removeNode?_of_not_mem hid, Consistent.removeNode_of_not_mem hid⟩
  · rw [hc.performAll_removals, hc.performAll_removals, without_congr hsame]

/-- The node `a` of the tangle has a self-loop, which stands in both its lists, and two edges to
`b`; what `b` keeps is its kind and position. Before or after `b` goes, and asked for once or twice,
the removal of one of these edges makes no difference. -/
theorem removals_exact_tangle :
    tangle.Reachable ∧ tangle.edgeIdsTouching "a" = ["edge_1", "edge_3", "loop"] ∧
      tangle.removeNode? "a" = some
        { nodes := [{ id := "b", kind := .cls, location := { line := 3 } }], edgeCounter := 3 } ∧
      tangle.removeNode? "ghost" = none ∧
      tangle.performAll [.removeEdge "edge_1", .removeNode "b", .removeEdge "edge_1"] =
        tangle.performAll [.removeNode "b", .removeEdge "edge_1"] ∧
      ∃ h, tangle.addEdge { id := "again", source := "a", target := "a" } = .ok h ∧
        (h.node? "a").map Node.incoming = some ["loop", "again"] ∧
        h.removeEdge? "again" = some tangle := by
  obtain ⟨hpresent, habsent, horder, hback⟩ := removals_exact tangle_reachable
  refine ⟨tangle_reachable, rfl, hpresent "a" (by decide), (habsent "ghost" (by decide)).1, ?_, _,
    rfl, rfl, hback { id := "again", source := "a", target := "a" } _ rfl⟩
  refine horder [.edge "edge_1", .node "b", .edge "edge_1"] [.node "b", .edge "edge_1"] fun r => ?_
  simp only [List.mem_cons, List.not_mem_nil, or_false]
  tauto

end Graph

end CodeAtlas
