import CodeAtlas.Proofs.Graph.Reachable
import CodeAtlas.Proofs.Search.Components
import CodeAtlas.Proofs.Search.Slices

/-!
# Reversed graphs

Turning every edge round exchanges the two lists of a node, so the hops against the edges of a graph
are the hops along the edges of its mirror image, in the same order. A walk backward and a walk
forward in the mirror image therefore go in step: the states correspond after every step, and both
collect the same ids in the same order.

A walk both ways tries the two lists in the opposite order in the mirror image, and it may go a very
different way. What it collects in the end depends on the hops of each node as a set only.
-/

namespace CodeAtlas

namespace Edge

/-- The edge with its ends exchanged. -/
def reversed (e : Edge) : Edge :=
  { e with source := e.target, target := e.source }

@[simp] theorem reversed_id (e : Edge) : e.reversed.id = e.id := rfl

theorem map_id_map_reversed (edges : List Edge) :
    (edges.map reversed).map Edge.id = edges.map Edge.id := by
  rw [List.map_map]
  rfl

theorem mem_map_reversed {edges : List Edge} {e : Edge} :
    e ∈ edges.map reversed ↔ e.reversed ∈ edges := by
  constructor
  · intro he
    obtain ⟨x, hx, rfl⟩ := List.mem_map.mp he
    exact hx
  · intro he
    exact List.mem_map.mpr ⟨e.reversed, he, rfl⟩

end Edge

theorem edgesAt_source_map_reversed (edges : List Edge) (id : String) :
    edgesAt Edge.source (edges.map Edge.reversed) id =
      (edgesAt Edge.target edges id).map Edge.reversed :=
  List.filter_map

theorem edgesAt_target_map_reversed (edges : List Edge) (id : String) :
    edgesAt Edge.target (edges.map Edge.reversed) id =
      (edgesAt Edge.source edges id).map Edge.reversed :=
  List.filter_map

namespace Node

/-- The node with its two lists exchanged. -/
def reversed (n : Node) : Node :=
  { n with outgoing := n.incoming, incoming := n.outgoing }

theorem linked_map_reversed (edges : List Edge) (n : Node) :
    n.linked (edges.map Edge.reversed) = (n.linked edges).reversed := by
  unfold linked reversed idsAt
  rw [edgesAt_source_map_reversed, edgesAt_target_map_reversed, Edge.map_id_map_reversed,
    Edge.map_id_map_reversed]

end Node

/-! ## Walks in step -/

namespace SliceWalk

/-- The walk with other edges in the place of its own. -/
def mapEdges (f : Edge → Edge) (w : SliceWalk) : SliceWalk :=
  { w with
    stack := w.stack.map (Prod.map id (List.map (Prod.map f id)))
    followed := w.followed.map f }

variable {f : Edge → Edge} {hops hops' : String → List Hop}

@[simp] theorem mapEdges_order (w : SliceWalk) : (w.mapEdges f).order = w.order := rfl

@[simp] theorem mapEdges_followed (w : SliceWalk) :
    (w.mapEdges f).followed = w.followed.map f := rfl

@[simp] theorem mapEdges_depths (w : SliceWalk) : (w.mapEdges f).depths = w.depths := rfl

@[simp] theorem mapEdges_depth (w : SliceWalk) (n : String) :
    (w.mapEdges f).depth n = w.depth n := rfl

theorem follow_map (hf : ∀ e, (f e).id = e.id) (followed : List Edge) (e : Edge) :
    follow (followed.map f) (f e) = (follow followed e).map f := by
  have hany : (followed.map f).any (·.id == (f e).id) = followed.any (·.id == e.id) := by
    rw [List.any_map]
    simp only [Function.comp_def, hf]
  unfold follow
  rw [hany]
  split
  · rfl
  · rw [List.map_append, List.map_singleton]

theorem start_mapEdges (hhops : ∀ a, hops' a = (hops a).map (Prod.map f id)) (origin : String) :
    start hops' origin = (start hops origin).mapEdges f := by
  unfold start
  rw [hhops]
  rfl

/-- Where the hops correspond, so do the steps: what a step does is decided by depths, by the ids of
edges and by the nodes that hops lead to. -/
theorem step_mapEdges (hf : ∀ e, (f e).id = e.id)
    (hhops : ∀ a, hops' a = (hops a).map (Prod.map f id)) (o : SliceOptions) (w : SliceWalk) :
    step hops' o (w.mapEdges f) = (step hops o w).map (mapEdges f) := by
  have hstack : (w.mapEdges f).stack =
      w.stack.map (Prod.map id (List.map (Prod.map f id))) := rfl
  unfold step
  rw [hstack]
  cases w.stack with
  | nil => rfl
  | cons frame below =>
    obtain ⟨n, todo⟩ := frame
    simp only [List.map_cons, Prod.map, id_eq, mapEdges_depth]
    cases o.opens (w.depth n) with
    | false => rfl
    | true =>
      cases todo with
      | nil => rfl
      | cons hop rest =>
        obtain ⟨e, m⟩ := hop
        simp only [List.map_cons, Prod.map, id_eq, mapEdges_followed, mapEdges_depths,
          follow_map hf]
        cases w.depths.get? m with
        | none =>
          simp only [enter, hhops]
          rfl
        | some known =>
          dsimp only
          rw [apply_ite (Option.map (mapEdges f))]
          simp only [enter, hhops]
          rfl

/-- Two walks over corresponding hops go in step from the start to the end. -/
theorem run_mapEdges (hf : ∀ e, (f e).id = e.id)
    (hhops : ∀ a, hops' a = (hops a).map (Prod.map f id)) (o : SliceOptions) (fuel : Nat)
    (origin : String) :
    iterate (step hops' o) fuel (start hops' origin) =
      (iterate (step hops o) fuel (start hops origin)).mapEdges f := by
  rw [start_mapEdges hhops]
  exact iterate_map (step_mapEdges hf hhops o) fuel _

end SliceWalk

namespace Graph

/-- Builds the reversed graph: the nodes first, then the edges with their ends exchanged, each in
their order. -/
def reversed (g : Graph) (config : Config) (metadata : Fields) : Except Fault Graph := do
  let bare ← (empty config metadata).addNodes g.nodes
  bare.addEdges (g.edges.map Edge.reversed)

def mirror (g : Graph) (config : Config) (metadata : Fields) : Graph :=
  { config, metadata, nodes := g.nodes.map Node.reversed, edges := g.edges.map Edge.reversed }

variable {g : Graph} {config : Config} {metadata : Fields} {filter : KindFilter}
  {o : SliceOptions} {start a : String}

@[simp] theorem nodeIds_mirror : (g.mirror config metadata).nodeIds = g.nodeIds := by
  unfold nodeIds mirror
  rw [List.map_map]
  rfl

theorem mem_nodeIds_mirror : a ∈ (g.mirror config metadata).nodeIds ↔ a ∈ g.nodeIds := by
  rw [nodeIds_mirror]

theorem node?_mirror (id : String) :
    (g.mirror config metadata).node? id = (g.node? id).map Node.reversed :=
  List.find?_map

theorem sliceBudget_mirror : (g.mirror config metadata).sliceBudget = g.sliceBudget := by
  unfold sliceBudget mirror
  rw [List.length_map, List.length_map]

namespace Consistent

variable (hg : g.Consistent)

include hg

/-- Building the reversed graph is never refused, and it gives the mirror image. -/
theorem reversed_eq (config : Config) (metadata : Fields) :
    g.reversed config metadata = .ok (g.mirror config metadata) := by
  have hids : ((g.edges.map Edge.reversed).map Edge.id).Nodup := by
    rw [Edge.map_id_map_reversed]
    exact hg.edgeIds_nodup
  have hends : ∀ e ∈ g.edges.map Edge.reversed,
      e.source ∈ g.nodes.map Node.id ∧ e.target ∈ g.nodes.map Node.id := by
    intro e he
    have he' := Edge.mem_map_reversed.mp he
    exact ⟨hg.target_mem _ he', hg.source_mem _ he'⟩
  have hnodes : g.nodes.map (Node.linked (g.edges.map Edge.reversed)) =
      g.nodes.map Node.reversed := by
    apply List.map_congr_left
    intro n hn
    rw [Node.linked_map_reversed, hg.linked_eq hn]
  have hbuild := build_ok config metadata hg.nodeIds_nodup hids hends
  rw [hnodes] at hbuild
  exact hbuild

theorem mirror (config : Config) (metadata : Fields) :
    (g.mirror config metadata).Consistent := by
  obtain ⟨bare, hbare, hok⟩ := ok_of_bind (hg.reversed_eq config metadata)
  exact ((consistent_empty config metadata).addNodes hbare).addEdges hok

/-- The hops along the edges of the mirror image are the hops against the edges of the graph. -/
theorem hops_forward_mirror (a : String) :
    (g.mirror config metadata).hops .forward filter a =
      (g.hops .backward filter a).map (Prod.map Edge.reversed id) := by
  show hopsOut _ filter a = (hopsIn g filter a).map _
  unfold hopsOut hopsIn
  rw [(hg.mirror config metadata).outgoingEdges_eq, hg.incomingEdges_eq]
  show ((edgesAt Edge.source (g.edges.map Edge.reversed) a).filter _).map _ = _
  rw [edgesAt_source_map_reversed, List.filter_map, List.map_map, List.map_map]
  rfl

/-- Both ways, the hops of the mirror image are those of the graph, in another order. -/
theorem mem_hops_bidirectional_mirror {e : Edge} {b : String} :
    (e, b) ∈ (g.mirror config metadata).hops .bidirectional filter a ↔
      (e.reversed, b) ∈ g.hops .bidirectional filter a := by
  rw [(hg.mirror config metadata).mem_hops_iff, hg.mem_hops_iff]
  exact and_congr Edge.mem_map_reversed (and_congr Iff.rfl or_comm)

theorem next_bidirectional_mirror :
    SliceWalk.Next ((g.mirror config metadata).hops .bidirectional filter) =
      SliceWalk.Next (g.hops .bidirectional filter) := by
  funext a b
  refine propext ⟨?_, ?_⟩
  · rintro ⟨e, he⟩
    exact ⟨e.reversed, hg.mem_hops_bidirectional_mirror.mp he⟩
  · rintro ⟨e, he⟩
    exact ⟨e.reversed, hg.mem_hops_bidirectional_mirror.mpr he⟩

/-! ## Slices of the mirror image -/

theorem sliceWalk_forward_mirror (start : String) (o : SliceOptions) :
    (g.mirror config metadata).sliceWalk start .forward o =
      (g.sliceWalk start .backward o).mapEdges Edge.reversed := by
  unfold sliceWalk
  rw [sliceBudget_mirror]
  exact SliceWalk.run_mapEdges Edge.reversed_id hg.hops_forward_mirror o _ start

theorem mem_sliceWalk_order_mirror (hstart : start ∈ g.nodeIds) :
    a ∈ ((g.mirror config metadata).sliceWalk start .bidirectional o).order ↔
      a ∈ (g.sliceWalk start .bidirectional o).order := by
  rw [(hg.mirror config metadata).mem_sliceWalk_order_iff (mem_nodeIds_mirror.mpr hstart),
    hg.mem_sliceWalk_order_iff hstart, hg.next_bidirectional_mirror]

theorem mem_sliceWalk_followed_mirror (hstart : start ∈ g.nodeIds) {id : String} :
    id ∈ ((g.mirror config metadata).sliceWalk start .bidirectional o).followed.map Edge.id ↔
      id ∈ (g.sliceWalk start .bidirectional o).followed.map Edge.id := by
  rw [(hg.mirror config metadata).mem_sliceWalk_followed_iff (mem_nodeIds_mirror.mpr hstart),
    hg.mem_sliceWalk_followed_iff hstart, hg.next_bidirectional_mirror]
  constructor
  · rintro ⟨e, a, k, b, hwalk, hopens, he, hid⟩
    exact ⟨e.reversed, a, k, b, hwalk, hopens, hg.mem_hops_bidirectional_mirror.mp he, hid⟩
  · rintro ⟨e, a, k, b, hwalk, hopens, he, hid⟩
    exact ⟨e.reversed, a, k, b, hwalk, hopens, hg.mem_hops_bidirectional_mirror.mpr he, hid⟩

/-- A backward slice is a forward slice of the mirror image, node by node and edge by edge. -/
theorem exists_forward_mirror (hstart : start ∈ g.nodeIds) (config : Config) (metadata : Fields)
    (o : SliceOptions) :
    ∃ back ahead, g.slice start (.str "backward") o = .ok back ∧
      (g.mirror config metadata).slice start (.str "forward") o = .ok ahead ∧
      ahead.nodeIds = back.nodeIds ∧ ahead.edgeIds = back.edgeIds ∧
      ahead.nodes = back.nodes.map Node.reversed ∧ ahead.edges = back.edges.map Edge.reversed := by
  obtain ⟨back, hback, hnodes, hids, hedges⟩ :=
    hg.exists_slice_of_walk hstart (rfl : Direction.ofValue (.str "backward") = .ok .backward) o
  obtain ⟨ahead, hahead, hnodes', hids', hedges'⟩ :=
    (hg.mirror config metadata).exists_slice_of_walk (mem_nodeIds_mirror.mpr hstart)
      (rfl : Direction.ofValue (.str "forward") = .ok .forward) o
  rw [hg.sliceWalk_forward_mirror] at hnodes' hids' hedges'
  have hreversed : ahead.edges = back.edges.map Edge.reversed := by
    rw [hedges', hedges, SliceWalk.mapEdges_followed]
  refine ⟨back, ahead, hback, hahead, ?_, ?_, ?_, hreversed⟩
  · rw [hids', hids, SliceWalk.mapEdges_order]
  · show ahead.edges.map Edge.id = back.edges.map Edge.id
    rw [hreversed, Edge.map_id_map_reversed]
  · have hfind : (g.mirror config metadata).node? = fun id => (g.node? id).map Node.reversed :=
      funext node?_mirror
    rw [hnodes', hnodes, SliceWalk.mapEdges_followed, SliceWalk.mapEdges_order, hfind,
      ← List.map_filterMap, List.map_map, List.map_map]
    exact List.map_congr_left fun n _ => Node.linked_map_reversed _ n

/-- Slices both ways hold the same nodes and edges in the mirror image, though it may take another
way to find them. -/
theorem exists_bidirectional_mirror (hstart : start ∈ g.nodeIds) (config : Config)
    (metadata : Fields) (o : SliceOptions) :
    ∃ around around', g.slice start (.str "bidirectional") o = .ok around ∧
      (g.mirror config metadata).slice start (.str "bidirectional") o = .ok around' ∧
      (∀ id, id ∈ around'.nodeIds ↔ id ∈ around.nodeIds) ∧
      ∀ id, id ∈ around'.edgeIds ↔ id ∈ around.edgeIds := by
  have hboth : Direction.ofValue (.str "bidirectional") = .ok .bidirectional := rfl
  obtain ⟨around, haround, -, hids, hedges⟩ := hg.exists_slice_of_walk hstart hboth o
  obtain ⟨around', haround', -, hids', hedges'⟩ :=
    (hg.mirror config metadata).exists_slice_of_walk (mem_nodeIds_mirror.mpr hstart) hboth o
  refine ⟨around, around', haround, haround', fun id => ?_, fun id => ?_⟩
  · rw [hids', hids]
    exact hg.mem_sliceWalk_order_mirror hstart
  · unfold edgeIds
    rw [hedges', hedges]
    exact hg.mem_sliceWalk_followed_mirror hstart

end Consistent

/-- **Backward is forward in the reversed graph.** Building the reversed graph is never refused.
From every node and under all options, a backward slice and a forward slice of the reversed graph
hold the same nodes and the same edges in the same order, the edges with their ends exchanged; and
slices both ways hold the same nodes and the same edges. -/
theorem slices_reversed (hg : g.Reachable) (config : Config) (metadata : Fields) :
    ∃ r, g.reversed config metadata = .ok r ∧ ∀ start ∈ g.nodeIds, ∀ o : SliceOptions,
      (∃ back ahead, g.slice start (.str "backward") o = .ok back ∧
        r.slice start (.str "forward") o = .ok ahead ∧
        ahead.nodeIds = back.nodeIds ∧ ahead.edgeIds = back.edgeIds ∧
        ahead.nodes = back.nodes.map Node.reversed ∧
        ahead.edges = back.edges.map Edge.reversed) ∧
      ∃ around around', g.slice start (.str "bidirectional") o = .ok around ∧
        r.slice start (.str "bidirectional") o = .ok around' ∧
        (∀ id, id ∈ around'.nodeIds ↔ id ∈ around.nodeIds) ∧
        ∀ id, id ∈ around'.edgeIds ↔ id ∈ around.edgeIds := by
  have hc := hg.consistent
  refine ⟨g.mirror config metadata, hc.reversed_eq config metadata, fun start hstart o => ?_⟩
  exact ⟨hc.exists_forward_mirror hstart config metadata o,
    hc.exists_bidirectional_mirror hstart config metadata o⟩

/-- Two steps back from the node `d` of `knots`, with the edges in the order in which the forward
walk of the reversed graph follows them. -/
theorem slices_reversed_knots :
    knots.Reachable ∧ "d" ∈ knots.nodeIds ∧ ∃ r ahead, knots.reversed {} [] = .ok r ∧
      r.slice "d" (.str "forward") { maxDepth := some 2 } = .ok ahead ∧
      ahead.nodeIds = ["d", "c", "f", "b", "e"] ∧
      ahead.edgeIds = ["edge_6", "edge_1", "edge_4", "edge_7", "edge_9", "edge_8", "edge_10"] := by
  have hd : "d" ∈ knots.nodeIds := by decide
  obtain ⟨r, hr, hslices⟩ := slices_reversed knots_reachable {} []
  obtain ⟨⟨back, ahead, hback, hahead, hids, hedges, -, -⟩, -⟩ :=
    hslices "d" hd { maxDepth := some 2 }
  have hfound : (knots.slice "d" (.str "backward") { maxDepth := some 2 }).map
      (fun part => (part.nodeIds, part.edgeIds)) = .ok (["d", "c", "f", "b", "e"],
        ["edge_6", "edge_1", "edge_4", "edge_7", "edge_9", "edge_8", "edge_10"]) := rfl
  rw [hback] at hfound
  obtain ⟨hnodes, hfollowed⟩ := Prod.mk.inj (Except.ok.inj hfound)
  exact ⟨knots_reachable, hd, r, ahead, hr, hahead, hids.trans hnodes, hedges.trans hfollowed⟩

end Graph

end CodeAtlas
