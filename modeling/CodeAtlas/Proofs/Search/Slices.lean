import CodeAtlas.Proofs.Graph.Adjacency
import CodeAtlas.Proofs.Graph.Copy
import CodeAtlas.Proofs.Search.SliceWalk

/-!
# Slices

On a consistent graph the hops at a node are the admitted edges at it, so the walk of a slice stays
within the graph and comes to its end. Its nodes and the edges it followed make a graph, as no id is
collected twice and both ends of a followed edge are collected too.
-/

namespace CodeAtlas

/-- Following `e` in this direction leads from `a` to `b`. -/
def Direction.Follows : Direction → Edge → String → String → Prop
  | .forward, e, a, b => e.source = a ∧ e.target = b
  | .backward, e, a, b => e.target = a ∧ e.source = b
  | .bidirectional, e, a, b => e.source = a ∧ e.target = b ∨ e.target = a ∧ e.source = b

/-- The ends of an edge are the nodes that it is followed between. -/
theorem Direction.Follows.ends {direction : Direction} {e : Edge} {a b : String}
    (h : direction.Follows e a b) {P : String → Prop} (ha : P a) (hb : P b) :
    P e.source ∧ P e.target := by
  cases direction with
  | forward =>
    obtain ⟨rfl, rfl⟩ := h
    exact ⟨ha, hb⟩
  | backward =>
    obtain ⟨rfl, rfl⟩ := h
    exact ⟨hb, ha⟩
  | bidirectional =>
    rcases h with ⟨rfl, rfl⟩ | ⟨rfl, rfl⟩
    · exact ⟨ha, hb⟩
    · exact ⟨hb, ha⟩

namespace Graph

variable {g : Graph} {filter : KindFilter} {direction : Direction} {o : SliceOptions}
  {start a b : String} {e : Edge}

theorem requireNode_eq_ok {id : String} (hid : id ∈ g.nodeIds) : g.requireNode id = .ok () :=
  if_pos ((g.hasNode_iff id).mpr hid)

theorem requireNode_eq_error {id : String} (hid : id ∉ g.nodeIds) :
    g.requireNode id = .error (.nodeNotFound id none) :=
  if_neg fun h => hid ((g.hasNode_iff id).mp h)

theorem slice_of_not_mem (hstart : start ∉ g.nodeIds) (v : Value) (o : SliceOptions) :
    g.slice start v o = .error (.nodeNotFound start none) := by
  unfold slice
  rw [requireNode_eq_error hstart]
  rfl

theorem slice_of_mem (hstart : start ∈ g.nodeIds) (v : Value) (o : SliceOptions) :
    g.slice start v o = Direction.ofValue v >>= fun direction => g.sliceFrom start direction o := by
  unfold slice
  rw [requireNode_eq_ok hstart]
  rfl

/-! ## Hops -/

theorem mem_hopsAt_iff {near far : Edge → String} {edges : List Edge} :
    (e, b) ∈ ((edgesAt near edges a).filter (filter.admits ·.kind)).map (fun e => (e, far e)) ↔
      e ∈ edges ∧ filter.admits e.kind = true ∧ near e = a ∧ far e = b := by
  simp only [List.mem_map, List.mem_filter, mem_edgesAt, Prod.mk.injEq]
  constructor
  · rintro ⟨x, ⟨⟨hx, hnear⟩, hkind⟩, rfl, hfar⟩
    exact ⟨hx, hkind, hnear, hfar⟩
  · rintro ⟨he, hkind, hnear, hfar⟩
    exact ⟨e, ⟨⟨he, hnear⟩, hkind⟩, rfl, hfar⟩

namespace Consistent

variable (hg : g.Consistent)

include hg

theorem mem_hopsOut_iff : (e, b) ∈ g.hopsOut filter a ↔
    e ∈ g.edges ∧ filter.admits e.kind = true ∧ e.source = a ∧ e.target = b := by
  unfold hopsOut
  rw [hg.outgoingEdges_eq]
  exact mem_hopsAt_iff

theorem mem_hopsIn_iff : (e, b) ∈ g.hopsIn filter a ↔
    e ∈ g.edges ∧ filter.admits e.kind = true ∧ e.target = a ∧ e.source = b := by
  unfold hopsIn
  rw [hg.incomingEdges_eq]
  exact mem_hopsAt_iff

/-- The hops at a node are the admitted edges that can be followed from it. -/
theorem mem_hops_iff : (e, b) ∈ g.hops direction filter a ↔
    e ∈ g.edges ∧ filter.admits e.kind = true ∧ direction.Follows e a b := by
  cases direction with
  | forward => exact hg.mem_hopsOut_iff
  | backward => exact hg.mem_hopsIn_iff
  | bidirectional =>
    unfold hops
    rw [List.mem_append, hg.mem_hopsOut_iff, hg.mem_hopsIn_iff, ← and_or_left, ← and_or_left]
    rfl

theorem next_forward : SliceWalk.Next (g.hops .forward filter) = g.Adjacent filter := by
  funext a b
  refine propext (exists_congr fun e => ?_)
  rw [hg.mem_hops_iff]
  constructor
  · rintro ⟨he, hk, hs, ht⟩
    exact ⟨he, hs, ht, hk⟩
  · rintro ⟨he, hs, ht, hk⟩
    exact ⟨he, hk, hs, ht⟩

theorem next_backward :
    SliceWalk.Next (g.hops .backward filter) = Function.swap (g.Adjacent filter) := by
  funext a b
  refine propext (exists_congr fun e => ?_)
  rw [hg.mem_hops_iff]
  constructor
  · rintro ⟨he, hk, ht, hs⟩
    exact ⟨he, hs, ht, hk⟩
  · rintro ⟨he, hs, ht, hk⟩
    exact ⟨he, hk, ht, hs⟩

theorem hops_mem (direction : Direction) (filter : KindFilter) :
    ∀ a ∈ g.nodeIds, ∀ x ∈ g.hops direction filter a, x.2 ∈ g.nodeIds := by
  rintro a - ⟨e, b⟩ hhop
  obtain ⟨he, -, hfollows⟩ := hg.mem_hops_iff.mp hhop
  cases direction with
  | forward => exact hfollows.2 ▸ hg.target_mem e he
  | backward => exact hfollows.2 ▸ hg.source_mem e he
  | bidirectional =>
    rcases hfollows with ⟨-, rfl⟩ | ⟨-, rfl⟩
    · exact hg.target_mem e he
    · exact hg.source_mem e he

theorem length_hopsOut_le (filter : KindFilter) (a : String) :
    (g.hopsOut filter a).length ≤ g.edges.length := by
  unfold hopsOut
  rw [List.length_map, hg.outgoingEdges_eq]
  exact Nat.le_trans (List.length_filter_le _ _) (List.length_filter_le _ _)

theorem length_hopsIn_le (filter : KindFilter) (a : String) :
    (g.hopsIn filter a).length ≤ g.edges.length := by
  unfold hopsIn
  rw [List.length_map, hg.incomingEdges_eq]
  exact Nat.le_trans (List.length_filter_le _ _) (List.length_filter_le _ _)

theorem length_hops_le (a : String) :
    (g.hops direction filter a).length ≤ 2 * g.edges.length := by
  have hout := hg.length_hopsOut_le filter a
  have hin := hg.length_hopsIn_le filter a
  unfold hops
  split
  · omega
  · omega
  · rw [List.length_append]
    omega

/-! ## The finished walk -/

theorem sliceWalk_invariant (hstart : start ∈ g.nodeIds) (direction : Direction)
    (o : SliceOptions) :
    SliceWalk.Invariant (g.hops direction o.kinds) o start g.nodeIds
      (g.sliceWalk start direction o) :=
  .run o (hg.hops_mem direction o.kinds) hstart g.sliceBudget

theorem sliceWalk_stack (hstart : start ∈ g.nodeIds) (direction : Direction) (o : SliceOptions) :
    (g.sliceWalk start direction o).stack = [] := by
  refine SliceWalk.stack_run_eq_nil (hg.hops_mem direction o.kinds) hstart hg.length_hops_le ?_
  rw [g.length_nodeIds]
  exact Nat.lt_succ_self _

theorem mem_sliceWalk_order_iff (hstart : start ∈ g.nodeIds) :
    a ∈ (g.sliceWalk start direction o).order ↔
      ∃ k, Walk (SliceWalk.Next (g.hops direction o.kinds)) start a k ∧
        ∀ d ∈ o.maxDepth, k ≤ d :=
  (hg.sliceWalk_invariant hstart direction o).mem_order_iff
    (hg.sliceWalk_stack hstart direction o)

theorem mem_sliceWalk_followed_iff (hstart : start ∈ g.nodeIds) {id : String} :
    id ∈ (g.sliceWalk start direction o).followed.map Edge.id ↔
      ∃ e a k b, Walk (SliceWalk.Next (g.hops direction o.kinds)) start a k ∧ o.opens k = true ∧
        (e, b) ∈ g.hops direction o.kinds a ∧ e.id = id :=
  (hg.sliceWalk_invariant hstart direction o).mem_followed_iff
    (.run o (hg.hops_mem direction o.kinds) hstart g.sliceBudget)
    (hg.sliceWalk_stack hstart direction o)

/-! ## The graph of a slice -/

/-- Looking up ids of the graph gives the nodes of these ids. -/
theorem map_id_filterMap_node? {ids : List String} (hids : ∀ id ∈ ids, id ∈ g.nodeIds) :
    (ids.filterMap g.node?).map Node.id = ids := by
  induction ids with
  | nil => rfl
  | cons id ids ih =>
    obtain ⟨hid, hrest⟩ := List.forall_mem_cons.mp hids
    obtain ⟨n, hn, rfl⟩ := List.mem_map.mp hid
    rw [List.filterMap_cons_some (hg.node?_eq_some_iff.mpr ⟨hn, rfl⟩), List.map_cons, ih hrest]

/-- A slice from a node of the graph is never refused: it has the nodes of its walk, with the edges
that the walk followed. -/
theorem sliceFrom_eq (hstart : start ∈ g.nodeIds) (direction : Direction) (o : SliceOptions) :
    g.sliceFrom start direction o = .ok
      { config := g.config
        metadata := sliceMetadata start direction
        nodes := ((g.sliceWalk start direction o).order.filterMap g.node?).map
          (Node.linked (g.sliceWalk start direction o).followed)
        edges := (g.sliceWalk start direction o).followed } := by
  have hinv := hg.sliceWalk_invariant hstart direction o
  have hids := hg.map_id_filterMap_node? hinv.order_mem
  refine build_ok g.config (sliceMetadata start direction) ?_ hinv.followed_nodup ?_
  · rw [hids]
    exact hinv.order_nodup
  · intro e he
    obtain ⟨a, ha, b, hb, hhop⟩ := hinv.followed_from e he
    rw [hids]
    exact (hg.mem_hops_iff.mp hhop).2.2.ends ha hb

/-- A slice in a known direction holds what its walk collected, each in the order of the walk. -/
theorem exists_slice_of_walk (hstart : start ∈ g.nodeIds) {v : Value}
    (hdirection : Direction.ofValue v = .ok direction) (o : SliceOptions) :
    ∃ part, g.slice start v o = .ok part ∧
      part.nodes = ((g.sliceWalk start direction o).order.filterMap g.node?).map
        (Node.linked (g.sliceWalk start direction o).followed) ∧
      part.nodeIds = (g.sliceWalk start direction o).order ∧
      part.edges = (g.sliceWalk start direction o).followed := by
  have hslice : g.slice start v o = g.sliceFrom start direction o := by
    rw [slice_of_mem hstart, hdirection]
    rfl
  rw [hslice, hg.sliceFrom_eq hstart direction o]
  refine ⟨_, rfl, rfl, ?_, rfl⟩
  have hinv := hg.sliceWalk_invariant hstart direction o
  rw [nodeIds, List.map_map]
  exact hg.map_id_filterMap_node? hinv.order_mem

/-- **Nodes of a slice.** A slice from a node of the graph holds exactly the nodes that some walk
along hops leads to within the bound. -/
theorem exists_slice (hstart : start ∈ g.nodeIds) {v : Value}
    (hdirection : Direction.ofValue v = .ok direction) (o : SliceOptions) :
    ∃ part, g.slice start v o = .ok part ∧
      ∀ a, a ∈ part.nodeIds ↔ ∃ k, Walk (SliceWalk.Next (g.hops direction o.kinds)) start a k ∧
        ∀ d ∈ o.maxDepth, k ≤ d := by
  obtain ⟨part, hpart, -, hids, -⟩ := hg.exists_slice_of_walk hstart hdirection o
  refine ⟨part, hpart, fun a => ?_⟩
  rw [hids, hg.mem_sliceWalk_order_iff hstart]

end Consistent

end Graph

end CodeAtlas
