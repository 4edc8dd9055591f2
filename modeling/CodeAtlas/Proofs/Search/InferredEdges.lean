import CodeAtlas.Proofs.Search.Reclosing

/-!
# The edges a closure adds

A closure goes through the pairs of nodes in the order of the nodes and infers an edge for each pair
that is linked indirectly and not directly. What is linked was settled before the first edge is
added, so the edges are known from the graph: which pairs get one, in which order, and that their
ids, drawn one after the other from the counter of the graph, are new.
-/

namespace CodeAtlas.Graph

variable {g h : Graph} {filter : KindFilter} {added : List Edge}

/-! ## The order of the pairs -/

/-- The order of pairs of nodes: by the first node, then by the second. -/
def PairPrecedes (g : Graph) (p q : String × String) : Prop :=
  g.nodeIds.idxOf p.1 < g.nodeIds.idxOf q.1 ∨
    p.1 = q.1 ∧ g.nodeIds.idxOf p.2 < g.nodeIds.idxOf q.2

theorem Consistent.pairwise_indirectPairs (hg : g.Consistent) (filter : KindFilter) :
    (g.indirectPairs filter).Pairwise g.PairPrecedes := by
  have hnodes := pairwise_idxOf_lt hg.nodeIds_nodup
  unfold indirectPairs
  refine List.pairwise_flatMap.mpr ⟨fun source _ => ?_, hnodes.imp fun hlt p hp q hq => ?_⟩
  · rw [List.pairwise_map]
    exact (hnodes.filter _).imp fun hlt => Or.inr ⟨rfl, hlt⟩
  · obtain ⟨_, -, rfl⟩ := List.mem_map.mp hp
    obtain ⟨_, -, rfl⟩ := List.mem_map.mp hq
    exact Or.inl hlt

/-! ## The ids -/

/-- An inferred edge goes last and takes its id from the counter. -/
theorem addInferred_eq_ok {pair : String × String} (hok : g.addInferred pair = .ok h) :
    g.edgeCounter < h.edgeCounter ∧
      ∃ e, e.id = numberedId edgeStem h.edgeCounter ∧ h.edges = g.edges ++ [e] := by
  unfold addInferred at hok
  split at hok
  · rename_i h' e hconnect
    obtain rfl : h' = h := Except.ok.inj hok
    unfold connect claimEdgeId at hconnect
    simp only at hconnect
    split at hconnect
    · cases (Prod.mk.inj hconnect).2
    · rename_i h'' hadd
      obtain rfl := (Prod.mk.inj hconnect).1
      obtain ⟨-, rfl⟩ := addEdge_eq_ok_iff.mp hadd
      exact ⟨(nextFree_spec edgeStem g.edgeIds g.edgeIds.length g.edgeCounter).1.1, _, rfl, rfl⟩
  · cases hok

/-- The edges that a row of inferences adds have numbers above the counter. -/
theorem numbered_of_foldlM_addInferred {pairs : List (String × String)}
    (hok : pairs.foldlM addInferred g = .ok h) :
    g.edgeCounter ≤ h.edgeCounter ∧ ∀ e ∈ h.edges, e ∈ g.edges ∨
      ∃ k, g.edgeCounter < k ∧ e.id = numberedId edgeStem k := by
  induction pairs generalizing g with
  | nil =>
    obtain rfl : g = h := Except.ok.inj hok
    exact ⟨Nat.le_refl _, fun e he => Or.inl he⟩
  | cons pair pairs ih =>
    rw [List.foldlM_cons] at hok
    obtain ⟨mid, hmid, hok⟩ := Consistent.ok_of_bind hok
    obtain ⟨hlt, d, hd, hedges⟩ := addInferred_eq_ok hmid
    obtain ⟨hle, hrest⟩ := ih hok
    refine ⟨by omega, fun e he => ?_⟩
    rcases hrest e he with hmem | ⟨k, hk, hid⟩
    · rw [hedges, List.mem_append, List.mem_singleton] at hmem
      rcases hmem with hmem | rfl
      · exact Or.inl hmem
      · exact Or.inr ⟨mid.edgeCounter, hlt, hd⟩
    · exact Or.inr ⟨k, by omega, hid⟩

theorem Consistent.numbered_closureOver (hg : g.Consistent) (hok : g.closureOver filter = .ok h) :
    ∀ e ∈ h.edges, e ∈ g.edges ∨ ∃ k, g.edgeCounter < k ∧ e.id = numberedId edgeStem k := by
  unfold Graph.closureOver at hok
  rw [hg.copy_eq] at hok
  exact (numbered_of_foldlM_addInferred hok).2

/-! ## The edges -/

/-- Only nodes are linked. -/
theorem Consistent.mem_of_transGen (hg : g.Consistent) {i j : String}
    (hij : Relation.TransGen (g.Adjacent filter) i j) : i ∈ g.nodeIds ∧ j ∈ g.nodeIds := by
  constructor
  · obtain ⟨_, ⟨e, he, rfl, -⟩, -⟩ := Relation.TransGen.head'_iff.mp hij
    exact hg.source_mem e he
  · obtain ⟨_, -, hstep⟩ := Relation.TransGen.tail'_iff.mp hij
    exact hg.adjacent_mem hstep

namespace ClosedBy

theorem metadata_eq (hh : g.ClosedBy filter added h) :
    ∀ e ∈ added, e.metadata = inferredMetadata := by
  have hmetadata := hh.inferred.imp fun _ _ hinfers => And.intro hinfers.metadata_eq hinfers
  exact ((List.forall₂_and_left _ _).mp hmetadata).1

theorem exists_added_iff (hh : g.ClosedBy filter added h) {i j : String} :
    (∃ e ∈ added, e.source = i ∧ e.target = j) ↔ (i, j) ∈ g.indirectPairs filter := by
  rw [← hh.map_ends, List.mem_map]
  simp only [Prod.mk.injEq]

theorem pairwise_added (hh : g.ClosedBy filter added h) (hg : g.Consistent) :
    added.Pairwise fun d e => g.PairPrecedes (d.source, d.target) (e.source, e.target) := by
  have hordered := hg.pairwise_indirectPairs filter
  rwa [← hh.map_ends, List.pairwise_map] at hordered

theorem nodup_added (hh : g.ClosedBy filter added h) (hc : h.Consistent) :
    (added.map Edge.id).Nodup := by
  have hnodup := hc.edgeIds_nodup
  unfold edgeIds at hnodup
  rw [hh.edges_eq, List.map_append] at hnodup
  exact (List.nodup_append.mp hnodup).2.1

end ClosedBy

/-- **The transitive closure.** Over any kinds the closure of a reachable graph is made. It is the
graph with further edges after its own: nothing else changes but the lists of the nodes, which list
these edges too, and the counter of the edge ids. The further edges are marked dependencies, and one
leads from `i` to `j` just when these are two nodes of which the second is reached from the first by
one or more admitted edges but by no single one. They stand in the order of the pairs, which lets no
pair have two, and have generated ids that differ from each other and from the ids of all edges of
the graph. -/
theorem closure_exact (hg : g.Reachable) (filter : KindFilter) :
    ∃ added counter h, g.closureOver filter = .ok h ∧
      (∀ kinds, KindFilter.ofValues kinds = .ok filter → g.closure kinds = .ok h) ∧
      h = { g with
            nodes := g.nodes.map (Node.linked (g.edges ++ added))
            edges := g.edges ++ added
            edgeCounter := counter } ∧
      (∀ e ∈ added, e.kind = .dependsOn ∧ e.metadata = [("transitive", .bool true)]) ∧
      (∀ i j, (∃ e ∈ added, e.source = i ∧ e.target = j) ↔
        i ≠ j ∧ Relation.TransGen (g.Adjacent filter) i j ∧ ¬g.Adjacent filter i j) ∧
      added.Pairwise (fun d e => g.PairPrecedes (d.source, d.target) (e.source, e.target)) ∧
      (added.map Edge.id).Nodup ∧
      ∀ e ∈ added, e.id ∉ g.edgeIds ∧ ∃ k, g.edgeCounter < k ∧ e.id = numberedId edgeStem k := by
  have hc := hg.consistent
  obtain ⟨added, counter, hinferred, hfresh, hok⟩ := hc.closureOver_eq filter
  have hby : g.ClosedBy filter added _ := ⟨hinferred, hfresh, counter, rfl⟩
  refine ⟨added, counter, _, hok, fun kinds hkinds => ?_, rfl,
    fun e he => ⟨hby.kind_eq e he, hby.metadata_eq e he⟩, fun i j => ?_, hby.pairwise_added hc,
    hby.nodup_added (.closureOver hok), fun e he => ⟨hfresh e he, ?_⟩⟩
  · rw [closure_of_ofValues hkinds, hok]
  · rw [hby.exists_added_iff, hc.mem_indirectPairs_iff]
    constructor
    · rintro ⟨-, -, hne, hreach, hnot⟩
      exact ⟨hne.symm, hreach, hnot⟩
    · rintro ⟨hne, hreach, hnot⟩
      obtain ⟨hi, hj⟩ := hc.mem_of_transGen hreach
      exact ⟨hi, hj, hne.symm, hreach, hnot⟩
  · have hmem : e ∈ g.edges ++ added := List.mem_append_right _ he
    exact (hc.numbered_closureOver hok e hmem).resolve_left fun hold =>
      hfresh e he (List.mem_map_of_mem hold)

/-- A chain that ends in a pair of nodes with edges both ways and has a shortcut of another kind. Two
of the edges have ids that lie ahead of the counter. -/
def detour : Graph :=
  (empty {} []).performAll
    ((["d", "c", "a", "b"].map fun id => .createNode (.str "function") none { id := some id }) ++
      [.createEdge "d" "c" (.str "calls") [] (some "edge_2"),
        .createEdge "c" "a" (.str "calls") [] none,
        .createEdge "a" "b" (.str "calls") [] none,
        .createEdge "b" "a" (.str "calls") [] none,
        .createEdge "c" "b" (.str "uses") [] (some "edge_6")])

theorem detour_reachable : detour.Reachable :=
  (Reachable.empty {} []).performAll _

/-- Over calls alone the shortcut of `detour` does not count, so the closure links `c` and `b` too.
The edges it adds stand in the order of the nodes and step over the ids that are taken. -/
theorem closure_exact_detour :
    detour.Reachable ∧ KindFilter.ofValues (some [.str "calls"]) = .ok (some [.calls]) ∧
      detour.edgeIds = ["edge_2", "edge_1", "edge_3", "edge_4", "edge_6"] ∧
      ∃ h, detour.closure (some [.str "calls"]) = .ok h ∧
        h.edgeIds = detour.edgeIds ++ ["edge_5", "edge_7", "edge_8"] ∧
        (h.edges.drop 5).map (fun e => (e.source, e.target)) =
          [("d", "a"), ("d", "b"), ("c", "b")] ∧
        (Relation.TransGen (detour.Adjacent (some [.calls])) "c" "b" ∧
          ¬detour.Adjacent (some [.calls]) "c" "b") := by
  have hkinds : KindFilter.ofValues (some [.str "calls"]) = .ok (some [.calls]) := rfl
  obtain ⟨added, counter, h, -, hclosure, rfl, -, hpairs, -⟩ :=
    closure_exact detour_reachable (some [.calls])
  have hok := hclosure _ hkinds
  have hids : (detour.closure (some [.str "calls"])).map edgeIds =
      .ok (detour.edgeIds ++ ["edge_5", "edge_7", "edge_8"]) := rfl
  have hends : (detour.closure (some [.str "calls"])).map
      (fun h => (h.edges.drop 5).map fun e => (e.source, e.target)) =
        .ok [("d", "a"), ("d", "b"), ("c", "b")] := rfl
  rw [hok] at hids hends
  replace hends := Except.ok.inj hends
  refine ⟨detour_reachable, hkinds, rfl, _, hok, Except.ok.inj hids, hends, ?_⟩
  have hadded : ("c", "b") ∈ added.map fun e => (e.source, e.target) := by
    have hdrop : (detour.edges ++ added).drop 5 = added := List.drop_left' rfl
    simp only [hdrop] at hends
    simp [hends]
  obtain ⟨e, he, heq⟩ := List.mem_map.mp hadded
  exact ((hpairs "c" "b").mp ⟨e, he, (Prod.mk.inj heq).1, (Prod.mk.inj heq).2⟩).2

end CodeAtlas.Graph
