import CodeAtlas.Dot
import CodeAtlas.Proofs.Graph.Lookups
import CodeAtlas.Proofs.Search.Readiness

/-!
# No internal failure

Nothing that happens inside an operation on a reachable graph goes wrong: its lists and edges fit,
every state of a search is ready for the next step, and what is rebuilt from parts of a graph is
accepted. An operation fails only for what the caller asked: a node that is not there, or a word
that means nothing.
-/

namespace CodeAtlas

/-- Values that name a direction are the words of the three directions. -/
theorem Direction.ofValue_eq_ok_iff {v : Value} {d : Direction} :
    ofValue v = .ok d ↔ v = .str (Spelled.text d) := by
  constructor
  · intro h
    unfold ofValue at h
    split at h
    · rename_i d' hread
      obtain rfl := Except.ok.inj h
      obtain ⟨word, hword, hspelled⟩ := Option.bind_eq_some_iff.mp hread
      rw [Spelled.text_of_ofText? hspelled]
      cases v <;> cases hword
      rfl
    · cases h
  · rintro rfl
    unfold ofValue Value.text?
    rw [Option.bind_some, Spelled.ofText?_text]

theorem Direction.ofValue_eq_error {v : Value} (h : ¬∃ d : Direction, v = .str (Spelled.text d)) :
    ofValue v = .error (.unknownWord .direction v) := by
  cases hread : ofValue v with
  | ok d => exact absurd ⟨d, ofValue_eq_ok_iff.mp hread⟩ h
  | error fault =>
    unfold ofValue at hread
    split at hread
    · cases hread
    · exact hread.symm

namespace Graph

variable {g : Graph}

/-- A drawing has a line for each node and edge, between its first and its last line and after the
line of its direction. -/
theorem length_lines (g : Graph) (o : DotOptions) : (Dot.lines g o).length =
    (if (Dot.rankDir o g.config.serialization).isEmpty then 2 else 3) +
      g.nodes.length + g.edges.length := by
  unfold Dot.lines
  simp only [List.length_append, List.length_map, List.length_cons, List.length_nil]
  split
  · rw [List.length_nil]
    omega
  · rw [List.length_singleton]
    omega

/-- Following lists to edges and striking edges from lists never fails: the strict operations do
what the operations do. -/
structure StoreSafe (g : Graph) : Prop where
  outgoing : ∀ id, g.strictEdges Node.outgoing id = some (g.outgoingEdges id)
  incoming : ∀ id, g.strictEdges Node.incoming id = some (g.incomingEdges id)
  removeEdge : ∀ id, g.strictRemoveEdge id = some (g.removeEdge id)
  removeNode : ∀ id, g.strictRemoveNode id = some (g.removeNode id)

/-- The component search before it comes to a root, after the roots `done`. -/
def componentsAfter (g : Graph) (done : List String) : ComponentSearch :=
  done.foldl (ComponentSearch.searchFrom g.allSuccessors g.componentBudget) {}

/-- Every state of every search is ready for the next step, after any number `k` of steps. -/
structure SearchesReady (g : Graph) : Prop where
  components : ∀ done root rest, g.nodeIds = done ++ root :: rest →
    ¬(g.componentsAfter done).index.has root = true → ∀ k,
      (iterate (ComponentSearch.step g.allSuccessors) k
        ((g.componentsAfter done).discover g.allSuccessors root)).Ready
  cycles : ∀ limit unique report home k,
    (iterate (CycleSearch.step g.allSuccessors home limit unique) k
      { trail := Trail.start g.allSuccessors home, report }).Ready
  paths : ∀ filter start finish limit k,
    (iterate (PathSearch.step (g.successors · filter) finish limit) k
      { trail := Trail.start (g.successors · filter) start }).trail.Ready
  slices : ∀ start ∈ g.nodeIds, ∀ direction o k,
    (iterate (SliceWalk.step (g.hops direction o.kinds) o) k
      (SliceWalk.start (g.hops direction o.kinds) start)).Ready
  slice_nodes : ∀ start ∈ g.nodeIds, ∀ direction o, ∀ a ∈ (g.sliceWalk start direction o).order,
    ∃ n, g.node? a = some n
  reach : ∀ (filter : KindFilter) (done : List String), ∀ a ∈ g.nodeIds,
    ((done.foldl Reach.through (g.directReach filter)).get? a).isSome = true

namespace Consistent

variable (hg : g.Consistent)

include hg

theorem storeSafe : g.StoreSafe :=
  ⟨hg.strictEdges_eq hg.outgoing_eq, hg.strictEdges_eq hg.incoming_eq, hg.strictRemoveEdge_eq,
    hg.strictRemoveNode_eq⟩

theorem searchesReady : g.SearchesReady where
  components := by
    intro done root rest hsplit hnew k
    have hmem : ∀ a ∈ done ++ root :: rest, a ∈ g.nodeIds := fun a ha => hsplit ▸ ha
    have hrests := (hg.rests_foldl fun a ha => hmem a (List.mem_append_left _ ha)).1
    have hnumbered : (g.componentsAfter done).Numbered :=
      ComponentSearch.Numbered.foldl (fun a ha => by cases ha) g.componentBudget done
    exact hrests.ready_run (fun a _ b hb => hg.successors_subset a none hb) hnumbered
      (hmem root (by simp)) hnew k
  cycles := fun limit unique report home k => CycleSearch.ready_run _ home limit unique report k
  paths := fun _ start finish limit k => PathSearch.ready_run _ start finish limit k
  slices := fun _ hstart direction o k =>
    (SliceWalk.Invariant.run o (hg.hops_mem direction o.kinds) hstart k).ready
  slice_nodes := by
    intro start hstart direction o a ha
    obtain ⟨n, hn, hid⟩ := List.mem_map.mp
      ((hg.sliceWalk_invariant hstart direction o).order_mem a ha)
    exact ⟨n, hg.node?_eq_some_iff.mpr ⟨hn, hid⟩⟩
  reach := by
    intro filter done a ha
    refine Reach.isSome_get?_foldl ?_ done
    rw [get?_directReach, if_pos ha]
    rfl

end Consistent

/-- **No internal failure.** In a reachable graph no lookup fails, in the store or in a search, and
no rebuilding is refused. Copies and closures over known kinds are always made. A slice is refused
only for an absent start and then for an unknown direction, a path search over known kinds only for
an absent start and then for an absent end. Documents and drawings have their entry for every node
and edge. -/
theorem no_internal_failure (hg : g.Reachable) :
    g.StoreSafe ∧ g.SearchesReady ∧ g.copy = .ok g ∧
    (∀ kinds filter, KindFilter.ofValues kinds = .ok filter →
      ∃ closed, g.closure kinds = .ok closed) ∧
    (∀ start direction o,
      (g.slice start direction o = .error (.nodeNotFound start none) ↔ start ∉ g.nodeIds) ∧
      (g.slice start direction o = .error (.unknownWord .direction direction) ↔
        start ∈ g.nodeIds ∧ ¬∃ d : Direction, direction = .str (Spelled.text d)) ∧
      ((∃ part, g.slice start direction o = .ok part) ↔
        start ∈ g.nodeIds ∧ ∃ d : Direction, direction = .str (Spelled.text d))) ∧
    (∀ start finish maxDepth kinds filter, KindFilter.ofValues kinds = .ok filter →
      (g.paths start finish maxDepth kinds = .error (.nodeNotFound start none) ↔
        start ∉ g.nodeIds) ∧
      (start ∈ g.nodeIds → (g.paths start finish maxDepth kinds =
        .error (.nodeNotFound finish none) ↔ finish ∉ g.nodeIds)) ∧
      ((∃ found, g.paths start finish maxDepth kinds = .ok found) ↔
        start ∈ g.nodeIds ∧ finish ∈ g.nodeIds)) ∧
    (∃ nodes edges, g.toData = .object
        [("nodes", .list nodes), ("edges", .list edges), ("metadata", .object g.metadata)] ∧
      nodes.length = g.nodes.length ∧ edges.length = g.edges.length) ∧
    ∀ o : DotOptions, (Dot.lines g o).length =
      (if (Dot.rankDir o g.config.serialization).isEmpty then 2 else 3) +
        g.nodes.length + g.edges.length := by
  have hc := hg.consistent
  refine ⟨hc.storeSafe, hc.searchesReady, hc.copy_eq, ?_, ?_, ?_, ?_, ?_⟩
  · intro kinds filter hkinds
    obtain ⟨added, counter, -, -, hclosure⟩ := hc.closure_eq hkinds
    exact ⟨_, hclosure⟩
  · intro start direction o
    by_cases hstart : start ∈ g.nodeIds
    · by_cases hknown : ∃ d : Direction, direction = .str (Spelled.text d)
      · have ⟨d, hd⟩ := hknown
        obtain ⟨part, hpart, -⟩ := hc.exists_slice hstart (Direction.ofValue_eq_ok_iff.mpr hd) o
        rw [hpart]
        simp [hstart, hknown]
      · rw [slice_of_mem hstart, Direction.ofValue_eq_error hknown]
        simp [hstart, hknown, bind, Except.bind]
    · rw [slice_of_not_mem hstart]
      simp [hstart]
  · intro start finish maxDepth kinds filter hkinds
    by_cases hstart : start ∈ g.nodeIds
    · by_cases hfinish : finish ∈ g.nodeIds
      · rw [paths_of_mem hstart hfinish hkinds]
        simp [hstart, hfinish]
      · have hne : finish ≠ start := fun heq => hfinish (heq ▸ hstart)
        rw [paths_of_finish_not_mem hstart hfinish]
        simp [hstart, hfinish, hne]
    · rw [paths_of_start_not_mem hstart]
      simp [hstart]
  · refine ⟨_, _, rfl, ?_, ?_⟩
    · rw [List.length_map, Document.ofGraph, List.length_map]
    · rw [List.length_map, Document.ofGraph]
  · exact g.length_lines

/-- The edges at `d`, a self-loop among them, go with it; what is refused is refused for the first
thing wrong with it. -/
theorem no_internal_failure_knots :
    knots.Reachable ∧ knots.strictRemoveNode "d" = some (knots.removeNode "d") ∧
      (knots.removeNode "d").edgeIds =
        ["edge_1", "edge_2", "edge_3", "edge_4", "edge_5", "edge_10"] ∧
      knots.slice "z" (.str "sideways") {} = .error (.nodeNotFound "z" none) ∧
      knots.slice "a" (.str "sideways") {} =
        .error (.unknownWord .direction (.str "sideways")) ∧
      knots.paths "z" "y" none none = .error (.nodeNotFound "z" none) ∧
      knots.paths "a" "y" none none = .error (.nodeNotFound "y" none) := by
  obtain ⟨hstore, -, -, -, hslice, hpaths, -⟩ := no_internal_failure knots_reachable
  refine ⟨knots_reachable, hstore.removeNode "d", by decide, ?_, ?_, ?_, ?_⟩
  · exact (hslice "z" (.str "sideways") {}).1.mpr (by decide)
  · refine (hslice "a" (.str "sideways") {}).2.1.mpr ⟨by decide, ?_⟩
    rintro ⟨d, hd⟩
    cases d <;> exact absurd (Value.str.inj hd) (by decide)
  · exact (hpaths "z" "y" none none none rfl).1.mpr (by decide)
  · exact ((hpaths "a" "y" none none none rfl).2.1 (by decide)).mpr (by decide)

end Graph

end CodeAtlas
