import CodeAtlas.Graph.Store
import Mathlib.Data.List.Nodup

/-!
# Consistent graphs

A graph keeps its edges twice: in the list of edges, and as ids in the lists of the nodes. The two
agree when every node lists exactly the edges at it, in their order. `Graph.Consistent` says so,
together with unique ids and present ends; every way of changing a graph keeps it.

On a consistent graph the node lists carry no information of their own, so each operation is
described by the edges it leaves: `Graph.withEdges` replaces the edges and lists them anew.
-/

namespace CodeAtlas

/-! ## Items with unique keys -/

theorem find?_key_eq_some_iff {α : Type} {key : α → String} {as : List α}
    (h : (as.map key).Nodup) {k : String} {a : α} :
    as.find? (key · == k) = some a ↔ a ∈ as ∧ key a = k := by
  constructor
  · intro hfind
    exact ⟨List.mem_of_find?_eq_some hfind, by simpa using List.find?_some hfind⟩
  · rintro ⟨ha, rfl⟩
    have hsome : (as.find? (key · == key a)).isSome :=
      List.find?_isSome.mpr ⟨a, ha, beq_self_eq_true (key a)⟩
    obtain ⟨b, hb⟩ := Option.isSome_iff_exists.mp hsome
    have hkey : key b = key a := by simpa using List.find?_some hb
    rw [hb, List.inj_on_of_nodup_map h (List.mem_of_find?_eq_some hb) ha hkey]

theorem eraseP_key_eq_filter {α : Type} {key : α → String} {as : List α} (h : (as.map key).Nodup)
    (k : String) : as.eraseP (key · == k) = as.filter fun a => key a ≠ k := by
  induction as with
  | nil => rfl
  | cons a as ih =>
    rw [List.map_cons, List.nodup_cons] at h
    by_cases hk : key a = k
    · have hrest : ∀ b ∈ as, key b ≠ k := by
        rintro b hb rfl
        exact h.1 (hk ▸ List.mem_map_of_mem hb)
      rw [List.eraseP_cons_of_pos (by simpa using hk), List.filter_cons_of_neg (by simpa using hk)]
      exact (List.filter_eq_self.mpr fun b hb => decide_eq_true (hrest b hb)).symm
    · rw [List.eraseP_cons_of_neg (by simpa using hk), List.filter_cons_of_pos (by simpa using hk),
        ih h.2]

/-! ## The edges at a node -/

/-- The edges of `edges` whose end `side` is `id`, in their order. -/
def edgesAt (side : Edge → String) (edges : List Edge) (id : String) : List Edge :=
  edges.filter fun e => side e = id

/-- The ids of the edges of `edges` whose end `side` is `id`, in their order. -/
def idsAt (side : Edge → String) (edges : List Edge) (id : String) : List String :=
  (edgesAt side edges id).map Edge.id

theorem mem_edgesAt {side : Edge → String} {edges : List Edge} {id : String} {e : Edge} :
    e ∈ edgesAt side edges id ↔ e ∈ edges ∧ side e = id := by
  simp [edgesAt]

theorem mem_idsAt {side : Edge → String} {edges : List Edge} {id i : String} :
    i ∈ idsAt side edges id ↔ ∃ e ∈ edges, side e = id ∧ e.id = i := by
  simp [idsAt, mem_edgesAt, and_assoc]

theorem idsAt_sublist (side : Edge → String) (edges : List Edge) (id : String) :
    (idsAt side edges id).Sublist (edges.map Edge.id) :=
  List.filter_sublist.map _

theorem idsAt_append_singleton (side : Edge → String) (edges : List Edge) (e : Edge)
    (id : String) :
    idsAt side (edges ++ [e]) id =
      if id = side e then idsAt side edges id ++ [e.id] else idsAt side edges id := by
  by_cases h : id = side e
  · simp [idsAt, edgesAt, h]
  · simp [idsAt, edgesAt, h, Ne.symm h]

theorem idsAt_eq_nil {side : Edge → String} {edges : List Edge} {id : String}
    (h : ∀ e ∈ edges, side e ≠ id) : idsAt side edges id = [] := by
  simpa [idsAt, edgesAt] using h

/-- Leaving an edge out strikes its id from the ids at its own end. At any other node there is
nothing to strike, because no other edge has its id. -/
theorem idsAt_filter_ne {edges : List Edge} (h : (edges.map Edge.id).Nodup) {e : Edge}
    (he : e ∈ edges) (side : Edge → String) (id : String) :
    idsAt side (edges.filter fun d => d.id ≠ e.id) id =
      if id = side e then (idsAt side edges id).erase e.id else idsAt side edges id := by
  have herase : idsAt side (edges.filter fun d => d.id ≠ e.id) id =
      (idsAt side edges id).erase e.id := by
    rw [(h.sublist (idsAt_sublist side edges id)).erase_eq_filter]
    unfold idsAt edgesAt
    rw [List.filter_map, List.filter_filter, List.filter_filter]
    congr 1
    apply List.filter_congr
    intro d _
    by_cases hd : d.id = e.id <;> simp [hd]
  rw [herase]
  split
  · rfl
  · rename_i hne
    apply List.erase_of_not_mem
    rw [mem_idsAt]
    rintro ⟨d, hd, hside, hid⟩
    have hde : d = e := List.inj_on_of_nodup_map h hd he hid
    exact hne (by rw [← hside, hde])

namespace Node

/-- The node with exactly the edges of `edges` listed at it. -/
def linked (edges : List Edge) (n : Node) : Node :=
  { n with outgoing := idsAt Edge.source edges n.id, incoming := idsAt Edge.target edges n.id }

@[simp] theorem linked_id (edges : List Edge) (n : Node) : (n.linked edges).id = n.id := rfl

@[simp] theorem linked_linked (edges more : List Edge) (n : Node) :
    (n.linked edges).linked more = n.linked more := rfl

@[simp] theorem linked_detached (edges : List Edge) (n : Node) :
    n.detached.linked edges = n.linked edges := rfl

theorem linked_eq_detached {edges : List Edge} {n : Node} (hs : ∀ e ∈ edges, e.source ≠ n.id)
    (ht : ∀ e ∈ edges, e.target ≠ n.id) : n.linked edges = n.detached := by
  unfold linked detached
  rw [idsAt_eq_nil hs, idsAt_eq_nil ht]

theorem attach_linked (edges : List Edge) (e : Edge) (n : Node) :
    (n.linked edges).attach e = n.linked (edges ++ [e]) := by
  unfold attach linked
  simp only [idsAt_append_singleton, beq_iff_eq]

theorem detach_linked {edges : List Edge} (h : (edges.map Edge.id).Nodup) {e : Edge}
    (he : e ∈ edges) (n : Node) :
    (n.linked edges).detach e = n.linked (edges.filter fun d => d.id ≠ e.id) := by
  unfold detach linked
  simp only [idsAt_filter_ne h he, beq_iff_eq]

end Node

namespace Graph

/-! ## Consistency -/

/-- Ids are unique, edges have their ends, and each node lists exactly the edges at it, in the
order of the edges. -/
structure Consistent (g : Graph) : Prop where
  nodeIds_nodup : g.nodeIds.Nodup
  edgeIds_nodup : g.edgeIds.Nodup
  source_mem : ∀ e ∈ g.edges, e.source ∈ g.nodeIds
  target_mem : ∀ e ∈ g.edges, e.target ∈ g.nodeIds
  outgoing_eq : ∀ n ∈ g.nodes, n.outgoing = idsAt Edge.source g.edges n.id
  incoming_eq : ∀ n ∈ g.nodes, n.incoming = idsAt Edge.target g.edges n.id

/-- The graph with other edges between its nodes. -/
def withEdges (g : Graph) (edges : List Edge) : Graph :=
  { g with edges, nodes := g.nodes.map (Node.linked edges) }

@[simp] theorem nodeIds_withEdges (g : Graph) (edges : List Edge) :
    (g.withEdges edges).nodeIds = g.nodeIds := by
  simp [nodeIds, withEdges]

@[simp] theorem edges_withEdges (g : Graph) (edges : List Edge) :
    (g.withEdges edges).edges = edges := rfl

@[simp] theorem withEdges_withEdges (g : Graph) (edges more : List Edge) :
    (g.withEdges edges).withEdges more = g.withEdges more := by
  simp [withEdges]

/-- Edges with unique ids between nodes of the graph can take the place of its own. -/
theorem consistent_withEdges {g : Graph} {edges : List Edge} (hn : g.nodeIds.Nodup)
    (he : (edges.map Edge.id).Nodup) (hs : ∀ e ∈ edges, e.source ∈ g.nodeIds)
    (ht : ∀ e ∈ edges, e.target ∈ g.nodeIds) : (g.withEdges edges).Consistent where
  nodeIds_nodup := by rwa [nodeIds_withEdges]
  edgeIds_nodup := he
  source_mem := by rwa [nodeIds_withEdges]
  target_mem := by rwa [nodeIds_withEdges]
  outgoing_eq := by
    intro n hn
    obtain ⟨m, -, rfl⟩ := List.mem_map.mp hn
    rfl
  incoming_eq := by
    intro n hn
    obtain ⟨m, -, rfl⟩ := List.mem_map.mp hn
    rfl

namespace Consistent

variable {g : Graph}

theorem linked_eq (h : g.Consistent) {n : Node} (hn : n ∈ g.nodes) : n.linked g.edges = n := by
  unfold Node.linked
  rw [← h.outgoing_eq n hn, ← h.incoming_eq n hn]

/-- The lists of the nodes say nothing beyond the edges. -/
theorem withEdges_eq (h : g.Consistent) : g.withEdges g.edges = g := by
  have hmap : g.nodes.map (Node.linked g.edges) = g.nodes := by
    rw [List.map_congr_left fun n hn => h.linked_eq hn, List.map_id']
  unfold withEdges
  rw [hmap]

/-- Some of the edges can be left out. -/
theorem withEdges_filter (h : g.Consistent) (p : Edge → Bool) :
    (g.withEdges (g.edges.filter p)).Consistent := by
  apply consistent_withEdges h.nodeIds_nodup
  · exact h.edgeIds_nodup.sublist (List.filter_sublist.map _)
  · exact fun e he => h.source_mem e (List.mem_of_mem_filter he)
  · exact fun e he => h.target_mem e (List.mem_of_mem_filter he)

/-- Consistency is a matter of the nodes and the edges alone. -/
theorem of_eq (h : g.Consistent) {g' : Graph} (hn : g'.nodes = g.nodes) (he : g'.edges = g.edges) :
    g'.Consistent := by
  obtain ⟨config, metadata, nodes, edges, nodeCounter, edgeCounter⟩ := g'
  obtain rfl : nodes = g.nodes := hn
  obtain rfl : edges = g.edges := he
  exact ⟨h.nodeIds_nodup, h.edgeIds_nodup, h.source_mem, h.target_mem, h.outgoing_eq,
    h.incoming_eq⟩

end Consistent

theorem consistent_empty (config : Config) (metadata : Fields) :
    (empty config metadata).Consistent := by
  constructor <;> simp [empty, nodeIds, edgeIds]

/-! ## Adding -/

theorem addNode_eq_ok_iff {g h : Graph} {n : Node} :
    g.addNode n = .ok h ↔ n.id ∉ g.nodeIds ∧ h = { g with nodes := g.nodes ++ [n.detached] } := by
  unfold addNode
  by_cases hn : n.id ∈ g.nodeIds
  · simp [(g.hasNode_iff n.id).mpr hn, hn]
  · have hf : g.hasNode n.id = false := by
      rw [← Bool.not_eq_true, hasNode_iff]
      exact hn
    simp [hf, hn, eq_comm]

theorem addEdge_eq_ok_iff {g h : Graph} {e : Edge} :
    g.addEdge e = .ok h ↔ (e.id ∉ g.edgeIds ∧ e.source ∈ g.nodeIds ∧ e.target ∈ g.nodeIds) ∧
      h = { g with edges := g.edges ++ [e], nodes := g.nodes.map (Node.attach e) } := by
  unfold addEdge
  simp only [hasEdge_iff, Bool.not_eq_true', ← Bool.not_eq_true, hasNode_iff]
  by_cases hid : e.id ∈ g.edgeIds
  · simp [hid]
  · by_cases hs : e.source ∈ g.nodeIds
    · by_cases ht : e.target ∈ g.nodeIds
      · simp [hid, hs, ht, eq_comm]
      · simp [hid, hs, ht]
    · simp [hid, hs]

namespace Consistent

variable {g h : Graph}

theorem addNode (hg : g.Consistent) {n : Node} (hok : g.addNode n = .ok h) : h.Consistent := by
  obtain ⟨hid, rfl⟩ := addNode_eq_ok_iff.mp hok
  have hs : ∀ e ∈ g.edges, e.source ≠ n.id := fun e he heq => hid (heq ▸ hg.source_mem e he)
  have ht : ∀ e ∈ g.edges, e.target ≠ n.id := fun e he heq => hid (heq ▸ hg.target_mem e he)
  have hlinked : ({ g with nodes := g.nodes ++ [n] } : Graph).withEdges g.edges =
      { g with nodes := g.nodes ++ [n.detached] } := by
    unfold withEdges
    simp only [List.map_append, List.map_cons, List.map_nil, Node.linked_eq_detached hs ht]
    congr 2
    exact congrArg Graph.nodes hg.withEdges_eq
  rw [← hlinked]
  have hids : ({ g with nodes := g.nodes ++ [n] } : Graph).nodeIds = g.nodeIds ++ [n.id] := by
    simp [nodeIds]
  apply consistent_withEdges
  · rw [hids]
    exact List.nodup_append.mpr ⟨hg.nodeIds_nodup, List.nodup_singleton _, by
      intro a ha b hb hab
      rw [List.mem_singleton.mp hb] at hab
      exact hid (hab ▸ ha)⟩
  · exact hg.edgeIds_nodup
  · exact fun e he => hids ▸ List.mem_append_left _ (hg.source_mem e he)
  · exact fun e he => hids ▸ List.mem_append_left _ (hg.target_mem e he)

theorem addEdge_eq (hg : g.Consistent) {e : Edge} (hok : g.addEdge e = .ok h) :
    h = g.withEdges (g.edges ++ [e]) := by
  obtain ⟨-, rfl⟩ := addEdge_eq_ok_iff.mp hok
  have hattach : g.nodes.map (Node.attach e) = g.nodes.map (Node.linked (g.edges ++ [e])) := by
    apply List.map_congr_left
    intro n hn
    rw [← Node.attach_linked, hg.linked_eq hn]
  unfold withEdges
  rw [hattach]

theorem addEdge (hg : g.Consistent) {e : Edge} (hok : g.addEdge e = .ok h) : h.Consistent := by
  obtain ⟨⟨hid, hs, ht⟩, -⟩ := addEdge_eq_ok_iff.mp hok
  rw [hg.addEdge_eq hok]
  apply consistent_withEdges hg.nodeIds_nodup
  · rw [List.map_append]
    exact List.nodup_append.mpr ⟨hg.edgeIds_nodup, List.nodup_singleton _, by
      intro a ha b hb hab
      rw [List.map_cons, List.map_nil, List.mem_singleton] at hb
      exact hid (hb ▸ hab ▸ ha)⟩
  · intro d hd
    rcases List.mem_append.mp hd with hd | hd
    · exact hg.source_mem d hd
    · rwa [List.mem_singleton.mp hd]
  · intro d hd
    rcases List.mem_append.mp hd with hd | hd
    · exact hg.target_mem d hd
    · rwa [List.mem_singleton.mp hd]

/-- What each of a row of steps keeps, the row keeps. -/
theorem foldlM {α : Type} {f : Graph → α → Except Fault Graph}
    (step : ∀ {g h : Graph} {a : α}, g.Consistent → f g a = .ok h → h.Consistent) (as : List α)
    (hg : g.Consistent) (hok : as.foldlM f g = .ok h) : h.Consistent := by
  induction as generalizing g with
  | nil =>
    obtain rfl : g = h := Except.ok.inj hok
    exact hg
  | cons a as ih =>
    rw [List.foldlM_cons] at hok
    cases ha : f g a with
    | error fault => rw [ha] at hok; cases hok
    | ok g' => rw [ha] at hok; exact ih (step hg ha) hok

theorem addNodes (hg : g.Consistent) {nodes : List Node} (hok : g.addNodes nodes = .ok h) :
    h.Consistent :=
  foldlM (fun hg hok => hg.addNode hok) nodes hg hok

theorem addEdges (hg : g.Consistent) {edges : List Edge} (hok : g.addEdges edges = .ok h) :
    h.Consistent :=
  foldlM (fun hg hok => hg.addEdge hok) edges hg hok

/-! ## Removing -/

theorem edge?_eq_some_iff (hg : g.Consistent) {id : String} {e : Edge} :
    g.edge? id = some e ↔ e ∈ g.edges ∧ e.id = id :=
  find?_key_eq_some_iff hg.edgeIds_nodup

theorem node?_eq_some_iff (hg : g.Consistent) {id : String} {n : Node} :
    g.node? id = some n ↔ n ∈ g.nodes ∧ n.id = id :=
  find?_key_eq_some_iff hg.nodeIds_nodup

/-- Removing an edge leaves all edges of another id; if there is none of this id, that is all. -/
theorem removeEdge_eq (hg : g.Consistent) (id : String) :
    g.removeEdge id = g.withEdges (g.edges.filter fun e => e.id ≠ id) := by
  unfold removeEdge removeEdge?
  cases hfind : g.edge? id with
  | none =>
    have hne : ∀ e ∈ g.edges, e.id ≠ id := by
      simpa [edge?] using hfind
    have hall : (g.edges.filter fun e => e.id ≠ id) = g.edges :=
      List.filter_eq_self.mpr fun e he => decide_eq_true (hne e he)
    rw [hall, hg.withEdges_eq]
    rfl
  | some e =>
    obtain ⟨he, rfl⟩ := hg.edge?_eq_some_iff.mp hfind
    have hnodes : g.nodes.map (Node.detach e) =
        g.nodes.map (Node.linked (g.edges.filter fun d => d.id ≠ e.id)) := by
      apply List.map_congr_left
      intro n hn
      rw [← Node.detach_linked hg.edgeIds_nodup he, hg.linked_eq hn]
    rw [Option.map_some, Option.getD_some, hnodes, eraseP_key_eq_filter hg.edgeIds_nodup]
    rfl

theorem removeEdge (hg : g.Consistent) (id : String) : (g.removeEdge id).Consistent := by
  rw [hg.removeEdge_eq]
  exact hg.withEdges_filter _

/-- Removing edges one after the other leaves those of other ids, whatever the order. -/
theorem foldl_removeEdge_eq (hg : g.Consistent) (ids : List String) :
    ids.foldl Graph.removeEdge g = g.withEdges (g.edges.filter fun e => e.id ∉ ids) := by
  induction ids generalizing g with
  | nil => simp [hg.withEdges_eq]
  | cons id ids ih =>
    rw [List.foldl_cons, ih (hg.removeEdge id), hg.removeEdge_eq, withEdges_withEdges,
      edges_withEdges, List.filter_filter]
    congr 2
    funext e
    simp [Bool.and_comm]

/-- The edges that have `id` for an end are the edges listed at the node `id`. -/
theorem mem_lists_iff (hg : g.Consistent) {n : Node} (hn : n ∈ g.nodes) {e : Edge}
    (he : e ∈ g.edges) : e.id ∈ n.outgoing ++ n.incoming ↔ e.source = n.id ∨ e.target = n.id := by
  have hside : ∀ side : Edge → String, e.id ∈ idsAt side g.edges n.id ↔ side e = n.id := by
    intro side
    rw [mem_idsAt]
    constructor
    · rintro ⟨d, hd, hside, hid⟩
      rwa [← List.inj_on_of_nodup_map hg.edgeIds_nodup hd he hid]
    · exact fun heq => ⟨e, he, heq, rfl⟩
  rw [List.mem_append, hg.outgoing_eq n hn, hg.incoming_eq n hn, hside, hside]

/-- Removing a node leaves the other nodes and the edges between them. -/
theorem removeNode_eq (hg : g.Consistent) {id : String} (hid : id ∈ g.nodeIds) :
    g.removeNode id = ({ g with nodes := g.nodes.filter fun n => n.id ≠ id } : Graph).withEdges
      (g.edges.filter fun e => e.source ≠ id ∧ e.target ≠ id) := by
  obtain ⟨n, hn, rfl⟩ := List.mem_map.mp hid
  have hedges : (g.edges.filter fun e => e.id ∉ n.outgoing ++ n.incoming) =
      g.edges.filter fun e => e.source ≠ n.id ∧ e.target ≠ n.id := by
    apply List.filter_congr
    intro e he
    rw [decide_eq_decide, hg.mem_lists_iff hn he, not_or]
  have hnodes : ∀ edges : List Edge, (g.withEdges edges).nodes.eraseP (·.id == n.id) =
      (g.nodes.filter fun m => m.id ≠ n.id).map (Node.linked edges) := by
    intro edges
    have hnodup : (g.withEdges edges).nodeIds.Nodup := by
      rw [nodeIds_withEdges]
      exact hg.nodeIds_nodup
    rw [eraseP_key_eq_filter hnodup]
    exact List.filter_map
  unfold removeNode removeNode?
  rw [hg.node?_eq_some_iff.mpr ⟨hn, rfl⟩, Option.map_some, Option.getD_some]
  simp only [hg.foldl_removeEdge_eq, hedges, hnodes]
  rfl

theorem removeNode_of_not_mem {id : String} (hid : id ∉ g.nodeIds) : g.removeNode id = g := by
  have hfind : g.node? id = none := by
    rw [← Option.not_isSome_iff_eq_none, node?_isSome, hasNode_iff]
    exact hid
  unfold Graph.removeNode removeNode?
  rw [hfind]
  rfl

theorem removeNode (hg : g.Consistent) (id : String) : (g.removeNode id).Consistent := by
  by_cases hid : id ∈ g.nodeIds
  · rw [hg.removeNode_eq hid]
    have hmem : ∀ i ∈ g.nodeIds, i ≠ id →
        i ∈ ({ g with nodes := g.nodes.filter fun n => n.id ≠ id } : Graph).nodeIds := by
      intro i hi hne
      obtain ⟨n, hn, rfl⟩ := List.mem_map.mp hi
      exact List.mem_map.mpr ⟨n, List.mem_filter.mpr ⟨hn, decide_eq_true hne⟩, rfl⟩
    apply consistent_withEdges
    · exact hg.nodeIds_nodup.sublist (List.filter_sublist.map _)
    · exact hg.edgeIds_nodup.sublist (List.filter_sublist.map _)
    · intro e he
      obtain ⟨he, hne⟩ := List.mem_filter.mp he
      exact hmem _ (hg.source_mem e he) (of_decide_eq_true hne).1
    · intro e he
      obtain ⟨he, hne⟩ := List.mem_filter.mp he
      exact hmem _ (hg.target_mem e he) (of_decide_eq_true hne).2
  · rwa [removeNode_of_not_mem hid]

/-- An absent node has no edges, so its removal leaves all there is. -/
theorem removeNode_eq_withEdges (hg : g.Consistent) (id : String) :
    g.removeNode id = ({ g with nodes := g.nodes.filter fun n => n.id ≠ id } : Graph).withEdges
      (g.edges.filter fun e => e.source ≠ id ∧ e.target ≠ id) := by
  by_cases hid : id ∈ g.nodeIds
  · exact hg.removeNode_eq hid
  · have hnodes : (g.nodes.filter fun n => n.id ≠ id) = g.nodes := by
      apply List.filter_eq_self.mpr
      intro n hn
      exact decide_eq_true fun heq => hid (heq ▸ List.mem_map_of_mem hn)
    have hedges : (g.edges.filter fun e => e.source ≠ id ∧ e.target ≠ id) = g.edges := by
      apply List.filter_eq_self.mpr
      intro e he
      exact decide_eq_true ⟨fun heq => hid (heq ▸ hg.source_mem e he),
        fun heq => hid (heq ▸ hg.target_mem e he)⟩
    rw [removeNode_of_not_mem hid, hnodes, hedges, hg.withEdges_eq]

/-- Removing nodes one after the other leaves the other nodes and the edges between them, whatever
the order. -/
theorem foldl_removeNode_eq (hg : g.Consistent) (ids : List String) :
    ids.foldl Graph.removeNode g =
      ({ g with nodes := g.nodes.filter fun n => n.id ∉ ids } : Graph).withEdges
        (g.edges.filter fun e => e.source ∉ ids ∧ e.target ∉ ids) := by
  induction ids generalizing g with
  | nil => simp [hg.withEdges_eq]
  | cons id ids ih =>
    have hedges : ((g.edges.filter fun e => e.source ≠ id ∧ e.target ≠ id).filter
        fun e => e.source ∉ ids ∧ e.target ∉ ids) =
          g.edges.filter fun e => e.source ∉ id :: ids ∧ e.target ∉ id :: ids := by
      rw [List.filter_filter]
      apply List.filter_congr
      intro e _
      grind
    have hnodes : ((g.nodes.filter fun n => n.id ≠ id).filter fun n => n.id ∉ ids) =
        g.nodes.filter fun n => n.id ∉ id :: ids := by
      rw [List.filter_filter]
      apply List.filter_congr
      intro n _
      grind
    rw [List.foldl_cons, ih (hg.removeNode id), hg.removeNode_eq_withEdges]
    simp only [withEdges, hedges, List.filter_map, List.map_map]
    rw [← hnodes]
    rfl

end Consistent

end Graph

end CodeAtlas
