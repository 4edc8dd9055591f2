import CodeAtlas.Proofs.Graph.Adjacency

/-!
# Lookups that could fail

The lists at the nodes and the edges of a graph are kept apart, so following a list to its edges and
striking an edge from its lists are steps that could go wrong. The strict versions below fail where
an id has no edge or a list lacks what is to be struck from it. On a consistent graph they never do,
not even in the middle of the removal of a node.
-/

namespace CodeAtlas

/-- Strikes a name, when asked to, from a list that has to hold it. -/
def strike? (asked : Bool) (name : String) (names : List String) : Option (List String) :=
  if asked then
    if name ∈ names then some (names.erase name) else none
  else some names

/-- Strikes `e` from a node that is one of its ends and has to list it. -/
def Node.strictDetach (e : Edge) (n : Node) : Option Node := do
  let outgoing ← strike? (n.id == e.source) e.id n.outgoing
  let incoming ← strike? (n.id == e.target) e.id n.incoming
  return { n with outgoing, incoming }

namespace Graph

/-- The edges in a list at a node; each id in the list has to be that of an edge. -/
def strictEdges (g : Graph) (list : Node → List String) (id : String) : Option (List Edge) :=
  match g.node? id with
  | some n => (list n).mapM g.edge?
  | none => some []

/-- Removes an edge, if there is one of that id, which has to be listed at both its ends. -/
def strictRemoveEdge (g : Graph) (id : String) : Option Graph :=
  match g.edge? id with
  | none => some g
  | some e => do
    let nodes ← g.nodes.mapM (Node.strictDetach e)
    return { g with edges := g.edges.eraseP (·.id == id), nodes }

/-- Removes a node, if there is one of that id, which has to be there still once the edges in its
lists are removed. -/
def strictRemoveNode (g : Graph) (id : String) : Option Graph :=
  match g.node? id with
  | none => some g
  | some n =>
    ((n.outgoing ++ n.incoming).foldlM strictRemoveEdge g).bind fun bare =>
      if bare.hasNode id then some { bare with nodes := bare.nodes.eraseP (·.id == id) } else none

end Graph

theorem strike?_eq_some {asked : Bool} {name : String} {names : List String}
    (h : asked = true → name ∈ names) :
    strike? asked name names = some (if asked then names.erase name else names) := by
  unfold strike?
  split
  · rename_i hasked
    exact if_pos (h hasked)
  · rfl

section Rows

variable {α β : Type} {f : α → Option β} {as : List α}

theorem mapM_eq_some_map {h : α → β} (hf : ∀ a ∈ as, f a = some (h a)) :
    as.mapM f = some (as.map h) := by
  induction as with
  | nil => rfl
  | cons a as ih =>
    obtain ⟨ha, has⟩ := List.forall_mem_cons.mp hf
    rw [List.mapM_cons, ha, ih has]
    rfl

/-- Where no lookup misses, looking up all is looking up what can be found. -/
theorem mapM_eq_some_filterMap (hf : ∀ a ∈ as, ∃ b, f a = some b) :
    as.mapM f = some (as.filterMap f) := by
  induction as with
  | nil => rfl
  | cons a as ih =>
    obtain ⟨⟨b, hb⟩, has⟩ := List.forall_mem_cons.mp hf
    rw [List.mapM_cons, hb, ih has, List.filterMap_cons_some hb]
    rfl

end Rows

namespace Graph

variable {g : Graph}

namespace Consistent

variable (hg : g.Consistent)

include hg

/-- Every id in a list of the edges at a node is that of an edge. -/
theorem strictEdges_eq {list : Node → List String} {side : Edge → String}
    (hlist : ∀ n ∈ g.nodes, list n = idsAt side g.edges n.id) (id : String) :
    g.strictEdges list id = some (match g.node? id with
      | some n => (list n).filterMap g.edge?
      | none => []) := by
  unfold strictEdges
  cases hfind : g.node? id with
  | none => rfl
  | some n =>
    refine mapM_eq_some_filterMap fun id hid => ?_
    rw [hlist n (hg.node?_eq_some_iff.mp hfind).1] at hid
    obtain ⟨e, he, -, hid⟩ := mem_idsAt.mp hid
    exact ⟨e, hg.edge?_eq_some_iff.mpr ⟨he, hid⟩⟩

/-- An edge is listed at both its ends. -/
theorem strictDetach_eq {e : Edge} (he : e ∈ g.edges) {n : Node} (hn : n ∈ g.nodes) :
    n.strictDetach e = some (n.detach e) := by
  have hout : (n.id == e.source) = true → e.id ∈ n.outgoing := by
    intro heq
    rw [hg.outgoing_eq n hn]
    exact mem_idsAt.mpr ⟨e, he, (eq_of_beq heq).symm, rfl⟩
  have hin : (n.id == e.target) = true → e.id ∈ n.incoming := by
    intro heq
    rw [hg.incoming_eq n hn]
    exact mem_idsAt.mpr ⟨e, he, (eq_of_beq heq).symm, rfl⟩
  unfold Node.strictDetach
  rw [strike?_eq_some hout, strike?_eq_some hin]
  rfl

theorem strictRemoveEdge_eq (id : String) : g.strictRemoveEdge id = some (g.removeEdge id) := by
  unfold strictRemoveEdge Graph.removeEdge removeEdge?
  cases hfind : g.edge? id with
  | none => rfl
  | some e =>
    obtain ⟨he, -⟩ := hg.edge?_eq_some_iff.mp hfind
    have hnodes : g.nodes.mapM (Node.strictDetach e) = some (g.nodes.map (Node.detach e)) :=
      mapM_eq_some_map fun n hn => hg.strictDetach_eq he hn
    dsimp only
    rw [hnodes]
    rfl

/-- No removal in a row of edge removals fails; an id that is met again is no longer an edge. -/
theorem foldlM_strictRemoveEdge_eq (ids : List String) :
    ids.foldlM strictRemoveEdge g = some (ids.foldl Graph.removeEdge g) := by
  induction ids generalizing g with
  | nil => rfl
  | cons id ids ih =>
    rw [List.foldlM_cons, hg.strictRemoveEdge_eq id]
    exact ih (hg.removeEdge id)

theorem strictRemoveNode_eq (id : String) : g.strictRemoveNode id = some (g.removeNode id) := by
  unfold strictRemoveNode Graph.removeNode removeNode?
  cases hfind : g.node? id with
  | none => rfl
  | some n =>
    obtain ⟨hn, rfl⟩ := hg.node?_eq_some_iff.mp hfind
    have hstays : ((n.outgoing ++ n.incoming).foldl Graph.removeEdge g).hasNode n.id = true := by
      rw [hg.foldl_removeEdge_eq, hasNode_iff, nodeIds_withEdges]
      exact List.mem_map_of_mem hn
    dsimp only
    rw [hg.foldlM_strictRemoveEdge_eq, Option.bind_some, if_pos hstays]
    rfl

end Consistent

end Graph

end CodeAtlas
