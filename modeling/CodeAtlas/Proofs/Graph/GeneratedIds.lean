import CodeAtlas.Proofs.Graph.Updates
import Mathlib.Order.Bounds.Basic

/-!
# Generated ids over the life of a graph

A node or an edge that is not given an id takes the next free number of its counter. Looking for it
ends, because different numbers make different ids and only finitely many are taken. A counter moves
to every number that is used, whatever becomes of the item, and nothing moves it back. So no id is
generated twice, however often items are removed or refused in between.
-/

namespace CodeAtlas

/-! ## The search for a free number -/

/-- The search tries one number after the other: beginning above `k`, it comes to an end at `j` with
its try number `tries`. -/
inductive FindsFree (stem : String) (taken : List String) : Nat → Nat → Nat → Prop
  | free {k : Nat} (hfree : numberedId stem (k + 1) ∉ taken) : FindsFree stem taken k 1 (k + 1)
  | pass {k tries j : Nat} (htaken : numberedId stem (k + 1) ∈ taken)
      (hrest : FindsFree stem taken (k + 1) tries j) : FindsFree stem taken k (tries + 1) j

theorem findsFree_of_passed {stem : String} {taken : List String} {tries k : Nat}
    (hfree : numberedId stem (k + tries + 1) ∉ taken)
    (hpassed : ∀ i, k < i → i < k + tries + 1 → numberedId stem i ∈ taken) :
    FindsFree stem taken k (tries + 1) (k + tries + 1) := by
  induction tries generalizing k with
  | zero => exact .free hfree
  | succ tries ih =>
    have hrest : FindsFree stem taken (k + 1) (tries + 1) (k + 1 + tries + 1) := by
      apply ih
      · rwa [show k + 1 + tries + 1 = k + (tries + 1) + 1 by omega]
      · exact fun i hi hlt => hpassed i (by omega) (by omega)
    rw [show k + (tries + 1) + 1 = k + 1 + tries + 1 by omega]
    exact .pass (hpassed (k + 1) (by omega) (by omega)) hrest

/-- The search ends after at most one try more than there are ids. -/
theorem findsFree_nextFree (stem : String) (taken : List String) (k : Nat) :
    ∃ tries ≤ taken.length + 1,
      FindsFree stem taken k tries (nextFree stem taken taken.length k) := by
  obtain ⟨⟨hgt, hle⟩, hpassed, -⟩ := nextFree_spec stem taken taken.length k
  have hfree := nextFree_not_mem stem (Nat.le_refl taken.length) k
  obtain ⟨tries, heq⟩ := Nat.exists_eq_add_of_lt hgt
  rw [heq] at hfree hpassed hle ⊢
  exact ⟨tries + 1, by omega, findsFree_of_passed hfree hpassed⟩

/-- The number found is the least free one above the counter. -/
theorem isLeast_nextFree (stem : String) (taken : List String) (k : Nat) :
    IsLeast {j | k < j ∧ numberedId stem j ∉ taken} (nextFree stem taken taken.length k) := by
  obtain ⟨⟨hgt, -⟩, hpassed, -⟩ := nextFree_spec stem taken taken.length k
  refine ⟨⟨hgt, nextFree_not_mem stem (Nat.le_refl taken.length) k⟩, ?_⟩
  rintro j ⟨hj, hfree⟩
  exact Nat.le_of_not_lt fun hlt => hfree (hpassed j hj hlt)

theorem numberedId_node_ne_edge (j k : Nat) : numberedId nodeStem j ≠ numberedId edgeStem k := by
  intro heq
  have hhead := congrArg (fun s => s.toList.head?) heq
  simp [numberedId, nodeStem, edgeStem] at hhead

/-! ## Counters -/

/-- Where the generated ids of one sort of items come from. -/
structure Supply where
  stem : String
  /-- The ids that cannot be used. -/
  taken : Graph → List String
  /-- The last number used. -/
  counter : Graph → Nat
  /-- Whether an operation needs an id from here. -/
  asked : Operation → Bool

namespace Supply

/-- Nodes that are not given an id. One whose position is refused comes to need none. -/
def nodes : Supply where
  stem := nodeStem
  taken := Graph.nodeIds
  counter := Graph.nodeCounter
  asked
    | .createNode _ position draft => draft.id.isNone && (draft.placed position).isOk
    | _ => false

/-- Edges that are not given an id. -/
def edges : Supply where
  stem := edgeStem
  taken := Graph.edgeIds
  counter := Graph.edgeCounter
  asked
    | .createEdge _ _ _ _ id => id.isNone
    | _ => false

variable (s : Supply)

def next (g : Graph) : Nat :=
  nextFree s.stem (s.taken g) (s.taken g).length (s.counter g)

/-- The ids generated along a row of operations, oldest first. -/
def generated (g : Graph) : List Operation → List String
  | [] => []
  | op :: ops =>
    if s.asked op then numberedId s.stem (s.next g) :: generated (g.perform op) ops
    else generated (g.perform op) ops

end Supply

namespace Graph

variable {g h : Graph}

def counters (g : Graph) : Nat × Nat :=
  (g.nodeCounter, g.edgeCounter)

theorem counters_addNode {n : Node} (hok : g.addNode n = .ok h) : h.counters = g.counters := by
  obtain ⟨-, rfl⟩ := addNode_eq_ok_iff.mp hok
  rfl

theorem counters_addEdge {e : Edge} (hok : g.addEdge e = .ok h) : h.counters = g.counters := by
  obtain ⟨-, rfl⟩ := addEdge_eq_ok_iff.mp hok
  rfl

theorem counters_removeEdge (g : Graph) (id : String) :
    (g.removeEdge id).counters = g.counters := by
  unfold removeEdge removeEdge?
  cases g.edge? id <;> rfl

theorem counters_foldl_removeEdge (g : Graph) (ids : List String) :
    (ids.foldl removeEdge g).counters = g.counters := by
  induction ids generalizing g with
  | nil => rfl
  | cons id ids ih => rw [List.foldl_cons, ih, counters_removeEdge]

theorem counters_removeNode (g : Graph) (id : String) :
    (g.removeNode id).counters = g.counters := by
  unfold removeNode removeNode?
  cases g.node? id with
  | none => rfl
  | some n => exact counters_foldl_removeEdge g (n.outgoing ++ n.incoming)

/-- A node that is created, or refused after its id is claimed, leaves the counters as the claim
did. -/
theorem counters_createNode (g : Graph) (kind : Value) (draft : NodeDraft) :
    (g.createNode kind draft).1.counters = (g.claimNodeId draft.id).1.counters := by
  unfold createNode
  split
  · rfl
  · unfold putNode
    dsimp only
    split
    · rfl
    · rename_i hok
      exact counters_addNode hok

theorem counters_createEdge (g : Graph) (source target : String) (kind : Value) (metadata : Fields)
    (id : Option String) : (g.createEdge source target kind metadata id).1.counters =
      (g.claimEdgeId id).1.counters := by
  unfold createEdge
  split
  · rfl
  · unfold connect
    dsimp only
    split
    · rfl
    · rename_i hok
      exact counters_addEdge hok

/-- An operation moves a counter exactly if it asks for an id, and then to the number of that
id. -/
theorem counters_perform (g : Graph) (op : Operation) : (g.perform op).counters =
    (if Supply.nodes.asked op then Supply.nodes.next g else g.nodeCounter,
      if Supply.edges.asked op then Supply.edges.next g else g.edgeCounter) := by
  cases op with
  | addNode n =>
    rw [perform]
    cases hok : g.addNode n with
    | error fault => rfl
    | ok h => exact counters_addNode hok
  | createNode kind position draft =>
    rw [perform]
    cases hplaced : draft.placed position with
    | error fault =>
      have hasked : Supply.nodes.asked (.createNode kind position draft) = false := by
        simp [Supply.nodes, hplaced, Except.isOk, Except.toBool]
      rw [hasked]
      rfl
    | ok placed =>
      have hasked : Supply.nodes.asked (.createNode kind position draft) = draft.id.isNone := by
        simp [Supply.nodes, hplaced, Except.isOk, Except.toBool]
      dsimp only
      rw [counters_createNode, NodeDraft.placed_id hplaced, hasked]
      cases draft.id <;> rfl
  | removeNode id => exact counters_removeNode g id
  | addEdge e =>
    rw [perform]
    cases hok : g.addEdge e with
    | error fault => rfl
    | ok h => exact counters_addEdge hok
  | createEdge source target kind metadata id =>
    rw [perform, counters_createEdge]
    cases id <;> rfl
  | removeEdge id => exact counters_removeEdge g id

end Graph

/-! ## Created items -/

/-- The id of the item that an operation put in. -/
def Outcome.id? : Outcome → Option String
  | .node n => some n.id
  | .edge e => some e.id
  | .removed _ => none

namespace Graph

theorem createNode_ok_id {g : Graph} {kind : Value} {draft : NodeDraft} {n : Node}
    (hok : (g.createNode kind draft).2 = .ok n) : n.id = (g.claimNodeId draft.id).2 := by
  unfold createNode at hok
  split at hok
  · cases hok
  · unfold putNode at hok
    dsimp only at hok
    split at hok
    · cases hok
    · obtain rfl := Except.ok.inj hok
      rfl

theorem createEdge_ok_id {g : Graph} {source target : String} {kind : Value} {metadata : Fields}
    {id : Option String} {e : Edge}
    (hok : (g.createEdge source target kind metadata id).2 = .ok e) :
    e.id = (g.claimEdgeId id).2 := by
  unfold createEdge at hok
  split at hok
  · cases hok
  · unfold connect at hok
    dsimp only at hok
    split at hok
    · cases hok
    · obtain rfl := Except.ok.inj hok
      rfl

theorem ok_of_map {α β : Type} {f : α → β} {x : Except Fault α} {b : β} (hok : x.map f = .ok b) :
    ∃ a, x = .ok a ∧ f a = b := by
  cases x with
  | error fault => cases hok
  | ok a => exact ⟨a, rfl, Except.ok.inj hok⟩

end Graph

/-! ## Runs -/

namespace Supply

variable {s : Supply} {g : Graph} {ops : List Operation}

/-- An operation that asks for an id moves the counter to its number, and the item that it puts in
has that id; no other operation moves the counter. -/
structure Lawful (s : Supply) : Prop where
  counter_perform : ∀ (g : Graph) (op : Operation),
    s.counter (g.perform op) = if s.asked op then s.next g else s.counter g
  id_outcome : ∀ (g : Graph) (op : Operation) (item : Outcome), s.asked op = true →
    g.outcome op = .ok item → item.id? = some (numberedId s.stem (s.next g))

theorem nodes_lawful : nodes.Lawful where
  counter_perform g op := congrArg Prod.fst (g.counters_perform op)
  id_outcome := by
    intro g op item hasked hok
    cases op with
    | createNode kind position draft =>
      obtain ⟨hid, -⟩ := Bool.and_eq_true_iff.mp hasked
      obtain ⟨placed, hplaced, hok⟩ := Graph.Consistent.ok_of_bind hok
      obtain ⟨n, hn, rfl⟩ := Graph.ok_of_map hok
      rw [Outcome.id?, Graph.createNode_ok_id hn, NodeDraft.placed_id hplaced,
        Option.isNone_iff_eq_none.mp hid]
      rfl
    | addNode _ | removeNode _ | addEdge _ | createEdge _ _ _ _ _ | removeEdge _ => cases hasked

theorem edges_lawful : edges.Lawful where
  counter_perform g op := congrArg Prod.snd (g.counters_perform op)
  id_outcome := by
    intro g op item hasked hok
    cases op with
    | createEdge source target kind metadata id =>
      obtain ⟨e, he, rfl⟩ := Graph.ok_of_map hok
      obtain rfl : id = none := Option.isNone_iff_eq_none.mp hasked
      rw [Outcome.id?, Graph.createEdge_ok_id he]
      rfl
    | addNode _ | createNode _ _ _ | removeNode _ | addEdge _ | removeEdge _ => cases hasked

theorem counter_lt_next (s : Supply) (g : Graph) : s.counter g < s.next g :=
  (isLeast_nextFree s.stem (s.taken g) (s.counter g)).1.1

namespace Lawful

variable (hs : s.Lawful)

include hs

theorem counter_le (g : Graph) (op : Operation) : s.counter g ≤ s.counter (g.perform op) := by
  rw [hs.counter_perform]
  split
  · exact Nat.le_of_lt (s.counter_lt_next g)
  · exact Nat.le_refl _

/-- Every id generated from now on has a number above the counter. -/
theorem lt_of_mem_generated {id : String} (hid : id ∈ s.generated g ops) :
    ∃ k, s.counter g < k ∧ id = numberedId s.stem k := by
  induction ops generalizing g with
  | nil => exact absurd hid List.not_mem_nil
  | cons op ops ih =>
    have hlater : id ∈ s.generated (g.perform op) ops →
        ∃ k, s.counter g < k ∧ id = numberedId s.stem k := by
      intro hid
      obtain ⟨k, hk, heq⟩ := ih hid
      exact ⟨k, Nat.lt_of_le_of_lt (hs.counter_le g op) hk, heq⟩
    rw [generated] at hid
    split at hid
    · rcases List.mem_cons.mp hid with rfl | hid
      · exact ⟨s.next g, s.counter_lt_next g, rfl⟩
      · exact hlater hid
    · exact hlater hid

/-- No id is generated twice, as the counter has moved to the number of each. -/
theorem nodup_generated (g : Graph) (ops : List Operation) : (s.generated g ops).Nodup := by
  induction ops generalizing g with
  | nil => exact List.nodup_nil
  | cons op ops ih =>
    rw [generated]
    split
    · rename_i hasked
      refine List.nodup_cons.mpr ⟨fun hid => ?_, ih (g.perform op)⟩
      obtain ⟨k, hk, heq⟩ := hs.lt_of_mem_generated hid
      rw [hs.counter_perform, if_pos hasked] at hk
      exact Nat.ne_of_lt hk (numberedId_injective s.stem heq)
    · exact ih (g.perform op)

end Lawful

theorem generated_append (s : Supply) (g : Graph) (before after : List Operation) :
    s.generated g (before ++ after) =
      s.generated g before ++ s.generated (g.performAll before) after := by
  induction before generalizing g with
  | nil => rfl
  | cons op before ih =>
    rw [List.cons_append, generated, generated, ih]
    split <;> rfl

/-- Asked for an id by `op`, the supply gives the number `k`: the search for it ends in time, it is
the least free one above the counter, the counter moves to it, and the item has its id. -/
structure Gives (s : Supply) (g : Graph) (op : Operation) (k : Nat) : Prop where
  ends : ∃ tries ≤ (s.taken g).length + 1, FindsFree s.stem (s.taken g) (s.counter g) tries k
  least : IsLeast {j | s.counter g < j ∧ numberedId s.stem j ∉ s.taken g} k
  used : s.counter (g.perform op) = k
  named : ∀ item, g.outcome op = .ok item → item.id? = some (numberedId s.stem k)

theorem Lawful.gives (hs : s.Lawful) (g : Graph) {op : Operation} (hasked : s.asked op = true) :
    s.Gives g op (s.next g) where
  ends := findsFree_nextFree s.stem (s.taken g) (s.counter g)
  least := isLeast_nextFree s.stem (s.taken g) (s.counter g)
  used := by rw [hs.counter_perform, if_pos hasked]
  named := fun item hok => hs.id_outcome g op item hasked hok

end Supply

/-- **Generated ids are fresh for life.** Along any row of operations on any graph the generated ids
of nodes and edges are pairwise distinct, also those of items that were removed again or refused,
and their numbers lie above where the counters began. Each is the id of the least number above the
current counter that is free, so it is not in the graph, and it is found after at most one try more
than there are ids. -/
theorem generated_ids_fresh (g : Graph) (ops : List Operation) :
    (Supply.nodes.generated g ops ++ Supply.edges.generated g ops).Nodup ∧
    ∀ s ∈ [Supply.nodes, Supply.edges],
      (∀ id ∈ s.generated g ops, ∃ k, s.counter g < k ∧ id = numberedId s.stem k) ∧
      ∀ before op, s.asked op = true → ∃ k, s.Gives (g.performAll before) op k ∧
        s.generated g (before ++ [op]) = s.generated g before ++ [numberedId s.stem k] := by
  have hlawful : ∀ s ∈ [Supply.nodes, Supply.edges], s.Lawful := by
    simp [Supply.nodes_lawful, Supply.edges_lawful]
  constructor
  · refine List.nodup_append.mpr ⟨Supply.nodes_lawful.nodup_generated g ops,
      Supply.edges_lawful.nodup_generated g ops, ?_⟩
    rintro id hnode _ hedge rfl
    obtain ⟨j, -, rfl⟩ := Supply.nodes_lawful.lt_of_mem_generated hnode
    obtain ⟨k, -, heq⟩ := Supply.edges_lawful.lt_of_mem_generated hedge
    exact numberedId_node_ne_edge j k heq
  · intro s hs
    refine ⟨fun id => (hlawful s hs).lt_of_mem_generated, ?_⟩
    intro before op hasked
    refine ⟨_, (hlawful s hs).gives _ hasked, ?_⟩
    rw [s.generated_append]
    congr 1
    exact if_pos hasked

/-- An edge without its end, a caller that takes an id ahead of the counter, a node that is removed
again and one of an unknown kind. -/
def crowdedRun : List Operation := [
  .createEdge "a" "c" (.str "uses") [] none,
  .addNode { id := "node_1", kind := .func },
  .createNode (.str "class") none {},
  .removeNode "node_2",
  .createNode (.str "oddity") none {},
  .createNode (.str "class") none {}]

theorem generated_ids_fresh_tangle :
    Supply.nodes.generated Graph.tangle crowdedRun = ["node_2", "node_3", "node_4"] ∧
      Supply.edges.generated Graph.tangle crowdedRun = ["edge_4"] ∧
      (Supply.nodes.generated Graph.tangle crowdedRun ++
        Supply.edges.generated Graph.tangle crowdedRun).Nodup ∧
      ∃ k, Supply.nodes.Gives (Graph.tangle.performAll (crowdedRun.take 2))
        (.createNode (.str "class") none {}) k :=
  have hfresh := generated_ids_fresh Graph.tangle crowdedRun
  have ⟨k, hgives, _⟩ := (hfresh.2 Supply.nodes List.mem_cons_self).2 (crowdedRun.take 2)
    (.createNode (.str "class") none {}) rfl
  ⟨rfl, rfl, hfresh.1, k, hgives⟩

end CodeAtlas
