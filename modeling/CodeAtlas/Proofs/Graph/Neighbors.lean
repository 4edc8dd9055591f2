import CodeAtlas.Proofs.Graph.Adjacency
import CodeAtlas.Proofs.Graph.Reachable
import Mathlib.Algebra.GroupWithZero.Nat

/-!
# Neighbours from both ends

The neighbours of a node on one side are read off one of its lists, those on the other side off the
other list. On a consistent graph both come from the edges, one neighbour for each admitted edge, so
what one end counts the other end counts too.
-/

namespace CodeAtlas

/-! ## Kinds given as words -/

/-- The words name the kind, or there are none and every kind will do. -/
def EdgeKind.NamedBy (kind : EdgeKind) (words : Option (List String)) : Prop :=
  ∀ ws ∈ words, Spelled.text kind ∈ ws

instance (kind : EdgeKind) (words : Option (List String)) : Decidable (kind.NamedBy words) :=
  inferInstanceAs (Decidable (∀ ws ∈ words, Spelled.text kind ∈ ws))

/-- Words that name no kind admit nothing. -/
theorem EdgeKind.admits_filterMap_iff {kind : EdgeKind} {words : Option (List String)} :
    KindFilter.admits (words.map (·.filterMap Spelled.ofText?)) kind = true ↔
      kind.NamedBy words := by
  cases words with
  | none => simp [KindFilter.admits, NamedBy]
  | some ws =>
    simp only [KindFilter.admits, NamedBy, Option.map_some, Option.mem_some, forall_eq',
      List.contains_iff_mem, List.mem_filterMap]
    constructor
    · rintro ⟨word, hword, hread⟩
      rwa [Spelled.text_of_ofText? hread]
    · exact fun hword => ⟨_, hword, Spelled.ofText?_text kind⟩

/-! ## Edges sorted by an end -/

section Ends

variable {near far : Edge → String} {edges : List Edge}

theorem edgesAt_filter_of_ne {a b : String} (h : a ≠ b) :
    edgesAt near (edges.filter fun e => near e ≠ b) a = edgesAt near edges a := by
  unfold edgesAt
  rw [List.filter_filter]
  refine List.filter_congr fun e _ => ?_
  by_cases ha : near e = a <;> simp [ha, h]

/-- Sorting edges by an end loses none and repeats none. -/
theorem flatMap_edgesAt_perm {ids : List String} (hids : ids.Nodup)
    (hnear : ∀ e ∈ edges, near e ∈ ids) : (ids.flatMap (edgesAt near edges)).Perm edges := by
  induction ids generalizing edges with
  | nil =>
    have hnil : edges = [] := List.eq_nil_iff_forall_not_mem.mpr fun e he =>
      absurd (hnear e he) List.not_mem_nil
    rw [hnil]
    exact .nil
  | cons id ids ih =>
    obtain ⟨hnew, hids⟩ := List.nodup_cons.mp hids
    have hrest : ∀ e ∈ edges.filter fun e => near e ≠ id, near e ∈ ids := by
      intro e he
      obtain ⟨he, hne⟩ := List.mem_filter.mp he
      exact (List.mem_cons.mp (hnear e he)).resolve_left (of_decide_eq_true hne)
    have hsame : ids.flatMap (edgesAt near edges) =
        ids.flatMap (edgesAt near (edges.filter fun e => near e ≠ id)) := by
      refine List.flatMap_congr fun a ha => (edgesAt_filter_of_ne ?_).symm
      rintro rfl
      exact hnew ha
    rw [List.flatMap_cons, hsame]
    refine ((ih hids hrest).append_left _).trans ?_
    simpa [edgesAt] using List.filter_append_perm (fun e => decide (near e = id)) edges

theorem edgesAt_filter_admits (id : String) (words : Option (List String)) :
    ((edgesAt near edges id).filter fun e =>
      KindFilter.admits (words.map (·.filterMap Spelled.ofText?)) e.kind) =
        edges.filter fun e => near e = id ∧ e.kind.NamedBy words := by
  rw [edgesAt, List.filter_filter]
  refine List.filter_congr fun e _ => ?_
  rw [Bool.eq_iff_iff, Bool.and_eq_true, EdgeKind.admits_filterMap_iff, decide_eq_true_iff,
    decide_eq_true_iff, and_comm]

theorem count_map_far (a b : String) (words : Option (List String)) :
    ((edges.filter fun e => near e = a ∧ e.kind.NamedBy words).map far).count b =
      edges.countP fun e => near e = a ∧ far e = b ∧ e.kind.NamedBy words := by
  rw [List.count, List.countP_map, List.countP_filter]
  refine List.countP_congr fun e _ => ?_
  simp only [Function.comp_apply, Bool.and_eq_true, beq_iff_eq, decide_eq_true_iff]
  exact and_left_comm

end Ends

namespace Graph

variable {g : Graph}

namespace Consistent

variable (hg : g.Consistent)

include hg

theorem neighborsNamed_out (id : String) (words : Option (List String)) :
    g.neighborsNamed id words "out" =
      (g.edges.filter fun e => e.source = id ∧ e.kind.NamedBy words).map Edge.target := by
  rw [← edgesAt_filter_admits, ← hg.outgoingEdges_eq]
  rfl

theorem neighborsNamed_in (id : String) (words : Option (List String)) :
    g.neighborsNamed id words "in" =
      (g.edges.filter fun e => e.target = id ∧ e.kind.NamedBy words).map Edge.source := by
  rw [← edgesAt_filter_admits, ← hg.incomingEdges_eq]
  rfl

/-- Over all nodes, the edges at them on one side are all the edges. -/
theorem sum_length_edgesAt {side : Edge → String} (hside : ∀ e ∈ g.edges, side e ∈ g.nodeIds) :
    (g.nodes.map fun n => (edgesAt side g.edges n.id).length).sum = g.edges.length := by
  rw [← (flatMap_edgesAt_perm hg.nodeIds_nodup hside).length_eq, List.length_flatMap, nodeIds,
    List.map_map]
  rfl

end Consistent

/-- **Neighbours from both ends.** In a reachable graph `m` is an outgoing neighbour of `n` as often as
`n` is an incoming neighbour of `m`, and as often as there are edges of the asked kinds from `n` to
`m`. The neighbours on either side stand in the order of the edges; those on both sides are the
outgoing and then the incoming ones, so that an edge from `n` to itself counts twice. Over all nodes,
the outgoing edges are as many as the edges, and so are the incoming ones. -/
theorem neighbors_agree (hg : g.Reachable) (words : Option (List String)) :
    (∀ n m,
      (g.neighborsNamed n words "out").count m = (g.neighborsNamed m words "in").count n ∧
      (g.neighborsNamed n words "out").count m =
        g.edges.countP fun e => e.source = n ∧ e.target = m ∧ e.kind.NamedBy words) ∧
    (∀ n,
      g.neighborsNamed n words "out" =
        (g.edges.filter fun e => e.source = n ∧ e.kind.NamedBy words).map Edge.target ∧
      g.neighborsNamed n words "in" =
        (g.edges.filter fun e => e.target = n ∧ e.kind.NamedBy words).map Edge.source ∧
      g.neighborsNamed n words "both" =
        g.neighborsNamed n words "out" ++ g.neighborsNamed n words "in" ∧
      (g.neighborsNamed n words "both").count n =
        2 * g.edges.countP fun e => e.source = n ∧ e.target = n ∧ e.kind.NamedBy words) ∧
    (g.nodes.map fun n => (g.outgoingEdges n.id).length).sum = g.edges.length ∧
    (g.nodes.map fun n => (g.incomingEdges n.id).length).sum = g.edges.length := by
  have hc := hg.consistent
  have hout : ∀ n m, (g.neighborsNamed n words "out").count m =
      g.edges.countP fun e => e.source = n ∧ e.target = m ∧ e.kind.NamedBy words := by
    intro n m
    rw [hc.neighborsNamed_out, count_map_far]
  have hin : ∀ n m, (g.neighborsNamed m words "in").count n =
      g.edges.countP fun e => e.source = n ∧ e.target = m ∧ e.kind.NamedBy words := by
    intro n m
    rw [hc.neighborsNamed_in, count_map_far]
    simp only [and_left_comm]
  have hboth : ∀ n, g.neighborsNamed n words "both" =
      g.neighborsNamed n words "out" ++ g.neighborsNamed n words "in" := fun _ => rfl
  refine ⟨fun n m => ⟨(hout n m).trans (hin n m).symm, hout n m⟩, fun n => ?_, ?_, ?_⟩
  · refine ⟨hc.neighborsNamed_out n words, hc.neighborsNamed_in n words, hboth n, ?_⟩
    rw [hboth, List.count_append, hout, hin, Nat.two_mul]
  · simp only [hc.outgoingEdges_eq]
    exact hc.sum_length_edgesAt hc.source_mem
  · simp only [hc.incomingEdges_eq]
    exact hc.sum_length_edgesAt hc.target_mem

/-- Parallel edges count one by one, and the loop at `a` is met from both of its ends. -/
theorem neighbors_agree_tangle :
    tangle.Reachable ∧ (tangle.neighborsNamed "b" (some ["uses", "likes"]) "in").count "a" = 2 ∧
      tangle.neighborsNamed "a" none "both" = ["b", "b", "a", "a"] ∧
      (tangle.nodes.map fun n => (tangle.outgoingEdges n.id).length).sum = 3 := by
  obtain ⟨hcounts, -, -, -⟩ := neighbors_agree tangle_reachable (some ["uses", "likes"])
  obtain ⟨-, hlists, hsum, -⟩ := neighbors_agree tangle_reachable none
  refine ⟨tangle_reachable, ?_, ?_, hsum⟩
  · obtain ⟨hsame, hedges⟩ := hcounts "a" "b"
    rw [← hsame, hedges]
    rfl
  · obtain ⟨hout, hin, hboth, -⟩ := hlists "a"
    rw [hboth, hout, hin]
    rfl

end Graph

end CodeAtlas
