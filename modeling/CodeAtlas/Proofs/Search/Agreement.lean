import CodeAtlas.Proofs.Graph.Reachable
import CodeAtlas.Proofs.Search.Closure
import CodeAtlas.Proofs.Search.Components
import CodeAtlas.Proofs.Search.Paths
import CodeAtlas.Proofs.Search.Slices

/-!
# One answer from all searches

Slices in either direction, path searches and closures can all tell whether a node is in reach of
another. Each of them is compared with `ReachesWithin`, which counts steps along admitted edges, and
so they agree at every bound.
-/

namespace CodeAtlas

theorem within_natCast_iff {bound : Option Nat} {k : Nat} :
    within (bound.map Int.ofNat) k = true ↔ ∀ d ∈ bound, k ≤ d := by
  cases bound <;> simp [within]

theorem SliceOptions.ofRaw_natCast {kinds : Option (List Value)} {filter : KindFilter}
    (hkinds : KindFilter.ofValues kinds = .ok filter) (bound : Option Nat) :
    ofRaw (bound.map Int.ofNat) kinds = .ok { maxDepth := bound, kinds := filter } := by
  unfold ofRaw
  rw [hkinds]
  cases bound with
  | none => rfl
  | some d => exact if_neg (Int.not_lt.mpr (Int.natCast_nonneg d))

namespace Graph

variable {g : Graph} {filter : KindFilter} {bound : Option Nat} {s t : String}

/-- `b` can be reached from `a` along admitted edges, in no more steps than the bound allows. -/
def ReachesWithin (g : Graph) (filter : KindFilter) (bound : Option Nat) (a b : String) : Prop :=
  ∃ k, Walk (g.Adjacent filter) a b k ∧ ∀ d ∈ bound, k ≤ d

theorem reachesWithin_iff_exists_isPath : g.ReachesWithin filter bound s t ↔
    ∃ p, IsPath (g.Adjacent filter) s t p ∧ ∀ d ∈ bound, p.length - 1 ≤ d := by
  constructor
  · rintro ⟨k, hwalk, hbound⟩
    obtain ⟨p, hp, hlen⟩ := hwalk.exists_isPath
    exact ⟨p, hp, fun d hd => Nat.le_trans (Nat.sub_le_of_le_add hlen) (hbound d hd)⟩
  · rintro ⟨p, hp, hbound⟩
    exact ⟨p.length - 1, hp.walk, hbound⟩

theorem reachesWithin_none_iff (hne : s ≠ t) :
    g.ReachesWithin filter none s t ↔ Relation.TransGen (g.Adjacent filter) s t := by
  rw [← Relation.reflTransGen_iff_eq_or_transGen.trans (or_iff_right hne.symm), ← exists_walk_iff]
  exact exists_congr fun k => and_iff_left fun d hd => absurd hd (Option.not_mem_none d)

namespace Consistent

variable (hg : g.Consistent)

include hg

theorem exists_forward_slice (hs : s ∈ g.nodeIds) (filter : KindFilter) (bound : Option Nat) :
    ∃ part, g.slice s (.str "forward") { maxDepth := bound, kinds := filter } = .ok part ∧
      ∀ a, a ∈ part.nodeIds ↔ g.ReachesWithin filter bound s a := by
  have hforward : Direction.ofValue (.str "forward") = .ok .forward := rfl
  have hpart := hg.exists_slice hs hforward { maxDepth := bound, kinds := filter }
  rwa [hg.next_forward] at hpart

theorem exists_backward_slice (ht : t ∈ g.nodeIds) (filter : KindFilter) (bound : Option Nat) :
    ∃ part, g.slice t (.str "backward") { maxDepth := bound, kinds := filter } = .ok part ∧
      ∀ a, a ∈ part.nodeIds ↔ g.ReachesWithin filter bound a t := by
  have hbackward : Direction.ofValue (.str "backward") = .ok .backward := rfl
  obtain ⟨part, hpart, hmem⟩ := hg.exists_slice ht hbackward { maxDepth := bound, kinds := filter }
  rw [hg.next_backward] at hmem
  refine ⟨part, hpart, fun a => (hmem a).trans (exists_congr fun k => ?_)⟩
  exact and_congr_left' ⟨Walk.swap, Walk.swap⟩

theorem exists_paths (hs : s ∈ g.nodeIds) (ht : t ∈ g.nodeIds) (hne : s ≠ t)
    {kinds : Option (List Value)} (hkinds : KindFilter.ofValues kinds = .ok filter)
    {maxDepth : Option Int} (hlimit : g.pathLimit maxDepth = bound.map Int.ofNat) :
    ∃ found, g.paths s t maxDepth kinds = .ok found ∧
      (found ≠ [] ↔ g.ReachesWithin filter bound s t) := by
  refine ⟨_, paths_of_mem hs ht hkinds maxDepth, ?_⟩
  rw [hlimit, reachesWithin_iff_exists_isPath]
  constructor
  · intro hfound
    obtain ⟨p, hmem⟩ := List.exists_mem_of_ne_nil _ hfound
    obtain ⟨hp, -, hwithin⟩ := (hg.mem_pathsBetween_iff hs).mp hmem
    exact ⟨p, hp, within_natCast_iff.mp hwithin⟩
  · rintro ⟨p, hp, hbound⟩
    exact List.ne_nil_of_mem ((hg.mem_pathsBetween_iff hs).mpr
      ⟨hp, hp.two_le_length hne, within_natCast_iff.mpr hbound⟩)

/-- An edge of the closure, admitted or added, leads from `s` to `t` when `t` is in reach. -/
theorem exists_closure (hs : s ∈ g.nodeIds) (ht : t ∈ g.nodeIds) (hne : s ≠ t)
    {kinds : Option (List Value)} (hkinds : KindFilter.ofValues kinds = .ok filter) :
    ∃ closed, g.closure kinds = .ok closed ∧
      ((∃ e ∈ closed.edges, e.source = s ∧ e.target = t ∧
          (e ∈ g.edges ∧ filter.admits e.kind = true ∨ e.id ∉ g.edgeIds)) ↔
        g.ReachesWithin filter none s t) := by
  obtain ⟨added, counter, hall, hfresh, hclosure⟩ := hg.closure_eq hkinds
  have hends : ∀ a b, (a, b) ∈ g.indirectPairs filter ↔
      ∃ e ∈ added, e.source = a ∧ e.target = b := by
    intro a b
    rw [← Infers.map_ends hall]
    simp only [List.mem_map, Prod.mk.injEq]
  refine ⟨_, hclosure, ?_⟩
  rw [reachesWithin_none_iff hne, edges_withEdges]
  constructor
  · rintro ⟨e, he, hsource, htarget, ⟨hold, hadmits⟩ | hnew⟩
    · exact .single ⟨e, hold, hsource, htarget, hadmits⟩
    · have hadded := (List.mem_append.mp he).resolve_left fun hold =>
        hnew (List.mem_map_of_mem hold)
      have hpair := (hends s t).mpr ⟨e, hadded, hsource, htarget⟩
      exact (hg.mem_indirectPairs_iff.mp hpair).2.2.2.1
  · intro hreach
    by_cases hdirect : g.Adjacent filter s t
    · obtain ⟨e, he, hsource, htarget, hadmits⟩ := hdirect
      exact ⟨e, List.mem_append_left _ he, hsource, htarget, Or.inl ⟨he, hadmits⟩⟩
    · have hpair := hg.mem_indirectPairs_iff.mpr ⟨hs, ht, hne.symm, hreach, hdirect⟩
      obtain ⟨e, he, hsource, htarget⟩ := (hends s t).mp hpair
      exact ⟨e, List.mem_append_right _ he, hsource, htarget, Or.inr (hfresh e he)⟩

end Consistent

/-- **Agreement of the searches.** For two nodes, any kinds of edges and any number of steps, the
forward slice, the backward slice and the path search give one answer. Without a bound the closure
gives the same answer too, by an admitted edge of the graph or by an edge that it added. -/
theorem slices_paths_closure_agree (hg : g.Reachable) (hs : s ∈ g.nodeIds) (ht : t ∈ g.nodeIds)
    (hne : s ≠ t) {kinds : Option (List Value)} (hkinds : KindFilter.ofValues kinds = .ok filter)
    (d : Nat) :
    (∃ o forward backward found,
      SliceOptions.ofRaw (some d) kinds = .ok o ∧
      g.slice s (.str "forward") o = .ok forward ∧
      g.slice t (.str "backward") o = .ok backward ∧
      g.paths s t (some d) kinds = .ok found ∧
      (t ∈ forward.nodeIds ↔ found ≠ []) ∧ (t ∈ forward.nodeIds ↔ s ∈ backward.nodeIds)) ∧
    (g.config.analysis.pathMaxDepth = none → ∃ o forward backward found closed,
      SliceOptions.ofRaw none kinds = .ok o ∧
      g.slice s (.str "forward") o = .ok forward ∧
      g.slice t (.str "backward") o = .ok backward ∧
      g.paths s t none kinds = .ok found ∧
      g.closure kinds = .ok closed ∧
      (t ∈ forward.nodeIds ↔ found ≠ []) ∧ (t ∈ forward.nodeIds ↔ s ∈ backward.nodeIds) ∧
      (t ∈ forward.nodeIds ↔ ∃ e ∈ closed.edges, e.source = s ∧ e.target = t ∧
        (e ∈ g.edges ∧ filter.admits e.kind = true ∨ e.id ∉ g.edgeIds))) := by
  have hc := hg.consistent
  constructor
  · obtain ⟨forward, hforward, hmemForward⟩ := hc.exists_forward_slice hs filter (some d)
    obtain ⟨backward, hbackward, hmemBackward⟩ := hc.exists_backward_slice ht filter (some d)
    have hlimit : g.pathLimit (some d) = (some d).map Int.ofNat := rfl
    obtain ⟨found, hfound, hnonempty⟩ := hc.exists_paths hs ht hne hkinds hlimit
    refine ⟨_, forward, backward, found, SliceOptions.ofRaw_natCast hkinds (some d), hforward,
      hbackward, hfound, ?_, ?_⟩
    · rw [hmemForward, hnonempty]
    · rw [hmemForward, hmemBackward]
  · intro hunset
    obtain ⟨forward, hforward, hmemForward⟩ := hc.exists_forward_slice hs filter none
    obtain ⟨backward, hbackward, hmemBackward⟩ := hc.exists_backward_slice ht filter none
    have hlimit : g.pathLimit none = (none : Option Nat).map Int.ofNat := hunset
    obtain ⟨found, hfound, hnonempty⟩ := hc.exists_paths hs ht hne hkinds hlimit
    obtain ⟨closed, hclosed, hedge⟩ := hc.exists_closure hs ht hne hkinds
    refine ⟨_, forward, backward, found, closed, SliceOptions.ofRaw_natCast hkinds none, hforward,
      hbackward, hfound, hclosed, ?_, ?_, ?_⟩
    · rw [hmemForward, hnonempty]
    · rw [hmemForward, hmemBackward]
    · rw [hmemForward, hedge]

/-- The way from `a` to `d` takes three calls: two are too few, and the closure makes them one. -/
theorem slices_paths_closure_agree_knots :
    knots.Reachable ∧ "a" ∈ knots.nodeIds ∧ "d" ∈ knots.nodeIds ∧
      KindFilter.ofValues (some [.str "calls"]) = .ok (some [.calls]) ∧
      knots.config.analysis.pathMaxDepth = none ∧
      (∃ forward, knots.slice "a" (.str "forward") { maxDepth := some 2, kinds := some [.calls] } =
        .ok forward ∧ "d" ∉ forward.nodeIds) ∧
      ∃ closed, knots.closure (some [.str "calls"]) = .ok closed ∧
        ∃ e ∈ closed.edges, e.source = "a" ∧ e.target = "d" := by
  have hkinds : KindFilter.ofValues (some [.str "calls"]) = .ok (some [.calls]) := rfl
  have hunset : knots.config.analysis.pathMaxDepth = none := rfl
  have hshort : knots.paths "a" "d" (some 2) (some [.str "calls"]) = .ok [] := rfl
  have hlong : knots.paths "a" "d" none (some [.str "calls"]) = .ok [["a", "b", "c", "d"]] := rfl
  obtain ⟨⟨o, forward, _, found, ho, hforward, -, hfound, hiff, -⟩, hunbounded⟩ :=
    slices_paths_closure_agree knots_reachable (by decide : "a" ∈ knots.nodeIds)
      (by decide : "d" ∈ knots.nodeIds) (by decide) hkinds 2
  obtain ⟨_, _, _, found', closed, -, -, -, hfound', hclosed, hiff', -, hedge⟩ := hunbounded hunset
  refine ⟨knots_reachable, by decide, by decide, hkinds, hunset, ⟨forward, ?_, ?_⟩,
    closed, hclosed, ?_⟩
  · obtain rfl := Except.ok.inj ho
    exact hforward
  · obtain rfl := Except.ok.inj (hshort.symm.trans hfound)
    exact fun hd => hiff.mp hd rfl
  · obtain rfl := Except.ok.inj (hlong.symm.trans hfound')
    obtain ⟨e, he, hsource, htarget, -⟩ := hedge.mp (hiff'.mpr (by simp))
    exact ⟨e, he, hsource, htarget⟩

end Graph

end CodeAtlas
