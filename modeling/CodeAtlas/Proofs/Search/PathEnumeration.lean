import CodeAtlas.Proofs.Graph.Reachable
import CodeAtlas.Proofs.Search.Components
import CodeAtlas.Proofs.Search.Paths

/-!
# Enumeration of simple paths

Which paths the search returns is `Consistent.mem_pathsBetween_iff`. Here is in which order: each
path is noted when its last node is looked at, so the paths stand as they branch off from each other,
and none of them stands twice.
-/

namespace CodeAtlas

theorem PathSearch.spells {successors : String → List String}
    (hnodup : ∀ a, (successors a).Nodup) (finish : String) (limit : Option Int) :
    (plan successors finish limit).Spells id where
  nodup := hnodup
  note := by
    intro path m
    by_cases hnoted : m ∉ path ∧ m = finish ∧ within limit path.length = true
    · refine Or.inr ⟨(m :: path).reverse, if_pos hnoted, rfl, ?_⟩
      simp [plan, hnoted.2.1]
    · exact Or.inl (if_neg hnoted)

namespace Graph

variable {g : Graph} {filter : KindFilter} {s t : String}

namespace Consistent

variable (hg : g.Consistent)

include hg

theorem pairwise_pathsBetween (hs : s ∈ g.nodeIds) (t : String) (limit : Option Int)
    (filter : KindFilter) :
    (g.pathsBetween s t limit filter).Pairwise (Precedes (g.nextNodes filter)) := by
  have hnodup : ∀ a, (g.successors a filter).Nodup := fun a => nodup_distinct _
  rw [hg.pathsBetween_eq hs, ← hg.successors_eq_nextNodes]
  exact (PathSearch.spells hnodup t limit).pairwise_reports g.nodes.length [] s

end Consistent

/-- **Enumeration of simple paths.** Between two nodes of a reachable graph, for any kinds of edges
and any limit, the search ends with nothing left to try. It returns the simple paths of at least two
nodes along admitted edges that keep within the limit, each of them once, in depth-first order over
the order of the edges: as the recursive enumeration lists them. There are none from a node to
itself, and none under a limit that is not positive. -/
theorem paths_enumerated (hg : g.Reachable) (hs : s ∈ g.nodeIds) (ht : t ∈ g.nodeIds)
    {kinds : Option (List Value)} (hkinds : KindFilter.ofValues kinds = .ok filter)
    (maxDepth : Option Int) :
    (g.pathSearch s t (g.pathLimit maxDepth) filter).trail.todo = [] ∧
    ∃ found, g.paths s t maxDepth kinds = .ok found ∧
      (∀ p, p ∈ found ↔ IsPath (g.Adjacent filter) s t p ∧ 2 ≤ p.length ∧
        ∀ l ∈ maxDepth <|> g.config.analysis.pathMaxDepth, (p.length : Int) - 1 ≤ l) ∧
      found.Nodup ∧ found.Pairwise (Precedes (g.nextNodes filter)) ∧
      found = (PathSearch.plan (g.nextNodes filter) t (g.pathLimit maxDepth)).reports
        g.nodes.length [] s ∧
      (s = t → found = []) ∧
      ((∃ l ∈ maxDepth <|> g.config.analysis.pathMaxDepth, l ≤ 0) → found = []) := by
  have hc := hg.consistent
  have hmem : ∀ p, p ∈ g.pathsBetween s t (g.pathLimit maxDepth) filter ↔
      IsPath (g.Adjacent filter) s t p ∧ 2 ≤ p.length ∧
        ∀ l ∈ maxDepth <|> g.config.analysis.pathMaxDepth, (p.length : Int) - 1 ≤ l := by
    intro p
    rw [hc.mem_pathsBetween_iff hs, within_iff]
    refine and_congr_right fun _ => and_congr_right fun htwo => ?_
    rw [Int.ofNat_sub (Nat.le_of_succ_le htwo)]
    rfl
  have hordered := hc.pairwise_pathsBetween hs t (g.pathLimit maxDepth) filter
  refine ⟨?_, _, paths_of_mem hs ht hkinds maxDepth, hmem, ?_, hordered, ?_, fun heq => ?_, ?_⟩
  · rw [hc.pathSearch_eq hs]
  · exact hordered.imp Precedes.ne
  · rw [hc.pathsBetween_eq hs, hc.successors_eq_nextNodes]
  · refine List.eq_nil_iff_forall_not_mem.mpr fun p hp => ?_
    obtain ⟨hpath, htwo, -⟩ := (hmem p).mp hp
    exact hpath.ne_of_two_le htwo heq
  · rintro ⟨l, hl, hle⟩
    refine List.eq_nil_iff_forall_not_mem.mpr fun p hp => ?_
    obtain ⟨-, htwo, hlimit⟩ := (hmem p).mp hp
    have hlen := hlimit l hl
    omega

/-- The long way from `f` to `e` of `knots` comes before the short one, as it sets out along an older
edge. No node has a path to itself, though `d` has an edge to itself. -/
theorem paths_enumerated_knots :
    knots.Reachable ∧ "f" ∈ knots.nodeIds ∧ "e" ∈ knots.nodeIds ∧ "d" ∈ knots.nodeIds ∧
      KindFilter.ofValues (some [.str "calls"]) = .ok (some [.calls]) ∧
      knots.paths "f" "e" none (some [.str "calls"]) = .ok [["f", "c", "d", "e"], ["f", "e"]] ∧
      Precedes (knots.nextNodes (some [.calls])) ["f", "c", "d", "e"] ["f", "e"] ∧
      knots.paths "f" "e" (some 0) (some [.str "calls"]) = .ok [] ∧
      knots.paths "d" "d" none (some [.str "calls"]) = .ok [] := by
  have hkinds : KindFilter.ofValues (some [.str "calls"]) = .ok (some [.calls]) := rfl
  have hf : "f" ∈ knots.nodeIds := by decide
  have he : "e" ∈ knots.nodeIds := by decide
  have hd : "d" ∈ knots.nodeIds := by decide
  have hpaths : knots.paths "f" "e" none (some [.str "calls"]) =
      .ok [["f", "c", "d", "e"], ["f", "e"]] := rfl
  obtain ⟨-, found, hfound, -, -, hordered, -⟩ :=
    paths_enumerated knots_reachable hf he hkinds none
  obtain ⟨-, none', hnone, -, -, -, -, -, hlimit⟩ :=
    paths_enumerated knots_reachable hf he hkinds (some 0)
  obtain ⟨-, round, hround, -, -, -, -, hsame, -⟩ :=
    paths_enumerated knots_reachable hd hd hkinds none
  refine ⟨knots_reachable, hf, he, hd, hkinds, hpaths, ?_, ?_, ?_⟩
  · rw [hpaths] at hfound
    obtain rfl := Except.ok.inj hfound
    exact List.rel_of_pairwise_cons hordered (by simp)
  · rw [hnone, hlimit ⟨0, rfl, Int.le_refl 0⟩]
  · rw [hround, hsame rfl]

end Graph

end CodeAtlas
