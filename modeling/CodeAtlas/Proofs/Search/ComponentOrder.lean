import CodeAtlas.Proofs.Search.Components

/-!
# The order of the components

A component is finished only after everything that can be reached from it, so what the search has
finished at any time is closed under reachability. In the list of all components an edge between two
of them therefore leads to the one that stands earlier, and so does every way along edges.
-/

namespace CodeAtlas

namespace ComponentSearch

variable {successors : String → List String} {ids : List String} {s : ComponentSearch}

/-- A node of the first `k` components is in no other. -/
theorem Layout.not_mem_drop (h : Layout successors ids s) {k : Nat} {a : String}
    (ha : a ∈ (s.found.take k).flatten) : a ∉ (s.found.drop k).flatten := by
  intro ha'
  have hnodup := (List.nodup_append.mp h.nodup).2.1
  rw [← List.take_append_drop k s.found, List.flatten_append] at hnodup
  exact (List.nodup_append.mp hnodup).2.2 a ha a ha' rfl

/-- Nothing leads from a component to one that is finished later. -/
theorem Layout.pairwise_not_leads (h : Layout successors ids s) :
    s.found.Pairwise fun c d => ∀ a ∈ c, ∀ b ∈ d, ¬Leads successors a b := by
  refine List.pairwise_iff_getElem.mpr fun i j hi hj hij a ha b hb hab => ?_
  have hearly : s.found[i] ∈ s.found.take (i + 1) :=
    List.mem_take_iff_getElem.mpr ⟨i, by omega, rfl⟩
  have hlate : s.found[j] ∈ s.found.drop (i + 1) :=
    List.mem_drop_iff_getElem.mpr ⟨j - (i + 1), by omega, by congr 1; omega⟩
  -- the components up to the earlier one hold whatever its nodes lead to
  have hb' := h.leads_prefix (List.take_append_drop (i + 1) s.found).symm
    (List.mem_flatten.mpr ⟨_, hearly, ha⟩) hab
  exact h.not_mem_drop hb' (List.mem_flatten.mpr ⟨_, hlate, hb⟩)

end ComponentSearch

namespace Graph

variable {g : Graph}

/-- Between components in different places, what is reached stands earlier. -/
theorem Consistent.lt_of_reaches (hg : g.Consistent) {i j : Nat} (hi : i < g.components.length)
    (hj : j < g.components.length) (hne : i ≠ j) {u v : String} (hu : u ∈ g.components[i])
    (hv : v ∈ g.components[j]) (huv : g.Reaches none u v) : j < i := by
  have hordered := List.pairwise_iff_getElem.mp hg.componentLayout.pairwise_not_leads i j hi hj
  by_contra hnot
  exact hordered (by omega) u hu v hv (hg.leads_iff.mpr huv)

/-- **Reverse topological order.** Every node of a reachable graph has its component, and an edge
from one component to another leads to a place in the list strictly before it. So does every way
along edges that leaves a component. -/
theorem components_reverse_topological (hg : g.Reachable) :
    (∀ id ∈ g.nodeIds, ∃ c ∈ g.components, id ∈ c) ∧
    (∀ i j, (hi : i < g.components.length) → (hj : j < g.components.length) → i ≠ j →
      ∀ e ∈ g.edges, e.source ∈ g.components[i] → e.target ∈ g.components[j] → j < i) ∧
    ∀ i j, (hi : i < g.components.length) → (hj : j < g.components.length) → i ≠ j →
      ∀ u ∈ g.components[i], ∀ v ∈ g.components[j], g.Reaches none u v → j < i := by
  have hc := hg.consistent
  refine ⟨fun id hid => ?_, fun i j hi hj hne e he hsource htarget => ?_,
    fun i j hi hj hne u hu v hv huv => hc.lt_of_reaches hi hj hne hu hv huv⟩
  · exact List.mem_flatten.mp (hc.mem_components_iff.mpr hid)
  · have hstep : g.Adjacent none e.source e.target := adjacent_none_iff.mpr ⟨e, he, rfl, rfl⟩
    exact hc.lt_of_reaches hi hj hne hsource htarget (.single hstep)

/-- In `knots` the edge from `c` to `d` leaves the second component for the first, and `f`, the
first node, stands last: its edges lead to both others. -/
theorem components_reverse_topological_knots :
    knots.Reachable ∧ knots.components = [["e", "d"], ["b", "a", "c"], ["f"]] ∧
      knots.nodeIds.head? = some "f" ∧
      (∃ e ∈ knots.edges, e.source = "c" ∧ e.target = "d") ∧
      (∀ i j, (hi : i < knots.components.length) → (hj : j < knots.components.length) → i ≠ j →
        "c" ∈ knots.components[i] → "d" ∈ knots.components[j] → j < i) := by
  have hedge : ∃ e ∈ knots.edges, e.source = "c" ∧ e.target = "d" := by decide
  refine ⟨knots_reachable, rfl, rfl, hedge, fun i j hi hj hne hc hd => ?_⟩
  obtain ⟨e, he, hsource, htarget⟩ := hedge
  rw [← hsource] at hc
  rw [← htarget] at hd
  exact (components_reverse_topological knots_reachable).2.1 i j hi hj hne e he hc hd

end Graph

end CodeAtlas
