import CodeAtlas.Proofs.Search.Components
import CodeAtlas.Proofs.Search.Cycles

/-!
# Cycles and components

The cycle search lists cycles and the component search only follows low numbers, yet they see the
same structure: a component is what is held together by cycles. A step between two nodes of a
component can be taken back and so lies on a cycle, and going along such steps strings cycles
together that overlap.
-/

namespace CodeAtlas

/-- A row of cycles leads from `u` to `v`: each shares a node with the next one. -/
structure LinkedBy (row : List (List String)) (u v : String) : Prop where
  first : ∃ c ∈ row.head?, u ∈ c
  last : ∃ c ∈ row.getLast?, v ∈ c
  overlap : row.IsChain fun c d => ∃ x ∈ c, x ∈ d

namespace LinkedBy

variable {row : List (List String)} {c : List String} {u v w : String}

theorem single (hu : u ∈ c) (hv : v ∈ c) : LinkedBy [c] u v :=
  ⟨⟨c, rfl, hu⟩, ⟨c, rfl, hv⟩, List.isChain_singleton c⟩

theorem snoc (h : LinkedBy row u v) (hv : v ∈ c) (hw : w ∈ c) : LinkedBy (row ++ [c]) u w := by
  obtain ⟨b, hb, hu⟩ := h.first
  obtain ⟨d, hd, hvd⟩ := h.last
  refine ⟨⟨b, ?_, hu⟩, ⟨c, List.getLast?_concat, hw⟩, ?_⟩
  · rw [List.head?_append, Option.mem_def.mp hb]
    rfl
  · refine h.overlap.append (List.isChain_singleton c) fun x hx y hy => ?_
    obtain rfl : d = x := Option.some.inj (hd.symm.trans hx)
    obtain rfl : c = y := Option.some.inj hy
    exact ⟨v, hvd, hv⟩

/-- What joins the nodes of each cycle joins the ends of the row. -/
theorem joined {R : String → String → Prop} (htrans : ∀ x y z, R x y → R y z → R x z)
    (h : LinkedBy row u v) (hrow : ∀ c ∈ row, ∀ x ∈ c, ∀ y ∈ c, R x y) : R u v := by
  induction row generalizing u with
  | nil =>
    obtain ⟨c, hc, -⟩ := h.first
    cases hc
  | cons c row ih =>
    obtain ⟨hjoined, hrow⟩ := List.forall_mem_cons.mp hrow
    obtain ⟨_, hfirst, hu⟩ := h.first
    obtain rfl := Option.some.inj hfirst
    cases row with
    | nil =>
      obtain ⟨_, hlast, hv⟩ := h.last
      obtain rfl := Option.some.inj hlast
      exact hjoined u hu v hv
    | cons d row =>
      obtain ⟨⟨x, hxc, hxd⟩, hoverlap⟩ := List.isChain_cons_cons.mp h.overlap
      obtain ⟨b, hb, hv⟩ := h.last
      have hlast : b ∈ (d :: row).getLast? := by rwa [List.getLast?_cons_cons] at hb
      have hrest : LinkedBy (d :: row) x v := ⟨⟨d, rfl, hxd⟩, ⟨b, hlast, hv⟩, hoverlap⟩
      exact htrans u x v (hjoined u hu x hxc) (ih hrest hrow)

end LinkedBy

/-- A list without repetition is longer than one if it has a second item. -/
theorem two_le_length_iff {names : List String} (hnodup : names.Nodup) {n : String}
    (hn : n ∈ names) : 2 ≤ names.length ↔ ∃ m ∈ names, m ≠ n := by
  constructor
  · intro htwo
    by_contra hall
    have hsub : names ⊆ [n] := by
      intro m hm
      by_contra hne
      exact hall ⟨m, hm, fun heq => hne (List.mem_singleton.mpr heq)⟩
    have hlen := (hnodup.subperm hsub).length_le
    rw [List.length_singleton] at hlen
    omega
  · rintro ⟨m, hm, hne⟩
    have hpair : [m, n].Nodup := by simpa using hne
    have hsub : [m, n] ⊆ names := by simp [hm, hn]
    exact (hpair.subperm hsub).length_le

namespace Graph

variable {g : Graph} {u v n : String}

namespace Consistent

variable (hg : g.Consistent)

include hg

/-! ## Components -/

theorem share_component_iff (hu : u ∈ g.nodeIds) :
    (∃ c ∈ g.components, u ∈ c ∧ v ∈ c) ↔ g.Reaches none u v ∧ g.Reaches none v u := by
  rw [← hg.leads_iff, ← hg.leads_iff]
  exact hg.componentLayout.share_iff (hg.mem_components_iff.mpr hu)

theorem nodup_components : (∀ c ∈ g.components, c.Nodup) ∧
    g.components.Pairwise List.Disjoint := by
  rw [← List.nodup_flatten, ← hg.discovered_componentSearch]
  exact hg.componentLayout.nodup

/-- The component of a node holds the nodes that it reaches and that reach it. -/
theorem mem_component_iff {c : List String} (hc : c ∈ g.components) (hu : u ∈ c) :
    v ∈ c ↔ g.Reaches none u v ∧ g.Reaches none v u := by
  have hmem : u ∈ g.nodeIds := hg.mem_components_iff.mp (List.mem_flatten.mpr ⟨c, hc, hu⟩)
  rw [← hg.share_component_iff hmem]
  constructor
  · exact fun hv => ⟨c, hc, hu, hv⟩
  · rintro ⟨d, hd, hud, hvd⟩
    by_contra hv
    have hne : c ≠ d := fun heq => hv (heq ▸ hvd)
    have : Std.Symm (List.Disjoint : List String → List String → Prop) :=
      ⟨fun _ _ h _ hx hy => h hy hx⟩
    exact hg.nodup_components.2.forall hc hd hne hu hud

/-! ## Cycles -/

theorem reaches_of_mem_cycle {limit : Option Int} {unique : Bool} {c : List String}
    (hc : c ∈ g.cyclesWithin limit unique) (hu : u ∈ c) (hv : v ∈ c) : g.Reaches none u v := by
  obtain ⟨home, hcycle⟩ := hg.isCycle_of_mem_cyclesWithin hc
  exact hcycle.joined hu hv

/-- A step that can be taken back lies on a cycle that is returned. -/
theorem exists_cycle_of_step (unique : Bool) (huv : g.Adjacent none u v)
    (hvu : g.Reaches none v u) : ∃ c ∈ g.cyclesWithin none unique, u ∈ c ∧ v ∈ c := by
  obtain ⟨c, hcycle, hv⟩ := exists_isCycle huv hvu
  obtain ⟨d, hd, hperm⟩ := hg.exists_mem_cyclesWithin unique hcycle
  exact ⟨d, hd, hperm.mem_iff.mpr (List.mem_of_mem_head? hcycle.head_eq), hperm.mem_iff.mpr hv⟩

/-- Nodes that reach each other are linked by cycles. -/
theorem exists_linkedBy (unique : Bool) (huv : Relation.TransGen (g.Adjacent none) u v)
    (hvu : g.Reaches none v u) :
    ∃ row, (∀ c ∈ row, c ∈ g.cyclesWithin none unique) ∧ LinkedBy row u v := by
  -- along the way every node still leads back to `u`, so each step lies on a cycle
  induction huv with
  | single hstep =>
    obtain ⟨c, hc, hu, hv⟩ := hg.exists_cycle_of_step unique hstep hvu
    exact ⟨[c], by simpa using hc, .single hu hv⟩
  | @tail b d hub hstep ih =>
    have hbu : g.Reaches none b u := .head hstep hvu
    obtain ⟨row, hrow, hlinked⟩ := ih hbu
    obtain ⟨c, hc, hb, hd⟩ := hg.exists_cycle_of_step unique hstep (hvu.trans hub.to_reflTransGen)
    refine ⟨row ++ [c], fun x hx => ?_, hlinked.snoc hb hd⟩
    rcases List.mem_append.mp hx with hx | hx
    · exact hrow x hx
    · exact List.mem_singleton.mp hx ▸ hc

/-- A node is on a cycle if it has company in its component or an edge to itself. -/
theorem on_cycle_iff (unique : Bool) {component : List String}
    (hcomponent : component ∈ g.components) (hn : n ∈ component) :
    (∃ c ∈ g.cyclesWithin none unique, n ∈ c) ↔
      2 ≤ component.length ∨ ∃ e ∈ g.edges, e.source = n ∧ e.target = n := by
  rw [← adjacent_none_iff, two_le_length_iff (hg.nodup_components.1 component hcomponent) hn]
  constructor
  · rintro ⟨c, hc, hnc⟩
    obtain ⟨home, hcycle⟩ := hg.isCycle_of_mem_cyclesWithin hc
    obtain ⟨m, hm, hstep⟩ := hcycle.exists_next hnc
    by_cases hmn : m = n
    · exact Or.inr (hmn ▸ hstep)
    · refine Or.inl ⟨m, ?_, hmn⟩
      exact (hg.mem_component_iff hcomponent hn).mpr
        ⟨hcycle.joined hnc hm, hcycle.joined hm hnc⟩
  · rintro (⟨m, hm, hmn⟩ | hstep)
    · obtain ⟨hnm, hmn'⟩ := (hg.mem_component_iff hcomponent hn).mp hm
      obtain ⟨x, hstep, hxm⟩ := (Relation.ReflTransGen.cases_head hnm).resolve_left (Ne.symm hmn)
      obtain ⟨c, hc, hnc, -⟩ := hg.exists_cycle_of_step unique hstep (hxm.trans hmn')
      exact ⟨c, hc, hnc⟩
    · obtain ⟨c, hc, hnc, -⟩ := hg.exists_cycle_of_step unique hstep .refl
      exact ⟨c, hc, hnc⟩

end Consistent

/-- **Cycles and components.** Without a limit on their length, the cycles returned tell the
components: a node is on one exactly when it is not alone in its component or has an edge to itself,
a cycle never leaves a component, and two nodes share a component exactly when overlapping cycles
link them. -/
theorem cycles_components_agree (hg : g.Reachable) {maxLength : Option Int}
    (hlimit : g.cycleLimit maxLength = none) (unique : Option Bool) :
    (∀ n ∈ g.nodeIds, ∃ component ∈ g.components, n ∈ component) ∧
    (∀ component ∈ g.components, component.Nodup ∧ ∀ n ∈ component,
      ((∃ c ∈ g.cycles maxLength unique, n ∈ c) ↔
        2 ≤ component.length ∨ ∃ e ∈ g.edges, e.source = n ∧ e.target = n)) ∧
    (∀ c ∈ g.cycles maxLength unique, ∃ component ∈ g.components, ∀ n ∈ c, n ∈ component) ∧
    ∀ u ∈ g.nodeIds, ∀ v ∈ g.nodeIds, u ≠ v →
      ((∃ component ∈ g.components, u ∈ component ∧ v ∈ component) ↔
        ∃ row, (∀ c ∈ row, c ∈ g.cycles maxLength unique) ∧ LinkedBy row u v) := by
  have hc := hg.consistent
  unfold cycles
  rw [hlimit]
  refine ⟨?_, ?_, ?_, ?_⟩
  · exact fun n hn => List.mem_flatten.mp (hc.mem_components_iff.mpr hn)
  · intro component hcomponent
    exact ⟨hc.nodup_components.1 component hcomponent, fun n hn => hc.on_cycle_iff _ hcomponent hn⟩
  · intro c hmem
    obtain ⟨home, hcycle⟩ := hc.isCycle_of_mem_cyclesWithin hmem
    have hhome : home ∈ c := List.mem_of_mem_head? hcycle.head_eq
    have hnode : home ∈ g.nodeIds := by
      obtain ⟨m, -, e, he, rfl, -⟩ := hcycle.exists_next hhome
      exact hc.source_mem e he
    obtain ⟨component, hcomponent, hin⟩ := List.mem_flatten.mp (hc.mem_components_iff.mpr hnode)
    refine ⟨component, hcomponent, fun n hn => (hc.mem_component_iff hcomponent hin).mpr ?_⟩
    exact ⟨hcycle.joined hhome hn, hcycle.joined hn hhome⟩
  · intro u hu v _ hne
    rw [hc.share_component_iff hu]
    constructor
    · rintro ⟨huv, hvu⟩
      have htrans := (Relation.reflTransGen_iff_eq_or_transGen.mp huv).resolve_left hne.symm
      exact hc.exists_linkedBy _ htrans hvu
    · rintro ⟨row, hrow, hlinked⟩
      refine hlinked.joined (R := fun a b => g.Reaches none a b ∧ g.Reaches none b a) ?_ ?_
      · exact fun x y z hxy hyz => ⟨hxy.1.trans hyz.1, hyz.2.trans hxy.2⟩
      · intro c hmem x hx y hy
        exact ⟨hc.reaches_of_mem_cycle (hrow c hmem) hx hy,
          hc.reaches_of_mem_cycle (hrow c hmem) hy hx⟩

/-- In `knots` three nodes hang together by one cycle, two by a cycle beside a self-loop, and one
is on no cycle. -/
theorem cycles_components_agree_knots :
    knots.Reachable ∧ knots.cycleLimit none = none ∧
      knots.components = [["e", "d"], ["b", "a", "c"], ["f"]] ∧
      (∃ c ∈ knots.cycles none none, "d" ∈ c) ∧ (¬∃ c ∈ knots.cycles none none, "f" ∈ c) ∧
      (∃ row, (∀ c ∈ row, c ∈ knots.cycles none none) ∧ LinkedBy row "b" "c") ∧
      ¬∃ row, (∀ c ∈ row, c ∈ knots.cycles none none) ∧ LinkedBy row "c" "d" := by
  have hlimit : knots.cycleLimit none = none := rfl
  have hcomponents : knots.components = [["e", "d"], ["b", "a", "c"], ["f"]] := rfl
  obtain ⟨-, hcycle, -, hlinked⟩ := cycles_components_agree knots_reachable hlimit none
  rw [hcomponents] at hcycle hlinked
  refine ⟨knots_reachable, hlimit, hcomponents, ?_, ?_, ?_, ?_⟩
  · exact ((hcycle ["e", "d"] (by decide)).2 "d" (by decide)).mpr (Or.inl (by decide))
  · intro h
    have halone := ((hcycle ["f"] (by decide)).2 "f" (by decide)).mp h
    revert halone
    decide
  · refine (hlinked "b" (by decide) "c" (by decide) (by decide)).mp ?_
    exact ⟨["b", "a", "c"], by decide, by decide, by decide⟩
  · rw [← hlinked "c" (by decide) "d" (by decide) (by decide)]
    decide

end Graph

end CodeAtlas
