import CodeAtlas.Proofs.Search.Agreement
import CodeAtlas.Proofs.Search.CycleComponents

/-!
# Closures of closures

An inferred edge joins two nodes of which one is in reach of the other already, so it brings nothing
new into reach. What a second closure adds depends on whether it sees the inferred edges. If the
filter admits their kind, every pair in reach is linked directly and there is nothing to add;
otherwise the second closure finds the graph as the first one found it, and adds an edge for each of
the same pairs again.
-/

namespace CodeAtlas.Graph

variable {g h : Graph} {filter : KindFilter} {added : List Edge} {counter : Nat} {a b : String}

/-- `h` is `g` with the edges `added` inferred for its indirect pairs. -/
structure ClosedBy (g : Graph) (filter : KindFilter) (added : List Edge) (h : Graph) : Prop where
  inferred : List.Forall₂ Infers added (g.indirectPairs filter)
  fresh : ∀ e ∈ added, e.id ∉ g.edgeIds
  shape : ∃ counter, h = ({ g with edgeCounter := counter } : Graph).withEdges (g.edges ++ added)

namespace ClosedBy

theorem edges_eq (hh : g.ClosedBy filter added h) : h.edges = g.edges ++ added := by
  obtain ⟨counter, rfl⟩ := hh.shape
  rfl

theorem nodeIds_eq (hh : g.ClosedBy filter added h) : h.nodeIds = g.nodeIds := by
  obtain ⟨counter, rfl⟩ := hh.shape
  exact nodeIds_withEdges _ _

theorem kind_eq (hh : g.ClosedBy filter added h) : ∀ e ∈ added, e.kind = .dependsOn := by
  have hkinds := hh.inferred.imp fun _ _ hinfers => And.intro hinfers.kind_eq hinfers
  exact ((List.forall₂_and_left _ _).mp hkinds).1

theorem map_ends (hh : g.ClosedBy filter added h) :
    added.map (fun e => (e.source, e.target)) = g.indirectPairs filter :=
  Infers.map_ends hh.inferred

/-! ## What is in reach -/

/-- The closure links what the graph links and, if their kind is admitted, the pairs that got an
inferred edge. -/
theorem adjacent_iff (hh : g.ClosedBy filter added h) : h.Adjacent filter a b ↔
    g.Adjacent filter a b ∨
      filter.admits .dependsOn = true ∧ (a, b) ∈ g.indirectPairs filter := by
  unfold Adjacent
  rw [hh.edges_eq, ← hh.map_ends]
  constructor
  · rintro ⟨e, he, hsource, htarget, hadmits⟩
    rcases List.mem_append.mp he with he | he
    · exact Or.inl ⟨e, he, hsource, htarget, hadmits⟩
    · rw [hh.kind_eq e he] at hadmits
      exact Or.inr ⟨hadmits, List.mem_map.mpr ⟨e, he, by rw [hsource, htarget]⟩⟩
  · rintro (⟨e, he, hlink⟩ | ⟨hadmits, hpair⟩)
    · exact ⟨e, List.mem_append_left _ he, hlink⟩
    · obtain ⟨e, he, hends⟩ := List.mem_map.mp hpair
      obtain ⟨hsource, htarget⟩ := Prod.mk.inj hends
      rw [← hh.kind_eq e he] at hadmits
      exact ⟨e, List.mem_append_right _ he, hsource, htarget, hadmits⟩

/-- Inferred edges bring nothing new into reach. -/
theorem transGen_iff (hh : g.ClosedBy filter added h) (hg : g.Consistent) :
    Relation.TransGen (h.Adjacent filter) a b ↔ Relation.TransGen (g.Adjacent filter) a b := by
  constructor
  · intro hreach
    refine hreach.lift' id fun x y hxy => ?_
    rcases hh.adjacent_iff.mp hxy with hold | ⟨-, hpair⟩
    · exact .single hold
    · exact (hg.mem_indirectPairs_iff.mp hpair).2.2.2.1
  · intro hreach
    exact hreach.lift id fun x y hxy => hh.adjacent_iff.mpr (Or.inl hxy)

theorem reaches_iff (hh : g.ClosedBy filter added h) (hg : g.Consistent) :
    h.Reaches filter a b ↔ g.Reaches filter a b := by
  unfold Reaches
  rw [Relation.reflTransGen_iff_eq_or_transGen, Relation.reflTransGen_iff_eq_or_transGen,
    hh.transGen_iff hg]

/-! ## Pairs left for a second closure -/

/-- If their kind is admitted, the inferred edges leave no pair indirect. -/
theorem indirectPairs_eq_nil (hh : g.ClosedBy filter added h) (hg : g.Consistent)
    (hc : h.Consistent) (hadmits : filter.admits .dependsOn = true) :
    h.indirectPairs filter = [] := by
  refine List.eq_nil_iff_forall_not_mem.mpr fun ⟨x, y⟩ hpair => ?_
  obtain ⟨hx, hy, hne, hreach, hnot⟩ := hc.mem_indirectPairs_iff.mp hpair
  rw [hh.nodeIds_eq] at hx hy
  rw [hh.transGen_iff hg] at hreach
  rw [hh.adjacent_iff, not_or] at hnot
  exact hnot.2 ⟨hadmits, hg.mem_indirectPairs_iff.mpr ⟨hx, hy, hne, hreach, hnot.1⟩⟩

/-- If their kind is not admitted, the inferred edges are not seen. -/
theorem successors_eq (hh : g.ClosedBy filter added h) (hg : g.Consistent) (hc : h.Consistent)
    (hadmits : filter.admits .dependsOn = false) (id : String) :
    h.successors id filter = g.successors id filter := by
  have hunseen : (edgesAt Edge.source added id).filter (filter.admits ·.kind) = [] := by
    refine List.filter_eq_nil_iff.mpr fun e he => ?_
    rw [hh.kind_eq e (mem_edgesAt.mp he).1, hadmits]
    exact Bool.false_ne_true
  unfold successors targets
  rw [hc.outgoingEdges_eq, hg.outgoingEdges_eq, hh.edges_eq]
  unfold edgesAt at hunseen ⊢
  rw [List.filter_append, List.filter_append, hunseen, List.append_nil]

end ClosedBy

/-- The pairs depend only on the nodes and their successors. -/
theorem indirectPairs_congr (hids : h.nodeIds = g.nodeIds)
    (hsuccessors : ∀ id, h.successors id filter = g.successors id filter) :
    h.indirectPairs filter = g.indirectPairs filter := by
  unfold indirectPairs fullReach directReach
  simp only [hids, hsuccessors]

theorem Consistent.nodup_indirectPairs (hg : g.Consistent) (filter : KindFilter) :
    (g.indirectPairs filter).Nodup := by
  unfold indirectPairs
  refine List.nodup_flatMap.mpr ⟨fun x _ => ?_, hg.nodeIds_nodup.imp fun {x y} hne => ?_⟩
  · exact (hg.nodeIds_nodup.filter _).map fun _ _ heq => (Prod.mk.inj heq).2
  · intro pair hx hy
    obtain ⟨_, -, rfl⟩ := List.mem_map.mp hx
    obtain ⟨_, -, heq⟩ := List.mem_map.mp hy
    exact hne (Prod.mk.inj heq).1.symm

/-- A closure over known kinds is the graph closed by some edges. -/
theorem Consistent.exists_closedBy (hg : g.Consistent) {kinds : Option (List Value)}
    (hkinds : KindFilter.ofValues kinds = .ok filter) :
    ∃ added h, g.closure kinds = .ok h ∧ g.ClosedBy filter added h := by
  obtain ⟨added, counter, hinferred, hfresh, hclosure⟩ := hg.closure_eq hkinds
  exact ⟨added, _, hclosure, hinferred, hfresh, counter, rfl⟩

/-- With no pair left the closure is the graph itself. -/
theorem Consistent.closure_eq_self (hg : g.Consistent) {kinds : Option (List Value)}
    (hkinds : KindFilter.ofValues kinds = .ok filter) (hnone : g.indirectPairs filter = []) :
    g.closure kinds = .ok g := by
  unfold Graph.closure Graph.closureOver
  rw [hkinds, hg.copy_eq]
  show (g.indirectPairs filter).foldlM Graph.addInferred g = .ok g
  rw [hnone]
  rfl

/-! ## Slices and components -/

theorem reachesWithin_none_iff_reaches :
    g.ReachesWithin filter none a b ↔ g.Reaches filter a b := by
  unfold ReachesWithin Reaches
  rw [← exists_walk_iff]
  exact exists_congr fun k => and_iff_left fun d hd => absurd hd (Option.not_mem_none d)

/-- Where the same nodes reach each other, the components hold the same nodes. -/
theorem Consistent.exists_component_perm (hg : g.Consistent) (hh : h.Consistent)
    (hids : h.nodeIds = g.nodeIds) (hreach : ∀ a b, h.Reaches none a b ↔ g.Reaches none a b)
    {c : List String} (hc : c ∈ h.components) : ∃ d ∈ g.components, c.Perm d := by
  obtain ⟨u, hu⟩ := List.exists_mem_of_ne_nil c (hh.componentLayout.found_ne_nil c hc)
  have hmem : u ∈ g.components.flatten := by
    rw [hg.mem_components_iff, ← hids, ← hh.mem_components_iff]
    exact List.mem_flatten.mpr ⟨c, hc, hu⟩
  obtain ⟨d, hd, hud⟩ := List.mem_flatten.mp hmem
  refine ⟨d, hd, (List.perm_ext_iff_of_nodup (hh.nodup_components.1 c hc)
    (hg.nodup_components.1 d hd)).mpr fun v => ?_⟩
  rw [hh.mem_component_iff hc hu, hg.mem_component_iff hd hud, hreach, hreach]

/-- **Closures of closures.** A closure whose filter admits inferred edges is closed: closing it
again gives the very same graph. Under a filter that does not admit them, closing it again adds one
more inferred edge for each pair that got one before, and nothing else. With edges of every kind
admitted, the closure has the forward slices and the components of the graph, as sets of nodes. -/
theorem closure_of_closure (hg : g.Reachable) {kinds : Option (List Value)}
    (hkinds : KindFilter.ofValues kinds = .ok filter) :
    ∃ closed added, g.closure kinds = .ok closed ∧ closed.edges = g.edges ++ added ∧
      (filter.admits .dependsOn = true → closed.closure kinds = .ok closed) ∧
      (filter.admits .dependsOn = false → ∃ more counter,
        closed.closure kinds = .ok
          (({ closed with edgeCounter := counter } : Graph).withEdges (closed.edges ++ more)) ∧
        List.Forall₂ Infers more (added.map fun e => (e.source, e.target)) ∧
        (added.map fun e => (e.source, e.target)).Nodup) ∧
      (filter = none →
        (∀ s ∈ g.nodeIds, ∃ before after, g.slice s (.str "forward") {} = .ok before ∧
          closed.slice s (.str "forward") {} = .ok after ∧
          ∀ id, id ∈ after.nodeIds ↔ id ∈ before.nodeIds) ∧
        (∀ c ∈ closed.components, ∃ d ∈ g.components, c.Perm d) ∧
        ∀ d ∈ g.components, ∃ c ∈ closed.components, d.Perm c) := by
  have hc := hg.consistent
  obtain ⟨added, closed, hclosed, hby⟩ := hc.exists_closedBy hkinds
  have hc' := Consistent.closure hclosed
  refine ⟨closed, added, hclosed, hby.edges_eq, fun hadmits => ?_, fun hadmits => ?_, ?_⟩
  · exact hc'.closure_eq_self hkinds (hby.indirectPairs_eq_nil hc hc' hadmits)
  · obtain ⟨more, again, hagain, hinferred, -, counter, rfl⟩ := hc'.exists_closedBy hkinds
    rw [indirectPairs_congr hby.nodeIds_eq (hby.successors_eq hc hc' hadmits)] at hinferred
    rw [hby.map_ends]
    exact ⟨more, counter, hagain, hinferred, hc.nodup_indirectPairs filter⟩
  · rintro rfl
    have hreach : ∀ x y, closed.Reaches none x y ↔ g.Reaches none x y :=
      fun x y => hby.reaches_iff hc
    refine ⟨fun s hs => ?_, fun c => ?_, fun d => ?_⟩
    · obtain ⟨before, hbefore, hmem⟩ := hc.exists_forward_slice hs none none
      obtain ⟨after, hafter, hmem'⟩ :=
        hc'.exists_forward_slice (hby.nodeIds_eq ▸ hs) none none
      refine ⟨before, after, hbefore, hafter, fun id => ?_⟩
      rw [hmem, hmem', reachesWithin_none_iff_reaches, reachesWithin_none_iff_reaches, hreach]
    · exact hc.exists_component_perm hc' hby.nodeIds_eq hreach
    · exact hc'.exists_component_perm hc hby.nodeIds_eq.symm fun x y => (hreach x y).symm

/-- Over calls only, the closure of `knots` has eleven more edges, and its own closure eleven more
again; over all kinds the second closure is the first. -/
theorem closure_of_closure_knots :
    knots.Reachable ∧ KindFilter.ofValues (some [.str "calls"]) = .ok (some [.calls]) ∧
      (∃ closed, knots.closure none = .ok closed ∧ closed.closure none = .ok closed) ∧
      ∃ closed again, knots.closure (some [.str "calls"]) = .ok closed ∧
        closed.closure (some [.str "calls"]) = .ok again ∧
        knots.edges.length = 10 ∧ closed.edges.length = 21 ∧ again.edges.length = 32 := by
  have hcalls : KindFilter.ofValues (some [.str "calls"]) = .ok (some [.calls]) := rfl
  refine ⟨knots_reachable, hcalls, ?_, ?_⟩
  · obtain ⟨closed, -, hclosed, -, hagain, -, -⟩ :=
      closure_of_closure knots_reachable (rfl : KindFilter.ofValues none = .ok none)
    exact ⟨closed, hclosed, hagain rfl⟩
  · obtain ⟨closed, added, hclosed, hedges, -, hagain, -⟩ :=
      closure_of_closure knots_reachable hcalls
    obtain ⟨more, counter, hagain, hinferred, -⟩ := hagain rfl
    have hcount : knots.edges.length = 10 := rfl
    have hcount' : (knots.closure (some [.str "calls"])).map (fun c => c.edges.length) =
        .ok 21 := rfl
    rw [hclosed] at hcount'
    replace hcount' : closed.edges.length = 21 := Except.ok.inj hcount'
    refine ⟨closed, _, hclosed, hagain, hcount, hcount', ?_⟩
    have hlength := hinferred.length_eq
    rw [hedges, List.length_append] at hcount'
    rw [List.length_map] at hlength
    rw [edges_withEdges, hedges, List.length_append, List.length_append]
    omega

end CodeAtlas.Graph
