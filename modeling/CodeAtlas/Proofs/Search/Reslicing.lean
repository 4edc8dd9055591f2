import CodeAtlas.Proofs.Graph.Reachable
import CodeAtlas.Proofs.Search.Components
import CodeAtlas.Proofs.Search.Slices

/-!
# Slices of slices

A slice keeps its edges in the order in which they were followed, which is not their order in the
graph. In one direction an edge is followed from one of its ends only, and an open node tries its
hops in their order; so among the edges at any one node the order is kept, and a node that the walk
could leave has all its hops again in the slice. A second walk through the slice then goes in step
with the walk through the graph: they differ at most in the hops of nodes that neither may leave.
-/

namespace CodeAtlas

theorem eq_of_isPrefix_of_subset {α : Type} {as bs : List α} (hbs : bs.Nodup) (h : as <+: bs)
    (hsub : bs ⊆ as) : as = bs :=
  h.eq_of_length_le (hbs.subperm hsub).length_le

/-- A start of a list that holds all items before `a`, but not `a`, ends there. -/
theorem eq_of_isPrefix_of_not_mem {α : Type} {as front back : List α} {a : α}
    (hnodup : (front ++ a :: back).Nodup) (h : as <+: front ++ a :: back) (hfront : front ⊆ as)
    (ha : a ∉ as) : as = front := by
  rcases List.prefix_or_prefix_of_prefix h (List.prefix_append front (a :: back)) with hle | hle
  · exact eq_of_isPrefix_of_subset hnodup.of_append_left hle hfront
  · obtain ⟨more, rfl⟩ := hle
    cases more with
    | nil => exact List.append_nil front
    | cons b more =>
      obtain ⟨rfl, -⟩ := List.cons_prefix_cons.mp ((List.prefix_append_right_inj front).mp h)
      exact absurd (List.mem_append_right front List.mem_cons_self) ha

/-! ## Hops in one direction -/

/-- The hops over admitted edges from their end `near` to their end `far`. -/
def hopsAt (near far : Edge → String) (filter : KindFilter) (edges : List Edge) (a : String) :
    List Hop :=
  ((edgesAt near edges a).filter (filter.admits ·.kind)).map fun e => (e, far e)

variable {near far : Edge → String} {filter : KindFilter} {edges : List Edge} {a b : String}
  {e : Edge}

theorem map_fst_hopsAt : (hopsAt near far filter edges a).map Prod.fst =
    (edgesAt near edges a).filter (filter.admits ·.kind) := by
  unfold hopsAt
  rw [List.map_map]
  exact List.map_id _

theorem mem_hopsAt : (e, b) ∈ hopsAt near far filter edges a ↔
    e ∈ edges ∧ filter.admits e.kind = true ∧ near e = a ∧ far e = b :=
  Graph.mem_hopsAt_iff

/-- The edges of these hops, taken by themselves, give the same hops. -/
theorem hopsAt_eq_of_edgesAt {followed : List Edge}
    (h : edgesAt near followed a = (hopsAt near far filter edges a).map Prod.fst) :
    hopsAt near far filter followed a = hopsAt near far filter edges a := by
  unfold hopsAt
  rw [h, map_fst_hopsAt, List.filter_filter]
  simp only [Bool.and_self]

/-- Forward and backward hops lead from one end of each edge to the other. -/
theorem Graph.exists_hopsAt {direction : Direction}
    (hone : direction = .forward ∨ direction = .backward) : ∃ near far : Edge → String,
      ∀ g : Graph, g.Consistent → ∀ filter, g.hops direction filter =
        hopsAt near far filter g.edges := by
  rcases hone with rfl | rfl
  · refine ⟨Edge.source, Edge.target, fun g hg filter => funext fun a => ?_⟩
    show g.hopsOut filter a = _
    unfold hopsOut hopsAt
    rw [hg.outgoingEdges_eq]
  · refine ⟨Edge.target, Edge.source, fun g hg filter => funext fun a => ?_⟩
    show g.hopsIn filter a = _
    unfold hopsIn hopsAt
    rw [hg.incomingEdges_eq]

namespace SliceWalk

variable {hops hops' : String → List Hop} {o : SliceOptions} {origin n m : String}
  {ids : List String} {w t w' : SliceWalk} {rest : List Hop} {below : List (String × List Hop)}

/-! ## The order of followed edges -/

/-- At every node the edges followed so far are the first of its hops, and what an open node has
tried is followed. -/
structure Ordered (near far : Edge → String) (filter : KindFilter) (edges : List Edge)
    (w : SliceWalk) : Prop where
  followed_mem : ∀ e ∈ w.followed, e ∈ edges
  first : ∀ a, edgesAt near w.followed a <+: (hopsAt near far filter edges a).map Prod.fst
  tried : ∀ a todo, (a, todo) ∈ w.stack → ∃ done, hopsAt near far filter edges a = done ++ todo ∧
    ∀ x ∈ done, x.1 ∈ w.followed

/-- Among edges with unique ids, following an edge again does nothing. -/
theorem follow_cases (hids : (edges.map Edge.id).Nodup) {followed : List Edge}
    (hfollowed : ∀ x ∈ followed, x ∈ edges) (he : e ∈ edges) :
    e ∈ followed ∧ follow followed e = followed ∨
      e ∉ followed ∧ follow followed e = followed ++ [e] := by
  unfold follow
  split
  · rename_i hany
    obtain ⟨x, hx, hid⟩ := List.any_eq_true.mp hany
    have hxe := List.inj_on_of_nodup_map hids (hfollowed x hx) he (eq_of_beq hid)
    exact Or.inl ⟨hxe ▸ hx, rfl⟩
  · rename_i hany
    exact Or.inr ⟨fun hmem => hany (List.any_eq_true.mpr ⟨e, hmem, beq_self_eq_true _⟩), rfl⟩

theorem nodup_map_fst_hopsAt (hids : (edges.map Edge.id).Nodup) (a : String) :
    ((hopsAt near far filter edges a).map Prod.fst).Nodup := by
  rw [map_fst_hopsAt]
  exact (hids.of_map.filter _).filter _

namespace Ordered

/-- While the next hop is not followed, the edges followed from its node are those of the hops
before it. -/
theorem edgesAt_eq_tried (h : Ordered near far filter edges w) (hids : (edges.map Edge.id).Nodup)
    {done : List Hop} (hsplit : hopsAt near far filter edges n = done ++ (e, m) :: rest)
    (hdone : ∀ x ∈ done, x.1 ∈ w.followed) (hnew : e ∉ w.followed) :
    edgesAt near w.followed n = done.map Prod.fst := by
  have hfirst := h.first n
  have hnodup : ((hopsAt near far filter edges n).map Prod.fst).Nodup :=
    nodup_map_fst_hopsAt hids n
  rw [hsplit, List.map_append, List.map_cons] at hfirst hnodup
  refine eq_of_isPrefix_of_not_mem hnodup hfirst ?_ fun hmem => hnew (mem_edgesAt.mp hmem).1
  intro x hx
  obtain ⟨y, hy, rfl⟩ := List.mem_map.mp hx
  have hhop : y ∈ hopsAt near far filter edges n := hsplit ▸ List.mem_append_left _ hy
  exact mem_edgesAt.mpr ⟨hdone y hy, (mem_hopsAt.mp hhop).2.2.1⟩

theorem first_follow (h : Ordered near far filter edges w) (hids : (edges.map Edge.id).Nodup)
    {done : List Hop} (hsplit : hopsAt near far filter edges n = done ++ (e, m) :: rest)
    (hdone : ∀ x ∈ done, x.1 ∈ w.followed) (he : e ∈ edges) (hnear : near e = n) (a : String) :
    edgesAt near (follow w.followed e) a <+: (hopsAt near far filter edges a).map Prod.fst := by
  rcases follow_cases hids h.followed_mem he with ⟨-, heq⟩ | ⟨hnew, heq⟩
  · rw [heq]
    exact h.first a
  · rw [heq, edgesAt, List.filter_append]
    by_cases ha : near e = a
    · obtain rfl : n = a := hnear.symm.trans ha
      rw [List.filter_cons_of_pos (by simpa using ha), List.filter_nil]
      refine ⟨rest.map Prod.fst, ?_⟩
      show (edgesAt near w.followed n ++ [e]) ++ _ = _
      rw [h.edgesAt_eq_tried hids hsplit hdone hnew, hsplit, List.map_append, List.append_assoc]
      rfl
    · rw [List.filter_cons_of_neg (by simpa using ha), List.filter_nil, List.append_nil]
      exact h.first a

theorem take (h : Ordered near far filter edges w) (hids : (edges.map Edge.id).Nodup)
    (hstack : w.stack = (n, (e, m) :: rest) :: below) :
    Ordered near far filter edges (w.take n rest below e) := by
  obtain ⟨done, hsplit, hdone⟩ := h.tried n _ (hstack ▸ List.mem_cons_self)
  have hhop : (e, m) ∈ hopsAt near far filter edges n :=
    hsplit ▸ List.mem_append_right done List.mem_cons_self
  obtain ⟨he, -, hnear, -⟩ := mem_hopsAt.mp hhop
  have hfollow : ∀ x, x ∈ follow w.followed e ↔ x ∈ w.followed ∨ x = e := by
    intro x
    rcases follow_cases hids h.followed_mem he with ⟨hold, heq⟩ | ⟨-, heq⟩
    · rw [heq]
      exact ⟨Or.inl, fun hx => hx.elim id fun heq => heq ▸ hold⟩
    · rw [heq, List.mem_append, List.mem_singleton]
  refine ⟨fun x hx => ?_, h.first_follow hids hsplit hdone he hnear, fun a todo hframe => ?_⟩
  · rcases (hfollow x).mp hx with hx | rfl
    · exact h.followed_mem x hx
    · exact he
  · rcases List.mem_cons.mp hframe with heq | hbelow
    · obtain ⟨rfl, rfl⟩ := Prod.mk.inj heq
      refine ⟨done ++ [(e, m)], by rw [hsplit, List.append_assoc]; rfl, fun x hx => ?_⟩
      rcases List.mem_append.mp hx with hx | hx
      · exact (hfollow _).mpr (Or.inl (hdone x hx))
      · rw [List.mem_singleton.mp hx]
        exact (hfollow e).mpr (Or.inr rfl)
    · obtain ⟨done', hsplit', hdone'⟩ := h.tried a todo (hstack ▸ List.mem_cons_of_mem _ hbelow)
      exact ⟨done', hsplit', fun x hx => (hfollow _).mpr (Or.inl (hdone' x hx))⟩

theorem move (h : Ordered near far filter edges w) (hids : (edges.map Edge.id).Nodup)
    (hmove : Move (hopsAt near far filter edges) o w t) : Ordered near far filter edges t := by
  cases hmove with
  | close hstack _ =>
    exact ⟨h.followed_mem, h.first, fun a todo hframe =>
      h.tried a todo (hstack ▸ List.mem_cons_of_mem _ hframe)⟩
  | pass hstack _ _ _ => exact h.take hids hstack
  | enter hstack _ _ =>
    have htaken := h.take hids hstack
    refine ⟨htaken.followed_mem, htaken.first, fun a todo hframe => ?_⟩
    rcases List.mem_cons.mp hframe with heq | hframe
    · obtain ⟨rfl, rfl⟩ := Prod.mk.inj heq
      exact ⟨[], rfl, fun x hx => absurd hx List.not_mem_nil⟩
    · exact htaken.tried a todo hframe

theorem run (o : SliceOptions) (hids : (edges.map Edge.id).Nodup) (fuel : Nat)
    (origin : String) : Ordered near far filter edges
      (iterate (step (hopsAt near far filter edges) o) fuel
        (SliceWalk.start (hopsAt near far filter edges) origin)) := by
  refine iterate_induction (fun _ _ h hstep => h.move hids (move_of_step hstep)) fuel _ ?_
  refine ⟨fun e he => absurd he List.not_mem_nil, fun a => List.nil_prefix, fun a todo hframe => ?_⟩
  obtain ⟨rfl, rfl⟩ := Prod.mk.inj (List.mem_singleton.mp hframe)
  exact ⟨[], rfl, fun x hx => absurd hx List.not_mem_nil⟩

/-- A node all of whose hops were followed has them in their order. -/
theorem edgesAt_eq (h : Ordered near far filter edges w)
    (hids : (edges.map Edge.id).Nodup)
    (hall : ∀ x ∈ hopsAt near far filter edges a, x.1.id ∈ w.followed.map Edge.id) :
    edgesAt near w.followed a = (hopsAt near far filter edges a).map Prod.fst := by
  refine eq_of_isPrefix_of_subset (nodup_map_fst_hopsAt hids a) (h.first a) fun x hx => ?_
  obtain ⟨y, hy, rfl⟩ := List.mem_map.mp hx
  obtain ⟨hmem, -, hnear, -⟩ := mem_hopsAt.mp hy
  obtain ⟨z, hz, hid⟩ := List.mem_map.mp (hall y hy)
  have hzy := List.inj_on_of_nodup_map hids (h.followed_mem z hz) hmem hid
  exact mem_edgesAt.mpr ⟨hzy ▸ hz, hnear⟩

end Ordered

/-! ## Walks that differ where they cannot go on -/

/-- The same nodes are open. What they have left to try matters only where they may be left. -/
def Alike (o : SliceOptions) : List (String × List Hop) → List (String × List Hop) → Prop
  | [], [] => True
  | (n, todo) :: below, (n', todo') :: below' =>
    n' = n ∧ (o.opens below.length = true → todo' = todo) ∧ Alike o below below'
  | _, _ => False

/-- Two walks that have done the same and are going to do the same. -/
structure InStep (o : SliceOptions) (w w' : SliceWalk) : Prop where
  stack : Alike o w.stack w'.stack
  depths : w'.depths = w.depths
  order : w'.order = w.order
  followed : w'.followed = w.followed

theorem InStep.depth (h : InStep o w w') (n : String) : w'.depth n = w.depth n := by
  unfold SliceWalk.depth
  rw [h.depths]

/-- Walks in step stay in step when their hops agree at every node that may be left at its depth. -/
theorem InStep.step (h : InStep o w w') (hw : Invariant hops o origin ids w)
    (hagree : ∀ a k, Walk (Next hops) origin a k → o.opens k = true → hops' a = hops a) :
    Option.Rel (InStep o) (step hops o w) (step hops' o w') := by
  have halike := h.stack
  unfold SliceWalk.step
  cases hstack : w.stack with
  | nil =>
    rw [hstack] at halike
    cases hstack' : w'.stack with
    | nil => exact .none
    | cons _ _ =>
      rw [hstack'] at halike
      exact halike.elim
  | cons frame below =>
    obtain ⟨n, todo⟩ := frame
    rw [hstack] at halike
    cases hstack' : w'.stack with
    | nil =>
      rw [hstack'] at halike
      exact halike.elim
    | cons frame' below' =>
      obtain ⟨n', todo'⟩ := frame'
      rw [hstack'] at halike
      obtain ⟨rfl, htodo, hbelow⟩ := halike
      have hdepth := hw.depth_deepest hstack
      simp only [h.depth, h.depths, h.order, h.followed, hdepth]
      cases hopens : o.opens below.length with
      | false => exact .some ⟨hbelow, rfl, rfl, rfl⟩
      | true =>
        obtain rfl := htodo hopens
        cases todo' with
        | nil => exact .some ⟨hbelow, rfl, rfl, rfl⟩
        | cons hop rest =>
          obtain ⟨e, m⟩ := hop
          have hrest : Alike o ((n', rest) :: below) ((n', rest) :: below') :=
            ⟨rfl, fun _ => rfl, hbelow⟩
          -- the node that the hop leads to is one step further from the start
          have hm : Walk (Next hops) origin m (below.length + 1) :=
            (hw.walk n' _ (hw.get?_deepest hstack)).tail ⟨e, hw.next_mem hstack⟩
          have henter : Alike o ((m, hops m) :: (n', rest) :: below)
              ((m, hops' m) :: (n', rest) :: below') :=
            ⟨rfl, fun hopens' => hagree m _ hm hopens', hrest⟩
          dsimp only
          cases w.depths.get? m with
          | none => exact .some ⟨henter, rfl, rfl, rfl⟩
          | some known =>
            dsimp only
            split
            · exact .some ⟨henter, rfl, rfl, rfl⟩
            · exact .some ⟨hrest, rfl, rfl, rfl⟩

theorem InStep.run (hclosed : ∀ a ∈ ids, ∀ x ∈ hops a, x.2 ∈ ids) (horigin : origin ∈ ids)
    (hagree : ∀ a k, Walk (Next hops) origin a k → o.opens k = true → hops' a = hops a)
    (fuel : Nat) :
    InStep o (iterate (SliceWalk.step hops o) fuel (start hops origin))
      (iterate (SliceWalk.step hops' o) fuel (start hops' origin)) :=
  iterate_related (P := Invariant hops o origin ids)
    (fun _ _ hw hstep => hw.move hclosed (move_of_step hstep))
    (fun _ _ hw h => h.step hw hagree) fuel _ _ (.start horigin)
    ⟨⟨rfl, fun hopens => hagree origin 0 .refl hopens, trivial⟩, rfl, rfl, rfl⟩

theorem InStep.stack_eq_nil (h : InStep o w w') (hend : w.stack = []) : w'.stack = [] := by
  have halike := h.stack
  rw [hend] at halike
  cases hstack : w'.stack with
  | nil => rfl
  | cons _ _ =>
    rw [hstack] at halike
    exact halike.elim

end SliceWalk

/-! ## The slice of a slice -/

namespace Graph

variable {g h : Graph} {direction : Direction} {o : SliceOptions} {start t : String}

namespace Consistent

/-- Walks through two graphs collect the same where the hops agree at every node that may be left
at its depth. -/
theorem sliceWalk_eq (hg : g.Consistent) (hh : h.Consistent) (ht : t ∈ g.nodeIds)
    (ht' : t ∈ h.nodeIds) (hagree : ∀ a k,
      Walk (SliceWalk.Next (g.hops direction o.kinds)) t a k → o.opens k = true →
        h.hops direction o.kinds a = g.hops direction o.kinds a) :
    (h.sliceWalk t direction o).order = (g.sliceWalk t direction o).order ∧
      (h.sliceWalk t direction o).followed = (g.sliceWalk t direction o).followed := by
  have hstep := SliceWalk.InStep.run (hg.hops_mem direction o.kinds) ht hagree g.sliceBudget
  -- the walk through `h` has ended with the other one, so its own bound changes nothing
  have hend := hstep.stack_eq_nil (hg.sliceWalk_stack ht direction o)
  have hsame := iterate_eq_of_stopped
    (SliceWalk.step_of_stack_eq_nil (hh.sliceWalk_stack ht' direction o))
    (SliceWalk.step_of_stack_eq_nil hend)
  exact ⟨(congrArg SliceWalk.order hsame).trans hstep.order,
    (congrArg SliceWalk.followed hsame).trans hstep.followed⟩

/-- **Order within a slice.** A node of the graph that the walk of a slice could leave has the same
hops in the slice, in the same order. -/
theorem hops_eq_of_edges (hg : g.Consistent) (hh : h.Consistent)
    (hone : direction = .forward ∨ direction = .backward) (hstart : start ∈ g.nodeIds)
    (hedges : h.edges = (g.sliceWalk start direction o).followed) {k : Nat}
    (hwalk : Walk (SliceWalk.Next (g.hops direction o.kinds)) start a k)
    (hopens : o.opens k = true) :
    h.hops direction o.kinds a = g.hops direction o.kinds a := by
  obtain ⟨near, far, hhops⟩ := exists_hopsAt hone
  have hordered : SliceWalk.Ordered near far o.kinds g.edges (g.sliceWalk start direction o) := by
    unfold sliceWalk
    rw [hhops g hg]
    exact .run o hg.edgeIds_nodup g.sliceBudget start
  rw [hhops g hg, hhops h hh, hedges]
  refine hopsAt_eq_of_edgesAt (hordered.edgesAt_eq hg.edgeIds_nodup fun x hx => ?_)
  rw [← hhops g hg] at hx
  exact (hg.mem_sliceWalk_followed_iff hstart).mpr ⟨x.1, a, k, x.2, hwalk, hopens, hx, rfl⟩

/-- The nodes of a slice are found in it with the edges of the slice listed at them. -/
theorem node?_of_nodes (hg : g.Consistent) (hh : h.Consistent) {ids : List String}
    (hids : ∀ id ∈ ids, id ∈ g.nodeIds)
    (hnodes : h.nodes = (ids.filterMap g.node?).map (Node.linked h.edges)) (ha : a ∈ ids) :
    h.node? a = (g.node? a).map (Node.linked h.edges) := by
  obtain ⟨n, hn, rfl⟩ := List.mem_map.mp (hids a ha)
  have hfind : g.node? n.id = some n := hg.node?_eq_some_iff.mpr ⟨hn, rfl⟩
  rw [hfind, Option.map_some, hh.node?_eq_some_iff, hnodes]
  exact ⟨List.mem_map_of_mem (List.mem_filterMap.mpr ⟨n.id, ha, hfind⟩), rfl⟩

/-- Slicing a slice is slicing the graph, if the second walk leaves only nodes that the first could
leave. -/
theorem slice_slice (hg : g.Consistent) {v : Value}
    (hdirection : Direction.ofValue v = .ok direction)
    (hone : direction = .forward ∨ direction = .backward) (hstart : start ∈ g.nodeIds)
    (hpart : g.slice start v o = .ok h) (ht : t ∈ h.nodeIds)
    (hwithin : ∀ a k, Walk (SliceWalk.Next (g.hops direction o.kinds)) t a k → o.opens k = true →
      ∃ j, Walk (SliceWalk.Next (g.hops direction o.kinds)) start a j ∧ o.opens j = true) :
    h.slice t v o = g.slice t v o := by
  have hh : h.Consistent := Consistent.slice hpart
  have hfrom : ∀ {x : Graph} {s : String}, s ∈ x.nodeIds →
      x.slice s v o = x.sliceFrom s direction o := by
    intro x s hs
    rw [slice_of_mem hs, hdirection]
    rfl
  have hfirst := hg.sliceFrom_eq hstart direction o
  rw [← hfrom hstart, hpart] at hfirst
  replace hfirst := Except.ok.inj hfirst
  have hconfig : h.config = g.config := by rw [hfirst]
  have hedges : h.edges = (g.sliceWalk start direction o).followed := by rw [hfirst]
  have hnodes : h.nodes = ((g.sliceWalk start direction o).order.filterMap g.node?).map
      (Node.linked h.edges) := by
    rw [hfirst]
  have horder := (hg.sliceWalk_invariant hstart direction o).order_mem
  have hids : h.nodeIds = (g.sliceWalk start direction o).order := by
    rw [nodeIds, hnodes, List.map_map]
    exact hg.map_id_filterMap_node? horder
  have ht' : t ∈ g.nodeIds := horder t (hids ▸ ht)
  obtain ⟨hsame, hfollowed⟩ := hg.sliceWalk_eq hh ht' ht fun a k hwalk hopens => by
    obtain ⟨j, hwalk', hopens'⟩ := hwithin a k hwalk hopens
    exact hg.hops_eq_of_edges hh hone hstart hedges hwalk' hopens'
  have hlinked : ((h.sliceWalk t direction o).order.filterMap h.node?).map
        (Node.linked (g.sliceWalk t direction o).followed) =
      ((g.sliceWalk t direction o).order.filterMap g.node?).map
        (Node.linked (g.sliceWalk t direction o).followed) := by
    have hfind : ∀ b ∈ (h.sliceWalk t direction o).order,
        h.node? b = (g.node? b).map (Node.linked h.edges) := fun b hb =>
      hg.node?_of_nodes hh horder hnodes
        (hids ▸ (hh.sliceWalk_invariant ht direction o).order_mem b hb)
    rw [List.filterMap_congr hfind, hsame, ← List.map_filterMap, List.map_map]
    rfl
  rw [hfrom ht, hfrom ht', hh.sliceFrom_eq ht, hg.sliceFrom_eq ht', hconfig, hfollowed, hlinked]

end Consistent

/-- **Slices of slices.** A slice in one direction, sliced once more from its start under the same
options, is that slice: the same nodes and edges in the same order, with the same lists at the
nodes, the same attributes and settings. Without a bound on the depth, slicing it from any of its
nodes gives what slicing the graph from that node gives. -/
theorem slice_of_slice (hg : g.Reachable) (hstart : start ∈ g.nodeIds) {v : Value}
    (hdirection : Direction.ofValue v = .ok direction)
    (hone : direction = .forward ∨ direction = .backward) (o : SliceOptions) :
    ∃ part, g.slice start v o = .ok part ∧ part.slice start v o = .ok part ∧
      (o.maxDepth = none → ∀ t ∈ part.nodeIds, ∃ piece,
        g.slice t v o = .ok piece ∧ part.slice t v o = .ok piece) := by
  have hc := hg.consistent
  obtain ⟨part, hpart, -, hids, -⟩ := hc.exists_slice_of_walk hstart hdirection o
  have hstart' : start ∈ part.nodeIds := by
    rw [hids, hc.mem_sliceWalk_order_iff hstart]
    exact ⟨0, .refl, fun d _ => Nat.zero_le d⟩
  refine ⟨part, hpart, ?_, fun hdepth t ht => ?_⟩
  · rw [hc.slice_slice hdirection hone hstart hpart hstart' fun a k hwalk hopens =>
      ⟨k, hwalk, hopens⟩]
    exact hpart
  · have hopens : ∀ k, o.opens k = true := fun k =>
      SliceWalk.opens_iff.mpr (by simp [hdepth])
    obtain ⟨j, hwalk, -⟩ := (hc.mem_sliceWalk_order_iff hstart).mp (hids ▸ ht)
    have ht' : t ∈ g.nodeIds :=
      (hc.sliceWalk_invariant hstart direction o).order_mem t (hids ▸ ht)
    obtain ⟨piece, hpiece, -⟩ := hc.exists_slice_of_walk ht' hdirection o
    refine ⟨piece, hpiece, ?_⟩
    rw [hc.slice_slice hdirection hone hstart hpart ht fun a k hwalk' _ =>
      ⟨_, hwalk.trans hwalk', hopens _⟩]
    exact hpiece

/-- Three steps from the node `f` of `knots`. The walk comes to `e` at the bound first, and opens it
again by a shorter way. -/
theorem slice_of_slice_knots :
    knots.Reachable ∧ "f" ∈ knots.nodeIds ∧ Direction.ofValue (.str "forward") = .ok .forward ∧
      ∃ part, knots.slice "f" (.str "forward") { maxDepth := some 3 } = .ok part ∧
        part.slice "f" (.str "forward") { maxDepth := some 3 } = .ok part ∧
        part.edgeIds = ["edge_1", "edge_5", "edge_2", "edge_3", "edge_6", "edge_7", "edge_8",
          "edge_10", "edge_9"] := by
  have hf : "f" ∈ knots.nodeIds := by decide
  have hforward : Direction.ofValue (.str "forward") = .ok .forward := rfl
  obtain ⟨part, hpart, hagain, -⟩ :=
    slice_of_slice knots_reachable hf hforward (.inl rfl) { maxDepth := some 3 }
  have hfound : (knots.slice "f" (.str "forward") { maxDepth := some 3 }).map Graph.edgeIds =
      .ok ["edge_1", "edge_5", "edge_2", "edge_3", "edge_6", "edge_7", "edge_8", "edge_10",
        "edge_9"] := rfl
  rw [hpart] at hfound
  exact ⟨knots_reachable, hf, hforward, part, hpart, hagain, Except.ok.inj hfound⟩

end Graph

end CodeAtlas
