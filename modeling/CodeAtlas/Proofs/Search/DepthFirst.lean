import CodeAtlas.Proofs.Search.Reslicing

/-!
# Slices and recursive search

The walk of a slice keeps a stack of open nodes, each with the hops that are still to be tried.
Without a depth bound this is a depth-first search: `Tour.explore` is its recursive form, which has
no stack of its own. Where the search calls itself for a node, the walk puts this node on its stack
and comes back to the hops below it once the node is closed, so that both meet nodes and edges in
the same order.
-/

namespace CodeAtlas

/-- What a recursive search has met so far. -/
structure Tour where
  /-- Nodes in the order in which they were entered. -/
  order : List String
  /-- Edges in the order in which they were examined, each time anew. -/
  examined : List Edge

namespace Tour

def examine (t : Tour) (e : Edge) : Tour :=
  { t with examined := t.examined ++ [e] }

def enter (t : Tour) (id : String) : Tour :=
  { t with order := t.order ++ [id] }

/-- How many of `ids` are still to be entered. -/
def unentered (ids : List String) (t : Tour) : Nat :=
  ids.countP (· ∉ t.order)

theorem unentered_lt {ids : List String} {m : String} (hm : m ∈ ids) {t u : Tour}
    (hnew : m ∉ t.order) (hsub : (t.enter m).order ⊆ u.order) :
    u.unentered ids < t.unentered ids := by
  have hold : ∀ a, a ∉ u.order → a ∉ t.order :=
    fun a ha hat => ha (hsub (List.mem_append_left [m] hat))
  have hentered : m ∈ u.order := hsub (List.mem_append_right _ (List.mem_singleton.mpr rfl))
  obtain ⟨front, rest, rfl⟩ := List.append_of_mem hm
  have hfront : front.countP (· ∉ u.order) ≤ front.countP (· ∉ t.order) :=
    List.countP_mono_left fun a _ ha => decide_eq_true (hold a (of_decide_eq_true ha))
  have hrest : rest.countP (· ∉ u.order) ≤ rest.countP (· ∉ t.order) :=
    List.countP_mono_left fun a _ ha => decide_eq_true (hold a (of_decide_eq_true ha))
  simp only [unentered, List.countP_append, List.countP_cons, hnew, hentered, not_true_eq_false,
    not_false_eq_true, decide_true, decide_false, if_true, Bool.false_eq_true, if_false]
  omega

/-- **The recursive search.** The hops are tried in order. The edge of each is examined, and if the
hop leads to a node that was not entered yet, this node is entered and the hops at it are tried
before the next one. All nodes are among `ids`, so there are fewer left to enter at each level. -/
def explore (hops : String → List Hop) {ids : List String}
    (hids : ∀ a, ∀ hop ∈ hops a, hop.2 ∈ ids) (todo : List Hop)
    (htodo : ∀ hop ∈ todo, hop.2 ∈ ids) (t : Tour) : { u : Tour // t.order ⊆ u.order } :=
  match todo, htodo with
  | [], _ => ⟨t, List.Subset.refl _⟩
  | (e, m) :: rest, htodo =>
    have hrest := (List.forall_mem_cons.mp htodo).2
    if _hm : m ∈ t.order then
      let after := explore hops hids rest hrest (t.examine e)
      ⟨after, after.2⟩
    else
      let below := explore hops hids (hops m) (hids m) ((t.examine e).enter m)
      let after := explore hops hids rest hrest below
      ⟨after, fun _ ha => after.2 (below.2 (List.mem_append_left [m] ha))⟩
termination_by (t.unentered ids, todo.length)
decreasing_by
  · exact Prod.Lex.right _ (Nat.lt_succ_self _)
  · exact Prod.Lex.left _ _
      (unentered_lt (htodo (e, m) List.mem_cons_self) _hm (List.Subset.refl _))
  · exact Prod.Lex.left _ _ (unentered_lt (htodo (e, m) List.mem_cons_self) _hm below.2)

section Explore

variable {hops : String → List Hop} {ids : List String} {hids : ∀ a, ∀ hop ∈ hops a, hop.2 ∈ ids}
  {e : Edge} {m : String} {rest : List Hop} {htodo : ∀ hop ∈ (e, m) :: rest, hop.2 ∈ ids} {t : Tour}

theorem explore_nil {htodo : ∀ hop ∈ ([] : List Hop), hop.2 ∈ ids} :
    (explore hops hids [] htodo t).1 = t := by
  rw [explore]

theorem explore_of_mem (hm : m ∈ t.order) : (explore hops hids ((e, m) :: rest) htodo t).1 =
    (explore hops hids rest (List.forall_mem_cons.mp htodo).2 (t.examine e)).1 := by
  rw [explore, dif_pos hm]

theorem explore_of_not_mem (hm : m ∉ t.order) : (explore hops hids ((e, m) :: rest) htodo t).1 =
    (explore hops hids rest (List.forall_mem_cons.mp htodo).2
      (explore hops hids (hops m) (hids m) ((t.examine e).enter m)).1).1 := by
  rw [explore, dif_neg hm]

end Explore

end Tour

namespace SliceWalk

variable {hops : String → List Hop} {o : SliceOptions} {w : SliceWalk}
  {below : List (String × List Hop)} {n m : String} {rest : List Hop} {e : Edge} {t : Tour}

/-! ## Steps of an unbounded walk -/

theorem step_close (hstack : w.stack = (n, []) :: below) :
    step hops o w = some { w with stack := below } := by
  unfold step
  rw [hstack]
  dsimp only
  cases o.opens (w.depth n) <;> rfl

theorem step_pass (ho : o.maxDepth = none) (hstack : w.stack = (n, (e, m) :: rest) :: below)
    (hm : (w.depths.get? m).isSome = true) : step hops o w = some (w.take n rest below e) := by
  obtain ⟨k, hk⟩ := Option.isSome_iff_exists.mp hm
  have hopens : o.opens (w.depth n) = true := by rw [SliceOptions.opens, ho]
  unfold step
  rw [hstack]
  simp only [hopens, hk, ho]
  rfl

theorem step_enter (ho : o.maxDepth = none) (hstack : w.stack = (n, (e, m) :: rest) :: below)
    (hm : w.depths.get? m = none) : step hops o w = some
      ({ w.take n rest below e with order := w.order ++ [m] }.enter hops m (w.depth n + 1)) := by
  have hopens : o.opens (w.depth n) = true := by rw [SliceOptions.opens, ho]
  unfold step
  rw [hstack]
  simp only [hopens, hm]
  rfl

/-! ## Walk and tour -/

theorem map_id_follow (followed : List Edge) (e : Edge) :
    (follow followed e).map Edge.id =
      if e.id ∈ followed.map Edge.id then followed.map Edge.id
      else followed.map Edge.id ++ [e.id] := by
  have hany : followed.any (·.id == e.id) = true ↔ e.id ∈ followed.map Edge.id := by
    simp [List.mem_map]
  unfold follow
  simp only [hany, apply_ite (List.map Edge.id), List.map_append, List.map_singleton]

/-- The walk has met what the tour has met. It notes an edge only when the edge is examined
first. -/
structure Mirrors (w : SliceWalk) (t : Tour) : Prop where
  order_eq : w.order = t.order
  known_iff : ∀ a, (w.depths.get? a).isSome = true ↔ a ∈ t.order
  followed_eq : w.followed.map Edge.id = distinct (t.examined.map Edge.id)

theorem mirrors_start (hops : String → List Hop) (id : String) :
    (start hops id).Mirrors { order := [id], examined := [] } where
  order_eq := rfl
  known_iff := by
    intro a
    rw [Option.isSome_iff_exists, List.mem_singleton]
    constructor
    · rintro ⟨k, hget⟩
      exact (get?_start.mp hget).1
    · rintro rfl
      exact ⟨0, get?_start.mpr ⟨rfl, rfl⟩⟩
  followed_eq := rfl

namespace Mirrors

theorem close (h : w.Mirrors t) (below : List (String × List Hop)) :
    Mirrors { w with stack := below } t :=
  ⟨h.order_eq, h.known_iff, h.followed_eq⟩

theorem take (h : w.Mirrors t) (n : String) (rest : List Hop) (below : List (String × List Hop))
    (e : Edge) : (w.take n rest below e).Mirrors (t.examine e) where
  order_eq := h.order_eq
  known_iff := h.known_iff
  followed_eq := by
    show (follow w.followed e).map Edge.id = distinct ((t.examined ++ [e]).map Edge.id)
    rw [map_id_follow, List.map_append, List.map_singleton, distinct_append_singleton,
      h.followed_eq]
    simp only [mem_distinct]

theorem enter (h : w.Mirrors t) (m : String) (depth : Nat) :
    ({ w with order := w.order ++ [m] }.enter hops m depth).Mirrors (t.enter m) where
  order_eq := congrArg (· ++ [m]) h.order_eq
  known_iff := by
    intro a
    show ((w.depths.set m depth).get? a).isSome = true ↔ a ∈ t.order ++ [m]
    rw [Assoc.get?_set, List.mem_append, List.mem_singleton]
    by_cases ha : a = m
    · simp [ha]
    · simp [ha, h.known_iff a]
  followed_eq := h.followed_eq

/-- **The walk runs the search.** From the time it first tries the hops of an open node until it
closes this node, the walk meets what the search meets when it is called for these hops. -/
theorem run_explore {ids : List String} (hids : ∀ a, ∀ hop ∈ hops a, hop.2 ∈ ids)
    (ho : o.maxDepth = none) {todo : List Hop} (htodo : ∀ hop ∈ todo, hop.2 ∈ ids) {t : Tour}
    {w : SliceWalk} (h : w.Mirrors t) {n : String} {below : List (String × List Hop)}
    (hstack : w.stack = (n, todo) :: below) :
    ∃ k, (iterate (step hops o) k w).stack = below ∧
      (iterate (step hops o) k w).Mirrors (Tour.explore hops hids todo htodo t).1 := by
  induction todo, htodo, t using Tour.explore.induct hops hids generalizing w n below with
  | case1 t htodo =>
    refine ⟨1, ?_⟩
    rw [iterate, step_close hstack, Tour.explore_nil]
    exact ⟨rfl, h.close below⟩
  | case2 t e m rest htodo hrest hm _ ih =>
    obtain ⟨k, hend, hmirrors⟩ := ih (h.take n rest below e) rfl
    refine ⟨k + 1, ?_⟩
    rw [iterate, step_pass ho hstack ((h.known_iff m).mpr hm), Tour.explore_of_mem hm]
    exact ⟨hend, hmirrors⟩
  | case3 t e m rest htodo hrest hm _ _ ihBelow ihAfter =>
    have hnew : w.depths.get? m = none := by
      rw [← Option.not_isSome_iff_eq_none, h.known_iff m]
      exact hm
    -- the call for `m` runs until `m` is closed, and then the rest of the hops are tried
    obtain ⟨j, hback, hmirrors⟩ :=
      ihBelow ((h.take n rest below e).enter m (w.depth n + 1)) rfl
    obtain ⟨k, hend, hmirrors⟩ := ihAfter hmirrors hback
    refine ⟨j + k + 1, ?_⟩
    rw [iterate, step_enter ho hstack hnew, Tour.explore_of_not_mem hm]
    dsimp only
    rw [iterate_add]
    exact ⟨hend, hmirrors⟩

end Mirrors

end SliceWalk

/-! ## The search through a graph -/

/-- The hops from a node, read off the edges in their order: along the edges that leave it, against
the edges that enter it, or first along the ones and then against the others. -/
def Direction.hopsAmong (direction : Direction) (filter : KindFilter) (edges : List Edge)
    (a : String) : List Hop :=
  match direction with
  | .forward => hopsAt Edge.source Edge.target filter edges a
  | .backward => hopsAt Edge.target Edge.source filter edges a
  | .bidirectional =>
    hopsAt Edge.source Edge.target filter edges a ++ hopsAt Edge.target Edge.source filter edges a

/-- The nodes that edges join. -/
def endsOf (edges : List Edge) : List String :=
  edges.flatMap fun e => [e.source, e.target]

theorem Direction.hopsAmong_mem (direction : Direction) (filter : KindFilter) (edges : List Edge)
    (a : String) : ∀ hop ∈ direction.hopsAmong filter edges a, hop.2 ∈ endsOf edges := by
  have hout : ∀ hop ∈ hopsAt Edge.source Edge.target filter edges a, hop.2 ∈ endsOf edges := by
    rintro ⟨e, b⟩ hhop
    obtain ⟨he, -, -, rfl⟩ := mem_hopsAt.mp hhop
    exact List.mem_flatMap.mpr ⟨e, he, List.mem_cons_of_mem _ List.mem_cons_self⟩
  have hin : ∀ hop ∈ hopsAt Edge.target Edge.source filter edges a, hop.2 ∈ endsOf edges := by
    rintro ⟨e, b⟩ hhop
    obtain ⟨he, -, -, rfl⟩ := mem_hopsAt.mp hhop
    exact List.mem_flatMap.mpr ⟨e, he, List.mem_cons_self⟩
  cases direction with
  | forward => exact hout
  | backward => exact hin
  | bidirectional => exact List.forall_mem_append.mpr ⟨hout, hin⟩

namespace Graph

variable {g : Graph} {start : String}

/-- The recursive search from `start`, which is entered first. -/
def tour (g : Graph) (direction : Direction) (filter : KindFilter) (start : String) : Tour :=
  (Tour.explore (direction.hopsAmong filter g.edges) (direction.hopsAmong_mem filter g.edges)
    (direction.hopsAmong filter g.edges start) (direction.hopsAmong_mem filter g.edges start)
    { order := [start], examined := [] }).1

namespace Consistent

variable (hg : g.Consistent)

include hg

/-- The lists at a node hold its edges in the order of the edges. -/
theorem hops_eq_hopsAmong (direction : Direction) (filter : KindFilter) :
    g.hops direction filter = direction.hopsAmong filter g.edges := by
  funext a
  unfold hops hopsOut hopsIn
  rw [hg.outgoingEdges_eq, hg.incomingEdges_eq]
  rfl

/-- An unbounded walk ends where the search ends. -/
theorem sliceWalk_mirrors (hstart : start ∈ g.nodeIds) (direction : Direction)
    (filter : KindFilter) :
    (g.sliceWalk start direction { kinds := filter }).Mirrors (g.tour direction filter start) := by
  have hended := hg.sliceWalk_stack hstart direction { kinds := filter }
  unfold sliceWalk tour at *
  simp only [hg.hops_eq_hopsAmong] at *
  obtain ⟨k, hstack, hmirrors⟩ :=
    (SliceWalk.mirrors_start (direction.hopsAmong filter g.edges) start).run_explore
      (direction.hopsAmong_mem filter g.edges) (o := { kinds := filter }) rfl
      (direction.hopsAmong_mem filter g.edges start) rfl
  rw [iterate_eq_of_stopped (SliceWalk.step_of_stack_eq_nil hended)
    (SliceWalk.step_of_stack_eq_nil hstack)]
  exact hmirrors

end Consistent

/-- **Slices are depth-first searches.** From every node of a reachable graph, in every direction
and over any kinds of edges, a slice without a depth bound has its nodes in the order in which the
recursive search enters them. Its edges stand in the order in which the search examines them first,
although an edge may be examined again, also from its other end. -/
theorem slice_depth_first (hg : g.Reachable) (hstart : start ∈ g.nodeIds) (direction : Direction)
    (filter : KindFilter) :
    ∃ part, g.slice start (.str (Spelled.text direction)) { kinds := filter } = .ok part ∧
      part.nodeIds = (g.tour direction filter start).order ∧
      part.edgeIds = distinct ((g.tour direction filter start).examined.map Edge.id) ∧
      ∀ e ∈ part.edges, e ∈ g.edges := by
  have hc := hg.consistent
  have hdirection : Direction.ofValue (.str (Spelled.text direction)) = .ok direction := by
    cases direction <;> rfl
  have hmirrors := hc.sliceWalk_mirrors hstart direction filter
  obtain ⟨part, hpart, -, hids, hedges⟩ :=
    hc.exists_slice_of_walk hstart hdirection { kinds := filter }
  refine ⟨part, hpart, hids.trans hmirrors.order_eq, ?_, fun e he => ?_⟩
  · rw [edgeIds, hedges, hmirrors.followed_eq]
  · rw [hedges] at he
    obtain ⟨a, -, b, -, hhop⟩ :=
      (hc.sliceWalk_invariant hstart direction { kinds := filter }).followed_from e he
    exact (hc.mem_hops_iff.mp hhop).1

/-- In both directions from `d`, the search goes on from `f` before it comes back to the other edges
at `d`; the self-loop there and the edge to `e` are examined from both their ends and noted once. -/
theorem slice_depth_first_knots :
    knots.Reachable ∧ "d" ∈ knots.nodeIds ∧
      (knots.tour .bidirectional none "d").order = ["d", "e", "f", "c", "a", "b"] ∧
      distinct ((knots.tour .bidirectional none "d").examined.map Edge.id) =
        ["edge_7", "edge_8", "edge_9", "edge_10", "edge_1", "edge_5", "edge_2", "edge_4", "edge_3",
          "edge_6"] := by
  have hd : "d" ∈ knots.nodeIds := by decide
  obtain ⟨part, hpart, horder, hedges, -⟩ :=
    slice_depth_first knots_reachable hd .bidirectional none
  have hfound : (knots.slice "d" (.str "bidirectional") {}).map (fun h => (h.nodeIds, h.edgeIds)) =
      .ok (["d", "e", "f", "c", "a", "b"], ["edge_7", "edge_8", "edge_9", "edge_10", "edge_1",
        "edge_5", "edge_2", "edge_4", "edge_3", "edge_6"]) := rfl
  rw [show knots.slice "d" (.str "bidirectional") {} = .ok part from hpart] at hfound
  obtain ⟨hnodeIds, hedgeIds⟩ := Prod.mk.inj (Except.ok.inj hfound)
  exact ⟨knots_reachable, hd, horder.symm.trans hnodeIds, hedges.symm.trans hedgeIds⟩

end Graph

end CodeAtlas
