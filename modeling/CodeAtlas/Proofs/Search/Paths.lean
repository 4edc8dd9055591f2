import CodeAtlas.Search.Paths
import CodeAtlas.Proofs.Graph.Adjacency
import CodeAtlas.Proofs.Graph.Walks
import CodeAtlas.Proofs.Search.Backtracking
import CodeAtlas.Proofs.Search.Slices

/-!
# Simple paths

The path search is a backtracking search. What it reports below a trail are the simple paths that go
on from this trail and end at the finish, so that the search from a node returns exactly the simple
paths between its two nodes that keep within the limit.
-/

namespace CodeAtlas

namespace PathSearch

variable {successors : String → List String} {finish : String} {limit : Option Int}

/-- The plan of a path search: a path is noted when the finish comes next, and every other node that
is not on the trail is entered as long as the finish may still be in reach. -/
def plan (successors : String → List String) (finish : String) (limit : Option Int) : Strategy where
  successors := successors
  notes path m :=
    if m ∉ path ∧ m = finish ∧ within limit path.length then [(m :: path).reverse] else []
  enters path m := m ∉ path ∧ m ≠ finish ∧ within limit (path.length + 1)

theorem backtracks : Backtracks (step successors finish limit) PathSearch.mk
    (fun found p => p :: found) (plan successors finish limit) where
  stop := fun _ _ => rfl
  leave := by
    intro below n path out
    simp [step, Trail.leave]
  look := by
    intro m rest below path out
    by_cases hm : m ∈ path
    · simp [step, plan, hm]
    · by_cases hfinish : m = finish
      · subst hfinish
        by_cases hlimit : within limit path.length = true
        · simp [step, plan, hm, hlimit]
        · simp [step, plan, hm, hlimit]
      · by_cases hlimit : within limit (path.length + 1) = true
        · simp [step, plan, hm, hfinish, hlimit, Trail.enter]
        · simp [step, plan, hm, hfinish, hlimit]

theorem reads : Backtracks.Reads PathSearch.mk PathSearch.trail :=
  ⟨fun _ _ => rfl, fun s => ⟨s.found, rfl⟩⟩

theorem mem_notes_iff {path p : List String} {m : String} :
    p ∈ (plan successors finish limit).notes path m ↔
      (m ∉ path ∧ m = finish ∧ within limit path.length = true) ∧ p = (m :: path).reverse := by
  show p ∈ (if _ then [(m :: path).reverse] else []) ↔ _
  rw [List.mem_ite_nil_right, List.mem_singleton]

theorem enters_iff {path : List String} {m : String} :
    (plan successors finish limit).enters path m = true ↔
      m ∉ path ∧ m ≠ finish ∧ within limit (path.length + 1) = true := by
  simp [plan]

/-- `q` leads from `n` on to the finish, over nodes that are not on the trail to `n`. -/
structure GoesOn (successors : String → List String) (finish : String) (limit : Option Int)
    (trail : List String) (n : String) (q : List String) : Prop where
  chain : (n :: q).IsChain fun a b => b ∈ successors a
  last_eq : q.getLast? = some finish
  nodup : q.Nodup
  new : ∀ x ∈ q, x ∉ n :: trail
  within_limit : within limit (trail.length + q.length) = true

theorem goesOn_singleton {trail : List String} {n m : String} :
    GoesOn successors finish limit trail n [m] ↔ m ∈ successors n ∧ m ∉ n :: trail ∧
      m = finish ∧ within limit (trail.length + 1) = true := by
  constructor
  · intro h
    obtain ⟨hnm, -⟩ := List.isChain_cons_cons.mp h.chain
    exact ⟨hnm, h.new m List.mem_cons_self, by simpa using h.last_eq, h.within_limit⟩
  · rintro ⟨hnm, hnew, rfl, hlimit⟩
    exact ⟨List.isChain_cons_cons.mpr ⟨hnm, List.isChain_singleton m⟩, rfl,
      List.nodup_singleton m, by simpa using hnew, hlimit⟩

/-- Going on over `m` is going to `m`, which is not the finish, and on from there. -/
theorem goesOn_cons {trail : List String} {n m : String} {q : List String} (hq : q ≠ []) :
    GoesOn successors finish limit trail n (m :: q) ↔ m ∈ successors n ∧
      (m ∉ n :: trail ∧ m ≠ finish ∧ within limit (trail.length + 2) = true) ∧
      GoesOn successors finish limit (n :: trail) m q := by
  obtain ⟨x, xs, rfl⟩ := List.exists_cons_of_ne_nil hq
  constructor
  · intro h
    obtain ⟨hnm, hchain⟩ := List.isChain_cons_cons.mp h.chain
    obtain ⟨hnotin, hnodup⟩ := List.nodup_cons.mp h.nodup
    have hlast : (x :: xs).getLast? = some finish := by
      rw [← h.last_eq, List.getLast?_cons_cons]
    refine ⟨hnm, ⟨h.new m List.mem_cons_self, ?_, ?_⟩, hchain, hlast, hnodup, ?_, ?_⟩
    · rintro rfl
      exact hnotin (List.mem_of_getLast? hlast)
    · refine within_of_le ?_ h.within_limit
      simp only [List.length_cons]
      omega
    · intro y hy hmem
      rcases List.mem_cons.mp hmem with rfl | hmem
      · exact hnotin hy
      · exact h.new y (List.mem_cons_of_mem _ hy) hmem
    · have hlimit := h.within_limit
      simp only [List.length_cons] at hlimit ⊢
      rwa [Nat.add_right_comm]
  · rintro ⟨hnm, ⟨hnew, -, -⟩, h⟩
    refine ⟨List.isChain_cons_cons.mpr ⟨hnm, h.chain⟩, ?_, ?_, ?_, ?_⟩
    · rw [List.getLast?_cons_cons, h.last_eq]
    · exact List.nodup_cons.mpr ⟨fun hmem => h.new m hmem List.mem_cons_self, h.nodup⟩
    · intro y hy
      rcases List.mem_cons.mp hy with rfl | hy
      · exact hnew
      · exact fun hmem => h.new y hy (List.mem_cons_of_mem _ hmem)
    · have hlimit := h.within_limit
      simp only [List.length_cons] at hlimit ⊢
      rwa [Nat.add_right_comm] at hlimit

/-- What is reported below a trail are the trail's own continuations to the finish. -/
theorem mem_reports_iff {depth : Nat} {trail p : List String} {n : String} :
    p ∈ (plan successors finish limit).reports depth trail n ↔
      ∃ q, p = trail.reverse ++ n :: q ∧ q.length ≤ depth ∧
        GoesOn successors finish limit trail n q := by
  induction depth generalizing trail n with
  | zero =>
    constructor
    · intro hp
      exact absurd hp List.not_mem_nil
    · rintro ⟨q, -, hlen, hq⟩
      rw [List.length_eq_zero_iff.mp (Nat.le_zero.mp hlen)] at hq
      exact absurd hq.last_eq (by simp)
  | succ depth ih =>
    rw [Strategy.mem_reports_succ]
    simp only [mem_notes_iff, enters_iff, ih, List.length_cons]
    constructor
    · rintro ⟨m, hnm, ⟨⟨hnew, hfinish, hlimit⟩, rfl⟩ | ⟨henters, q, rfl, hlen, hq⟩⟩
      · exact ⟨[m], by simp, by simp, goesOn_singleton.mpr ⟨hnm, hnew, hfinish, hlimit⟩⟩
      · have hne : q ≠ [] := by
          rintro rfl
          exact absurd hq.last_eq (by simp)
        exact ⟨m :: q, by simp, by simpa using hlen,
          (goesOn_cons hne).mpr ⟨hnm, henters, hq⟩⟩
    · rintro ⟨q, rfl, hlen, hq⟩
      cases q with
      | nil => exact absurd hq.last_eq (by simp)
      | cons m q =>
        by_cases hne : q = []
        · subst hne
          obtain ⟨hnm, hnew, hfinish, hlimit⟩ := goesOn_singleton.mp hq
          exact ⟨m, hnm, Or.inl ⟨⟨hnew, hfinish, hlimit⟩, by simp⟩⟩
        · obtain ⟨hnm, henters, hq⟩ := (goesOn_cons hne).mp hq
          exact ⟨m, hnm, Or.inr ⟨henters, q, by simp, by simpa using hlen, hq⟩⟩

end PathSearch

namespace Graph

variable {g : Graph} {filter : KindFilter}

theorem Consistent.pathPlan_fits (hg : g.Consistent) (filter : KindFilter) (finish : String)
    (limit : Option Int) :
    (PathSearch.plan (g.successors · filter) finish limit).Fits g.nodeIds g.nodes.length where
  mem := fun a _ hb => hg.successors_subset a filter hb
  length_le := fun a => hg.length_successors_le a filter
  new := fun _ _ h => (PathSearch.enters_iff.mp h).1

/-- The path search ends with nothing left to try, and it has found what its plan reports. -/
theorem Consistent.pathSearch_eq (hg : g.Consistent) {start : String}
    (hstart : start ∈ g.nodeIds) (finish : String) (limit : Option Int) (filter : KindFilter) :
    g.pathSearch start finish limit filter =
      { trail := { todo := [], path := [], visiting := [] }
        found := ((PathSearch.plan (g.successors · filter) finish limit).reports g.nodes.length []
          start).reverse } := by
  have hfuel : searchBudget g.nodes.length g.nodeIds.length ≤
      searchBudget g.nodes.length g.nodes.length + 1 := by
    rw [g.length_nodeIds]
    exact Nat.le_succ _
  have hrun := PathSearch.backtracks.run (hg.pathPlan_fits filter finish limit) hstart
    hfuel []
  rw [g.length_nodeIds, List.foldl_flip_cons_eq_append, List.map_id', List.append_nil] at hrun
  exact hrun

/-- The path search returns what its plan reports. -/
theorem Consistent.pathsBetween_eq (hg : g.Consistent) {start : String}
    (hstart : start ∈ g.nodeIds) (finish : String) (limit : Option Int) :
    g.pathsBetween start finish limit filter =
      (PathSearch.plan (g.successors · filter) finish limit).reports g.nodes.length [] start := by
  unfold pathsBetween
  rw [hg.pathSearch_eq hstart, List.reverse_reverse]

/-- **Paths between two nodes.** The search returns exactly the simple paths of at least one edge
that keep within the limit. -/
theorem Consistent.mem_pathsBetween_iff (hg : g.Consistent) {start finish : String}
    (hstart : start ∈ g.nodeIds) {limit : Option Int} {p : List String} :
    p ∈ g.pathsBetween start finish limit filter ↔
      IsPath (g.Adjacent filter) start finish p ∧ 2 ≤ p.length ∧
        within limit (p.length - 1) = true := by
  have hrel := hg.successors_rel filter
  rw [hg.pathsBetween_eq hstart, PathSearch.mem_reports_iff]
  constructor
  · rintro ⟨q, rfl, -, hq⟩
    have hne : q ≠ [] := by
      rintro rfl
      exact absurd hq.last_eq (by simp)
    obtain ⟨x, xs, rfl⟩ := List.exists_cons_of_ne_nil hne
    refine ⟨⟨rfl, ?_, ?_, ?_⟩, by simp, by simpa using hq.within_limit⟩
    · rw [← hq.last_eq]
      rfl
    · rw [← hrel]
      exact hq.chain
    · exact List.nodup_cons.mpr ⟨fun hmem => hq.new start hmem List.mem_cons_self, hq.nodup⟩
  · rintro ⟨hp, htwo, hlimit⟩
    obtain ⟨a, x, xs, rfl⟩ : ∃ a x xs, p = a :: x :: xs := by
      match p, htwo with
      | a :: x :: xs, _ => exact ⟨a, x, xs, rfl⟩
    obtain rfl : a = start := Option.some.inj hp.head_eq
    obtain ⟨hnotin, hnodup⟩ := List.nodup_cons.mp hp.nodup
    have hlast : (x :: xs).getLast? = some finish := by
      rw [← hp.last_eq]
      rfl
    refine ⟨x :: xs, rfl, ?_, ?_, hlast, hnodup, ?_, by simpa using hlimit⟩
    · -- the nodes of the path are nodes of the graph, each once
      have hsub : ∀ y ∈ x :: xs, y ∈ g.nodeIds :=
        forall_mem_of_isChain (fun _ _ hstep => hg.adjacent_mem hstep) hp.chain
      have hlen := (hnodup.subperm hsub).length_le
      rwa [g.length_nodeIds] at hlen
    · rw [hrel]
      exact hp.chain
    · intro y hy hmem
      obtain rfl : y = a := by simpa using hmem
      exact hnotin hy

/-! ## Refusals -/

theorem paths_of_start_not_mem {start : String} (hstart : start ∉ g.nodeIds) (finish : String)
    (maxDepth : Option Int) (kinds : Option (List Value)) :
    g.paths start finish maxDepth kinds = .error (.nodeNotFound start none) := by
  unfold paths
  rw [requireNode_eq_error hstart]
  rfl

theorem paths_of_finish_not_mem {start finish : String} (hstart : start ∈ g.nodeIds)
    (hfinish : finish ∉ g.nodeIds) (maxDepth : Option Int) (kinds : Option (List Value)) :
    g.paths start finish maxDepth kinds = .error (.nodeNotFound finish none) := by
  unfold paths
  rw [requireNode_eq_ok hstart, requireNode_eq_error hfinish]
  rfl

theorem paths_of_mem {start finish : String} (hstart : start ∈ g.nodeIds)
    (hfinish : finish ∈ g.nodeIds) {kinds : Option (List Value)} {filter : KindFilter}
    (hkinds : KindFilter.ofValues kinds = .ok filter) (maxDepth : Option Int) :
    g.paths start finish maxDepth kinds =
      .ok (g.pathsBetween start finish (g.pathLimit maxDepth) filter) := by
  unfold paths
  rw [requireNode_eq_ok hstart, requireNode_eq_ok hfinish, hkinds]
  rfl

end Graph

end CodeAtlas
