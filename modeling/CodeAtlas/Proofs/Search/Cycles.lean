import CodeAtlas.Search.Cycles
import CodeAtlas.Proofs.Graph.Adjacency
import CodeAtlas.Proofs.Graph.Walks
import CodeAtlas.Proofs.Search.Backtracking

/-!
# Simple cycles

The cycle search from a node is a backtracking search, and what it comes upon are the simple cycles
written from this node. All searches together come upon every rotation of every simple cycle within
the limit. Of these the report keeps all or only the first of each rotation class; either way a
cycle that was come upon is reported up to rotation.
-/

namespace CodeAtlas

namespace CycleSearch

variable {successors : String → List String} {home : String} {limit : Option Int}

/-- The plan of a cycle search: the trail is noted when it leads back home, and every other node
that is not on it is entered within the limit. -/
def plan (successors : String → List String) (home : String) (limit : Option Int) : Strategy where
  successors := successors
  notes path m := if m = home then [path.reverse] else []
  enters path m := m ≠ home ∧ m ∉ path ∧ within limit (path.length + 1)

theorem backtracks (unique : Bool) : Backtracks (step successors home limit unique) CycleSearch.mk
    (fun report c => report.add unique c) (plan successors home limit) where
  stop := fun _ _ => rfl
  leave := by
    intro below n path out
    simp [step, Trail.leave]
  look := by
    intro m rest below path out
    by_cases hhome : m = home
    · simp [step, plan, hhome]
    · by_cases hm : m ∈ path
      · simp [step, plan, hhome, hm]
      · by_cases hlimit : within limit (path.length + 1) = true
        · simp [step, plan, hhome, hm, hlimit, Trail.enter]
        · simp [step, plan, hhome, hm, hlimit]

theorem reads : Backtracks.Reads CycleSearch.mk CycleSearch.trail :=
  ⟨fun _ _ => rfl, fun s => ⟨s.report, rfl⟩⟩

theorem mem_notes_iff {path c : List String} {m : String} :
    c ∈ (plan successors home limit).notes path m ↔ m = home ∧ c = path.reverse := by
  show c ∈ (if _ then [path.reverse] else []) ↔ _
  rw [List.mem_ite_nil_right, List.mem_singleton]

theorem enters_iff {path : List String} {m : String} :
    (plan successors home limit).enters path m = true ↔
      m ≠ home ∧ m ∉ path ∧ within limit (path.length + 1) = true := by
  simp [plan]

/-- `q` leads from `n` on until home is next, over nodes that are not on the trail to `n`. Coming
home is free, going on is limited. -/
structure Closes (successors : String → List String) (home : String) (limit : Option Int)
    (trail : List String) (n : String) (q : List String) : Prop where
  chain : (n :: q ++ [home]).IsChain fun a b => b ∈ successors a
  nodup : q.Nodup
  new : ∀ x ∈ q, x ≠ home ∧ x ∉ n :: trail
  within_limit : q = [] ∨ within limit (trail.length + 1 + q.length) = true

theorem closes_nil {trail : List String} {n : String} :
    Closes successors home limit trail n [] ↔ home ∈ successors n := by
  constructor
  · intro h
    exact (List.isChain_cons_cons.mp h.chain).1
  · intro h
    exact ⟨List.isChain_cons_cons.mpr ⟨h, List.isChain_singleton home⟩, List.nodup_nil,
      fun x hx => absurd hx List.not_mem_nil, Or.inl rfl⟩

/-- Going on over `m` is going to `m` and on from there. -/
theorem closes_cons {trail : List String} {n m : String} {q : List String} :
    Closes successors home limit trail n (m :: q) ↔ m ∈ successors n ∧
      (m ≠ home ∧ m ∉ n :: trail ∧ within limit (trail.length + 2) = true) ∧
      Closes successors home limit (n :: trail) m q := by
  have hcount : trail.length + 1 + (m :: q).length = (n :: trail).length + 1 + q.length := by
    simp only [List.length_cons]
    omega
  constructor
  · intro h
    obtain ⟨hnm, hchain⟩ := List.isChain_cons_cons.mp h.chain
    obtain ⟨hnotin, hnodup⟩ := List.nodup_cons.mp h.nodup
    obtain ⟨hhome, hnew⟩ := h.new m List.mem_cons_self
    have hlimit := h.within_limit.resolve_left (List.cons_ne_nil m q)
    rw [hcount] at hlimit
    refine ⟨hnm, ⟨hhome, hnew, within_of_le ?_ hlimit⟩, hchain, hnodup, ?_, Or.inr hlimit⟩
    · rw [List.length_cons]
      omega
    · intro x hx
      obtain ⟨hxhome, hxnew⟩ := h.new x (List.mem_cons_of_mem m hx)
      refine ⟨hxhome, fun hmem => ?_⟩
      rcases List.mem_cons.mp hmem with rfl | hmem
      · exact hnotin hx
      · exact hxnew hmem
  · rintro ⟨hnm, ⟨hhome, hnew, hnext⟩, h⟩
    refine ⟨List.isChain_cons_cons.mpr ⟨hnm, h.chain⟩, ?_, ?_, Or.inr ?_⟩
    · exact List.nodup_cons.mpr ⟨fun hmem => (h.new m hmem).2 List.mem_cons_self, h.nodup⟩
    · intro x hx
      rcases List.mem_cons.mp hx with rfl | hx
      · exact ⟨hhome, hnew⟩
      · obtain ⟨hxhome, hxnew⟩ := h.new x hx
        exact ⟨hxhome, fun hmem => hxnew (List.mem_cons_of_mem m hmem)⟩
    · rw [hcount]
      rcases h.within_limit with rfl | hlimit
      · exact hnext
      · exact hlimit

/-- What is reported below a trail are the ways in which it can be closed. -/
theorem mem_reports_iff {depth : Nat} {trail c : List String} {n : String} :
    c ∈ (plan successors home limit).reports depth trail n ↔
      ∃ q, c = trail.reverse ++ n :: q ∧ q.length < depth ∧
        Closes successors home limit trail n q := by
  induction depth generalizing trail n with
  | zero =>
    constructor
    · intro hc
      exact absurd hc List.not_mem_nil
    · rintro ⟨q, -, hlen, -⟩
      exact absurd hlen (Nat.not_lt_zero _)
  | succ depth ih =>
    rw [Strategy.mem_reports_succ]
    simp only [mem_notes_iff, enters_iff, ih, List.length_cons]
    constructor
    · rintro ⟨m, hnm, ⟨rfl, rfl⟩ | ⟨henters, q, rfl, hlen, hq⟩⟩
      · exact ⟨[], by simp, by simp, closes_nil.mpr hnm⟩
      · exact ⟨m :: q, by simp, by simpa using hlen, closes_cons.mpr ⟨hnm, henters, hq⟩⟩
    · rintro ⟨q, rfl, hlen, hq⟩
      cases q with
      | nil => exact ⟨home, closes_nil.mp hq, Or.inl ⟨rfl, by simp⟩⟩
      | cons m q =>
        obtain ⟨hnm, henters, hq⟩ := closes_cons.mp hq
        exact ⟨m, hnm, Or.inr ⟨henters, q, by simp, by simpa using hlen, hq⟩⟩

end CycleSearch

/-! ## Reports -/

theorem least_eq_none_iff {names : List String} : least names = none ↔ names = [] := by
  cases names with
  | nil => exact iff_of_true rfl rfl
  | cons s rest =>
    refine iff_of_false ?_ (List.cons_ne_nil s rest)
    unfold least
    split
    · exact Option.some_ne_none s
    · split <;> exact Option.some_ne_none _

/-- The key of a cycle is a rotation of it. -/
theorem rotationKey_perm (cycle : List String) : (rotationKey cycle).Perm cycle := by
  unfold rotationKey
  split
  · rename_i hleast
    rw [least_eq_none_iff.mp hleast]
  · rename_i pivot _
    exact List.perm_append_comm.trans (.of_eq List.takeWhile_append_dropWhile)

namespace CycleReport

/-- The report holds cycles among `cs`, and each of `cs` up to rotation. -/
structure Lists (report : CycleReport) (cs : List (List String)) : Prop where
  seen_eq : report.seen = report.found.map rotationKey
  sound : ∀ c ∈ report.found, c ∈ cs
  complete : ∀ c ∈ cs, rotationKey c ∈ report.seen

variable {report : CycleReport} {cs : List (List String)}

theorem lists_empty : ({} : CycleReport).Lists [] :=
  ⟨rfl, fun _ h => absurd h List.not_mem_nil, fun _ h => absurd h List.not_mem_nil⟩

theorem Lists.add (h : report.Lists cs) (unique : Bool) (c : List String) :
    (report.add unique c).Lists (cs ++ [c]) := by
  unfold CycleReport.add
  dsimp only
  split
  · constructor
    · rw [h.seen_eq, List.map_cons]
    · intro d hd
      rcases List.mem_cons.mp hd with rfl | hd
      · exact List.mem_append_right _ (List.mem_singleton.mpr rfl)
      · exact List.mem_append_left _ (h.sound d hd)
    · intro d hd
      rcases List.mem_append.mp hd with hd | hd
      · exact List.mem_cons_of_mem _ (h.complete d hd)
      · rw [List.mem_singleton.mp hd]
        exact List.mem_cons_self
  · -- the cycle is left out because a rotation of it was seen
    rename_i hskip
    have hseen : rotationKey c ∈ report.seen := by
      simp only [Bool.or_eq_true, Bool.not_eq_true', not_or, Bool.not_eq_false] at hskip
      simpa using hskip.2
    constructor
    · exact h.seen_eq
    · exact fun d hd => List.mem_append_left _ (h.sound d hd)
    · intro d hd
      rcases List.mem_append.mp hd with hd | hd
      · exact h.complete d hd
      · rw [List.mem_singleton.mp hd]
        exact hseen

theorem Lists.foldl (h : report.Lists cs) (unique : Bool) (more : List (List String)) :
    (more.foldl (fun report c => report.add unique c) report).Lists (cs ++ more) := by
  induction more generalizing report cs with
  | nil => rwa [List.append_nil]
  | cons c more ih =>
    rw [List.foldl_cons, List.append_cons]
    exact ih (h.add unique c)

theorem Lists.exists_perm (h : report.Lists cs) {c : List String} (hc : c ∈ cs) :
    ∃ d ∈ report.found, d.Perm c := by
  have hkey := h.complete c hc
  rw [h.seen_eq] at hkey
  obtain ⟨d, hd, heq⟩ := List.mem_map.mp hkey
  exact ⟨d, hd, (rotationKey_perm d).symm.trans (heq ▸ rotationKey_perm c)⟩

end CycleReport

/-! ## Cycles of a graph -/

namespace Graph

variable {g : Graph} {limit : Option Int}

/-- What the searches from all nodes come upon, in this order. -/
def closedTrails (g : Graph) (limit : Option Int) : List (List String) :=
  g.nodeIds.flatMap fun home =>
    (CycleSearch.plan (g.successors · none) home limit).reports g.nodes.length [] home

namespace Consistent

variable (hg : g.Consistent)

include hg

theorem cyclePlan_fits (home : String) (limit : Option Int) :
    (CycleSearch.plan (g.successors · none) home limit).Fits g.nodeIds g.nodes.length where
  mem := fun a _ hb => hg.successors_subset a none hb
  length_le := fun a => hg.length_successors_le a none
  new := fun _ _ h => (CycleSearch.enters_iff.mp h).2.1

/-- The search from one node ends with nothing left to try, and it has added to the report what its
plan comes upon. -/
theorem cycleSearch_eq {home : String} (hhome : home ∈ g.nodeIds) (limit : Option Int)
    (unique : Bool) (report : CycleReport) :
    g.cycleSearch limit unique (searchBudget g.nodes.length g.nodes.length + 1) report home =
      { trail := { todo := [], path := [], visiting := [] }
        report := ((CycleSearch.plan (g.successors · none) home limit).reports g.nodes.length []
          home).foldl (fun report c => report.add unique c) report } := by
  have hfuel : searchBudget g.nodes.length g.nodeIds.length ≤
      searchBudget g.nodes.length g.nodes.length + 1 := by
    rw [g.length_nodeIds]
    exact Nat.le_succ _
  have hrun := (CycleSearch.backtracks unique).run (hg.cyclePlan_fits home limit) hhome hfuel report
  rw [g.length_nodeIds] at hrun
  exact hrun

theorem cyclesWithin_eq (limit : Option Int) (unique : Bool) :
    g.cyclesWithin limit unique = ((g.closedTrails limit).foldl
      (fun report c => CycleReport.add report unique c) {}).found.reverse := by
  have hfold := List.foldl_ext _ _ ({} : CycleReport) fun report home hhome =>
    congrArg CycleSearch.report (hg.cycleSearch_eq hhome limit unique report)
  unfold cyclesWithin closedTrails
  rw [List.foldl_flatMap]
  exact congrArg (fun report => report.found.reverse) hfold

/-- The searches come upon the simple cycles within the limit, from each of their nodes. A cycle of
one node is never too long. -/
theorem mem_closedTrails_iff {c : List String} :
    c ∈ g.closedTrails limit ↔ ∃ home, IsCycle (g.Adjacent none) home c ∧
      (c.length = 1 ∨ within limit c.length = true) := by
  have hrel := hg.successors_rel none
  unfold closedTrails
  simp only [List.mem_flatMap, CycleSearch.mem_reports_iff]
  constructor
  · rintro ⟨home, -, q, rfl, -, hq⟩
    refine ⟨home, ⟨rfl, hrel ▸ hq.chain, ?_⟩, ?_⟩
    · exact List.nodup_cons.mpr ⟨fun hmem => (hq.new home hmem).1 rfl, hq.nodup⟩
    · refine hq.within_limit.imp (fun hnil => by rw [hnil]; rfl) fun hlimit => ?_
      simpa [Nat.add_comm] using hlimit
  · rintro ⟨home, hc, hlimit⟩
    obtain ⟨q, rfl⟩ := List.head?_eq_some_iff.mp hc.head_eq
    -- every node of the cycle is led to, so it is a node of the graph
    have hmem : ∀ x ∈ q ++ [home], x ∈ g.nodeIds :=
      forall_mem_of_isChain (fun _ _ hstep => hg.adjacent_mem hstep) hc.closed
    have hsub : home :: q ⊆ g.nodeIds := by
      intro x hx
      refine hmem x ?_
      simpa [or_comm] using hx
    have hlen := (hc.nodup.subperm hsub).length_le
    rw [g.length_nodeIds] at hlen
    obtain ⟨hnotin, hnodup⟩ := List.nodup_cons.mp hc.nodup
    refine ⟨home, hsub List.mem_cons_self, q, rfl, hlen, hrel ▸ hc.closed, hnodup, ?_, ?_⟩
    · intro x hx
      have hne : x ≠ home := fun heq => hnotin (heq ▸ hx)
      exact ⟨hne, by simpa using hne⟩
    · refine hlimit.imp (fun hone => ?_) fun hlimit => ?_
      · simpa using hone
      · simpa [Nat.add_comm] using hlimit

/-- Every cycle that is returned is a simple cycle. -/
theorem isCycle_of_mem_cyclesWithin {unique : Bool} {c : List String}
    (hc : c ∈ g.cyclesWithin limit unique) : ∃ home, IsCycle (g.Adjacent none) home c := by
  rw [hg.cyclesWithin_eq, List.mem_reverse] at hc
  have htrail := (CycleReport.lists_empty.foldl unique _).sound c hc
  obtain ⟨home, hcycle, -⟩ := hg.mem_closedTrails_iff.mp htrail
  exact ⟨home, hcycle⟩

/-- Without a limit, every simple cycle is returned up to rotation. -/
theorem exists_mem_cyclesWithin (unique : Bool) {home : String} {c : List String}
    (hc : IsCycle (g.Adjacent none) home c) : ∃ d ∈ g.cyclesWithin none unique, d.Perm c := by
  have hmem : c ∈ g.closedTrails none := hg.mem_closedTrails_iff.mpr ⟨home, hc, Or.inr rfl⟩
  obtain ⟨d, hd, hperm⟩ := (CycleReport.lists_empty.foldl unique _).exists_perm hmem
  refine ⟨d, ?_, hperm⟩
  rw [hg.cyclesWithin_eq, List.mem_reverse]
  exact hd

end Consistent

end Graph

end CodeAtlas
