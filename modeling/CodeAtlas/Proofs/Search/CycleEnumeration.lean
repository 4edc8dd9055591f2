import CodeAtlas.Proofs.Graph.Reachable
import CodeAtlas.Proofs.Search.Components
import CodeAtlas.Proofs.Search.Cycles

/-!
# Enumeration of simple cycles

Asked for all cycles, the report drops none that a search comes upon. A cycle is noted when its first
node is looked at again, so the cycles from one node stand in depth-first order of the closed ways
that they are, and the nodes are searched from in their own order.
-/

namespace CodeAtlas

theorem CycleSearch.spells {successors : String → List String}
    (hnodup : ∀ a, (successors a).Nodup) (home : String) (limit : Option Int) :
    (plan successors home limit).Spells (· ++ [home]) where
  nodup := hnodup
  note := by
    intro path m
    by_cases hhome : m = home
    · refine Or.inr ⟨path.reverse, if_pos hhome, ?_, ?_⟩
      · rw [List.reverse_cons, hhome]
      · simp [plan, hhome]
    · exact Or.inl (if_neg hhome)

/-- A report that keeps rotations keeps every cycle. -/
theorem CycleReport.found_foldl_add (report : CycleReport) (cs : List (List String)) :
    (cs.foldl (fun report c => report.add false c) report).found = cs.reverse ++ report.found := by
  induction cs generalizing report with
  | nil => rfl
  | cons c cs ih =>
    rw [List.foldl_cons, ih, List.reverse_cons, List.append_assoc]
    rfl

namespace Graph

variable {g : Graph} {limit : Option Int}

/-- The order in which cycles are found: by the node that they are written from, and from one node in
depth-first order of the closed ways. -/
def CyclePrecedes (g : Graph) (c d : List String) : Prop :=
  ∃ a b, c.head? = some a ∧ d.head? = some b ∧
    (g.nodeIds.idxOf a < g.nodeIds.idxOf b ∨
      a = b ∧ Precedes (g.nextNodes none) (c ++ [a]) (d ++ [b]))

theorem CyclePrecedes.ne {c d : List String} (h : g.CyclePrecedes c d) : c ≠ d := by
  rintro rfl
  obtain ⟨a, b, ha, hb, hlt | ⟨rfl, hprecedes⟩⟩ := h
  · rw [Option.some.inj (ha.symm.trans hb)] at hlt
    exact Nat.lt_irrefl _ hlt
  · exact hprecedes.ne rfl

/-- A cycle is written from the node where its search began. -/
theorem head?_of_mem_reports {successors : String → List String} {home : String}
    {limit : Option Int} {depth : Nat} {c : List String}
    (hc : c ∈ (CycleSearch.plan successors home limit).reports depth [] home) :
    c.head? = some home := by
  obtain ⟨q, rfl, -, -⟩ := CycleSearch.mem_reports_iff.mp hc
  rfl

namespace Consistent

variable (hg : g.Consistent)

include hg

theorem cyclesWithin_false (limit : Option Int) :
    g.cyclesWithin limit false = g.closedTrails limit := by
  rw [hg.cyclesWithin_eq, CycleReport.found_foldl_add, List.append_nil, List.reverse_reverse]

theorem pairwise_closedTrails (limit : Option Int) :
    (g.closedTrails limit).Pairwise g.CyclePrecedes := by
  have hnodup : ∀ a, (g.successors a none).Nodup := fun a => nodup_distinct _
  refine List.pairwise_flatMap.mpr ⟨fun home _ => ?_, ?_⟩
  · have hordered :=
      (CycleSearch.spells hnodup home limit).pairwise_reports g.nodes.length [] home
    refine hordered.imp_of_mem fun hc hd hprecedes => ?_
    refine ⟨home, home, head?_of_mem_reports hc, head?_of_mem_reports hd, Or.inr ⟨rfl, ?_⟩⟩
    rw [← hg.successors_eq_nextNodes]
    exact hprecedes
  · refine (pairwise_idxOf_lt hg.nodeIds_nodup).imp fun hlt c hc d hd => ?_
    exact ⟨_, _, head?_of_mem_reports hc, head?_of_mem_reports hd, Or.inl hlt⟩

end Consistent

/-- **Enumeration of simple cycles.** Under a positive limit or none, the search from every node of a
reachable graph ends with nothing left to try. With rotations kept, the simple cycles within the
limit are returned, each of them once: grouped by the node they start from, in the order of the
nodes, and in depth-first order over the order of the edges within a group. So with a cycle all its
rotations are returned once, and a node alone is a cycle just when it has an edge to itself. -/
theorem cycles_enumerated (hg : g.Reachable) (maxLength : Option Int)
    (hlimit : ∀ l ∈ maxLength <|> g.config.analysis.cycleMaxLength, 1 ≤ l) :
    (∀ home ∈ g.nodeIds, ∀ report, (g.cycleSearch (g.cycleLimit maxLength) false
      (searchBudget g.nodes.length g.nodes.length + 1) report home).trail.todo = []) ∧
    (∀ c, c ∈ g.cycles maxLength (some false) ↔ (∃ home, IsCycle (g.Adjacent none) home c) ∧
      ∀ l ∈ maxLength <|> g.config.analysis.cycleMaxLength, (c.length : Int) ≤ l) ∧
    (g.cycles maxLength (some false)).Nodup ∧
    (g.cycles maxLength (some false)).Pairwise g.CyclePrecedes ∧
    (∀ c ∈ g.cycles maxLength (some false), ∀ d, c ~r d →
      (g.cycles maxLength (some false)).count d = 1) ∧
    ∀ n, [n] ∈ g.cycles maxLength (some false) ↔ ∃ e ∈ g.edges, e.source = n ∧ e.target = n := by
  have hc := hg.consistent
  have hcycles : g.cycles maxLength (some false) = g.closedTrails (g.cycleLimit maxLength) :=
    hc.cyclesWithin_false _
  have hmem : ∀ c, c ∈ g.closedTrails (g.cycleLimit maxLength) ↔
      (∃ home, IsCycle (g.Adjacent none) home c) ∧
        ∀ l ∈ maxLength <|> g.config.analysis.cycleMaxLength, (c.length : Int) ≤ l := by
    intro c
    rw [hc.mem_closedTrails_iff]
    constructor
    · -- coming home is free, but one node is never too many here
      rintro ⟨home, hcycle, hone | hwithin⟩
      · refine ⟨⟨home, hcycle⟩, fun l hl => ?_⟩
        rw [hone]
        exact hlimit l hl
      · exact ⟨⟨home, hcycle⟩, within_iff.mp hwithin⟩
    · rintro ⟨⟨home, hcycle⟩, hwithin⟩
      exact ⟨home, hcycle, Or.inr (within_iff.mpr hwithin)⟩
  have hordered := hc.pairwise_closedTrails (g.cycleLimit maxLength)
  have hnodup : (g.closedTrails (g.cycleLimit maxLength)).Nodup := hordered.imp CyclePrecedes.ne
  rw [hcycles]
  refine ⟨fun home hhome report => ?_, hmem, hnodup, hordered, fun c hcycle d hrotated => ?_,
    fun n => ?_⟩
  · rw [hc.cycleSearch_eq hhome]
  · obtain ⟨⟨home, hhome⟩, hwithin⟩ := (hmem c).mp hcycle
    rw [hrotated.perm.length_eq] at hwithin
    exact List.count_eq_one_of_mem hnodup ((hmem d).mpr ⟨hhome.isRotated hrotated, hwithin⟩)
  · rw [hmem, IsCycle.exists_singleton_iff, adjacent_none_iff]
    exact and_iff_left hlimit

/-- Within two nodes `knots` has a node with an edge to itself and a pair of nodes, the pair in both
rotations; the cycle of three nodes is too long. -/
theorem cycles_enumerated_knots :
    knots.Reachable ∧ (∀ l ∈ some 2 <|> knots.config.analysis.cycleMaxLength, 1 ≤ l) ∧
      knots.cycles (some 2) (some false) = [["d"], ["d", "e"], ["e", "d"]] ∧
      knots.CyclePrecedes ["d"] ["d", "e"] ∧
      (knots.cycles (some 2) (some false)).count ["e", "d"] = 1 ∧
      (∃ home, IsCycle (knots.Adjacent none) home ["e", "d"]) ∧
      ["f"] ∉ knots.cycles (some 2) (some false) := by
  have hlimit : ∀ l ∈ some 2 <|> knots.config.analysis.cycleMaxLength, 1 ≤ l := by
    intro l hl
    obtain rfl := Option.some.inj hl
    decide
  have hcycles : knots.cycles (some 2) (some false) = [["d"], ["d", "e"], ["e", "d"]] := rfl
  obtain ⟨-, hmem, -, hordered, hrotations, hloops⟩ :=
    cycles_enumerated knots_reachable (some 2) hlimit
  refine ⟨knots_reachable, hlimit, hcycles, ?_, ?_, ?_, ?_⟩
  · rw [hcycles] at hordered
    exact List.rel_of_pairwise_cons hordered (by simp)
  · exact hrotations ["d", "e"] (by rw [hcycles]; simp) ["e", "d"] ⟨1, rfl⟩
  · exact ((hmem ["e", "d"]).mp (by rw [hcycles]; simp)).1
  · rw [hloops]
    decide

end Graph

end CodeAtlas
