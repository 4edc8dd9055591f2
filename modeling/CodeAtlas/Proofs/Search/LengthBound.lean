import CodeAtlas.Proofs.Search.Rotations
import Mathlib.Data.List.Sort

/-!
# Cycles under a bound

A bound on the number of nodes cuts a cycle search short, so fewer cycles are come upon. Those that
are left stand in the order in which the searches without a bound come upon them: the order of the
searches relates each two cycles in one way only, whatever else is found. A rotation of a cycle has
as many nodes as the cycle, so of a rotation class all members are left or none, and the first of
them is the same with and without a bound.

The bound is looked at when a search goes on, not when it comes home. A node with an edge to itself
is therefore a cycle under every bound, also under one that allows no node at all.
-/

namespace CodeAtlas

/-! ## The order of the searches -/

section Order

variable {successors : String → List String} {p q : List String}

theorem stem_of_branch {front : List String} {n a : String} (h : front ++ [n, a] <+: p) :
    front ++ [n] <+: p := by
  refine (List.prefix_append (front ++ [n]) [a]).trans ?_
  rwa [List.append_assoc]

/-- Where two ways have branched off from each other they have nothing more in common. -/
theorem length_le_of_branch {front common : List String} {n a b : String} (hab : a ≠ b)
    (ha : front ++ [n, a] <+: p) (hb : front ++ [n, b] <+: q) (hp : common <+: p)
    (hq : common <+: q) : common.length ≤ front.length + 1 := by
  by_contra hlong
  have hbeyond : front ++ [n, a] <+: common := by
    refine List.prefix_of_prefix_length_le ha hp ?_
    simp only [List.length_append, List.length_cons, List.length_nil]
    omega
  have heq : front ++ [n, a] = front ++ [n, b] :=
    (List.prefix_of_prefix_length_le (hbeyond.trans hq) hb (by simp)).eq_of_length (by simp)
  exact hab (by simpa using heq)

theorem Precedes.asymm (h : Precedes successors p q) : ¬Precedes successors q p := by
  rintro ⟨front', n', a', b', ha', hb', hlt'⟩
  obtain ⟨front, n, a, b, ha, hb, hlt⟩ := h
  have hne : a ≠ b := by
    rintro rfl
    exact Nat.lt_irrefl _ hlt
  have hne' : b' ≠ a' := by
    rintro rfl
    exact Nat.lt_irrefl _ hlt'
  -- both ways branch off at the same place, so what comes first is the same both times
  have hle := length_le_of_branch hne' hb' ha' (stem_of_branch ha) (stem_of_branch hb)
  have hge := length_le_of_branch hne ha hb (stem_of_branch hb') (stem_of_branch ha')
  have hlen : front.length = front'.length := by
    simp only [List.length_append, List.length_singleton] at hle hge
    omega
  have hfirst : front ++ [n, a] = front' ++ [n', b'] :=
    (List.prefix_of_prefix_length_le ha hb' (by simp [hlen])).eq_of_length (by simp [hlen])
  have hsecond : front ++ [n, b] = front' ++ [n', a'] :=
    (List.prefix_of_prefix_length_le hb ha' (by simp [hlen])).eq_of_length (by simp [hlen])
  obtain ⟨-, hab⟩ := List.append_inj hfirst hlen
  obtain ⟨-, hba⟩ := List.append_inj hsecond hlen
  simp only [List.cons.injEq, and_true] at hab hba
  obtain ⟨rfl, rfl⟩ := hab
  obtain ⟨-, rfl⟩ := hba
  exact Nat.lt_asymm hlt hlt'

end Order

/-- What the members of a rotation class have in common can be asked for before or after the first
member of each class is taken. -/
theorem firstRotations_filter {keep : List String → Bool}
    (hkeep : ∀ c d, c ~r d → keep c = keep d) (cs : List (List String)) :
    firstRotations (cs.filter keep) = (firstRotations cs).filter keep := by
  induction cs with
  | nil => rfl
  | cons c cs ih =>
    by_cases hc : keep c = true
    · rw [List.filter_cons_of_pos hc, firstRotations, firstRotations, List.filter_cons_of_pos hc,
        ih, List.filter_comm]
    · rw [List.filter_cons_of_neg hc, firstRotations, List.filter_cons_of_neg hc, ih,
        List.filter_filter]
      -- no rotation of `c` is kept anyway
      refine List.filter_congr fun d _ => ?_
      by_cases hcd : c ~r d
      · rw [← hkeep c d hcd, Bool.eq_false_iff.mpr hc, Bool.false_and]
      · rw [decide_eq_true hcd, Bool.and_true]

namespace Graph

variable {g : Graph} {limit : Option Int} {c d : List String}

theorem CyclePrecedes.asymm (h : g.CyclePrecedes c d) : ¬g.CyclePrecedes d c := by
  rintro ⟨b', a', hb', ha', hback⟩
  obtain ⟨a, b, ha, hb, hforth⟩ := h
  obtain rfl := Option.some.inj (ha.symm.trans ha')
  obtain rfl := Option.some.inj (hb.symm.trans hb')
  rcases hforth with hlt | ⟨rfl, hprecedes⟩
  · rcases hback with hlt' | ⟨rfl, -⟩
    · exact Nat.lt_asymm hlt hlt'
    · exact Nat.lt_irrefl _ hlt
  · rcases hback with hlt' | ⟨-, hprecedes'⟩
    · exact Nat.lt_irrefl _ hlt'
    · exact hprecedes.asymm hprecedes'

instance (g : Graph) : Std.Asymm g.CyclePrecedes :=
  ⟨fun _ _ h => h.asymm⟩

/-- The graph with no bound on cycles in its settings. -/
def unbounded (g : Graph) : Graph :=
  { g with config := { g.config with
      analysis := { g.config.analysis with cycleMaxLength := none } } }

theorem unbounded_cycles (g : Graph) (unique : Bool) :
    g.unbounded.cycles none (some unique) = g.cyclesWithin none unique := rfl

namespace Consistent

variable (hg : g.Consistent)

include hg

/-- Under a bound the searches come upon the cycles that are not too long, in the same order. A
cycle of one node is never too long. -/
theorem closedTrails_some (bound : Int) :
    g.closedTrails (some bound) =
      (g.closedTrails none).filter fun c => (c.length : Int) ≤ max bound 1 := by
  refine (hg.pairwise_closedTrails (some bound)).eq_of_mem_iff
    ((hg.pairwise_closedTrails none).filter _) fun c => ?_
  rw [List.mem_filter, hg.mem_closedTrails_iff, hg.mem_closedTrails_iff, decide_eq_true_eq]
  constructor
  · rintro ⟨home, hcycle, hlength⟩
    refine ⟨⟨home, hcycle, Or.inr rfl⟩, ?_⟩
    rcases hlength with hone | hwithin
    · rw [hone]
      exact le_max_right bound 1
    · exact (within_iff.mp hwithin bound rfl).trans (le_max_left bound 1)
  · rintro ⟨⟨home, hcycle, -⟩, hlength⟩
    refine ⟨home, hcycle, ?_⟩
    rcases le_sup_iff.mp hlength with hbound | hone
    · exact Or.inr (within_iff.mpr fun l hl => Option.some.inj hl ▸ hbound)
    · have hpos := hcycle.length_pos
      exact Or.inl (by omega)

theorem cyclesWithin_some (bound : Int) (unique : Bool) :
    g.cyclesWithin (some bound) unique =
      (g.cyclesWithin none unique).filter fun c => (c.length : Int) ≤ max bound 1 := by
  cases unique with
  | false => rw [hg.cyclesWithin_false, hg.cyclesWithin_false, hg.closedTrails_some]
  | true =>
    rw [hg.cyclesWithin_true, hg.cyclesWithin_true, hg.closedTrails_some, firstRotations_filter]
    intro c d hcd
    rw [hcd.perm.length_eq]

/-- A node with an edge to itself is a cycle under every limit, and no other node is. -/
theorem singleton_mem_cyclesWithin_iff {unique : Bool} {n : String} :
    [n] ∈ g.cyclesWithin limit unique ↔ ∃ e ∈ g.edges, e.source = n ∧ e.target = n := by
  rw [← adjacent_none_iff, ← IsCycle.exists_singleton_iff (R := g.Adjacent none)]
  constructor
  · exact hg.isCycle_of_mem_cyclesWithin
  · rintro ⟨home, hcycle⟩
    have hmem : [n] ∈ g.closedTrails limit :=
      hg.mem_closedTrails_iff.mpr ⟨home, hcycle, Or.inl rfl⟩
    cases unique with
    | false => rwa [hg.cyclesWithin_false]
    | true =>
      rw [hg.cyclesWithin_true]
      obtain ⟨d, hd, hrotated⟩ := exists_mem_firstRotations hmem
      rwa [← List.isRotated_singleton_iff.mp hrotated]

/-- What is longer than the bound is a node with an edge to itself, under a bound that allows no
node. -/
theorem mem_cyclesWithin_and_lt_iff {bound : Int} {unique : Bool} :
    c ∈ g.cyclesWithin (some bound) unique ∧ bound < c.length ↔
      bound < 1 ∧ ∃ e ∈ g.edges, e.source = e.target ∧ c = [e.source] := by
  constructor
  · rintro ⟨hc, hlong⟩
    obtain ⟨home, hcycle⟩ := hg.isCycle_of_mem_cyclesWithin hc
    have hpos := hcycle.length_pos
    have hle : (c.length : Int) ≤ max bound 1 := by
      rw [hg.cyclesWithin_some] at hc
      exact of_decide_eq_true (List.mem_filter.mp hc).2
    have hone : c.length = 1 := by omega
    obtain ⟨n, rfl⟩ := List.length_eq_one_iff.mp hone
    obtain ⟨e, he, rfl, htarget⟩ := hg.singleton_mem_cyclesWithin_iff.mp hc
    exact ⟨hlong, e, he, htarget.symm, rfl⟩
  · rintro ⟨hbound, e, he, hloop, rfl⟩
    exact ⟨hg.singleton_mem_cyclesWithin_iff.mpr ⟨e, he, rfl, hloop.symm⟩, hbound⟩

end Consistent

/-- **Cycles under a bound.** Asked for the cycles of at most `bound` nodes, a reachable graph
returns, with or without rotations and in the same order, those of its cycles without a bound that
have at most `bound` nodes or a single one. So the bound is exact just when it is positive or no
node has an edge to itself; else what is returned beyond the bound are the nodes that have one. -/
theorem cycles_within_bound (hg : g.Reachable) (bound : Int) (unique : Bool) :
    g.cycles (some bound) (some unique) =
      (g.unbounded.cycles none (some unique)).filter (fun c => (c.length : Int) ≤ max bound 1) ∧
    (g.cycles (some bound) (some unique) =
        (g.unbounded.cycles none (some unique)).filter (fun c => (c.length : Int) ≤ bound) ↔
      1 ≤ bound ∨ ∀ e ∈ g.edges, e.source ≠ e.target) ∧
    ∀ c, c ∈ g.cycles (some bound) (some unique) ∧ bound < c.length ↔
      bound < 1 ∧ ∃ e ∈ g.edges, e.source = e.target ∧ c = [e.source] := by
  have hc := hg.consistent
  rw [unbounded_cycles]
  have hsome : g.cycles (some bound) (some unique) =
      (g.cyclesWithin none unique).filter fun c => (c.length : Int) ≤ max bound 1 :=
    hc.cyclesWithin_some bound unique
  have hlong : ∀ c, c ∈ g.cycles (some bound) (some unique) ∧ bound < c.length ↔
      bound < 1 ∧ ∃ e ∈ g.edges, e.source = e.target ∧ c = [e.source] :=
    fun c => hc.mem_cyclesWithin_and_lt_iff
  refine ⟨hsome, ?_, hlong⟩
  -- the cycles up to the bound are those of the returned ones that are up to it
  have hexact : (g.cyclesWithin none unique).filter (fun c => (c.length : Int) ≤ bound) =
      (g.cycles (some bound) (some unique)).filter fun c => (c.length : Int) ≤ bound := by
    rw [hsome, List.filter_filter]
    refine List.filter_congr fun c _ => ?_
    rw [← Bool.decide_and, decide_eq_decide]
    omega
  rw [hexact, eq_comm, List.filter_eq_self]
  constructor
  · intro hall
    by_contra hnot
    obtain ⟨hbound, hloops⟩ := not_or.mp hnot
    push Not at hbound hloops
    obtain ⟨e, he, hloop⟩ := hloops
    obtain ⟨hmem, hlt⟩ := (hlong [e.source]).mpr ⟨hbound, e, he, hloop, rfl⟩
    exact absurd (of_decide_eq_true (hall _ hmem)) (not_le.mpr hlt)
  · intro hbound c hmem
    refine decide_eq_true (not_lt.mp fun hlt => ?_)
    obtain ⟨hzero, e, he, hloop, -⟩ := (hlong c).mp ⟨hmem, hlt⟩
    exact hbound.elim (fun hone => not_le.mpr hzero hone) fun hloops => hloops e he hloop

/-- Of the cycles of `knots` the bound of one node leaves the node with an edge to itself, and so
does the bound of no node, beyond what it asks for. -/
theorem cycles_within_bound_knots :
    knots.Reachable ∧
      knots.unbounded.cycles none (some true) = [["a", "b", "c"], ["d"], ["d", "e"]] ∧
      knots.cycles (some 2) (some true) = [["d"], ["d", "e"]] ∧
      knots.cycles (some 1) (some true) =
        (knots.unbounded.cycles none (some true)).filter (fun c => (c.length : Int) ≤ 1) ∧
      knots.cycles (some 0) (some true) = [["d"]] ∧
      knots.cycles (some 0) (some true) ≠
        (knots.unbounded.cycles none (some true)).filter (fun c => (c.length : Int) ≤ 0) := by
  refine ⟨knots_reachable, rfl, ?_, ?_, rfl, ?_⟩
  · rw [(cycles_within_bound knots_reachable 2 true).1]
    rfl
  · exact (cycles_within_bound knots_reachable 1 true).2.1.mpr (Or.inl le_rfl)
  · rw [Ne, (cycles_within_bound knots_reachable 0 true).2.1]
    decide

/-- The bound is not exact for every graph: the edge from `a` to itself makes a cycle of `tangle`
under a bound of no node, where none is asked for. -/
theorem tangle_cycles_beyond_bound :
    tangle.Reachable ∧ tangle.cycles (some 0) (some true) = [["a"]] ∧
      ¬∀ (g : Graph), g.Reachable → ∀ (bound : Int) (unique : Bool),
        g.cycles (some bound) (some unique) =
            (g.unbounded.cycles none (some unique)).filter (fun c => (c.length : Int) ≤ bound) ∧
          ∀ c ∈ g.cycles (some bound) (some unique), (c.length : Int) ≤ bound := by
  have hcycles : tangle.cycles (some 0) (some true) = [["a"]] := rfl
  refine ⟨tangle_reachable, hcycles, fun hexact => ?_⟩
  have hlength := (hexact tangle tangle_reachable 0 true).2 ["a"]
  rw [hcycles] at hlength
  exact absurd (hlength (List.mem_singleton.mpr rfl)) (by decide)

end Graph

end CodeAtlas
