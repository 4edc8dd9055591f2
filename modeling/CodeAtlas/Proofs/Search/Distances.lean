import CodeAtlas.Proofs.Graph.Reachable
import CodeAtlas.Proofs.Search.Components
import CodeAtlas.Proofs.Search.Slices
import Mathlib.Data.Nat.Find
import Mathlib.Order.Bounds.Defs

/-!
# Slices by distance

The walk of a slice goes depth first, so it may come to a node on a long way before it finds a short
one. All the same the bound cuts off by distance: what is in the slice depends on shortest walks
only, not on the order of the edges.
-/

namespace CodeAtlas

/-- `b` is `k` steps away from `a`: some walk takes `k` steps, and none takes fewer. -/
def IsDistance {α : Type} (R : α → α → Prop) (a b : α) (k : Nat) : Prop :=
  IsLeast {n | Walk R a b n} k

/-- What holds of the length of some walk, and of all smaller numbers, holds of the distance. -/
theorem exists_isDistance_iff {α : Type} {R : α → α → Prop} {a b : α} {P : Nat → Prop}
    (hP : ∀ j k, j ≤ k → P k → P j) :
    (∃ k, IsDistance R a b k ∧ P k) ↔ ∃ k, Walk R a b k ∧ P k := by
  classical
  constructor
  · rintro ⟨k, hk, hpk⟩
    exact ⟨k, hk.1, hpk⟩
  · rintro ⟨k, hk, hpk⟩
    have hwalk : ∃ n, Walk R a b n := ⟨k, hk⟩
    have hle : Nat.find hwalk ≤ k := Nat.find_min' hwalk hk
    exact ⟨Nat.find hwalk, ⟨Nat.find_spec hwalk, fun n hn => Nat.find_min' hwalk hn⟩,
      hP _ k hle hpk⟩

namespace Graph

variable {g : Graph} {filter : KindFilter} {direction : Direction} {o : SliceOptions}
  {s : String} {e : Edge}

/-- Some admitted edge can be followed from `a` to `b`. -/
def Steps (g : Graph) (direction : Direction) (filter : KindFilter) (a b : String) : Prop :=
  ∃ e ∈ g.edges, filter.admits e.kind = true ∧ direction.Follows e a b

namespace Consistent

variable (hg : g.Consistent)

include hg

theorem next_eq_steps (direction : Direction) (filter : KindFilter) :
    SliceWalk.Next (g.hops direction filter) = g.Steps direction filter := by
  funext a b
  exact propext (exists_congr fun e => hg.mem_hops_iff)

/-- The edges that the walk followed are those that can be followed from a node that some walk leads
to in fewer steps than the bound. -/
theorem mem_sliceWalk_followed (hs : s ∈ g.nodeIds) :
    e ∈ (g.sliceWalk s direction o).followed ↔
      e ∈ g.edges ∧ o.kinds.admits e.kind = true ∧ ∃ a b, direction.Follows e a b ∧
        ∃ k, Walk (g.Steps direction o.kinds) s a k ∧ ∀ d ∈ o.maxDepth, k < d := by
  have hinv := hg.sliceWalk_invariant hs direction o
  constructor
  · intro he
    obtain ⟨a, k, b, hwalk, hopens, hhop⟩ :=
      SliceWalk.Traced.run o (hg.hops_mem direction o.kinds) hs g.sliceBudget e he
    obtain ⟨hmem, hadmits, hfollows⟩ := hg.mem_hops_iff.mp hhop
    rw [hg.next_eq_steps] at hwalk
    exact ⟨hmem, hadmits, a, b, hfollows, k, hwalk, SliceWalk.opens_iff.mp hopens⟩
  · rintro ⟨hmem, hadmits, a, b, hfollows, k, hwalk, hlt⟩
    rw [← hg.next_eq_steps] at hwalk
    have hid : e.id ∈ (g.sliceWalk s direction o).followed.map Edge.id :=
      (hg.mem_sliceWalk_followed_iff hs).mpr ⟨e, a, k, b, hwalk, SliceWalk.opens_iff.mpr hlt,
        hg.mem_hops_iff.mpr ⟨hmem, hadmits, hfollows⟩, rfl⟩
    -- ids are unique, so the edge that was followed under this id is `e`
    obtain ⟨x, hx, heq⟩ := List.mem_map.mp hid
    obtain ⟨a', -, b', -, hhop⟩ := hinv.followed_from x hx
    have hxmem := (hg.mem_hops_iff.mp hhop).1
    rwa [← List.inj_on_of_nodup_map hg.edgeIds_nodup hxmem hmem heq]

end Consistent

/-- **Slices by distance.** From every node of a reachable graph, in every direction and under all
options, the walk of a slice ends with nothing open, and the slice is not refused. It holds each node
whose distance from the start is within the bound, once and with its own data, and each edge that can
be followed from a node nearer than the bound, once and unchanged, and nothing else. -/
theorem slice_by_distance (hg : g.Reachable) (hs : s ∈ g.nodeIds) (direction : Direction)
    (o : SliceOptions) :
    (g.sliceWalk s direction o).stack = [] ∧
    ∃ part, g.slice s (.str (Spelled.text direction)) o = .ok part ∧
      part.nodeIds.Nodup ∧
      (∀ a, a ∈ part.nodeIds ↔
        ∃ k, IsDistance (g.Steps direction o.kinds) s a k ∧ ∀ d ∈ o.maxDepth, k ≤ d) ∧
      (∀ n ∈ part.nodes, (g.node? n.id).map Node.detached = some n.detached) ∧
      part.edgeIds.Nodup ∧
      ∀ e, e ∈ part.edges ↔ e ∈ g.edges ∧ o.kinds.admits e.kind = true ∧
        ∃ a b, direction.Follows e a b ∧
          ∃ k, IsDistance (g.Steps direction o.kinds) s a k ∧ ∀ d ∈ o.maxDepth, k < d := by
  have hc := hg.consistent
  have hinv := hc.sliceWalk_invariant hs direction o
  have hdirection : Direction.ofValue (.str (Spelled.text direction)) = .ok direction := by
    cases direction <;> rfl
  obtain ⟨part, hpart, hnodes, hids, hedges⟩ := hc.exists_slice_of_walk hs hdirection o
  refine ⟨hc.sliceWalk_stack hs direction o, part, hpart, ?_, fun a => ?_, fun n hn => ?_, ?_,
    fun e => ?_⟩
  · rw [hids]
    exact hinv.order_nodup
  · rw [hids, hc.mem_sliceWalk_order_iff hs, hc.next_eq_steps, exists_isDistance_iff]
    exact fun j k hjk hk d hd => Nat.le_trans hjk (hk d hd)
  · rw [hnodes] at hn
    obtain ⟨m, hm, rfl⟩ := List.mem_map.mp hn
    obtain ⟨id, -, hfind⟩ := List.mem_filterMap.mp hm
    obtain ⟨-, rfl⟩ := hc.node?_eq_some_iff.mp hfind
    rw [Node.linked_id, hfind]
    rfl
  · unfold edgeIds
    rw [hedges]
    exact hinv.followed_nodup
  · rw [hedges, hc.mem_sliceWalk_followed hs]
    refine and_congr_right fun _ => and_congr_right fun _ => exists_congr fun a =>
      exists_congr fun b => and_congr_right fun _ => (exists_isDistance_iff ?_).symm
    exact fun j k hjk hk d hd => Nat.lt_of_le_of_lt hjk (hk d hd)

/-- Three steps forward from the node `f` of `knots`, the walk comes to `e` first by its last step and
then again by a single one, so that the edge from `e` back to `d` is in the slice too. -/
theorem slice_by_distance_knots :
    knots.Reachable ∧ "f" ∈ knots.nodeIds ∧ IsDistance (knots.Steps .forward none) "f" "e" 1 ∧
      ∃ part, knots.slice "f" (.str "forward") { maxDepth := some 3 } = .ok part ∧
        part.nodeIds = ["f", "c", "a", "b", "d", "e"] ∧
        { id := "edge_9", source := "e", target := "d", kind := .calls } ∈ part.edges ∧
        ∃ k, IsDistance (knots.Steps .forward none) "f" "b" k ∧ k ≤ 3 := by
  have hf : "f" ∈ knots.nodeIds := by decide
  have hfar : IsDistance (knots.Steps .forward none) "f" "e" 1 := by
    refine ⟨.single ⟨{ id := "edge_10", source := "f", target := "e", kind := .calls },
      List.mem_of_getElem? (i := 9) rfl, rfl, rfl, rfl⟩, fun n hn => ?_⟩
    cases n with
    | zero => exact absurd (Walk.eq_of_zero hn) (by decide)
    | succ n => exact Nat.le_add_left 1 n
  obtain ⟨-, part, hpart, -, hnodes, -, -, hedges⟩ :=
    slice_by_distance knots_reachable hf .forward { maxDepth := some 3 }
  have hfound : (knots.slice "f" (.str "forward") { maxDepth := some 3 }).map nodeIds =
      .ok ["f", "c", "a", "b", "d", "e"] := rfl
  have hids : part.nodeIds = ["f", "c", "a", "b", "d", "e"] := by
    rw [show knots.slice "f" (.str "forward") { maxDepth := some 3 } = .ok part from hpart] at hfound
    exact Except.ok.inj hfound
  refine ⟨knots_reachable, hf, hfar, part, hpart, hids, ?_, ?_⟩
  · refine (hedges _).mpr ⟨List.mem_of_getElem? (i := 8) rfl, rfl, "e", "d", ⟨rfl, rfl⟩, 1, hfar, ?_⟩
    intro d hd
    obtain rfl := Option.some.inj hd
    decide
  · obtain ⟨k, hk, hle⟩ := (hnodes "b").mp (by rw [hids]; simp)
    exact ⟨k, hk, hle 3 rfl⟩

end Graph

end CodeAtlas
