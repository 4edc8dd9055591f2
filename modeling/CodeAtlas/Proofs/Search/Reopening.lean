import CodeAtlas.Proofs.Search.Distances

/-!
# Opening nodes again

Under a depth bound the walk of a slice may open a node several times, so it is not enough to say that
each node is visited once. What bounds the walk is that an open node stands at its recorded depth: the
nodes below it are the way to it, a shorter way cannot come from above, and so a node is opened again
only after it was closed, at a smaller depth than before.
-/

namespace CodeAtlas

namespace SliceWalk

variable {hops : String → List Hop} {o : SliceOptions} {origin : String} {ids : List String}
  {w t : SliceWalk} {depths : Assoc Nat} {stack below : List (String × List Hop)}
  {a m : String} {todo : List Hop} {d i : Nat}

/-- Counted from the lowest open node, the place of a node is its recorded depth. -/
theorem Staged.get?_of_getElem? (h : Staged depths stack)
    (hframe : stack.reverse[i]? = some (a, todo)) : depths.get? a = some i := by
  induction stack with
  | nil => cases hframe
  | cons frame below ih =>
    rw [List.reverse_cons] at hframe
    rcases Nat.lt_or_ge i below.reverse.length with hlow | htop
    · rw [List.getElem?_append_left hlow] at hframe
      exact ih h.2 hframe
    · rw [List.getElem?_append_right htop] at hframe
      obtain ⟨hi, heq⟩ := List.getElem?_eq_some_iff.mp hframe
      have hplace : i = below.length := by
        rw [List.length_reverse] at hi htop
        rw [List.length_singleton] at hi
        omega
      obtain rfl : frame = (a, todo) := by simpa using heq
      rw [hplace]
      exact h.1

/-- A recorded depth is kept or replaced by a smaller one. -/
theorem Move.exists_le (hmove : Move hops o w t) (hget : w.depths.get? a = some d) :
    ∃ d' ≤ d, t.depths.get? a = some d' := by
  cases hmove with
  | close _ _ => exact ⟨d, Nat.le_refl d, hget⟩
  | pass _ _ _ _ => exact ⟨d, Nat.le_refl d, hget⟩
  | @enter n m e rest below _ _ hfar =>
    have hset : (w.depths.set m (w.depth n + 1)).get? a =
        if a = m then some (w.depth n + 1) else w.depths.get? a := Assoc.get?_set _ _ _ _
    by_cases ha : a = m
    · rw [if_pos ha] at hset
      rw [ha] at hget
      exact ⟨w.depth n + 1, Nat.le_of_lt (hfar d hget), hset⟩
    · rw [if_neg ha, hget] at hset
      exact ⟨d, Nat.le_refl d, hset⟩

/-- Only a node that is not open is put on the stack, and its depth is new or smaller than before. -/
theorem Move.opened (hmove : Move hops o w t) (h : Invariant hops o origin ids w)
    (hstack : t.stack = (m, todo) :: below) (hlength : below.length = w.stack.length) :
    m ∉ w.stack.map Prod.fst ∧
      ∃ d', t.depths.get? m = some d' ∧ ∀ d, w.depths.get? m = some d → d' < d := by
  cases hmove with
  | @close n todo' below' hold _ =>
    obtain rfl : below' = (m, todo) :: below := hstack
    rw [hold, List.length_cons, List.length_cons] at hlength
    omega
  | pass hold _ _ _ =>
    obtain ⟨-, rfl⟩ := List.cons.inj hstack
    rw [hold, List.length_cons] at hlength
    omega
  | @enter n m' e rest below' hold _ hfar =>
    obtain rfl : m' = m := (Prod.mk.inj (List.cons.inj hstack).1).1
    refine ⟨h.not_opened hold hfar, w.depth n + 1, ?_, hfar⟩
    exact (Assoc.get?_set _ _ _ _).trans (if_pos rfl)

end SliceWalk

namespace Graph

variable {g : Graph} {s : String}

def sliceWalkAfter (g : Graph) (start : String) (direction : Direction) (o : SliceOptions)
    (k : Nat) : SliceWalk :=
  iterate (SliceWalk.step (g.hops direction o.kinds) o) k
    (SliceWalk.start (g.hops direction o.kinds) start)

/-- As the walk goes on, a recorded depth can only become smaller. -/
theorem exists_le_sliceWalkAfter (direction : Direction) (o : SliceOptions) {j k : Nat}
    (hjk : j ≤ k) {a : String} {d : Nat}
    (hget : (g.sliceWalkAfter s direction o j).depths.get? a = some d) :
    ∃ d' ≤ d, (g.sliceWalkAfter s direction o k).depths.get? a = some d' := by
  induction k, hjk using Nat.le_induction with
  | base => exact ⟨d, Nat.le_refl d, hget⟩
  | succ k _ ih =>
    obtain ⟨d', hle, hd'⟩ := ih
    rcases iterate_succ (SliceWalk.step (g.hops direction o.kinds) o) k
      (SliceWalk.start (g.hops direction o.kinds) s) with ⟨-, hrests⟩ | hstep
    · refine ⟨d', hle, ?_⟩
      rw [sliceWalkAfter, hrests]
      exact hd'
    · obtain ⟨d'', hle', hd''⟩ := (SliceWalk.move_of_step hstep).exists_le hd'
      exact ⟨d'', Nat.le_trans hle' hle, hd''⟩

namespace Consistent

variable (hg : g.Consistent)

include hg

theorem sliceWalkAfter_invariant (hs : s ∈ g.nodeIds) (direction : Direction) (o : SliceOptions)
    (k : Nat) : SliceWalk.Invariant (g.hops direction o.kinds) o s g.nodeIds
      (g.sliceWalkAfter s direction o k) :=
  .run o (hg.hops_mem direction o.kinds) hs k

/-- The walk comes to rest after some number of steps, with nothing open, and not before. -/
theorem exists_last (hs : s ∈ g.nodeIds) (direction : Direction) (o : SliceOptions) :
    ∃ last ≤ g.sliceBudget,
      (∀ k, (g.sliceWalkAfter s direction o k).stack = [] ↔ last ≤ k) ∧
      g.sliceWalk s direction o = g.sliceWalkAfter s direction o last := by
  have hstops : ∀ w : SliceWalk, SliceWalk.step (g.hops direction o.kinds) o w = none ↔
      w.stack = [] := fun w =>
    ⟨SliceWalk.stack_eq_nil_of_step, SliceWalk.step_of_stack_eq_nil⟩
  have hend := (hstops _).mpr (hg.sliceWalk_stack hs direction o)
  obtain ⟨last, hle, hlast⟩ := exists_last_step hend
  exact ⟨last, hle, fun k => (hstops _).symm.trans (hlast k),
    iterate_eq_of_stopped hend ((hlast last).mpr (Nat.le_refl last))⟩

end Consistent

/-- **Opening nodes again.** At every step of the walk of a slice from a node of a reachable graph, the
open nodes are distinct; the recorded depth of an open node is its place among them, counted from the
start; and each recorded depth is the length of a walk along edges of the graph. Later on a recorded
depth can only be smaller. A node is opened only while it is not open, and if it was opened before, its
recorded depth is then smaller than it was. Whatever the cycles of the graph, the walk has something
open up to a last step within its budget, nothing from then on, and that is what the slice is made
of. -/
theorem slice_walk_reopens (hg : g.Reachable) (hs : s ∈ g.nodeIds) (direction : Direction)
    (o : SliceOptions) :
    (∀ k, ((g.sliceWalkAfter s direction o k).stack.map Prod.fst).Nodup ∧
      (∀ i a todo, (g.sliceWalkAfter s direction o k).stack.reverse[i]? = some (a, todo) →
        (g.sliceWalkAfter s direction o k).depths.get? a = some i) ∧
      ∀ a d, (g.sliceWalkAfter s direction o k).depths.get? a = some d →
        Walk (g.Steps direction o.kinds) s a d) ∧
    (∀ j k, j ≤ k → ∀ a d, (g.sliceWalkAfter s direction o j).depths.get? a = some d →
      ∃ d' ≤ d, (g.sliceWalkAfter s direction o k).depths.get? a = some d') ∧
    (∀ k a todo below, (g.sliceWalkAfter s direction o (k + 1)).stack = (a, todo) :: below →
      below.length = (g.sliceWalkAfter s direction o k).stack.length →
        a ∉ (g.sliceWalkAfter s direction o k).stack.map Prod.fst ∧
        ∃ d', (g.sliceWalkAfter s direction o (k + 1)).depths.get? a = some d' ∧
          ∀ d, (g.sliceWalkAfter s direction o k).depths.get? a = some d → d' < d) ∧
    ∃ last ≤ g.sliceBudget,
      (∀ k, (g.sliceWalkAfter s direction o k).stack = [] ↔ last ≤ k) ∧
      g.sliceWalk s direction o = g.sliceWalkAfter s direction o last := by
  have hc := hg.consistent
  have hinv := hc.sliceWalkAfter_invariant hs direction o
  refine ⟨fun k => ⟨(hinv k).staged.nodup, ?_, ?_⟩, ?_, ?_, hc.exists_last hs direction o⟩
  · exact fun i a todo hframe => (hinv k).staged.get?_of_getElem? hframe
  · intro a d hget
    rw [← hc.next_eq_steps]
    exact (hinv k).walk a d hget
  · exact fun j k hjk a d hget => exists_le_sliceWalkAfter direction o hjk hget
  · intro k a todo below hstack hlength
    rcases iterate_succ (SliceWalk.step (g.hops direction o.kinds) o) k
      (SliceWalk.start (g.hops direction o.kinds) s) with ⟨-, hrests⟩ | hstep
    · -- at rest nothing is opened
      have hsame := congrArg (fun w : SliceWalk => w.stack.length) hrests
      have hlonger := congrArg List.length hstack
      rw [List.length_cons, hlength] at hlonger
      exact absurd (hlonger.symm.trans hsame) (Nat.succ_ne_self _)
    · exact (SliceWalk.move_of_step hstep).opened (hinv k) hstack hlength

/-- Three steps forward from `f`, the node `e` is closed at depth three before the edge from `f` to it
opens it again. -/
theorem slice_walk_reopens_knots :
    knots.Reachable ∧ "f" ∈ knots.nodeIds ∧
      (knots.sliceWalkAfter "f" .forward { maxDepth := some 3 } 12).depths.get? "e" = some 3 ∧
      (∃ d < 3, (knots.sliceWalkAfter "f" .forward { maxDepth := some 3 } 13).depths.get? "e" =
        some d) ∧
      Walk (knots.Steps .forward none) "f" "e" 1 ∧
      ∃ last ≤ knots.sliceBudget, ∀ k,
        (knots.sliceWalkAfter "f" .forward { maxDepth := some 3 } k).stack = [] ↔ last ≤ k := by
  have hf : "f" ∈ knots.nodeIds := by decide
  obtain ⟨hstates, -, hopened, last, hlast, hends, -⟩ :=
    slice_walk_reopens knots_reachable hf .forward { maxDepth := some 3 }
  have hbefore : (knots.sliceWalkAfter "f" .forward { maxDepth := some 3 } 12).depths.get? "e" =
      some 3 := rfl
  have hafter : (knots.sliceWalkAfter "f" .forward { maxDepth := some 3 } 13).depths.get? "e" =
      some 1 := rfl
  refine ⟨knots_reachable, hf, hbefore, ?_, (hstates 13).2.2 "e" 1 hafter, last, hlast, hends⟩
  obtain ⟨-, d, hd, hless⟩ := hopened 12 "e" _ _ rfl rfl
  exact ⟨d, hless 3 hbefore, hd⟩

end Graph

end CodeAtlas
