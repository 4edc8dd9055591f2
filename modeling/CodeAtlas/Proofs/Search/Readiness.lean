import CodeAtlas.Proofs.Search.Closure
import CodeAtlas.Proofs.Search.Components
import CodeAtlas.Proofs.Search.Cycles
import CodeAtlas.Proofs.Search.Paths
import CodeAtlas.Proofs.Search.Slices

/-!
# What a search looks up is there

The searches look up depths and numbers that an earlier step wrote down, and go back along trails
that an earlier step laid. A state is ready when all that the next step needs is there. Every state
of every run from a node of the graph is ready.
-/

namespace CodeAtlas

/-! ## Trails -/

theorem PathSearch.ready_run (successors : String → List String) (start finish : String)
    (limit : Option Int) (k : Nat) :
    (iterate (step successors finish limit) k
      { trail := Trail.start successors start }).trail.Ready :=
  backtracks.ready_run reads start [] k

namespace CycleSearch

/-- The trail can be gone back, and a cycle that is closed now has a least node. -/
structure Ready (s : CycleSearch) : Prop where
  trail : s.trail.Ready
  least_ne_none : s.trail.todo ≠ [] → least s.trail.path.reverse ≠ none

theorem ready_run (successors : String → List String) (home : String) (limit : Option Int)
    (unique : Bool) (report : CycleReport) (k : Nat) :
    (iterate (step successors home limit unique) k
      { trail := Trail.start successors home, report }).Ready := by
  have htrail : (iterate (step successors home limit unique) k
      { trail := Trail.start successors home, report }).trail.Ready :=
    (backtracks unique).ready_run reads home report k
  refine ⟨htrail, fun htodo hleast => htrail.path_ne_nil htodo ?_⟩
  exact List.reverse_eq_nil_iff.mp (least_eq_none_iff.mp hleast)

end CycleSearch

/-! ## Numbers -/

namespace ComponentSearch

variable {successors : String → List String} {ids : List String} {s t : ComponentSearch}

/-- Open nodes and pending nodes have their numbers, and an open node is found among the pending
ones when its component is taken off them. -/
structure Ready (s : ComponentSearch) : Prop where
  opened_index : ∀ n ∈ s.opened, s.index.has n = true
  opened_low : ∀ n ∈ s.opened, s.low.has n = true
  opened_pending : ∀ n ∈ s.opened, n ∈ s.pending
  pending_index : ∀ n ∈ s.pending, s.index.has n = true

/-- Whatever has a number has a low number. -/
def Numbered (s : ComponentSearch) : Prop :=
  ∀ a, s.index.has a = true → s.low.has a = true

theorem Numbered.discover (h : s.Numbered) (m : String) :
    (s.discover successors m).Numbered := by
  intro a ha
  refine (Assoc.has_set s.low m a s.next).mpr (Or.imp_right (h a) ?_)
  exact (Assoc.has_set s.index m a s.next).mp ha

theorem Numbered.lower (h : s.Numbered) (n : String) (bound : Nat) :
    (s.lower n bound).Numbered :=
  fun a ha => (Assoc.has_set s.low n a _).mpr (Or.inr (h a ha))

theorem Numbered.report (h : s.Numbered) (n : String) : (s.report n).Numbered := by
  unfold ComponentSearch.report
  split
  · exact h
  · exact h.lower _ _

theorem Numbered.close (h : s.Numbered) (n : String) : (s.close n).Numbered := by
  unfold ComponentSearch.close
  split <;> exact h

theorem Numbered.step (h : s.Numbered) (hstep : ComponentSearch.step successors s = some t) :
    t.Numbered := by
  rcases step_cases hstep with ⟨n, m, rest, below, -, hcase⟩ | ⟨n, below, -, rfl⟩
  · have hrest : ({ s with work := (n, rest) :: below } : ComponentSearch).Numbered := h
    rcases hcase with ⟨-, rfl⟩ | ⟨-, -, rfl⟩ | ⟨-, -, rfl⟩
    · exact hrest.discover m
    · exact hrest.lower n _
    · exact hrest
  · have hbelow : ({ s with work := below } : ComponentSearch).Numbered := h
    exact (hbelow.report n).close n

theorem Numbered.searchFrom (h : s.Numbered) (budget : Nat) (root : String) :
    (s.searchFrom successors budget root).Numbered := by
  unfold ComponentSearch.searchFrom
  split
  · exact h
  · exact iterate_induction (fun _ _ h hstep => Numbered.step h hstep) budget _ (h.discover root)

theorem Numbered.foldl (h : s.Numbered) (budget : Nat) (roots : List String) :
    (roots.foldl (ComponentSearch.searchFrom successors budget) s).Numbered := by
  induction roots generalizing s with
  | nil => exact h
  | cons root roots ih => exact ih (h.searchFrom budget root)

theorem Invariant.ready (h : Invariant successors ids s) (hnumbered : s.Numbered) : s.Ready := by
  have hpending : ∀ n ∈ s.pending, s.index.has n = true :=
    fun n hn => (h.has_iff n).mpr (List.mem_append_left _ hn)
  have hopened : ∀ n ∈ s.opened, s.index.has n = true :=
    fun n hn => hpending n (h.opened_pending n hn)
  exact ⟨hopened, fun n hn => hnumbered n (hopened n hn), h.opened_pending, hpending⟩

/-- Every state of the search from a new root is ready. -/
theorem Rests.ready_run (hclosed : ∀ a ∈ ids, ∀ b ∈ successors a, b ∈ ids)
    (h : Rests successors ids s) (hnumbered : s.Numbered) {root : String} (hroot : root ∈ ids)
    (hnew : ¬s.index.has root = true) (k : Nat) :
    (iterate (ComponentSearch.step successors) k (s.discover successors root)).Ready := by
  have hrun := iterate_induction (P := fun t => Invariant successors ids t ∧ t.Numbered)
    (fun _ _ h hstep => ⟨h.1.step hclosed hstep, h.2.step hstep⟩) k (s.discover successors root)
    ⟨h.invariant_discover hroot hnew, hnumbered.discover root⟩
  exact hrun.1.ready hrun.2

end ComponentSearch

/-! ## Depths -/

/-- Every open node has its depth. -/
def SliceWalk.Ready (w : SliceWalk) : Prop :=
  ∀ n todo, (n, todo) ∈ w.stack → (w.depths.get? n).isSome = true

theorem SliceWalk.Invariant.ready {hops : String → List Hop} {o : SliceOptions} {origin : String}
    {ids : List String} {w : SliceWalk} (h : Invariant hops o origin ids w) : w.Ready := by
  intro n todo hframe
  obtain ⟨k, -, hget⟩ := h.staged.get?_of_mem (List.mem_map_of_mem hframe)
  rw [hget]
  rfl

/-! ## Reached nodes -/

/-- A pass over the nodes keeps an entry for each of them. -/
theorem Reach.isSome_get?_foldl {r : Reach} {a : String} (h : (r.get? a).isSome = true)
    (vias : List String) : ((vias.foldl Reach.through r).get? a).isSome = true := by
  induction vias generalizing r with
  | nil => exact h
  | cons via vias ih =>
    refine ih ?_
    rw [Reach.get?_through, Option.isSome_map]
    exact h

end CodeAtlas
