import CodeAtlas.Proofs.Graph.Reachable
import CodeAtlas.Proofs.Search.Components
import CodeAtlas.Proofs.Search.Cycles
import CodeAtlas.Proofs.Search.Paths

/-!
# Trails

A backtracking search keeps three lists side by side: the nodes on its way, the successors that are
still to be tried of each of them, and the nodes that may not be entered. A node is put on all three
or taken off all three, so they fit together whenever the search has gone on or back, and also in
between, since a step looks at a single successor.

The search remembers nothing of a node that it has gone back from, and enters it again on every other
way to it. It ends because a way visits no node twice: a way cannot be longer than the graph has
nodes, and each step goes back or uses up a successor of a node on the way. A successor that is used
up weighs more than everything that can be opened above it.
-/

namespace CodeAtlas

namespace Trail

variable {successors : String → List String} {home : String} {t u : Trail} {plan : Strategy}
  {ids : List String} {size width : Nat}

/-! ## What a step keeps -/

/-- What holds of the trail of a search from `home`. Each node has a suffix of its successors still
to try, and where the trail goes on from it, the node that comes next stands right before these. -/
structure Sound (successors : String → List String) (home : String) (t : Trail) : Prop
    extends t.Ready where
  getLast_eq : ∀ n ∈ t.path.getLast?, n = home
  nodup : t.path.Nodup
  chain : t.path.IsChain fun b a => b ∈ successors a
  suffix : List.Forall₂ (fun rest n => rest <:+ successors n) t.todo t.path
  entered : List.Forall₂ (fun rest n => rest <:+ successors n)
    (List.zipWith List.cons t.path t.todo.tail) t.path.tail

theorem sound_start : (start successors home).Sound successors home where
  length_eq := rfl
  visiting_eq := rfl
  getLast_eq := fun _ hn => (Option.some.inj hn).symm
  nodup := List.nodup_singleton home
  chain := List.isChain_singleton home
  suffix := .cons (List.suffix_refl _) .nil
  entered := .nil

namespace Sound

/-- Where there is a trail, it is a simple path from its start to the current node. -/
theorem isPath (h : t.Sound successors home) (hne : t.path ≠ []) :
    IsPath (fun a b => b ∈ successors a) home (t.path.head hne) t.path.reverse where
  head_eq := by
    have hlast := List.getLast?_eq_some_getLast hne
    rw [List.head?_reverse, hlast, h.getLast_eq _ hlast]
  last_eq := by rw [List.getLast?_reverse, List.head?_eq_some_head hne]
  chain := List.isChain_reverse.mpr h.chain
  nodup := List.nodup_reverse.mpr h.nodup

/-- When nothing is left to try, nothing is left of the trail. -/
theorem eq_empty (h : t.Sound successors home) (htodo : t.todo = []) :
    t = { todo := [], path := [], visiting := [] } := by
  obtain ⟨todo, path, visiting⟩ := t
  obtain rfl : todo = [] := htodo
  obtain rfl : path = [] := List.length_eq_zero_iff.mp h.length_eq.symm
  obtain rfl : visiting = [] := h.visiting_eq
  rfl

/-- The trail keeps to the nodes that the search stays within. -/
theorem subset (h : t.Sound plan.successors home) (hfits : plan.Fits ids width)
    (hhome : home ∈ ids) : t.path ⊆ ids := by
  intro x hx
  have hpath := h.isPath (List.ne_nil_of_mem hx)
  obtain ⟨q, hq⟩ := List.head?_eq_some_iff.mp hpath.head_eq
  have hchain := hpath.chain
  rw [hq] at hchain
  have hrest : ∀ y ∈ q, y ∈ ids := forall_mem_of_isChain hfits.mem hchain
  rw [← List.mem_reverse, hq] at hx
  exact List.forall_mem_cons.mpr ⟨hhome, hrest⟩ x hx

theorem length_le (h : t.Sound plan.successors home) (hfits : plan.Fits ids width)
    (hhome : home ∈ ids) : t.todo.length ≤ ids.length := by
  rw [h.length_eq]
  exact (h.nodup.subperm (h.subset hfits hhome)).length_le

variable {m n : String} {rest path : List String} {below : List (List String)}

theorem leave (h : Sound successors home
    { todo := [] :: below, path := n :: path, visiting := n :: path }) :
    Sound successors home { todo := below, path, visiting := path } where
  length_eq := Nat.succ.inj h.length_eq
  visiting_eq := rfl
  getLast_eq := by
    intro a ha
    refine h.getLast_eq a ?_
    cases path with
    | nil => cases ha
    | cons b path => rwa [List.getLast?_cons_cons]
  nodup := h.nodup.of_cons
  chain := h.chain.tail
  suffix := by
    cases h.suffix with
    | cons _ hbelow => exact hbelow
  entered := by
    have hentered := h.entered
    cases below with
    | nil =>
      -- the start was left, and no node is below it
      cases hentered
      exact .nil
    | cons rest below =>
      cases hentered with
      | cons _ hbelow => exact hbelow

theorem pass (h : Sound successors home
    { todo := (m :: rest) :: below, path, visiting := path }) :
    Sound successors home { todo := rest :: below, path, visiting := path } where
  length_eq := h.length_eq
  visiting_eq := rfl
  getLast_eq := h.getLast_eq
  nodup := h.nodup
  chain := h.chain
  suffix := by
    cases h.suffix with
    | cons hfirst hbelow => exact .cons ((List.suffix_cons m rest).trans hfirst) hbelow
  entered := h.entered

theorem enter (h : Sound successors home
    { todo := (m :: rest) :: below, path, visiting := path }) (hnew : m ∉ path) :
    Sound successors home
      { todo := successors m :: rest :: below, path := m :: path, visiting := m :: path } := by
  have hpass := h.pass
  cases h.suffix with
  | @cons _ n _ path hfirst hbelow =>
    have hm : m ∈ successors n := hfirst.subset List.mem_cons_self
    exact {
      length_eq := congrArg (· + 1) h.length_eq
      visiting_eq := rfl
      getLast_eq := h.getLast_eq
      nodup := List.nodup_cons.mpr ⟨hnew, h.nodup⟩
      chain := List.isChain_cons_cons.mpr ⟨hm, h.chain⟩
      suffix := .cons (List.suffix_refl _) hpass.suffix
      entered := .cons hfirst h.entered }

end Sound

theorem Move.sound (hmove : t.Move plan u) (hfits : plan.Fits ids width)
    (h : t.Sound plan.successors home) : u.Sound plan.successors home := by
  cases hmove with
  | leave => exact h.leave
  | pass _ => exact h.pass
  | enter henters => exact h.enter (hfits.new _ _ henters)

/-! ## What a step uses up -/

/-- The most steps that can be left with these successors still to try, where a trail has at most
`size` nodes: one to leave each node, and for each successor one to look at it and those of a search
from it. -/
def potential (size width : Nat) : List (List String) → Nat
  | [] => 0
  | rest :: below =>
    1 + rest.length * (1 + searchBudget width (size - (below.length + 1))) +
      potential size width below

/-- What is opened at a node is within the budget of a search from it. -/
theorem potential_cons_le {rest : List String} (below : List (List String))
    (hrest : rest.length ≤ width) (hroom : below.length < size) :
    potential size width (rest :: below) ≤
      searchBudget width (size - below.length) + potential size width below := by
  obtain ⟨spare, rfl⟩ := Nat.exists_eq_add_of_lt hroom
  have hdepth : below.length + spare + 1 - (below.length + 1) = spare := by omega
  have hopen : below.length + spare + 1 - below.length = spare + 1 := by omega
  rw [potential, hdepth, hopen, searchBudget]
  have hmul := Nat.mul_le_mul_right (1 + searchBudget width spare) hrest
  omega

/-- Using up a successor lowers the bound by a search from this successor, and by one. -/
theorem potential_cons_cons (m : String) (rest : List String) (below : List (List String)) :
    potential size width ((m :: rest) :: below) = potential size width (rest :: below) +
      (1 + searchBudget width (size - (below.length + 1))) := by
  rw [potential, potential, List.length_cons, Nat.succ_mul]
  omega

theorem Move.potential_lt (hmove : t.Move plan u) (hfits : plan.Fits ids width)
    (hhome : home ∈ ids) (h : t.Sound plan.successors home) :
    potential ids.length width u.todo < potential ids.length width t.todo := by
  have hlength := (hmove.sound hfits h).length_le hfits hhome
  cases hmove with
  | @leave n below path =>
    show potential _ _ below < potential _ _ ([] :: below)
    rw [potential]
    omega
  | @pass m rest below path _ =>
    show potential _ _ (rest :: below) < potential _ _ ((m :: rest) :: below)
    rw [potential_cons_cons]
    omega
  | @enter m rest below path _ =>
    show potential _ _ (plan.successors m :: rest :: below) < potential _ _ ((m :: rest) :: below)
    have hopened := potential_cons_le (rest :: below) (hfits.length_le m) hlength
    rw [potential_cons_cons]
    rw [List.length_cons] at hopened
    omega

end Trail

/-! ## A run -/

namespace Backtracks

variable {σ ω : Type} {step : σ → Option σ} {state : Trail → ω → σ} {add : ω → List String → ω}
  {plan : Strategy} {ids : List String} {width : Nat} {home : String} {trail : σ → Trail}

section Run

variable (hb : Backtracks step state add plan) (hreads : Reads state trail)
  (hfits : plan.Fits ids width) {s : σ} (hs : (trail s).Sound plan.successors home)

include hb hreads hfits hs

theorem sound_run (k : Nat) : (trail (iterate step k s)).Sound plan.successors home :=
  iterate_induction (P := fun s => (trail s).Sound plan.successors home)
    (fun _ _ h hstep => (hb.move_of_step hreads h.toReady hstep).sound hfits h) k s hs

/-- As long as something is left to try, a step lowers the bound on the steps that are left. -/
theorem potential_run_lt (hhome : home ∈ ids) {k : Nat}
    (htodo : (trail (iterate step k s)).todo ≠ []) :
    Trail.potential ids.length width (trail (iterate step (k + 1) s)).todo <
      Trail.potential ids.length width (trail (iterate step k s)).todo := by
  have hk := hb.sound_run hreads hfits hs k
  rcases iterate_succ step k s with ⟨hstop, -⟩ | hstep
  · exact absurd ((hb.step_eq_none_iff hreads hk.toReady).mp hstop) htodo
  · exact (hb.move_of_step hreads hk.toReady hstep).potential_lt hfits hhome hk

/-- The machine has something left to try up to a last step, after which it has nothing. -/
theorem exists_last (hhome : home ∈ ids) {fuel : Nat}
    (hfuel : Trail.potential ids.length width (trail s).todo < fuel) :
    ∃ last ≤ fuel, ∀ k, (trail (iterate step k s)).todo = [] ↔ last ≤ k := by
  have hend := step_iterate_eq_none (P := fun s => (trail s).Sound plan.successors home)
    (fun s => Trail.potential ids.length width (trail s).todo)
    (fun _ _ h hstep => (hb.move_of_step hreads h.toReady hstep).sound hfits h)
    (fun _ _ h hstep => (hb.move_of_step hreads h.toReady hstep).potential_lt hfits hhome h)
    fuel s hs hfuel
  obtain ⟨last, hle, hlast⟩ := exists_last_step hend
  refine ⟨last, hle, fun k => ?_⟩
  rw [← hlast k, hb.step_eq_none_iff hreads (hb.sound_run hreads hfits hs k).toReady]

end Run

end Backtracks

/-! ## Searches of a graph -/

namespace Graph

variable {g : Graph} {filter : KindFilter} {s : String}

/-- The trails of a search from `home` along admitted edges, `trail k` after `k` steps. They are sound,
each step uses something up, and from a last step within the budget on they are empty. -/
structure TrailRun (g : Graph) (filter : KindFilter) (home : String) (trail : Nat → Trail) :
    Prop where
  sound : ∀ k, (trail k).Sound (g.nextNodes filter) home
  isPath : ∀ k, (trail k).todo ≠ [] →
    ∃ n, IsPath (g.Adjacent filter) home n (trail k).path.reverse
  lowers : ∀ k, (trail k).todo ≠ [] →
    Trail.potential g.nodes.length g.nodes.length (trail (k + 1)).todo <
      Trail.potential g.nodes.length g.nodes.length (trail k).todo
  ends : ∃ last ≤ searchBudget g.nodes.length g.nodes.length + 1,
    (∀ k < last, (trail k).todo ≠ []) ∧
    ∀ k ≥ last, trail k = { todo := [], path := [], visiting := [] }

/-- The budget of a search brings it to its end. -/
theorem TrailRun.ended {trail : Nat → Trail} (h : g.TrailRun filter s trail) :
    trail (searchBudget g.nodes.length g.nodes.length + 1) =
      { todo := [], path := [], visiting := [] } := by
  obtain ⟨last, hle, -, hend⟩ := h.ends
  exact hend _ hle

def pathSearchAfter (g : Graph) (start finish : String) (limit : Option Int)
    (filter : KindFilter) (k : Nat) : PathSearch :=
  iterate (PathSearch.step (g.successors · filter) finish limit) k
    { trail := Trail.start (g.successors · filter) start }

/-- A search from a node of the graph that tries the successors along admitted edges. -/
theorem Consistent.trailRun {σ ω : Type} {step : σ → Option σ} {state : Trail → ω → σ}
    {add : ω → List String → ω} {plan : Strategy} {trail : σ → Trail} (hg : g.Consistent)
    (hs : s ∈ g.nodeIds) (hb : Backtracks step state add plan)
    (hreads : Backtracks.Reads state trail) (hfits : plan.Fits g.nodeIds g.nodes.length)
    (hplan : plan.successors = (g.successors · filter)) (out : ω) :
    g.TrailRun filter s fun k =>
      trail (iterate step k (state (Trail.start plan.successors s) out)) := by
  have hnext : plan.successors = g.nextNodes filter :=
    hplan.trans (hg.successors_eq_nextNodes filter)
  have hrel : (fun a b => b ∈ plan.successors a) = g.Adjacent filter := by
    rw [hplan, hg.successors_rel filter]
  have hstart : (trail (state (Trail.start plan.successors s) out)).Sound plan.successors s := by
    rw [hreads.trail_state]
    exact Trail.sound_start
  have hsound := hb.sound_run hreads hfits hstart
  have hfuel : Trail.potential g.nodeIds.length g.nodes.length
      (trail (state (Trail.start plan.successors s) out)).todo <
        searchBudget g.nodes.length g.nodeIds.length + 1 := by
    rw [hreads.trail_state]
    exact Nat.lt_succ_of_le
      (Trail.potential_cons_le [] (hfits.length_le s) (List.length_pos_of_mem hs))
  obtain ⟨last, hle, hlast⟩ := hb.exists_last hreads hfits hstart hs hfuel
  constructor
  · exact fun k => hnext ▸ hsound k
  · exact fun k htodo => ⟨_, hrel ▸ (hsound k).isPath ((hsound k).path_ne_nil htodo)⟩
  · intro k htodo
    have hlowers := hb.potential_run_lt hreads hfits hstart hs htodo
    rwa [g.length_nodeIds] at hlowers
  · rw [g.length_nodeIds] at hle
    exact ⟨last, hle, fun k hk htodo => Nat.not_le_of_lt hk ((hlast k).mp htodo),
      fun k hk => (hsound k).eq_empty ((hlast k).mpr hk)⟩

/-- **Backtracking.** Along any kinds of edges and under any limit, a search of a reachable graph for
the paths or the cycles from one of its nodes keeps its trail in order. After every step the nodes of
the trail are a simple path from the start, each of them has a suffix of its distinct successors
still to try, and these nodes and no others may not be entered. As long as something is left to try,
a step lowers the bound on the steps that are left. So there is a last step, within the budget that
the search is given, and from then on nothing is left to try, no node is on the trail, and none is
kept from being entered. -/
theorem searches_backtrack (hg : g.Reachable) (hs : s ∈ g.nodeIds) (limit : Option Int) :
    (∀ finish filter,
      g.TrailRun filter s (fun k => (g.pathSearchAfter s finish limit filter k).trail) ∧
      (g.pathSearch s finish limit filter).trail = { todo := [], path := [], visiting := [] }) ∧
    ∀ unique report,
      g.TrailRun none s (fun k => (g.cycleSearch limit unique k report s).trail) ∧
      (g.cycleSearch limit unique (searchBudget g.nodes.length g.nodes.length + 1) report
        s).trail = { todo := [], path := [], visiting := [] } := by
  have hc := hg.consistent
  constructor
  · intro finish filter
    have hrun : g.TrailRun filter s fun k => (g.pathSearchAfter s finish limit filter k).trail :=
      hc.trailRun hs PathSearch.backtracks PathSearch.reads
        (hc.pathPlan_fits filter finish limit) rfl []
    exact ⟨hrun, hrun.ended⟩
  · intro unique report
    have hrun : g.TrailRun none s fun k => (g.cycleSearch limit unique k report s).trail :=
      hc.trailRun hs (CycleSearch.backtracks unique) CycleSearch.reads
        (hc.cyclePlan_fits s limit) rfl report
    exact ⟨hrun, hrun.ended⟩

/-- On the way from `f` over `c` and `a` to `b`, the nodes `c` and `f` have successors left to try.
The cycle search from `d` ends too, under a limit that lets it enter nothing. -/
theorem searches_backtrack_knots :
    knots.Reachable ∧ "f" ∈ knots.nodeIds ∧ "d" ∈ knots.nodeIds ∧
      (knots.pathSearchAfter "f" "e" none (some [.calls]) 3).trail =
        { todo := [["c"], [], ["d"], ["e"]], path := ["b", "a", "c", "f"],
          visiting := ["b", "a", "c", "f"] } ∧
      IsPath (knots.Adjacent (some [.calls])) "f" "b" ["f", "c", "a", "b"] ∧
      ["c"] <:+ knots.nextNodes (some [.calls]) "b" ∧
      (knots.pathSearch "f" "e" none (some [.calls])).trail =
        { todo := [], path := [], visiting := [] } ∧
      (knots.cycleSearch (some (-1)) true 2 {} "d").trail =
        { todo := [[]], path := ["d"], visiting := ["d"] } ∧
      ∃ last, (∀ k < last, (knots.cycleSearch (some (-1)) true k {} "d").trail.todo ≠ []) ∧
        ∀ k ≥ last, (knots.cycleSearch (some (-1)) true k {} "d").trail =
          { todo := [], path := [], visiting := [] } := by
  have hf : "f" ∈ knots.nodeIds := by decide
  have hd : "d" ∈ knots.nodeIds := by decide
  have htrail : (knots.pathSearchAfter "f" "e" none (some [.calls]) 3).trail =
      { todo := [["c"], [], ["d"], ["e"]], path := ["b", "a", "c", "f"],
        visiting := ["b", "a", "c", "f"] } := rfl
  obtain ⟨hpaths, -⟩ := searches_backtrack knots_reachable hf none
  obtain ⟨hrun, hended⟩ := hpaths "e" (some [.calls])
  obtain ⟨-, hcycles⟩ := searches_backtrack knots_reachable hd (some (-1))
  obtain ⟨last, -, hends⟩ := (hcycles true {}).1.ends
  refine ⟨knots_reachable, hf, hd, htrail, ?_, ?_, hended, rfl, last, hends⟩
  · have hne : (knots.pathSearchAfter "f" "e" none (some [.calls]) 3).trail.todo ≠ [] := by
      rw [htrail]
      exact List.cons_ne_nil _ _
    obtain ⟨n, hpath⟩ := hrun.isPath 3 hne
    rw [htrail] at hpath
    obtain rfl : "b" = n := Option.some.inj hpath.last_eq
    exact hpath
  · have hsuffix := (hrun.sound 3).suffix
    rw [htrail] at hsuffix
    cases hsuffix with
    | cons hfirst _ => exact hfirst

end Graph

end CodeAtlas
