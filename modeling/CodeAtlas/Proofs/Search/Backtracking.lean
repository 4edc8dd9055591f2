import CodeAtlas.Search.Trail
import Mathlib.Data.List.Nodup
import Mathlib.Data.List.Perm.Subperm

/-!
# Backtracking

The path search and the cycle search walk the same trails. They differ in what they note when they
look at a successor and in which successors they go on to. For a machine of this kind the run is
known: it ends before its budget is used up, and what it has noted is what a recursive enumeration
lists, in the same order. Where each note is the way to the successor that was looked at, this is the
order in which the ways branch off from each other.
-/

namespace CodeAtlas

/-- What a backtracking search does at a successor of the last node of its trail. The trail is given
latest node first. -/
structure Strategy where
  /-- The successors of a node, in the order in which they are tried. -/
  successors : String → List String
  /-- What is noted on looking at a successor. -/
  notes : List String → String → List (List String)
  /-- Whether the search goes on to a successor. -/
  enters : List String → String → Bool

namespace Strategy

/-- What the search notes from the time it enters `n` until it goes back from it, where `trail`
leads to `n` and at most `depth` nodes are still to be entered, `n` among them. -/
def reports (plan : Strategy) : Nat → List String → String → List (List String)
  | 0, _, _ => []
  | depth + 1, trail, n =>
    (plan.successors n).flatMap fun m =>
      plan.notes (n :: trail) m ++
        if plan.enters (n :: trail) m then plan.reports depth (n :: trail) m else []

theorem mem_reports_succ {plan : Strategy} {depth : Nat} {trail : List String} {n : String}
    {p : List String} :
    p ∈ plan.reports (depth + 1) trail n ↔
      ∃ m ∈ plan.successors n, p ∈ plan.notes (n :: trail) m ∨
        plan.enters (n :: trail) m = true ∧ p ∈ plan.reports depth (n :: trail) m := by
  rw [reports, List.mem_flatMap]
  refine exists_congr fun m => and_congr_right fun _ => ?_
  rw [List.mem_append, List.mem_ite_nil_right]

/-- The search stays within `ids`, where no node has more than `width` successors, and its trails
have no repetition. -/
structure Fits (plan : Strategy) (ids : List String) (width : Nat) : Prop where
  mem : ∀ a, ∀ b ∈ plan.successors a, b ∈ ids
  length_le : ∀ a, (plan.successors a).length ≤ width
  new : ∀ path m, plan.enters path m = true → m ∉ path

end Strategy

/-- There is a node to go back from for every list of successors, and the nodes that may not be
entered are those of the trail. -/
structure Trail.Ready (t : Trail) : Prop where
  length_eq : t.todo.length = t.path.length
  visiting_eq : t.visiting = t.path

/-- Where successors are left to try there is a node that they are successors of. -/
theorem Trail.Ready.path_ne_nil {t : Trail} (h : t.Ready) (htodo : t.todo ≠ []) : t.path ≠ [] := by
  intro hnil
  have hlen := h.length_eq
  rw [hnil] at hlen
  exact htodo (List.length_eq_zero_iff.mp hlen)

/-- Everything that a step can do with a trail: go back from its last node, or look at the next
successor of this node and leave it aside or go on to it. -/
inductive Trail.Move (plan : Strategy) : Trail → Trail → Prop
  | leave {n : String} {below : List (List String)} {path : List String} :
      Move plan { todo := [] :: below, path := n :: path, visiting := n :: path }
        { todo := below, path, visiting := path }
  | pass {m : String} {rest : List String} {below : List (List String)} {path : List String}
      (hstays : ¬plan.enters path m = true) :
      Move plan { todo := (m :: rest) :: below, path, visiting := path }
        { todo := rest :: below, path, visiting := path }
  | enter {m : String} {rest : List String} {below : List (List String)} {path : List String}
      (henters : plan.enters path m = true) :
      Move plan { todo := (m :: rest) :: below, path, visiting := path }
        { todo := plan.successors m :: rest :: below, path := m :: path, visiting := m :: path }

theorem Trail.Move.ready {plan : Strategy} {t u : Trail} (hmove : t.Move plan u) (ht : t.Ready) :
    u.Ready := by
  cases hmove with
  | leave => exact ⟨Nat.succ.inj ht.length_eq, rfl⟩
  | pass _ => exact ⟨ht.length_eq, rfl⟩
  | enter _ => exact ⟨congrArg (· + 1) ht.length_eq, rfl⟩

/-- A machine whose states are trails with an output `ω` follows a plan: it tries the successors of
its last node one after the other, adds what the plan notes to its output, and goes back when none
is left. The nodes that may not be entered are those of the trail. -/
structure Backtracks {σ ω : Type} (step : σ → Option σ) (state : Trail → ω → σ)
    (add : ω → List String → ω) (plan : Strategy) : Prop where
  stop : ∀ path out, step (state { todo := [], path, visiting := path } out) = none
  leave : ∀ below n path out,
    step (state { todo := [] :: below, path := n :: path, visiting := n :: path } out) =
      some (state { todo := below, path, visiting := path } out)
  look : ∀ m rest below path out,
    step (state { todo := (m :: rest) :: below, path, visiting := path } out) =
      some (if plan.enters path m then
        state { todo := plan.successors m :: rest :: below, path := m :: path,
                visiting := m :: path } ((plan.notes path m).foldl add out)
      else
        state { todo := rest :: below, path, visiting := path } ((plan.notes path m).foldl add out))

namespace Backtracks

/-- Every state of a machine is a trail with an output, and `trail` reads the trail off it. -/
structure Reads {σ ω : Type} (state : Trail → ω → σ) (trail : σ → Trail) : Prop where
  trail_state : ∀ t out, trail (state t out) = t
  state_trail : ∀ s, ∃ out, state (trail s) out = s

variable {σ ω : Type} {step : σ → Option σ} {state : Trail → ω → σ} {add : ω → List String → ω}
  {plan : Strategy} {ids : List String} {width : Nat} {trail : σ → Trail}

theorem iterate_look (hb : Backtracks step state add plan) (m : String) (rest : List String)
    (below : List (List String)) (path : List String) (out : ω) (k : Nat) :
    iterate step (k + 1) (state { todo := (m :: rest) :: below, path, visiting := path } out) =
      iterate step k (if plan.enters path m then
        state { todo := plan.successors m :: rest :: below, path := m :: path,
                visiting := m :: path } ((plan.notes path m).foldl add out)
      else
        state { todo := rest :: below, path, visiting := path }
          ((plan.notes path m).foldl add out)) := by
  rw [iterate, hb.look]

/-- From a trail that can be gone back the machine makes a move, unless nothing is left to try. -/
theorem stop_or_move (hb : Backtracks step state add plan) {t : Trail} (ht : t.Ready) (out : ω) :
    t.todo = [] ∧ step (state t out) = none ∨
      t.todo ≠ [] ∧ ∃ u out', step (state t out) = some (state u out') ∧ t.Move plan u := by
  obtain ⟨todo, path, visiting⟩ := t
  obtain rfl : path = visiting := ht.visiting_eq.symm
  have hlen : todo.length = path.length := ht.length_eq
  cases todo with
  | nil => exact Or.inl ⟨rfl, hb.stop path out⟩
  | cons todo below =>
    refine Or.inr ⟨List.cons_ne_nil todo below, ?_⟩
    cases todo with
    | nil =>
      obtain ⟨n, path, rfl⟩ := List.exists_cons_of_length_eq_add_one hlen.symm
      exact ⟨_, out, hb.leave below n path out, .leave⟩
    | cons m rest =>
      by_cases henters : plan.enters path m = true
      · exact ⟨_, _, (hb.look m rest below path out).trans (by rw [if_pos henters]),
          .enter henters⟩
      · exact ⟨_, _, (hb.look m rest below path out).trans (by rw [if_neg henters]),
          .pass henters⟩

theorem step_eq_none_iff (hb : Backtracks step state add plan) (hreads : Reads state trail) {s : σ}
    (hs : (trail s).Ready) : step s = none ↔ (trail s).todo = [] := by
  obtain ⟨out, hout⟩ := hreads.state_trail s
  rcases hb.stop_or_move hs out with ⟨htodo, hstop⟩ | ⟨htodo, u, out', hmoves, -⟩
  · rw [hout] at hstop
    exact iff_of_true hstop htodo
  · rw [hout] at hmoves
    rw [hmoves]
    exact iff_of_false (Option.some_ne_none _) htodo

theorem move_of_step (hb : Backtracks step state add plan) (hreads : Reads state trail) {s s' : σ}
    (hs : (trail s).Ready) (hstep : step s = some s') : (trail s).Move plan (trail s') := by
  obtain ⟨out, hout⟩ := hreads.state_trail s
  rcases hb.stop_or_move hs out with ⟨-, hstop⟩ | ⟨-, u, out', hmoves, hmove⟩
  · rw [hout, hstep] at hstop
    cases hstop
  · rw [hout, hstep] at hmoves
    rwa [Option.some.inj hmoves, hreads.trail_state]

/-- The trail of every state of a run can be gone back. -/
theorem ready_run (hb : Backtracks step state add plan) (hreads : Reads state trail)
    (home : String) (out : ω) (k : Nat) :
    (trail (iterate step k (state (Trail.start plan.successors home) out))).Ready := by
  refine iterate_induction (P := fun s => (trail s).Ready)
    (fun s s' hs hstep => (hb.move_of_step hreads hs hstep).ready hs) k _ ?_
  rw [hreads.trail_state]
  exact ⟨rfl, rfl⟩

/-- The successors still to try are worked off one by one; each that is entered may open a trail of
its own, which ends within its budget. -/
theorem run_todo (hb : Backtracks step state add plan) {depth : Nat} {path : List String}
    (hframe : ∀ m ∈ ids, plan.enters path m = true → ∀ below out,
      ∃ k ≤ searchBudget width depth,
        iterate step k (state { todo := plan.successors m :: below, path := m :: path,
                                visiting := m :: path } out) =
          state { todo := below, path, visiting := path }
            ((plan.reports depth path m).foldl add out))
    (below : List (List String)) {todo : List String} (htodo : ∀ m ∈ todo, m ∈ ids) (out : ω) :
    ∃ k ≤ todo.length * (1 + searchBudget width depth),
      iterate step k (state { todo := todo :: below, path, visiting := path } out) =
        state { todo := [] :: below, path, visiting := path }
          ((todo.flatMap fun m => plan.notes path m ++
            if plan.enters path m then plan.reports depth path m else []).foldl add out) := by
  induction todo generalizing out with
  | nil => exact ⟨0, Nat.zero_le _, rfl⟩
  | cons m rest ih =>
    obtain ⟨hm, hrest⟩ := List.forall_mem_cons.mp htodo
    by_cases henters : plan.enters path m = true
    · obtain ⟨k, hk, hrun⟩ := hframe m hm henters (rest :: below)
        ((plan.notes path m).foldl add out)
      obtain ⟨k', hk', hrun'⟩ := ih hrest
        ((plan.reports depth path m).foldl add ((plan.notes path m).foldl add out))
      refine ⟨k + k' + 1, ?_, ?_⟩
      · rw [List.length_cons, Nat.succ_mul]
        omega
      · rw [hb.iterate_look, if_pos henters, iterate_add, hrun, hrun', List.flatMap_cons,
          if_pos henters, List.foldl_append, List.foldl_append]
    · obtain ⟨k', hk', hrun'⟩ := ih hrest ((plan.notes path m).foldl add out)
      refine ⟨k' + 1, ?_, ?_⟩
      · rw [List.length_cons, Nat.succ_mul]
        omega
      · rw [hb.iterate_look, if_neg henters, hrun', List.flatMap_cons, if_neg henters,
          List.append_nil, List.foldl_append]

/-- Entering a node, trying all below it and going back takes no more steps than the budget of its
depth allows. -/
theorem run_frame (hb : Backtracks step state add plan) (hfits : plan.Fits ids width)
    (depth : Nat) (trail : List String) (n : String) (hdepth : trail.length + depth = ids.length)
    (hnodup : (n :: trail).Nodup) (hmem : ∀ a ∈ n :: trail, a ∈ ids) (below : List (List String))
    (out : ω) :
    ∃ k ≤ searchBudget width depth,
      iterate step k (state { todo := plan.successors n :: below, path := n :: trail,
                              visiting := n :: trail } out) =
        state { todo := below, path := trail, visiting := trail }
          ((plan.reports depth trail n).foldl add out) := by
  induction depth generalizing trail n below out with
  | zero =>
    -- the trail would be longer than the list of all nodes
    have hlen := (hnodup.subperm hmem).length_le
    rw [List.length_cons] at hlen
    omega
  | succ depth ih =>
    have hframe : ∀ m ∈ ids, plan.enters (n :: trail) m = true → ∀ below out, _ :=
      fun m hm henters => ih (n :: trail) m
        (by rw [List.length_cons]; omega)
        (List.nodup_cons.mpr ⟨hfits.new _ _ henters, hnodup⟩)
        (List.forall_mem_cons.mpr ⟨hm, hmem⟩)
    obtain ⟨k, hk, hrun⟩ := hb.run_todo hframe below (hfits.mem n) out
    refine ⟨k + 1, ?_, ?_⟩
    · have hmul := Nat.mul_le_mul_right (1 + searchBudget width depth) (hfits.length_le n)
      rw [searchBudget]
      omega
    · rw [iterate_add, hrun, iterate, hb.leave]
      rfl

/-- **A backtracking run.** From a node of the graph the machine stops with an empty trail before
its budget is used up, and its output holds what the plan reports, noted in this order. -/
theorem run (hb : Backtracks step state add plan) (hfits : plan.Fits ids width) {home : String}
    (hhome : home ∈ ids) {fuel : Nat} (hfuel : searchBudget width ids.length ≤ fuel) (out : ω) :
    iterate step fuel (state (Trail.start plan.successors home) out) =
      state { todo := [], path := [], visiting := [] }
        ((plan.reports ids.length [] home).foldl add out) := by
  obtain ⟨k, hk, hrun⟩ := hb.run_frame hfits ids.length [] home
    (by simp) (List.nodup_singleton home) (by simpa using hhome) [] out
  obtain ⟨spare, rfl⟩ := Nat.exists_eq_add_of_le (Nat.le_trans hk hfuel)
  unfold Trail.start
  rw [iterate_add, hrun, iterate_stopped (hb.stop [] _)]

end Backtracks

theorem within_iff {limit : Option Int} {n : Nat} :
    within limit n = true ↔ ∀ l ∈ limit, (n : Int) ≤ l := by
  cases limit <;> simp [within]

theorem within_of_le {limit : Option Int} {m n : Nat} (hle : m ≤ n) (h : within limit n = true) :
    within limit m = true := by
  refine within_iff.mpr fun l hl => ?_
  have hn := within_iff.mp h l hl
  omega

/-! ## Depth-first order -/

/-- `p` comes before `q` in depth-first order: both run together up to some node, and from there `p`
goes on to an earlier successor than `q`. -/
def Precedes (successors : String → List String) (p q : List String) : Prop :=
  ∃ front n a b, front ++ [n, a] <+: p ∧ front ++ [n, b] <+: q ∧
    (successors n).idxOf a < (successors n).idxOf b

theorem Precedes.ne {successors : String → List String} {p q : List String}
    (h : Precedes successors p q) : p ≠ q := by
  rintro rfl
  obtain ⟨front, n, a, b, ha, hb, hlt⟩ := h
  have heq : front ++ [n, a] = front ++ [n, b] :=
    (List.prefix_of_prefix_length_le ha hb (by simp)).eq_of_length (by simp)
  obtain rfl : a = b := by simpa using heq
  exact Nat.lt_irrefl _ hlt

/-- Items without repetition stand in the order of their positions. -/
theorem pairwise_idxOf_lt {l : List String} (h : l.Nodup) :
    l.Pairwise fun a b => l.idxOf a < l.idxOf b := by
  refine List.pairwise_iff_getElem.mpr fun i j hi hj hij => ?_
  rw [h.idxOf_getElem, h.idxOf_getElem]
  exact hij

namespace Strategy

/-- Read by `full`, what is noted at a successor is the way to it, and the search does not go on to
a successor that it notes something at. -/
structure Spells (plan : Strategy) (full : List String → List String) : Prop where
  nodup : ∀ n, (plan.successors n).Nodup
  note : ∀ path m, plan.notes path m = [] ∨
    ∃ p, plan.notes path m = [p] ∧ full p = (m :: path).reverse ∧ plan.enters path m = false

/-- What the search notes from looking at a successor until it looks at the next. -/
def tries (plan : Strategy) (depth : Nat) (path : List String) (m : String) : List (List String) :=
  plan.notes path m ++ if plan.enters path m then plan.reports depth path m else []

theorem reports_succ (plan : Strategy) (depth : Nat) (trail : List String) (n : String) :
    plan.reports (depth + 1) trail n =
      (plan.successors n).flatMap (plan.tries depth (n :: trail)) := rfl

namespace Spells

variable {plan : Strategy} {full : List String → List String}

theorem eq_of_mem_notes (h : plan.Spells full) {path p : List String} {m : String}
    (hp : p ∈ plan.notes path m) : full p = (m :: path).reverse := by
  rcases h.note path m with hnone | ⟨q, hq, hfull, -⟩
  · rw [hnone] at hp
    exact absurd hp List.not_mem_nil
  · rw [hq, List.mem_singleton] at hp
    rw [hp, hfull]

/-- All that is noted from a successor on begins with the way to it. -/
theorem prefix_of_mem_tries (h : plan.Spells full) {depth : Nat} {path p : List String}
    {m : String} (hp : p ∈ plan.tries depth path m) : (m :: path).reverse <+: full p := by
  induction depth generalizing path m with
  | zero =>
    have hnote : p ∈ plan.notes path m := by simpa [tries, reports] using hp
    exact h.eq_of_mem_notes hnote ▸ List.prefix_rfl
  | succ depth ih =>
    rcases List.mem_append.mp hp with hnote | hbelow
    · exact h.eq_of_mem_notes hnote ▸ List.prefix_rfl
    · rw [List.mem_ite_nil_right, reports_succ, List.mem_flatMap] at hbelow
      obtain ⟨-, next, -, hnext⟩ := hbelow
      have hlonger : (m :: path).reverse <+: (next :: m :: path).reverse := by
        rw [List.reverse_cons (a := next)]
        exact List.prefix_append _ _
      exact hlonger.trans (ih hnext)

/-- **Depth-first order.** A backtracking search notes the ways it finds in the order in which they
branch off from each other. -/
theorem pairwise_reports (h : plan.Spells full) (depth : Nat) (trail : List String) (n : String) :
    (plan.reports depth trail n).Pairwise fun p q =>
      Precedes plan.successors (full p) (full q) := by
  induction depth generalizing trail n with
  | zero => exact List.Pairwise.nil
  | succ depth ih =>
    rw [reports_succ, List.pairwise_flatMap]
    constructor
    · -- below one successor there is a single note, or what is noted after going on to it
      intro m _
      unfold tries
      rcases h.note (n :: trail) m with hnone | ⟨p, hp, -, hstays⟩
      · rw [hnone, List.nil_append]
        split
        · exact ih (n :: trail) m
        · exact List.Pairwise.nil
      · rw [hp, hstays]
        exact List.pairwise_singleton _ _
    · refine (pairwise_idxOf_lt (h.nodup n)).imp fun hlt p hp q hq => ?_
      refine ⟨trail.reverse, n, _, _, ?_, ?_, hlt⟩
      · simpa using h.prefix_of_mem_tries hp
      · simpa using h.prefix_of_mem_tries hq

end Spells

end Strategy

end CodeAtlas
