import CodeAtlas.Search.Slice
import CodeAtlas.Proofs.Graph.Walks
import Mathlib.Algebra.GroupWithZero.Nat
import Mathlib.Algebra.Order.BigOperators.Group.List
import Mathlib.Algebra.Order.Group.Nat
import Mathlib.Data.List.Perm.Subperm

/-!
# The walk of a slice

The walk works on any `hops` function. An open node stands at its recorded depth, so the open nodes
are distinct and an open node is never entered a second time. A recorded depth is the length of a
walk from the start, and it is only ever replaced by a smaller one. When nothing is open any more,
every node that may be left has all its hops settled, and the nodes of the walk are those within the
bound: `mem_order_iff`.
-/

namespace CodeAtlas.SliceWalk

/-- Some hop leads from `a` to `b`. -/
def Next (hops : String → List Hop) (a b : String) : Prop :=
  ∃ e, (e, b) ∈ hops a

/-- Each open node stands at its recorded depth, the lowest one at depth zero. -/
def Staged (depths : Assoc Nat) : List (String × List Hop) → Prop
  | [] => True
  | (n, _) :: below => depths.get? n = some below.length ∧ Staged depths below

/-- The hop `h` of an open node `a` is still to be tried. -/
def Waits (w : SliceWalk) (a : String) (h : Hop) : Prop :=
  ∃ todo, (a, todo) ∈ w.stack ∧ h ∈ todo

/-- The hop `h` from a node at depth `k` needs no more attention: its edge is noted, and it does not
lead to its node on a shorter way than the known one. -/
def Settled (o : SliceOptions) (w : SliceWalk) (k : Nat) (h : Hop) : Prop :=
  h.1.id ∈ w.followed.map Edge.id ∧
    ∃ j, w.depths.get? h.2 = some j ∧ (o.maxDepth.isSome = true → j ≤ k + 1)

/-- What every step of the walk keeps. -/
structure Invariant (hops : String → List Hop) (o : SliceOptions) (origin : String)
    (ids : List String) (w : SliceWalk) : Prop where
  staged : Staged w.depths w.stack
  order_nodup : w.order.Nodup
  order_mem : ∀ a ∈ w.order, a ∈ ids
  known_iff : ∀ a, (w.depths.get? a).isSome = true ↔ a ∈ w.order
  start_known : w.depths.get? origin = some 0
  walk : ∀ a k, w.depths.get? a = some k → Walk (Next hops) origin a k
  bounded : ∀ a k, w.depths.get? a = some k → ∀ d ∈ o.maxDepth, k ≤ d
  todo_mem : ∀ a todo, (a, todo) ∈ w.stack → ∀ h ∈ todo, h ∈ hops a
  explored : ∀ a k, w.depths.get? a = some k → o.opens k = true → ∀ h ∈ hops a,
    w.Waits a h ∨ w.Settled o k h
  followed_nodup : (w.followed.map Edge.id).Nodup
  followed_from : ∀ e ∈ w.followed, ∃ a ∈ w.order, ∃ b ∈ w.order, (e, b) ∈ hops a

variable {hops : String → List Hop} {o : SliceOptions} {origin : String} {ids : List String}
  {w t : SliceWalk} {depths : Assoc Nat} {stack below : List (String × List Hop)}
  {a n m : String} {todo rest : List Hop} {e : Edge} {k : Nat}

/-! ## Open nodes -/

theorem Staged.get?_of_mem (h : Staged depths stack) (ha : a ∈ stack.map Prod.fst) :
    ∃ k < stack.length, depths.get? a = some k := by
  induction stack with
  | nil => exact absurd ha List.not_mem_nil
  | cons frame below ih =>
    obtain ⟨n, todo⟩ := frame
    rcases List.mem_cons.mp ha with rfl | ha
    · exact ⟨below.length, Nat.lt_succ_self _, h.1⟩
    · obtain ⟨k, hk, hget⟩ := ih h.2 ha
      exact ⟨k, Nat.lt_succ_of_lt hk, hget⟩

/-- No node is open twice. -/
theorem Staged.nodup (h : Staged depths stack) : (stack.map Prod.fst).Nodup := by
  induction stack with
  | nil => exact List.nodup_nil
  | cons frame below ih =>
    obtain ⟨n, todo⟩ := frame
    refine List.nodup_cons.mpr ⟨fun hn => ?_, ih h.2⟩
    obtain ⟨k, hk, hget⟩ := h.2.get?_of_mem hn
    rw [h.1] at hget
    exact absurd (Option.some.inj hget) (Nat.ne_of_gt hk)

theorem Staged.set (h : Staged depths stack) (hm : m ∉ stack.map Prod.fst) :
    Staged (depths.set m k) stack := by
  induction stack with
  | nil => trivial
  | cons frame below ih =>
    obtain ⟨n, todo⟩ := frame
    obtain ⟨hne, hm⟩ := not_or.mp (mt List.mem_cons.mpr hm)
    refine ⟨?_, ih h.2 hm⟩
    rw [Assoc.get?_set, if_neg (Ne.symm hne)]
    exact h.1

/-! ## Single steps -/

/-- The walk after the next hop of the deepest open node is taken off and its edge noted. -/
def take (w : SliceWalk) (n : String) (rest : List Hop) (below : List (String × List Hop))
    (e : Edge) : SliceWalk :=
  { w with stack := (n, rest) :: below, followed := follow w.followed e }

/-- The nodes of the walk once `m` is reached. -/
def reach (w : SliceWalk) (m : String) : List String :=
  if (w.depths.get? m).isSome then w.order else w.order ++ [m]

/-- Everything a step can do: close the deepest open node, pass over a hop that brings nothing new,
or enter the node that a hop leads to. -/
inductive Move (hops : String → List Hop) (o : SliceOptions) (w : SliceWalk) : SliceWalk → Prop
  | close {n : String} {todo : List Hop} {below : List (String × List Hop)}
      (hstack : w.stack = (n, todo) :: below) (hdone : o.opens (w.depth n) = true → todo = []) :
      Move hops o w { w with stack := below }
  | pass {n m : String} {e : Edge} {rest : List Hop} {below : List (String × List Hop)} {j : Nat}
      (hstack : w.stack = (n, (e, m) :: rest) :: below) (hopens : o.opens (w.depth n) = true)
      (hknown : w.depths.get? m = some j) (hnear : o.maxDepth.isSome = true → j ≤ w.depth n + 1) :
      Move hops o w (w.take n rest below e)
  | enter {n m : String} {e : Edge} {rest : List Hop} {below : List (String × List Hop)}
      (hstack : w.stack = (n, (e, m) :: rest) :: below) (hopens : o.opens (w.depth n) = true)
      (hfar : ∀ j, w.depths.get? m = some j → w.depth n + 1 < j) :
      Move hops o w
        ({ w.take n rest below e with order := w.reach m }.enter hops m (w.depth n + 1))

theorem move_of_step (hstep : step hops o w = some t) : Move hops o w t := by
  unfold step at hstep
  split at hstep
  · cases hstep
  · rename_i n todo below hstack
    dsimp only at hstep
    split at hstep
    · rename_i e m rest hopens
      split at hstep
      · rename_i hget
        obtain rfl := Option.some.inj hstep
        have hfar : ∀ j, w.depths.get? m = some j → w.depth n + 1 < j := by
          intro j hj
          rw [hget] at hj
          cases hj
        have hmove : Move hops o w _ := .enter hstack hopens hfar
        rw [reach, hget] at hmove
        exact hmove
      · rename_i j hget
        split at hstep
        · rename_i hshort
          obtain ⟨-, hshort⟩ := Bool.and_eq_true_iff.mp hshort
          obtain rfl := Option.some.inj hstep
          have hfar : ∀ i, w.depths.get? m = some i → w.depth n + 1 < i := by
            intro i hi
            rw [hget] at hi
            obtain rfl := Option.some.inj hi
            exact of_decide_eq_true hshort
          have hmove : Move hops o w _ := .enter hstack hopens hfar
          rw [reach, hget] at hmove
          exact hmove
        · rename_i hnear
          obtain rfl := Option.some.inj hstep
          refine Move.pass hstack hopens hget fun hbound => Nat.le_of_not_lt fun hlt => hnear ?_
          exact Bool.and_eq_true_iff.mpr ⟨hbound, decide_eq_true hlt⟩
    · rename_i hcannot
      obtain rfl := Option.some.inj hstep
      refine Move.close hstack fun hopens => ?_
      by_contra hne
      obtain ⟨h, rest, hcons⟩ := List.exists_cons_of_ne_nil hne
      exact hcannot h.1 h.2 rest hopens hcons

/-- Only a walk without open nodes stops. -/
theorem stack_eq_nil_of_step (hstep : step hops o w = none) : w.stack = [] := by
  unfold step at hstep
  split at hstep
  · assumption
  · dsimp only at hstep
    split at hstep
    · split at hstep
      · cases hstep
      · split at hstep <;> cases hstep
    · cases hstep

theorem step_of_stack_eq_nil (h : w.stack = []) : step hops o w = none := by
  unfold step
  rw [h]

/-! ## Noting edges and nodes -/

theorem mem_follow {followed : List Edge} {x : Edge} (hx : x ∈ follow followed e) :
    x ∈ followed ∨ x = e := by
  unfold follow at hx
  split at hx
  · exact Or.inl hx
  · simpa using hx

theorem mem_map_id_follow {followed : List Edge} {id : String} :
    id ∈ (follow followed e).map Edge.id ↔ id ∈ followed.map Edge.id ∨ id = e.id := by
  unfold follow
  split
  · rename_i hany
    obtain ⟨x, hx, hid⟩ := List.any_eq_true.mp hany
    have hold : e.id ∈ followed.map Edge.id := List.mem_map.mpr ⟨x, hx, eq_of_beq hid⟩
    constructor
    · exact Or.inl
    · rintro (h | rfl)
      · exact h
      · exact hold
  · simp

theorem nodup_map_id_follow {followed : List Edge} (h : (followed.map Edge.id).Nodup) :
    ((follow followed e).map Edge.id).Nodup := by
  unfold follow
  split
  · exact h
  · rename_i hany
    rw [List.map_append, List.nodup_append]
    refine ⟨h, List.nodup_singleton _, ?_⟩
    intro x hx y hy hxy
    obtain ⟨z, hz, rfl⟩ := List.mem_map.mp hx
    exact hany (List.any_eq_true.mpr ⟨z, hz, by simpa [hxy] using hy⟩)

theorem depth_eq (h : w.depths.get? n = some k) : w.depth n = k := by
  unfold depth
  rw [h]
  rfl

theorem get?_start : (start hops n).depths.get? a = some k ↔ a = n ∧ k = 0 := by
  rw [start, Assoc.get?_cons, Assoc.get?_nil]
  by_cases ha : a = n <;> simp [ha, eq_comm]

theorem opens_iff : o.opens k = true ↔ ∀ d ∈ o.maxDepth, k < d := by
  unfold SliceOptions.opens
  cases o.maxDepth <;> simp

theorem Settled.mono {h : Hop} (hs : w.Settled o k h)
    (hfollowed : ∀ id ∈ w.followed.map Edge.id, id ∈ t.followed.map Edge.id)
    (hdepths : ∀ b j, w.depths.get? b = some j → ∃ i ≤ j, t.depths.get? b = some i) :
    t.Settled o k h := by
  obtain ⟨hid, j, hj, hle⟩ := hs
  obtain ⟨i, hij, hi⟩ := hdepths h.2 j hj
  exact ⟨hfollowed _ hid, i, hi, fun hbound => Nat.le_trans hij (hle hbound)⟩

/-- Of the hops that wait, only the next one is no longer among those that do once it is taken. -/
theorem Waits.taken {h : Hop} (hstack : w.stack = (n, (e, m) :: rest) :: below)
    (hw : w.Waits a h) :
    a = n ∧ h = (e, m) ∨ ∃ todo, (a, todo) ∈ (n, rest) :: below ∧ h ∈ todo := by
  obtain ⟨todo, hframe, hh⟩ := hw
  rw [hstack] at hframe
  rcases List.mem_cons.mp hframe with heq | hbelow
  · obtain ⟨rfl, rfl⟩ := Prod.mk.inj heq
    rcases List.mem_cons.mp hh with rfl | hh
    · exact Or.inl ⟨rfl, rfl⟩
    · exact Or.inr ⟨rest, List.mem_cons_self, hh⟩
  · exact Or.inr ⟨todo, List.mem_cons_of_mem _ hbelow, hh⟩

namespace Invariant

theorem get?_deepest (h : Invariant hops o origin ids w) (hstack : w.stack = (n, todo) :: below) :
    w.depths.get? n = some below.length := by
  have hstaged := h.staged
  rw [hstack] at hstaged
  exact hstaged.1

theorem depth_deepest (h : Invariant hops o origin ids w) (hstack : w.stack = (n, todo) :: below) :
    w.depth n = below.length :=
  depth_eq (h.get?_deepest hstack)

theorem mem_order (h : Invariant hops o origin ids w) (hget : w.depths.get? a = some k) :
    a ∈ w.order :=
  (h.known_iff a).mp (by rw [hget]; rfl)

theorem mem_reach (h : Invariant hops o origin ids w) :
    a ∈ w.reach m ↔ a ∈ w.order ∨ a = m := by
  unfold reach
  split
  · rename_i hknown
    constructor
    · exact Or.inl
    · rintro (ha | rfl)
      · exact ha
      · exact (h.known_iff _).mp hknown
  · simp

theorem nodup_reach (h : Invariant hops o origin ids w) : (w.reach m).Nodup := by
  unfold reach
  split
  · exact h.order_nodup
  · rename_i hnew
    refine List.nodup_append.mpr ⟨h.order_nodup, List.nodup_singleton m, ?_⟩
    intro x hx y hy hxy
    rw [hxy, List.mem_singleton.mp hy] at hx
    exact hnew ((h.known_iff m).mpr hx)

theorem next_mem (h : Invariant hops o origin ids w)
    (hstack : w.stack = (n, (e, m) :: rest) :: below) : (e, m) ∈ hops n :=
  h.todo_mem n _ (hstack ▸ List.mem_cons_self) (e, m) List.mem_cons_self

/-! ## What the moves keep -/

theorem start (horigin : origin ∈ ids) :
    Invariant hops o origin ids (SliceWalk.start hops origin) where
  staged := ⟨get?_start.mpr ⟨rfl, rfl⟩, trivial⟩
  order_nodup := List.nodup_singleton origin
  order_mem := by
    intro a ha
    rw [List.mem_singleton.mp ha]
    exact horigin
  known_iff := by
    intro a
    rw [Option.isSome_iff_exists, SliceWalk.start, List.mem_singleton]
    constructor
    · rintro ⟨k, hget⟩
      exact (get?_start.mp hget).1
    · rintro rfl
      exact ⟨0, get?_start.mpr ⟨rfl, rfl⟩⟩
  start_known := get?_start.mpr ⟨rfl, rfl⟩
  walk := by
    intro a k hget
    obtain ⟨rfl, rfl⟩ := get?_start.mp hget
    exact .refl
  bounded := by
    intro a k hget d _
    obtain ⟨-, rfl⟩ := get?_start.mp hget
    exact Nat.zero_le d
  todo_mem := by
    intro a todo hframe hop hhop
    obtain ⟨rfl, rfl⟩ := Prod.mk.inj (List.mem_singleton.mp hframe)
    exact hhop
  explored := by
    intro a k hget _ hop hhop
    obtain ⟨rfl, -⟩ := get?_start.mp hget
    exact Or.inl ⟨hops a, List.mem_singleton.mpr rfl, hhop⟩
  followed_nodup := List.nodup_nil
  followed_from := fun _ he => absurd he List.not_mem_nil

theorem close (h : Invariant hops o origin ids w) (hstack : w.stack = (n, todo) :: below)
    (hdone : o.opens (w.depth n) = true → todo = []) :
    Invariant hops o origin ids { w with stack := below } where
  staged := by
    have hstaged := h.staged
    rw [hstack] at hstaged
    exact hstaged.2
  order_nodup := h.order_nodup
  order_mem := h.order_mem
  known_iff := h.known_iff
  start_known := h.start_known
  walk := h.walk
  bounded := h.bounded
  todo_mem := fun a todo hframe => h.todo_mem a todo (hstack ▸ List.mem_cons_of_mem _ hframe)
  explored := by
    intro a k hget hopens hop hhop
    refine (h.explored a k hget hopens hop hhop).imp_left ?_
    rintro ⟨todo', hframe, hwaits⟩
    rw [hstack] at hframe
    rcases List.mem_cons.mp hframe with heq | hbelow
    · -- a node that is closed and may be left has tried all its hops
      obtain ⟨rfl, rfl⟩ := Prod.mk.inj heq
      rw [← depth_eq hget] at hopens
      rw [hdone hopens] at hwaits
      exact absurd hwaits List.not_mem_nil
    · exact ⟨todo', hbelow, hwaits⟩
  followed_nodup := h.followed_nodup
  followed_from := h.followed_from

/-- Of a hop that is taken, edge and ends are in the walk once its node is. -/
theorem followed_from_take (h : Invariant hops o origin ids w)
    (hstack : w.stack = (n, (e, m) :: rest) :: below) {order : List String}
    (horder : ∀ a, a ∈ order ↔ a ∈ w.order ∨ a = m) :
    ∀ x ∈ follow w.followed e, ∃ a ∈ order, ∃ b ∈ order, (x, b) ∈ hops a := by
  intro x hx
  rcases mem_follow hx with hold | rfl
  · obtain ⟨a, ha, b, hb, hhop⟩ := h.followed_from x hold
    exact ⟨a, (horder a).mpr (Or.inl ha), b, (horder b).mpr (Or.inl hb), hhop⟩
  · have hn := h.mem_order (h.get?_deepest hstack)
    exact ⟨n, (horder n).mpr (Or.inl hn), m, (horder m).mpr (Or.inr rfl), h.next_mem hstack⟩

theorem todo_mem_take (h : Invariant hops o origin ids w)
    (hstack : w.stack = (n, (e, m) :: rest) :: below) :
    ∀ a todo, (a, todo) ∈ (n, rest) :: below → ∀ h ∈ todo, h ∈ hops a := by
  intro a todo hframe hop hhop
  rcases List.mem_cons.mp hframe with heq | hbelow
  · obtain ⟨rfl, rfl⟩ := Prod.mk.inj heq
    exact h.todo_mem a _ (hstack ▸ List.mem_cons_self) hop (List.mem_cons_of_mem _ hhop)
  · exact h.todo_mem a todo (hstack ▸ List.mem_cons_of_mem _ hbelow) hop hhop

theorem pass (h : Invariant hops o origin ids w) (hstack : w.stack = (n, (e, m) :: rest) :: below)
    {j : Nat} (hknown : w.depths.get? m = some j)
    (hnear : o.maxDepth.isSome = true → j ≤ w.depth n + 1) :
    Invariant hops o origin ids (w.take n rest below e) where
  staged := by
    have hstaged := h.staged
    rw [hstack] at hstaged
    exact hstaged
  order_nodup := h.order_nodup
  order_mem := h.order_mem
  known_iff := h.known_iff
  start_known := h.start_known
  walk := h.walk
  bounded := h.bounded
  todo_mem := h.todo_mem_take hstack
  explored := by
    intro a k hget hopens hop hhop
    rcases h.explored a k hget hopens hop hhop with hwaits | hsettled
    · rcases hwaits.taken hstack with ⟨rfl, rfl⟩ | hwaits
      · refine Or.inr ⟨mem_map_id_follow.mpr (Or.inr rfl), j, hknown, ?_⟩
        rw [← depth_eq hget]
        exact hnear
      · exact Or.inl hwaits
    · exact Or.inr (hsettled.mono (fun id hid => mem_map_id_follow.mpr (Or.inl hid))
        fun b i hb => ⟨i, Nat.le_refl i, hb⟩)
  followed_nodup := nodup_map_id_follow h.followed_nodup
  followed_from := h.followed_from_take hstack fun a => by
    constructor
    · exact Or.inl
    · rintro (ha | rfl)
      · exact ha
      · exact h.mem_order hknown

/-- A node that is entered is not open. -/
theorem not_opened (h : Invariant hops o origin ids w)
    (hstack : w.stack = (n, (e, m) :: rest) :: below)
    (hfar : ∀ j, w.depths.get? m = some j → w.depth n + 1 < j) :
    m ∉ w.stack.map Prod.fst := by
  intro hm
  obtain ⟨j, hj, hget⟩ := h.staged.get?_of_mem hm
  have hlt := hfar j hget
  rw [h.depth_deepest hstack] at hlt
  rw [hstack, List.length_cons] at hj
  omega

theorem enter (h : Invariant hops o origin ids w) (hclosed : ∀ a ∈ ids, ∀ x ∈ hops a, x.2 ∈ ids)
    (hstack : w.stack = (n, (e, m) :: rest) :: below) (hopens : o.opens (w.depth n) = true)
    (hfar : ∀ j, w.depths.get? m = some j → w.depth n + 1 < j) :
    Invariant hops o origin ids
      ({ w.take n rest below e with order := w.reach m }.enter hops m (w.depth n + 1)) where
  staged := by
    have hstaged := h.staged
    have hnew := h.not_opened hstack hfar
    rw [hstack] at hstaged hnew
    have hrest : Staged w.depths ((n, rest) :: below) := hstaged
    refine ⟨?_, hrest.set hnew⟩
    rw [SliceWalk.enter, Assoc.get?_set, if_pos rfl, h.depth_deepest hstack]
    rfl
  order_nodup := h.nodup_reach
  order_mem := by
    intro a ha
    rcases h.mem_reach.mp ha with ha | rfl
    · exact h.order_mem a ha
    · have hn := h.order_mem n (h.mem_order (h.get?_deepest hstack))
      exact hclosed n hn (e, a) (h.next_mem hstack)
  known_iff := by
    intro a
    show ((w.depths.set m (w.depth n + 1)).get? a).isSome = true ↔ a ∈ w.reach m
    rw [h.mem_reach, Assoc.get?_set]
    by_cases ha : a = m
    · simp [ha]
    · rw [if_neg ha, h.known_iff a]
      simp [ha]
  start_known := by
    show (w.depths.set m (w.depth n + 1)).get? origin = some 0
    rw [Assoc.get?_set, if_neg, h.start_known]
    rintro rfl
    exact absurd (hfar 0 h.start_known) (Nat.not_lt_zero _)
  walk := by
    intro a k hget
    replace hget : (w.depths.set m (w.depth n + 1)).get? a = some k := hget
    rw [Assoc.get?_set] at hget
    split at hget
    · rename_i ha
      obtain rfl := Option.some.inj hget
      have hn := h.walk n _ (h.get?_deepest hstack)
      rw [h.depth_deepest hstack, ha]
      exact hn.tail ⟨e, h.next_mem hstack⟩
    · exact h.walk a k hget
  bounded := by
    intro a k hget d hd
    replace hget : (w.depths.set m (w.depth n + 1)).get? a = some k := hget
    rw [Assoc.get?_set] at hget
    split at hget
    · obtain rfl := Option.some.inj hget
      exact opens_iff.mp hopens d hd
    · exact h.bounded a k hget d hd
  todo_mem := by
    intro a todo hframe hop hhop
    rcases List.mem_cons.mp hframe with heq | hframe
    · obtain ⟨rfl, rfl⟩ := Prod.mk.inj heq
      exact hhop
    · exact h.todo_mem_take hstack a todo hframe hop hhop
  explored := by
    intro a k hget hopens' hop hhop
    replace hget : (w.depths.set m (w.depth n + 1)).get? a = some k := hget
    rw [Assoc.get?_set] at hget
    split at hget
    · rename_i ha
      subst ha
      exact Or.inl ⟨hops a, List.mem_cons_self, hhop⟩
    · have hset : ∀ b, (w.depths.set m (w.depth n + 1)).get? b =
          if b = m then some (w.depth n + 1) else w.depths.get? b :=
        fun b => Assoc.get?_set _ _ _ _
      rcases h.explored a k hget hopens' hop hhop with hwaits | hsettled
      · rcases hwaits.taken hstack with ⟨rfl, rfl⟩ | ⟨todo, hframe, hwaits⟩
        · refine Or.inr ⟨mem_map_id_follow.mpr (Or.inr rfl), w.depth a + 1, ?_, fun _ => ?_⟩
          · exact (hset m).trans (if_pos rfl)
          · rw [depth_eq hget]
        · exact Or.inl ⟨todo, List.mem_cons_of_mem _ hframe, hwaits⟩
      · refine Or.inr (hsettled.mono (fun id hid => mem_map_id_follow.mpr (Or.inl hid)) ?_)
        intro b j hb
        by_cases hbm : b = m
        · subst hbm
          exact ⟨w.depth n + 1, Nat.le_of_lt (hfar j hb), (hset b).trans (if_pos rfl)⟩
        · exact ⟨j, Nat.le_refl j, ((hset b).trans (if_neg hbm)).trans hb⟩
  followed_nodup := nodup_map_id_follow h.followed_nodup
  followed_from := h.followed_from_take hstack fun _ => h.mem_reach

theorem move (h : Invariant hops o origin ids w) (hclosed : ∀ a ∈ ids, ∀ x ∈ hops a, x.2 ∈ ids)
    (hmove : Move hops o w t) : Invariant hops o origin ids t := by
  cases hmove with
  | close hstack hdone => exact h.close hstack hdone
  | pass hstack _ hknown hnear => exact h.pass hstack hknown hnear
  | enter hstack hopens hfar => exact h.enter hclosed hstack hopens hfar

/-- What holds at the start holds after any number of steps. -/
theorem run (o : SliceOptions) (hclosed : ∀ a ∈ ids, ∀ x ∈ hops a, x.2 ∈ ids)
    (horigin : origin ∈ ids) (fuel : Nat) :
    Invariant hops o origin ids (iterate (step hops o) fuel (SliceWalk.start hops origin)) :=
  iterate_induction (fun _ _ h hstep => h.move hclosed (move_of_step hstep)) fuel _ (start horigin)

end Invariant

/-! ## The end of the walk -/

/-- What a node adds to the work left: its recorded depth, or more than any depth while it has
none. -/
def cost (ids : List String) (depths : Assoc Nat) (a : String) : Nat :=
  (depths.get? a).getD ids.length

/-- The steps that open nodes need for themselves. -/
def load : List (String × List Hop) → Nat
  | [] => 0
  | (_, todo) :: below => todo.length + 1 + load below

/-- The work left. Entering a node opens at most `width` hops, and it lowers the cost of that
node. -/
def potential (ids : List String) (width : Nat) (w : SliceWalk) : Nat :=
  (ids.map (cost ids w.depths)).sum * (width + 2) + load w.stack

/-- The depth at which a node is entered is smaller than the number of nodes, as the nodes on the
way to it are distinct. -/
theorem Invariant.depth_lt (h : Invariant hops o origin ids w)
    (hclosed : ∀ a ∈ ids, ∀ x ∈ hops a, x.2 ∈ ids)
    (hstack : w.stack = (n, (e, m) :: rest) :: below)
    (hfar : ∀ j, w.depths.get? m = some j → w.depth n + 1 < j) :
    m ∈ ids ∧ w.depth n + 1 < ids.length := by
  have hn := h.order_mem n (h.mem_order (h.get?_deepest hstack))
  have hm : m ∈ ids := hclosed n hn (e, m) (h.next_mem hstack)
  refine ⟨hm, ?_⟩
  have hnodup : (m :: w.stack.map Prod.fst).Nodup :=
    List.nodup_cons.mpr ⟨h.not_opened hstack hfar, h.staged.nodup⟩
  have hsub : m :: w.stack.map Prod.fst ⊆ ids := by
    refine List.cons_subset.mpr ⟨hm, fun a ha => ?_⟩
    obtain ⟨k, -, hget⟩ := h.staged.get?_of_mem ha
    exact h.order_mem a (h.mem_order hget)
  have hlen := (hnodup.subperm hsub).length_le
  rw [List.length_cons, List.length_map, hstack, List.length_cons] at hlen
  rw [h.depth_deepest hstack]
  omega

/-- Entering a node lowers its cost and leaves the others. -/
theorem Invariant.sum_cost_lt (h : Invariant hops o origin ids w)
    (hclosed : ∀ a ∈ ids, ∀ x ∈ hops a, x.2 ∈ ids)
    (hstack : w.stack = (n, (e, m) :: rest) :: below)
    (hfar : ∀ j, w.depths.get? m = some j → w.depth n + 1 < j) :
    (ids.map (cost ids (w.depths.set m (w.depth n + 1)))).sum <
      (ids.map (cost ids w.depths)).sum := by
  obtain ⟨hm, hlt⟩ := h.depth_lt hclosed hstack hfar
  have hlower : w.depth n + 1 < cost ids w.depths m := by
    unfold cost
    cases hget : w.depths.get? m with
    | none => exact hlt
    | some j => exact hfar j hget
  have hself : cost ids (w.depths.set m (w.depth n + 1)) m = w.depth n + 1 := by
    rw [cost, Assoc.get?_set, if_pos rfl]
    rfl
  refine List.sum_lt_sum _ _ (fun a _ => ?_) ⟨m, hm, ?_⟩
  · by_cases ha : a = m
    · rw [ha, hself]
      exact Nat.le_of_lt hlower
    · rw [cost, Assoc.get?_set, if_neg ha]
      exact Nat.le_refl _
  · rw [hself]
    exact hlower

theorem Invariant.potential_lt (h : Invariant hops o origin ids w)
    (hclosed : ∀ a ∈ ids, ∀ x ∈ hops a, x.2 ∈ ids) {width : Nat}
    (hwidth : ∀ a, (hops a).length ≤ width) (hmove : Move hops o w t) :
    potential ids width t < potential ids width w := by
  cases hmove with
  | close hstack _ =>
    refine Nat.add_lt_add_left ?_ _
    rw [hstack, load]
    exact Nat.lt_add_of_pos_left (Nat.succ_pos _)
  | pass hstack _ _ _ =>
    refine Nat.add_lt_add_left ?_ _
    rw [hstack, take, load, load, List.length_cons]
    omega
  | @enter n m e rest below hstack _ hfar =>
    have hmul := Nat.mul_le_mul_right (width + 2) (h.sum_cost_lt hclosed hstack hfar)
    rw [Nat.succ_mul] at hmul
    refine Nat.lt_of_lt_of_le ?_ (Nat.add_le_add_right hmul _)
    rw [potential, Nat.add_assoc]
    refine Nat.add_lt_add_left ?_ _
    have hhops := hwidth m
    rw [hstack, SliceWalk.enter, take, load, load, load, List.length_cons]
    omega

/-- Enough steps bring the walk to its end. -/
theorem stack_run_eq_nil (hclosed : ∀ a ∈ ids, ∀ x ∈ hops a, x.2 ∈ ids) (horigin : origin ∈ ids)
    {width : Nat} (hwidth : ∀ a, (hops a).length ≤ width) {fuel : Nat}
    (hfuel : (ids.length * ids.length + 1) * (width + 2) < fuel) :
    (iterate (step hops o) fuel (start hops origin)).stack = [] := by
  have hcost : ∀ k ∈ ids.map (cost ids (start hops origin).depths), k ≤ ids.length := by
    intro k hk
    obtain ⟨a, -, rfl⟩ := List.mem_map.mp hk
    unfold cost
    cases hget : (start hops origin).depths.get? a with
    | none => exact Nat.le_refl _
    | some j =>
      rw [(get?_start.mp hget).2]
      exact Nat.zero_le _
  have hsum : (ids.map (cost ids (start hops origin).depths)).sum ≤ ids.length * ids.length := by
    simpa using List.sum_le_card_nsmul _ _ hcost
  have henough : potential ids width (start hops origin) < fuel := by
    have hmul := Nat.mul_le_mul_right (width + 2) hsum
    have hload : load (start hops origin).stack = (hops origin).length + 1 := rfl
    have hhops := hwidth origin
    rw [Nat.succ_mul] at hfuel
    unfold potential
    omega
  have hinv : Invariant hops o origin ids (start hops origin) := .start horigin
  exact stack_eq_nil_of_step (step_iterate_eq_none (potential ids width)
    (fun _ _ h hstep => h.move hclosed (move_of_step hstep))
    (fun _ _ h hstep => h.potential_lt hclosed hwidth (move_of_step hstep))
    fuel (start hops origin) hinv henough)

namespace Invariant

/-- When nothing is open any more, every node that may be left has all its hops settled. -/
theorem settled (h : Invariant hops o origin ids w) (hend : w.stack = [])
    (hget : w.depths.get? a = some k) (hopens : o.opens k = true) {x : Hop} (hx : x ∈ hops a) :
    w.Settled o k x := by
  refine (h.explored a k hget hopens x hx).resolve_left ?_
  rintro ⟨todo, hframe, -⟩
  rw [hend] at hframe
  exact absurd hframe List.not_mem_nil

/-- Along a walk within the bound every node is known in the end, and under a bound it is at most as
deep as the walk is long. -/
theorem exists_depth (h : Invariant hops o origin ids w) (hend : w.stack = [])
    (hwalk : Walk (Next hops) origin a k) (hbound : ∀ d ∈ o.maxDepth, k ≤ d) :
    ∃ j, w.depths.get? a = some j ∧ (o.maxDepth.isSome = true → j ≤ k) := by
  induction hwalk with
  | refl => exact ⟨0, h.start_known, fun _ => Nat.le_refl 0⟩
  | @tail b c k _ hnext ih =>
    obtain ⟨e, he⟩ := hnext
    obtain ⟨j, hget, hle⟩ := ih fun d hd => Nat.le_of_succ_le (hbound d hd)
    have hopens : o.opens j = true := by
      refine opens_iff.mpr fun d hd => Nat.lt_of_le_of_lt (hle ?_) (hbound d hd)
      rw [Option.mem_def.mp hd]
      rfl
    obtain ⟨-, i, hi, hij⟩ := h.settled hend hget hopens he
    exact ⟨i, hi, fun hb => Nat.le_trans (hij hb) (Nat.succ_le_succ (hle hb))⟩

/-- **The nodes of a finished walk.** A node is in the walk if and only if some walk from the start
leads to it within the bound. -/
theorem mem_order_iff (h : Invariant hops o origin ids w) (hend : w.stack = []) :
    a ∈ w.order ↔ ∃ k, Walk (Next hops) origin a k ∧ ∀ d ∈ o.maxDepth, k ≤ d := by
  constructor
  · intro ha
    obtain ⟨k, hget⟩ := Option.isSome_iff_exists.mp ((h.known_iff a).mpr ha)
    exact ⟨k, h.walk a k hget, h.bounded a k hget⟩
  · rintro ⟨k, hwalk, hbound⟩
    obtain ⟨j, hget, -⟩ := h.exists_depth hend hwalk hbound
    exact h.mem_order hget

end Invariant

/-! ## Followed edges -/

/-- Every edge of the walk was followed from a node that some walk leads to and that may be left at
its depth. -/
def Traced (hops : String → List Hop) (o : SliceOptions) (origin : String) (w : SliceWalk) : Prop :=
  ∀ e ∈ w.followed, ∃ a k b, Walk (Next hops) origin a k ∧ o.opens k = true ∧ (e, b) ∈ hops a

theorem Traced.take (ht : Traced hops o origin w) (h : Invariant hops o origin ids w)
    (hstack : w.stack = (n, (e, m) :: rest) :: below) (hopens : o.opens (w.depth n) = true) :
    Traced hops o origin (w.take n rest below e) := by
  intro x hx
  rcases mem_follow hx with hold | rfl
  · exact ht x hold
  · rw [h.depth_deepest hstack] at hopens
    exact ⟨n, below.length, m, h.walk n _ (h.get?_deepest hstack), hopens, h.next_mem hstack⟩

theorem Traced.move (ht : Traced hops o origin w) (h : Invariant hops o origin ids w)
    (hmove : Move hops o w t) : Traced hops o origin t := by
  cases hmove with
  | close _ _ => exact ht
  | pass hstack hopens _ _ => exact ht.take h hstack hopens
  | enter hstack hopens _ => exact ht.take h hstack hopens

theorem Traced.run (o : SliceOptions) (hclosed : ∀ a ∈ ids, ∀ x ∈ hops a, x.2 ∈ ids)
    (horigin : origin ∈ ids) (fuel : Nat) :
    Traced hops o origin (iterate (step hops o) fuel (SliceWalk.start hops origin)) := by
  have hrun := iterate_induction
    (P := fun w => Invariant hops o origin ids w ∧ Traced hops o origin w)
    (fun _ _ hw hstep => ⟨hw.1.move hclosed (move_of_step hstep),
      hw.2.move hw.1 (move_of_step hstep)⟩)
    fuel (SliceWalk.start hops origin) ⟨.start horigin, fun _ he => absurd he List.not_mem_nil⟩
  exact hrun.2

/-- **The edges of a finished walk.** An edge was followed if and only if some hop takes it from a
node that a walk from the start leads to in fewer steps than the bound. -/
theorem Invariant.mem_followed_iff (h : Invariant hops o origin ids w)
    (ht : Traced hops o origin w) (hend : w.stack = []) {id : String} :
    id ∈ w.followed.map Edge.id ↔ ∃ e a k b, Walk (Next hops) origin a k ∧ o.opens k = true ∧
      (e, b) ∈ hops a ∧ e.id = id := by
  constructor
  · intro hid
    obtain ⟨e, he, rfl⟩ := List.mem_map.mp hid
    obtain ⟨a, k, b, hwalk, hopens, hhop⟩ := ht e he
    exact ⟨e, a, k, b, hwalk, hopens, hhop, rfl⟩
  · rintro ⟨e, a, k, b, hwalk, hopens, hhop, rfl⟩
    have hlt := opens_iff.mp hopens
    obtain ⟨j, hget, hle⟩ := h.exists_depth hend hwalk fun d hd => Nat.le_of_lt (hlt d hd)
    -- the known depth is no greater, so the node may be left at it too
    have hopens' : o.opens j = true := by
      refine opens_iff.mpr fun d hd => Nat.lt_of_le_of_lt (hle ?_) (hlt d hd)
      rw [Option.mem_def.mp hd]
      rfl
    exact (h.settled hend hget hopens' hhop).1

end CodeAtlas.SliceWalk
