import Mathlib.Data.List.Chain
import Mathlib.Data.List.Nodup
import Mathlib.Data.List.Rotate
import Mathlib.Logic.Relation

/-!
# Walks, simple paths and simple cycles

The searches of a graph answer in different terms: a slice by the number of steps, a path or cycle
search by lists of nodes without repetition, a component search by mutual reachability. Walks with a
length lie between them: a walk can be shortened to a simple path, a simple path is a walk, and a
step that can be taken back lies on a simple cycle.
-/

namespace CodeAtlas

variable {α : Type} {R : α → α → Prop} {a b c : α} {n m : Nat}

/-- `b` is reached from `a` by `n` steps. -/
inductive Walk (R : α → α → Prop) (a : α) : α → Nat → Prop
  | refl : Walk R a a 0
  | tail {b c : α} {n : Nat} : Walk R a b n → R b c → Walk R a c (n + 1)

/-- `p` is the list of nodes of a way from `a` to `b` that visits no node twice. -/
structure IsPath (R : α → α → Prop) (a b : α) (p : List α) : Prop where
  head_eq : p.head? = some a
  last_eq : p.getLast? = some b
  chain : p.IsChain R
  nodup : p.Nodup

/-- `c` is the list of nodes of a closed way from `a` that visits no node twice. -/
structure IsCycle (R : α → α → Prop) (a : α) (c : List α) : Prop where
  head_eq : c.head? = some a
  closed : (c ++ [a]).IsChain R
  nodup : c.Nodup

/-- What every step leads to holds of all nodes after the first. -/
theorem forall_mem_of_isChain {P : α → Prop} (hstep : ∀ x y, R x y → P y) {p : List α}
    (hchain : (a :: p).IsChain R) : ∀ x ∈ p, P x := by
  induction p generalizing a with
  | nil => exact fun x hx => absurd hx List.not_mem_nil
  | cons b p ih =>
    obtain ⟨hab, hchain⟩ := List.isChain_cons_cons.mp hchain
    exact List.forall_mem_cons.mpr ⟨hstep a b hab, ih hchain⟩

namespace Walk

theorem single (h : R a b) : Walk R a b 1 :=
  tail refl h

theorem eq_of_zero (h : Walk R a b 0) : a = b := by
  cases h
  rfl

theorem trans (hab : Walk R a b n) (hbc : Walk R b c m) : Walk R a c (n + m) := by
  induction hbc with
  | refl => exact hab
  | tail _ hstep ih => exact ih.tail hstep

theorem head (hab : R a b) (hbc : Walk R b c n) : Walk R a c (n + 1) := by
  rw [Nat.add_comm]
  exact (single hab).trans hbc

theorem reflTransGen (h : Walk R a b n) : Relation.ReflTransGen R a b := by
  induction h with
  | refl => exact .refl
  | tail _ hstep ih => exact ih.tail hstep

/-- The same steps taken backwards. -/
theorem swap (h : Walk R a b n) : Walk (Function.swap R) b a n := by
  induction h with
  | refl => exact refl
  | tail _ hstep ih => exact head hstep ih

theorem of_isChain {p : List α} (hchain : (a :: p).IsChain R) (hlast : (a :: p).getLast? = some b) :
    Walk R a b p.length := by
  induction p generalizing a with
  | nil =>
    obtain rfl : a = b := by simpa using hlast
    exact refl
  | cons c p ih =>
    obtain ⟨hac, hchain⟩ := List.isChain_cons_cons.mp hchain
    exact head hac (ih hchain (by simpa using hlast))

/-- A walk contains a simple path: where it comes back to a node, the way round can be left out. -/
theorem exists_isPath (h : Walk R a b n) : ∃ p, IsPath R a b p ∧ p.length ≤ n + 1 := by
  induction h with
  | refl => exact ⟨[a], ⟨rfl, rfl, List.isChain_singleton a, List.nodup_singleton a⟩, Nat.le_refl _⟩
  | @tail b c n _ hstep ih =>
    obtain ⟨p, hp, hlen⟩ := ih
    by_cases hc : c ∈ p
    · -- the path up to `c` is all that is needed
      obtain ⟨front, rest, hsplit⟩ := List.append_of_mem hc
      have hfront : p = (front ++ [c]) ++ rest := by rw [hsplit, List.append_assoc]; rfl
      have hnodup := hp.nodup
      have hchain := hp.chain
      rw [hfront] at hnodup hchain
      refine ⟨front ++ [c], ⟨?_, List.getLast?_concat, hchain.left_of_append,
        hnodup.of_append_left⟩, ?_⟩
      · rw [← hp.head_eq, hfront]
        cases front <;> rfl
      · rw [hfront, List.length_append] at hlen
        omega
    · refine ⟨p ++ [c], ⟨?_, List.getLast?_concat, ?_, ?_⟩, ?_⟩
      · rw [List.head?_append, hp.head_eq, Option.some_or]
      · refine hp.chain.append (List.isChain_singleton c) ?_
        intro x hx y hy
        rw [hp.last_eq] at hx
        obtain rfl : b = x := Option.some.inj hx
        obtain rfl : c = y := Option.some.inj hy
        exact hstep
      · exact List.nodup_append.mpr ⟨hp.nodup, List.nodup_singleton c, by
          intro x hx y hy hxy
          rw [List.mem_singleton.mp hy] at hxy
          exact hc (hxy ▸ hx)⟩
      · rw [List.length_append, List.length_singleton]
        omega

end Walk

theorem exists_walk_iff : (∃ n, Walk R a b n) ↔ Relation.ReflTransGen R a b := by
  constructor
  · rintro ⟨n, h⟩
    exact h.reflTransGen
  · intro h
    induction h with
    | refl => exact ⟨0, .refl⟩
    | tail _ hstep ih =>
      obtain ⟨n, h⟩ := ih
      exact ⟨n + 1, h.tail hstep⟩

theorem IsPath.walk {p : List α} (h : IsPath R a b p) : Walk R a b (p.length - 1) := by
  cases p with
  | nil => exact absurd h.head_eq (by simp)
  | cons c p =>
    obtain rfl : c = a := Option.some.inj h.head_eq
    exact Walk.of_isChain h.chain h.last_eq

theorem IsPath.two_le_length {p : List α} (h : IsPath R a b p) (hne : a ≠ b) : 2 ≤ p.length := by
  match p, h with
  | [], h => exact absurd h.head_eq (by simp)
  | [c], h => exact absurd ((Option.some.inj h.head_eq).symm.trans (Option.some.inj h.last_eq)) hne
  | _ :: _ :: _, _ => exact Nat.le_add_left _ _

/-- A way that goes on after its first node does not end there. -/
theorem IsPath.ne_of_two_le {p : List α} (h : IsPath R a b p) (htwo : 2 ≤ p.length) : a ≠ b := by
  match p, h, htwo with
  | c :: x :: xs, h, _ =>
    obtain rfl : c = a := Option.some.inj h.head_eq
    have hlast : (x :: xs).getLast? = some b := h.last_eq
    rintro rfl
    exact (List.nodup_cons.mp h.nodup).1 (List.mem_of_getLast? hlast)

/-! ## Cycles -/

/-- A step that can be taken back in some way lies on a cycle. -/
theorem exists_isCycle (hab : R a b) (hba : Relation.ReflTransGen R b a) :
    ∃ c, IsCycle R a c ∧ b ∈ c := by
  obtain ⟨n, hwalk⟩ := exists_walk_iff.mpr hba
  obtain ⟨p, hp, -⟩ := hwalk.exists_isPath
  obtain ⟨front, rfl⟩ := List.getLast?_eq_some_iff.mp hp.last_eq
  obtain ⟨hfront, -, hnot⟩ := List.nodup_append.mp hp.nodup
  refine ⟨a :: front, ⟨rfl, ?_, ?_⟩, ?_⟩
  · refine List.isChain_cons.mpr ⟨fun x hx => ?_, hp.chain⟩
    obtain rfl := Option.some.inj (hp.head_eq.symm.trans hx)
    exact hab
  · refine List.nodup_cons.mpr ⟨fun ha => ?_, hfront⟩
    exact hnot a ha a (List.mem_singleton.mpr rfl) rfl
  · have hb := List.mem_of_mem_head? hp.head_eq
    simpa [or_comm] using hb

theorem reflTransGen_of_isChain {p : List α} (hchain : p.IsChain R) (hhead : p.head? = some a)
    (hlast : p.getLast? = some b) : Relation.ReflTransGen R a b := by
  cases p with
  | nil => cases hhead
  | cons x p =>
    obtain rfl := Option.some.inj hhead
    exact (Walk.of_isChain hchain hlast).reflTransGen

namespace IsCycle

variable {p : List α}

theorem reaches (h : IsCycle R a p) (hb : b ∈ p) :
    Relation.ReflTransGen R a b ∧ Relation.ReflTransGen R b a := by
  obtain ⟨front, rest, rfl⟩ := List.append_of_mem hb
  have hclosed := h.closed
  rw [List.append_assoc] at hclosed
  constructor
  · have hupto : (front ++ [b]).IsChain R := by
      refine hclosed.prefix ⟨rest ++ [a], ?_⟩
      rw [List.append_assoc]
      rfl
    refine reflTransGen_of_isChain hupto ?_ List.getLast?_concat
    rw [← h.head_eq]
    cases front <;> rfl
  · exact reflTransGen_of_isChain hclosed.right_of_append rfl List.getLast?_concat

theorem exists_next (h : IsCycle R a p) (hb : b ∈ p) : ∃ c ∈ p, R b c := by
  have ha : a ∈ p := List.mem_of_mem_head? h.head_eq
  obtain ⟨front, rest, rfl⟩ := List.append_of_mem hb
  have hclosed := h.closed
  rw [List.append_assoc] at hclosed
  have hafter : (b :: (rest ++ [a])).IsChain R := hclosed.right_of_append
  cases rest with
  | nil => exact ⟨a, ha, (List.isChain_cons_cons.mp hafter).1⟩
  | cons c rest => exact ⟨c, by simp, (List.isChain_cons_cons.mp hafter).1⟩

theorem length_pos (h : IsCycle R a p) : 0 < p.length :=
  List.length_pos_of_mem (List.mem_of_mem_head? h.head_eq)

/-- A node alone is a cycle if a step leads from it to itself. -/
theorem exists_singleton_iff : (∃ b, IsCycle R b [a]) ↔ R a a := by
  constructor
  · rintro ⟨b, h⟩
    obtain rfl : a = b := Option.some.inj h.head_eq
    exact List.isChain_pair.mp h.closed
  · intro h
    exact ⟨a, rfl, List.isChain_pair.mpr h, List.nodup_singleton a⟩

/-- A cycle can be written from its second node. -/
theorem step (h : IsCycle R a (a :: p)) : ∃ b, IsCycle R b (p ++ [a]) := by
  have hnodup : (p ++ [a]).Nodup := (List.perm_append_singleton a p).nodup_iff.mpr h.nodup
  cases p with
  | nil => exact ⟨a, h⟩
  | cons b p =>
    obtain ⟨hab, hchain⟩ := List.isChain_cons_cons.mp h.closed
    refine ⟨b, rfl, ?_, hnodup⟩
    rw [List.append_assoc]
    exact List.isChain_split.mpr ⟨hchain, List.isChain_pair.mpr hab⟩

/-- A cycle can be written from each of its nodes. -/
theorem isRotated (h : IsCycle R a p) {q : List α} (hq : p ~r q) : ∃ b, IsCycle R b q := by
  obtain ⟨n, rfl⟩ := hq
  induction n generalizing a p with
  | zero =>
    rw [List.rotate_zero]
    exact ⟨a, h⟩
  | succ n ih =>
    obtain ⟨rest, rfl⟩ := List.head?_eq_some_iff.mp h.head_eq
    obtain ⟨b, hb⟩ := h.step
    rw [List.rotate_cons_succ]
    exact ih hb

/-- All nodes of a cycle can be reached from each other. -/
theorem joined (h : IsCycle R a p) (hb : b ∈ p) (hc : c ∈ p) : Relation.ReflTransGen R b c :=
  (h.reaches hb).2.trans (h.reaches hc).1

end IsCycle

end CodeAtlas
