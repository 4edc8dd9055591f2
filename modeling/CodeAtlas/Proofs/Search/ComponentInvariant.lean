import CodeAtlas.Search.Components
import Mathlib.Data.List.Nodup
import Mathlib.Data.List.Perm.Basic
import Mathlib.Logic.Relation

/-!
# The invariant of the component search

The search works on any `successors` function. Its invariant has two parts.

* `Layout` ties the numbers, the pending nodes, the open nodes and the finished components
  together. Every open node reaches all pending nodes that are not older than it, and every pending
  node reaches an open node that is not younger. A finished component is strongly connected, and
  nothing in it leads outside the components finished up to then.
* `Lows` says what the low numbers are good for: each is the number of a pending node in reach, and
  an edge that was looked at and leads to a pending node is recorded at the open node under which
  its source stands.

Together they say that a node whose low number is its own closes a component: `Invariant.close`.
-/

namespace CodeAtlas

namespace Assoc

variable {β : Type}

theorem has_eq_isSome_get? (m : Assoc β) (key : String) : m.has key = (m.get? key).isSome := by
  induction m with
  | nil => rfl
  | cons e rest ih =>
    obtain ⟨k, b⟩ := e
    rw [get?_cons]
    by_cases hk : key = k
    · simp [has, hk]
    · rw [if_neg hk, ← ih]
      simp [has, Ne.symm hk]

theorem has_set (m : Assoc β) (key other : String) (b : β) :
    (m.set key b).has other = true ↔ other = key ∨ m.has other = true := by
  rw [has_eq_isSome_get?, has_eq_isSome_get?, get?_set]
  by_cases h : other = key <;> simp [h]

end Assoc

namespace ComponentSearch

/-- The open nodes, deepest first. -/
def opened (s : ComponentSearch) : List String :=
  s.work.map Prod.fst

/-- The nodes that have a number: those without a component and those in one. -/
def discovered (s : ComponentSearch) : List String :=
  s.pending ++ s.found.flatten

/-- `b` can be reached from `a` along successors. -/
def Leads (successors : String → List String) : String → String → Prop :=
  Relation.ReflTransGen fun a b => b ∈ successors a

/-- The successor `b` of `a` is not among those still to look at. -/
def Looked (successors : String → List String) (s : ComponentSearch) (a b : String) : Prop :=
  b ∈ successors a ∧ ∀ todo, (a, todo) ∈ s.work → b ∉ todo

/-- How numbers, pending nodes, open nodes and components hang together. -/
structure Layout (successors : String → List String) (ids : List String) (s : ComponentSearch) :
    Prop where
  within : ∀ a ∈ s.discovered, a ∈ ids
  has_iff : ∀ a, s.index.has a = true ↔ a ∈ s.discovered
  nodup : s.discovered.Nodup
  index_lt : ∀ a ∈ s.pending, s.indexOf a < s.next
  pending_sorted : s.pending.Pairwise fun a b => s.indexOf b < s.indexOf a
  opened_sorted : s.opened.Pairwise fun a b => s.indexOf b < s.indexOf a
  opened_pending : ∀ w ∈ s.opened, w ∈ s.pending
  opened_leads : ∀ w ∈ s.opened, ∀ a ∈ s.pending, s.indexOf w ≤ s.indexOf a →
    Leads successors w a
  leads_opened : ∀ a ∈ s.pending, ∃ w ∈ s.opened, s.indexOf w ≤ s.indexOf a ∧
    Leads successors a w
  found_ne_nil : ∀ c ∈ s.found, c ≠ []
  found_joined : ∀ c ∈ s.found, ∀ a ∈ c, ∀ b ∈ c, Leads successors a b
  found_closed : ∀ a ∈ s.found.flatten, ∀ b ∈ successors a, b ∈ s.found.flatten
  found_ordered : s.found.Pairwise fun c d => ∀ a ∈ c, ∀ b ∈ successors a, b ∉ d

/-- What the low numbers of the open nodes stand for. -/
structure Lows (successors : String → List String) (s : ComponentSearch) : Prop where
  low_le : ∀ w ∈ s.opened, s.lowOf w ≤ s.indexOf w
  low_attained : ∀ w ∈ s.opened, ∃ a ∈ s.pending, s.indexOf a = s.lowOf w ∧ Leads successors w a
  low_bounds : ∀ w ∈ s.opened, ∀ a ∈ s.pending, s.indexOf w ≤ s.indexOf a → ∀ b ∈ s.pending,
    s.Looked successors a b → ∃ v ∈ s.opened, s.indexOf w ≤ s.indexOf v ∧
      s.indexOf v ≤ s.indexOf a ∧ s.lowOf v ≤ s.indexOf b

/-- What every step of the search keeps. -/
structure Invariant (successors : String → List String) (ids : List String)
    (s : ComponentSearch) : Prop extends Layout successors ids s, Lows successors s where
  todo_mem : ∀ w todo, (w, todo) ∈ s.work → ∀ m ∈ todo, m ∈ successors w
  looked_mem : ∀ a ∈ s.pending, ∀ b, s.Looked successors a b → b ∈ s.discovered

variable {successors : String → List String} {ids : List String} {s t : ComponentSearch}
  {n m : String} {rest : List String} {below : List (String × List String)}

/-! ## The numbers -/

theorem indexOf_discover (s : ComponentSearch) (m a : String) :
    (s.discover successors m).indexOf a = if a = m then s.next else s.indexOf a := by
  unfold indexOf discover
  simp only [Assoc.get?_set]
  split <;> rfl

theorem lowOf_discover (s : ComponentSearch) (m a : String) :
    (s.discover successors m).lowOf a = if a = m then s.next else s.lowOf a := by
  unfold lowOf discover
  simp only [Assoc.get?_set]
  split <;> rfl

theorem lowOf_lower (s : ComponentSearch) (n : String) (bound : Nat) (a : String) :
    (s.lower n bound).lowOf a = if a = n then min (s.lowOf n) bound else s.lowOf a := by
  unfold lower
  conv_lhs => unfold lowOf
  simp only [Assoc.get?_set]
  split <;> rfl

theorem lowOf_lower_le (s : ComponentSearch) (n : String) (bound : Nat) (a : String) :
    (s.lower n bound).lowOf a ≤ s.lowOf a := by
  rw [lowOf_lower]
  split
  · rename_i h
    rw [h]
    exact Nat.min_le_left _ _
  · exact Nat.le_refl _

/-- The layout does not depend on the low numbers nor on what is still to look at. -/
theorem Layout.of_eq (h : Layout successors ids s) (hi : t.index = s.index)
    (hp : t.pending = s.pending) (ho : t.opened = s.opened) (hf : t.found = s.found)
    (hn : t.next = s.next) : Layout successors ids t := by
  have hidx : t.indexOf = s.indexOf := by
    funext a
    unfold indexOf
    rw [hi]
  have hd : t.discovered = s.discovered := by
    unfold discovered
    rw [hp, hf]
  constructor
  · rw [hd]; exact h.within
  · rw [hd, hi]; exact h.has_iff
  · rw [hd]; exact h.nodup
  · rw [hp, hidx, hn]; exact h.index_lt
  · rw [hp, hidx]; exact h.pending_sorted
  · rw [ho, hidx]; exact h.opened_sorted
  · rw [ho, hp]; exact h.opened_pending
  · rw [ho, hp, hidx]; exact h.opened_leads
  · rw [ho, hp, hidx]; exact h.leads_opened
  · rw [hf]; exact h.found_ne_nil
  · rw [hf]; exact h.found_joined
  · rw [hf]; exact h.found_closed
  · rw [hf]; exact h.found_ordered

/-! ## The deepest open node -/

theorem opened_eq_cons {todo : List String} (hw : s.work = (n, todo) :: below) :
    s.opened = n :: below.map Prod.fst := by
  unfold opened
  rw [hw, List.map_cons]

theorem deepest_opened {todo : List String} (hw : s.work = (n, todo) :: below) : n ∈ s.opened := by
  rw [opened_eq_cons hw]
  exact List.mem_cons_self

theorem below_opened {todo : List String} (hw : s.work = (n, todo) :: below) {w : String}
    (hb : w ∈ below.map Prod.fst) : w ∈ s.opened := by
  rw [opened_eq_cons hw]
  exact List.mem_cons_of_mem _ hb

theorem mem_below_of_lt {todo : List String} (hw : s.work = (n, todo) :: below) {w : String}
    (ho : w ∈ s.opened) (hlt : s.indexOf w < s.indexOf n) : w ∈ below.map Prod.fst := by
  rw [opened_eq_cons hw] at ho
  rcases List.mem_cons.mp ho with rfl | hb
  · exact absurd hlt (Nat.lt_irrefl _)
  · exact hb

theorem Layout.deepest_pending (h : Layout successors ids s) {todo : List String}
    (hw : s.work = (n, todo) :: below) : n ∈ s.pending :=
  h.opened_pending n (deepest_opened hw)

/-- The deepest open node is the youngest. -/
theorem Layout.indexOf_lt_deepest (h : Layout successors ids s) {todo : List String}
    (hw : s.work = (n, todo) :: below) {w : String} (hb : w ∈ below.map Prod.fst) :
    s.indexOf w < s.indexOf n := by
  have hsorted := h.opened_sorted
  rw [opened_eq_cons hw] at hsorted
  exact (List.pairwise_cons.mp hsorted).1 w hb

theorem Layout.indexOf_le_deepest (h : Layout successors ids s) {todo : List String}
    (hw : s.work = (n, todo) :: below) {w : String} (ho : w ∈ s.opened) :
    s.indexOf w ≤ s.indexOf n := by
  rw [opened_eq_cons hw] at ho
  rcases List.mem_cons.mp ho with rfl | hb
  · exact Nat.le_refl _
  · exact Nat.le_of_lt (h.indexOf_lt_deepest hw hb)

/-- Every open node leads to the deepest one. -/
theorem Layout.leads_deepest (h : Layout successors ids s) {todo : List String}
    (hw : s.work = (n, todo) :: below) {w : String} (ho : w ∈ s.opened) :
    Leads successors w n :=
  h.opened_leads w ho n (h.deepest_pending hw) (h.indexOf_le_deepest hw ho)

/-! ## Looking at a successor -/

/-- Moving past `m` adds at most the edge from `n` to `m` to those looked at. -/
theorem looked_advance (hw : s.work = (n, m :: rest) :: below) (ht : t.work = (n, rest) :: below)
    {a b : String} (h : t.Looked successors a b) :
    s.Looked successors a b ∨ a = n ∧ b = m := by
  by_cases hab : a = n ∧ b = m
  · exact Or.inr hab
  · refine Or.inl ⟨h.1, ?_⟩
    intro todo hmem hb
    rw [hw] at hmem
    rcases List.mem_cons.mp hmem with heq | hmem
    · obtain ⟨rfl, rfl⟩ := Prod.mk.inj heq
      rcases List.mem_cons.mp hb with rfl | hb
      · exact hab ⟨rfl, rfl⟩
      · exact h.2 rest (by rw [ht]; exact List.mem_cons_self) hb
    · exact h.2 todo (by rw [ht]; exact List.mem_cons_of_mem _ hmem) hb

theorem Lows.advance (h : Lows successors s) (hw : s.work = (n, m :: rest) :: below)
    (hm : m ∈ s.pending → s.lowOf n ≤ s.indexOf m) :
    Lows successors { s with work := (n, rest) :: below } := by
  have ho : ({ s with work := (n, rest) :: below } : ComponentSearch).opened = s.opened :=
    (opened_eq_cons hw).symm
  constructor
  · rw [ho]; exact h.low_le
  · rw [ho]; exact h.low_attained
  · rw [ho]
    intro w hwo a ha hwa b hb hlook
    rcases looked_advance hw rfl hlook with hlook | ⟨rfl, rfl⟩
    · exact h.low_bounds w hwo a ha hwa b hb hlook
    · exact ⟨a, deepest_opened hw, hwa, Nat.le_refl _, hm hb⟩

/-- A low number may be lowered to the number of any pending node in reach. -/
theorem Lows.lower (h : Lows successors s) {a : String} (ha : a ∈ s.pending)
    (hlead : Leads successors n a) : Lows successors (s.lower n (s.indexOf a)) := by
  constructor
  · intro w hw
    exact Nat.le_trans (lowOf_lower_le s n _ w) (h.low_le w hw)
  · intro w hw
    rw [lowOf_lower]
    split
    · rename_i hwn
      subst hwn
      obtain ⟨b, hb, hlow, hbl⟩ := h.low_attained w hw
      rcases Nat.le_total (s.lowOf w) (s.indexOf a) with hle | hle
      · exact ⟨b, hb, hlow.trans (Nat.min_eq_left hle).symm, hbl⟩
      · exact ⟨a, ha, (Nat.min_eq_right hle).symm, hlead⟩
    · exact h.low_attained w hw
  · intro w hw b hb hwb c hc hlook
    obtain ⟨v, hv, hwv, hvb, hvc⟩ := h.low_bounds w hw b hb hwb c hc hlook
    exact ⟨v, hv, hwv, hvb, Nat.le_trans (lowOf_lower_le s n _ v) hvc⟩

/-! ## Discovering a node -/

theorem discovered_discover (s : ComponentSearch) (m : String) :
    (s.discover successors m).discovered = m :: s.discovered := rfl

theorem mem_pending_discover {a : String} :
    a ∈ (s.discover successors m).pending ↔ a = m ∨ a ∈ s.pending :=
  List.mem_cons

theorem mem_opened_discover {w : String} :
    w ∈ (s.discover successors m).opened ↔ w = m ∨ w ∈ s.opened :=
  List.mem_cons

/-- A new node leaves the numbers of the pending ones alone. -/
theorem Layout.indexOf_discover_of_mem (h : Layout successors ids s) (hm : ¬s.index.has m = true)
    {a : String} (ha : a ∈ s.pending) :
    (s.discover successors m).indexOf a = s.indexOf a := by
  rw [indexOf_discover, if_neg]
  rintro rfl
  exact hm ((h.has_iff a).mpr (List.mem_append_left _ ha))

theorem Layout.discover (h : Layout successors ids s) (hm : ¬s.index.has m = true)
    (hmi : m ∈ ids) (hlead : ∀ w ∈ s.opened, Leads successors w m) :
    Layout successors ids (s.discover successors m) := by
  have hnew : (s.discover successors m).indexOf m = s.next := by
    rw [indexOf_discover, if_pos rfl]
  have hold : ∀ a ∈ s.pending, (s.discover successors m).indexOf a = s.indexOf a :=
    fun a ha => h.indexOf_discover_of_mem hm ha
  have hopen : ∀ w ∈ s.opened, (s.discover successors m).indexOf w = s.indexOf w :=
    fun w hw => hold w (h.opened_pending w hw)
  constructor
  · intro a ha
    rcases List.mem_cons.mp ha with rfl | ha
    · exact hmi
    · exact h.within a ha
  · intro a
    rw [discovered_discover, List.mem_cons, ← h.has_iff]
    exact Assoc.has_set s.index m a s.next
  · rw [discovered_discover, List.nodup_cons, ← h.has_iff]
    exact ⟨hm, h.nodup⟩
  · intro a ha
    show _ < s.next + 1
    rcases List.mem_cons.mp ha with rfl | ha
    · rw [hnew]
      exact Nat.lt_succ_self _
    · rw [hold a ha]
      exact Nat.lt_succ_of_lt (h.index_lt a ha)
  · refine List.pairwise_cons.mpr ⟨?_, ?_⟩
    · intro a ha
      rw [hnew, hold a ha]
      exact h.index_lt a ha
    · refine h.pending_sorted.imp_of_mem ?_
      intro a b ha hb hab
      rwa [hold a ha, hold b hb]
  · refine List.pairwise_cons.mpr ⟨?_, ?_⟩
    · intro w hw
      rw [hnew, hopen w hw]
      exact h.index_lt w (h.opened_pending w hw)
    · refine h.opened_sorted.imp_of_mem ?_
      intro a b ha hb hab
      rwa [hopen a ha, hopen b hb]
  · intro w hw
    rcases List.mem_cons.mp hw with rfl | hw
    · exact List.mem_cons_self
    · exact List.mem_cons_of_mem _ (h.opened_pending w hw)
  · intro w hw a ha hwa
    rw [mem_opened_discover] at hw
    rw [mem_pending_discover] at ha
    rcases hw with rfl | hw
    · rcases ha with rfl | ha
      · exact Relation.ReflTransGen.refl
      · -- an older node has a smaller number
        rw [hnew, hold a ha] at hwa
        exact absurd (h.index_lt a ha) (Nat.not_lt.mpr hwa)
    · rcases ha with rfl | ha
      · exact hlead w hw
      · rw [hopen w hw, hold a ha] at hwa
        exact h.opened_leads w hw a ha hwa
  · intro a ha
    rcases List.mem_cons.mp ha with rfl | ha
    · exact ⟨a, List.mem_cons_self, Nat.le_refl _, Relation.ReflTransGen.refl⟩
    · obtain ⟨w, hw, hwa, hlead⟩ := h.leads_opened a ha
      exact ⟨w, List.mem_cons_of_mem _ hw, by rwa [hopen w hw, hold a ha], hlead⟩
  · exact h.found_ne_nil
  · exact h.found_joined
  · exact h.found_closed
  · exact h.found_ordered

/-- Nothing has been looked at from a node that is just discovered. -/
theorem not_looked_discover (s : ComponentSearch) (m b : String) :
    ¬(s.discover successors m).Looked successors m b :=
  fun h => h.2 (successors m) List.mem_cons_self h.1

theorem Looked.of_discover {a b : String} (h : (s.discover successors m).Looked successors a b) :
    s.Looked successors a b :=
  ⟨h.1, fun todo hmem => h.2 todo (List.mem_cons_of_mem _ hmem)⟩

theorem Lows.discover (h : Lows successors s) (hl : Layout successors ids s)
    (hm : ¬s.index.has m = true) : Lows successors (s.discover successors m) := by
  have hnew : (s.discover successors m).indexOf m = s.next := by
    rw [indexOf_discover, if_pos rfl]
  have hold : ∀ a ∈ s.pending, (s.discover successors m).indexOf a = s.indexOf a :=
    fun a ha => hl.indexOf_discover_of_mem hm ha
  have hopen : ∀ w ∈ s.opened, (s.discover successors m).indexOf w = s.indexOf w :=
    fun w hw => hold w (hl.opened_pending w hw)
  have hlowNew : (s.discover successors m).lowOf m = s.next := by
    rw [lowOf_discover, if_pos rfl]
  have hlow : ∀ w ∈ s.opened, (s.discover successors m).lowOf w = s.lowOf w := by
    intro w hw
    rw [lowOf_discover, if_neg]
    rintro rfl
    exact hm ((hl.has_iff w).mpr (List.mem_append_left _ (hl.opened_pending w hw)))
  constructor
  · intro w hw
    rcases List.mem_cons.mp hw with rfl | hw
    · exact Nat.le_of_eq (by rw [hlowNew, hnew])
    · rw [hlow w hw, hopen w hw]
      exact h.low_le w hw
  · intro w hw
    rcases List.mem_cons.mp hw with rfl | hw
    · exact ⟨w, List.mem_cons_self, by rw [hlowNew, hnew], Relation.ReflTransGen.refl⟩
    · obtain ⟨a, ha, hla, hlead⟩ := h.low_attained w hw
      exact ⟨a, List.mem_cons_of_mem _ ha, by rw [hold a ha, hlow w hw, hla], hlead⟩
  · intro w hw a ha hwa b hb hlook
    rw [mem_opened_discover] at hw
    rw [mem_pending_discover] at ha hb
    rcases ha with rfl | ha
    · exact absurd hlook (not_looked_discover s a b)
    rcases hw with rfl | hw
    · rw [hnew, hold a ha] at hwa
      exact absurd (hl.index_lt a ha) (Nat.not_lt.mpr hwa)
    rw [hopen w hw, hold a ha] at hwa
    rcases hb with rfl | hb
    · -- every low number is below the number of a new node
      refine ⟨w, List.mem_cons_of_mem _ hw, Nat.le_refl _, by rwa [hopen w hw, hold a ha], ?_⟩
      rw [hlow w hw, hnew]
      exact Nat.le_trans (h.low_le w hw) (Nat.le_of_lt (hl.index_lt w (hl.opened_pending w hw)))
    · obtain ⟨v, hv, hwv, hva, hvb⟩ := h.low_bounds w hw a ha hwa b hb hlook.of_discover
      exact ⟨v, List.mem_cons_of_mem _ hv, by rwa [hopen w hw, hopen v hv],
        by rwa [hopen v hv, hold a ha], by rwa [hlow v hv, hold b hb]⟩

/-- A new node may be opened when every open node leads to it and no other new node was looked
at. -/
theorem Invariant.discover (hl : Layout successors ids s) (hs : Lows successors s)
    (htodo : ∀ w todo, (w, todo) ∈ s.work → ∀ b ∈ todo, b ∈ successors w)
    (hlook : ∀ a ∈ s.pending, ∀ b, s.Looked successors a b → b ∈ s.discovered ∨ b = m)
    (hm : ¬s.index.has m = true) (hmi : m ∈ ids) (hlead : ∀ w ∈ s.opened, Leads successors w m) :
    Invariant successors ids (s.discover successors m) where
  toLayout := hl.discover hm hmi hlead
  toLows := hs.discover hl hm
  todo_mem := by
    intro w todo hmem b hb
    rcases List.mem_cons.mp hmem with heq | hmem
    · obtain ⟨rfl, rfl⟩ := Prod.mk.inj heq
      exact hb
    · exact htodo w todo hmem b hb
  looked_mem := by
    intro a ha b hab
    rw [discovered_discover, List.mem_cons]
    rcases List.mem_cons.mp ha with rfl | ha
    · exact absurd hab (not_looked_discover s a b)
    · exact (hlook a ha b hab.of_discover).symm

/-! ## Closing a node -/

@[simp] theorem report_index (s : ComponentSearch) (n : String) :
    (s.report n).index = s.index := by
  unfold report
  split <;> rfl

@[simp] theorem report_next (s : ComponentSearch) (n : String) : (s.report n).next = s.next := by
  unfold report
  split <;> rfl

@[simp] theorem report_pending (s : ComponentSearch) (n : String) :
    (s.report n).pending = s.pending := by
  unfold report
  split <;> rfl

@[simp] theorem report_work (s : ComponentSearch) (n : String) : (s.report n).work = s.work := by
  unfold report
  split <;> rfl

@[simp] theorem report_found (s : ComponentSearch) (n : String) :
    (s.report n).found = s.found := by
  unfold report
  split <;> rfl

@[simp] theorem report_indexOf (s : ComponentSearch) (n a : String) :
    (s.report n).indexOf a = s.indexOf a := by
  unfold indexOf
  rw [report_index]

theorem lowOf_report_self {s : ComponentSearch} {n : String} (hn : n ∉ s.opened) :
    (s.report n).lowOf n = s.lowOf n := by
  unfold report
  split
  · rfl
  · rename_i p todo rest hwork
    rw [lowOf_lower, if_neg]
    rintro rfl
    exact hn (by unfold opened; rw [hwork]; exact List.mem_cons_self)

/-- A report that is no news changes nothing. -/
theorem lowOf_report_of_le {s : ComponentSearch} {n : String}
    (h : ∀ w ∈ s.opened, s.lowOf w ≤ s.lowOf n) (a : String) :
    (s.report n).lowOf a = s.lowOf a := by
  unfold report
  split
  · rfl
  · rename_i p todo rest hwork
    rw [lowOf_lower]
    split
    · rename_i hap
      subst hap
      exact Nat.min_eq_left (h a (by unfold opened; rw [hwork]; exact List.mem_cons_self))
    · rfl

theorem close_of_ne {s : ComponentSearch} {n : String} (h : s.lowOf n ≠ s.indexOf n) :
    s.close n = s := by
  unfold close
  rw [if_neg (by simpa using h)]

theorem close_of_eq {s : ComponentSearch} {n : String} {young old : List String}
    (h : s.lowOf n = s.indexOf n) (hp : s.pending = young ++ n :: old) (hn : n ∉ young) :
    s.close n = { s with found := s.found ++ [young ++ [n]], pending := old } := by
  have hyoung : ∀ a ∈ young, (a != n) = true := by
    intro a ha
    rw [bne_iff_ne]
    rintro rfl
    exact hn ha
  unfold close
  rw [if_pos (by simpa using h), hp, List.takeWhile_append_of_pos hyoung,
    List.dropWhile_append_of_pos hyoung]
  simp

section Close

variable (h : Invariant successors ids s) (hw : s.work = (n, []) :: below)

include h hw

theorem deepest_not_below : n ∉ below.map Prod.fst :=
  fun hb => Nat.lt_irrefl _ (h.indexOf_lt_deepest hw hb)

omit h in
/-- A node with nothing left to look at can be closed without a change to what was looked at. -/
theorem looked_of_close (ht : t.work = below) {a b : String} (hlook : t.Looked successors a b) :
    s.Looked successors a b := by
  refine ⟨hlook.1, ?_⟩
  intro todo hmem hb
  rw [hw] at hmem
  rcases List.mem_cons.mp hmem with heq | hmem
  · rw [(Prod.mk.inj heq).2] at hb
    exact absurd hb List.not_mem_nil
  · exact hlook.2 todo (by rwa [ht]) hb

/-- A node with a low number below its own leads to an older open node. -/
theorem exists_older (hlow : s.lowOf n < s.indexOf n) :
    ∃ v ∈ below.map Prod.fst, Leads successors n v := by
  obtain ⟨a, ha, hidx, hna⟩ := h.low_attained n (deepest_opened hw)
  obtain ⟨v, hv, hva, hav⟩ := h.leads_opened a ha
  exact ⟨v, mem_below_of_lt hw hv (by omega), hna.trans hav⟩

theorem Invariant.keep_layout (hlow : s.lowOf n < s.indexOf n) :
    Layout successors ids { s with work := below } := by
  obtain ⟨v, hv, hnv⟩ := exists_older h hw hlow
  have hopen : ∀ w ∈ below.map Prod.fst, w ∈ s.opened := fun w hb => below_opened hw hb
  have hsorted := h.opened_sorted
  rw [opened_eq_cons hw] at hsorted
  exact
    { within := h.within
      has_iff := h.has_iff
      nodup := h.nodup
      index_lt := h.index_lt
      pending_sorted := h.pending_sorted
      opened_sorted := (List.pairwise_cons.mp hsorted).2
      opened_pending := fun w hb => h.opened_pending w (hopen w hb)
      opened_leads := fun w hb => h.opened_leads w (hopen w hb)
      leads_opened := by
        intro a ha
        obtain ⟨w, hwo, hwa, haw⟩ := h.leads_opened a ha
        by_cases hwn : s.indexOf w < s.indexOf n
        · exact ⟨w, mem_below_of_lt hw hwo hwn, hwa, haw⟩
        · -- then `w` is the node being closed, from which an older open node can be reached
          rw [opened_eq_cons hw] at hwo
          rcases List.mem_cons.mp hwo with rfl | hb
          · have hvw := h.indexOf_lt_deepest hw hv
            exact ⟨v, hv, Nat.le_trans (Nat.le_of_lt hvw) hwa, haw.trans hnv⟩
          · exact absurd (h.indexOf_lt_deepest hw hb) hwn
      found_ne_nil := h.found_ne_nil
      found_joined := h.found_joined
      found_closed := h.found_closed
      found_ordered := h.found_ordered }

/-- When a node is closed without a component, the node below takes over what was found from it. -/
theorem Invariant.keep (hlow : s.lowOf n < s.indexOf n) :
    Invariant successors ids (({ s with work := below } : ComponentSearch).report n) := by
  have hlayout := h.keep_layout hw hlow
  obtain ⟨v, hv, -⟩ := exists_older h hw hlow
  obtain ⟨a, ha, hidx, hna⟩ := h.low_attained n (deepest_opened hw)
  obtain _ | ⟨⟨p, todo⟩, rest⟩ := below
  · exact absurd hv List.not_mem_nil
  have hpb : p ∈ ((p, todo) :: rest).map Prod.fst := List.mem_cons_self
  have hpn := h.indexOf_lt_deepest hw hpb
  have hopen : ∀ w ∈ ((p, todo) :: rest).map Prod.fst, w ∈ s.opened :=
    fun w hb => below_opened hw hb
  have hpa : Leads successors p a := (h.leads_deepest hw (hopen p hpb)).trans hna
  have hwp : ∀ w ∈ ((p, todo) :: rest).map Prod.fst, s.indexOf w ≤ s.indexOf p := by
    intro w hb
    rcases List.mem_cons.mp hb with rfl | hb
    · exact Nat.le_refl _
    · exact Nat.le_of_lt ((List.pairwise_cons.mp hlayout.opened_sorted).1 w hb)
  show Invariant successors ids
    (({ s with work := (p, todo) :: rest } : ComponentSearch).lower p (s.lowOf n))
  exact
    { toLayout := hlayout.of_eq rfl rfl rfl rfl rfl
      low_le := fun w hb => Nat.le_trans (lowOf_lower_le _ p _ w) (h.low_le w (hopen w hb))
      low_attained := by
        intro w hb
        rw [lowOf_lower]
        split
        · rename_i hwp
          subst hwp
          obtain ⟨b, hbp, hlowb, hlead⟩ := h.low_attained w (hopen w hb)
          rcases Nat.le_total (s.lowOf w) (s.lowOf n) with hle | hle
          · exact ⟨b, hbp, hlowb.trans (Nat.min_eq_left hle).symm, hlead⟩
          · exact ⟨a, ha, hidx.trans (Nat.min_eq_right hle).symm, hpa⟩
        · exact h.low_attained w (hopen w hb)
      low_bounds := by
        intro w hb c hc hwc d hd hlook
        obtain ⟨u, hu, hwu, huc, hud⟩ :=
          h.low_bounds w (hopen w hb) c hc hwc d hd (looked_of_close hw rfl hlook)
        rw [opened_eq_cons hw] at hu
        rcases List.mem_cons.mp hu with rfl | hub
        · -- what was recorded at the closed node is now recorded at the node below
          refine ⟨p, hpb, hwp w hb, Nat.le_trans (Nat.le_of_lt hpn) huc, ?_⟩
          rw [lowOf_lower, if_pos rfl]
          exact Nat.le_trans (Nat.min_le_right _ _) hud
        · exact ⟨u, hub, hwu, huc, Nat.le_trans (lowOf_lower_le _ p _ u) hud⟩
      todo_mem := fun w todo' hmem =>
        h.todo_mem w todo' (by rw [hw]; exact List.mem_cons_of_mem _ hmem)
      looked_mem := fun b hb c hlook => h.looked_mem b hb c (looked_of_close hw rfl hlook) }

/-! ### Closing a component -/

variable {young old : List String} (hp : s.pending = young ++ n :: old)

include hp

omit hw in
theorem indexOf_young {a : String} (ha : a ∈ young) : s.indexOf n < s.indexOf a := by
  have hsorted := h.pending_sorted
  rw [hp] at hsorted
  exact (List.pairwise_append.mp hsorted).2.2 a ha n List.mem_cons_self

omit hw in
theorem indexOf_old {a : String} (ha : a ∈ old) : s.indexOf a < s.indexOf n := by
  have hsorted := h.pending_sorted
  rw [hp] at hsorted
  exact (List.pairwise_cons.mp (List.pairwise_append.mp hsorted).2.1).1 a ha

omit hw in
/-- The pending nodes not older than `n` are those of the component to be closed. -/
theorem mem_component_iff {a : String} (ha : a ∈ s.pending) :
    a ∈ young ++ [n] ↔ s.indexOf n ≤ s.indexOf a := by
  rw [hp, List.mem_append, List.mem_cons] at ha
  rw [List.mem_append, List.mem_singleton]
  constructor
  · rintro (ha | rfl)
    · exact Nat.le_of_lt (indexOf_young h hp ha)
    · exact Nat.le_refl _
  · intro hle
    rcases ha with ha | rfl | ha
    · exact Or.inl ha
    · exact Or.inr rfl
    · exact absurd (indexOf_old h hp ha) (Nat.not_lt.mpr hle)

omit hw in
theorem mem_old_iff {a : String} (ha : a ∈ s.pending) :
    a ∈ old ↔ s.indexOf a < s.indexOf n := by
  constructor
  · exact indexOf_old h hp
  · intro hlt
    rw [hp, List.mem_append, List.mem_cons] at ha
    rcases ha with ha | rfl | ha
    · exact absurd (indexOf_young h hp ha) (Nat.lt_asymm hlt)
    · exact absurd hlt (Nat.lt_irrefl _)
    · exact ha

omit h hw in
theorem component_pending {a : String} (ha : a ∈ young ++ [n]) : a ∈ s.pending := by
  rw [hp]
  simp only [List.mem_append, List.mem_cons, List.not_mem_nil, or_false] at ha ⊢
  exact ha.imp_right Or.inl

omit h hw in
theorem old_pending {a : String} (ha : a ∈ old) : a ∈ s.pending := by
  rw [hp]
  exact List.mem_append_right _ (List.mem_cons_of_mem _ ha)

/-- Every node of the component leads to `n`, and `n` to every node of it. -/
theorem component_joined {a b : String} (ha : a ∈ young ++ [n]) (hb : b ∈ young ++ [n]) :
    Leads successors a b := by
  obtain ⟨w, hwo, -, haw⟩ := h.leads_opened a (component_pending hp ha)
  have hbp := component_pending hp hb
  have hnb := h.opened_leads n (deepest_opened hw) b hbp ((mem_component_iff h hp hbp).mp hb)
  exact (haw.trans (h.leads_deepest hw hwo)).trans hnb

/-- No edge leads from the component to an older pending node. All its edges were looked at, so one
that did would have lowered the low number of `n`. -/
theorem component_closed (hlow : s.lowOf n = s.indexOf n) {a b : String} (ha : a ∈ young ++ [n])
    (hb : b ∈ successors a) : b ∈ s.found.flatten ∨ b ∈ young ++ [n] := by
  have hn := deepest_opened hw
  have hap := component_pending hp ha
  have hna := (mem_component_iff h hp hap).mp ha
  have hlook : s.Looked successors a b := by
    refine ⟨hb, ?_⟩
    intro todo hmem hbt
    rw [hw] at hmem
    rcases List.mem_cons.mp hmem with heq | hmem
    · rw [(Prod.mk.inj heq).2] at hbt
      exact absurd hbt List.not_mem_nil
    · have hlt := h.indexOf_lt_deepest hw (List.mem_map_of_mem hmem)
      exact absurd hlt (Nat.not_lt.mpr hna)
  rcases List.mem_append.mp (h.looked_mem a hap b hlook) with hbp | hbf
  · right
    obtain ⟨v, hv, hnv, -, hvb⟩ := h.low_bounds n hn a hap hna b hbp hlook
    rw [opened_eq_cons hw] at hv
    rcases List.mem_cons.mp hv with rfl | hvb'
    · exact (mem_component_iff h hp hbp).mpr (hlow ▸ hvb)
    · exact absurd (h.indexOf_lt_deepest hw hvb') (Nat.not_lt.mpr hnv)
  · exact Or.inl hbf

omit h hw in
theorem discovered_perm :
    (old ++ (s.found ++ [young ++ [n]]).flatten).Perm s.discovered := by
  have hsplit : s.discovered = (young ++ [n]) ++ (old ++ s.found.flatten) := by
    unfold discovered
    rw [hp]
    simp
  have hflat : old ++ (s.found ++ [young ++ [n]]).flatten =
      (old ++ s.found.flatten) ++ (young ++ [n]) := by
    simp
  rw [hsplit, hflat]
  exact List.perm_append_comm

theorem Invariant.pop_layout (hlow : s.lowOf n = s.indexOf n) :
    Layout successors ids
      { s with work := below, pending := old, found := s.found ++ [young ++ [n]] } := by
  have hperm := discovered_perm (s := s) hp
  have hopen : ∀ w ∈ below.map Prod.fst, w ∈ s.opened := fun w hb => below_opened hw hb
  have hsorted := h.opened_sorted
  rw [opened_eq_cons hw] at hsorted
  have hold := h.pending_sorted
  rw [hp] at hold
  have hflat : (s.found ++ [young ++ [n]]).flatten = s.found.flatten ++ (young ++ [n]) := by
    simp
  exact
    { within := fun a ha => h.within a (hperm.mem_iff.mp ha)
      has_iff := fun a => (h.has_iff a).trans hperm.mem_iff.symm
      nodup := hperm.nodup_iff.mpr h.nodup
      index_lt := fun a ha => h.index_lt a (old_pending hp ha)
      pending_sorted := (List.pairwise_cons.mp (List.pairwise_append.mp hold).2.1).2
      opened_sorted := (List.pairwise_cons.mp hsorted).2
      opened_pending := fun w hb => (mem_old_iff h hp (h.opened_pending w (hopen w hb))).mpr
        (h.indexOf_lt_deepest hw hb)
      opened_leads := fun w hb a ha => h.opened_leads w (hopen w hb) a (old_pending hp ha)
      leads_opened := by
        intro a ha
        obtain ⟨w, hwo, hwa, haw⟩ := h.leads_opened a (old_pending hp ha)
        have hwn := Nat.lt_of_le_of_lt hwa (indexOf_old h hp ha)
        exact ⟨w, mem_below_of_lt hw hwo hwn, hwa, haw⟩
      found_ne_nil := by
        intro c hc
        rcases List.mem_append.mp hc with hc | hc
        · exact h.found_ne_nil c hc
        · rw [List.mem_singleton.mp hc]
          exact List.append_ne_nil_of_right_ne_nil _ (List.cons_ne_nil _ _)
      found_joined := by
        intro c hc a ha b hb
        rcases List.mem_append.mp hc with hc | hc
        · exact h.found_joined c hc a ha b hb
        · rw [List.mem_singleton.mp hc] at ha hb
          exact component_joined h hw hp ha hb
      found_closed := by
        intro a ha b hb
        rw [hflat, List.mem_append] at ha ⊢
        rcases ha with ha | ha
        · exact Or.inl (h.found_closed a ha b hb)
        · exact component_closed h hw hp hlow ha hb
      found_ordered := by
        refine List.pairwise_append.mpr ⟨h.found_ordered, List.pairwise_singleton _ _, ?_⟩
        intro c hc d hd a ha b hb hbd
        rw [List.mem_singleton.mp hd] at hbd
        have hbf := h.found_closed a (List.mem_flatten.mpr ⟨c, hc, ha⟩) b hb
        exact (List.nodup_append.mp h.nodup).2.2 b (component_pending hp hbd) b hbf rfl }

/-- When `n` closes a component, the nodes below keep what they knew. -/
theorem Invariant.pop (hlow : s.lowOf n = s.indexOf n) {low : Assoc Nat}
    (hsame : ∀ w ∈ below.map Prod.fst, (low.get? w).getD 0 = s.lowOf w) :
    Invariant successors ids
      { s with work := below, pending := old, found := s.found ++ [young ++ [n]], low } := by
  have hopen : ∀ w ∈ below.map Prod.fst, w ∈ s.opened := fun w hb => below_opened hw hb
  exact
    { toLayout := (h.pop_layout hw hp hlow).of_eq rfl rfl rfl rfl rfl
      low_le := fun w hb => Nat.le_trans (Nat.le_of_eq (hsame w hb)) (h.low_le w (hopen w hb))
      low_attained := by
        intro w hb
        obtain ⟨a, ha, hidx, hlead⟩ := h.low_attained w (hopen w hb)
        have hlt := h.indexOf_lt_deepest hw hb
        have hle := h.low_le w (hopen w hb)
        exact ⟨a, (mem_old_iff h hp ha).mpr (by omega), hidx.trans (hsame w hb).symm, hlead⟩
      low_bounds := by
        intro w hb a ha hwa b hbo hlook
        obtain ⟨v, hv, hwv, hva, hvb⟩ := h.low_bounds w (hopen w hb) a (old_pending hp ha) hwa b
          (old_pending hp hbo) (looked_of_close hw rfl hlook)
        have hvn := mem_below_of_lt hw hv (Nat.lt_of_le_of_lt hva (indexOf_old h hp ha))
        exact ⟨v, hvn, hwv, hva, Nat.le_trans (Nat.le_of_eq (hsame v hvn)) hvb⟩
      todo_mem := fun w todo hmem =>
        h.todo_mem w todo (by rw [hw]; exact List.mem_cons_of_mem _ hmem)
      looked_mem := fun a ha b hlook => (discovered_perm hp).mem_iff.mpr
        (h.looked_mem a (old_pending hp ha) b (looked_of_close hw rfl hlook)) }

omit hp

/-- Closing the deepest open node keeps the invariant. -/
theorem Invariant.close :
    Invariant successors ids
      ((({ s with work := below } : ComponentSearch).report n).close n) := by
  have hself : (({ s with work := below } : ComponentSearch).report n).lowOf n = s.lowOf n :=
    lowOf_report_self (deepest_not_below h hw)
  have hidx : (({ s with work := below } : ComponentSearch).report n).indexOf n = s.indexOf n :=
    report_indexOf _ n n
  have hn := deepest_opened hw
  by_cases hlow : s.lowOf n = s.indexOf n
  · obtain ⟨young, old, hp⟩ := List.append_of_mem (h.deepest_pending hw)
    have hyoung : n ∉ young := fun hmem => Nat.lt_irrefl _ (indexOf_young h hp hmem)
    rw [close_of_eq (hself.trans (hlow.trans hidx.symm)) (by rw [report_pending]; exact hp) hyoung]
    have hsame : ∀ w ∈ below.map Prod.fst,
        (({ s with work := below } : ComponentSearch).report n).lowOf w = s.lowOf w := by
      intro w hb
      refine lowOf_report_of_le ?_ w
      intro v hv
      have hvn := h.indexOf_lt_deepest hw hv
      have hle := h.low_le v (below_opened hw hv)
      show s.lowOf v ≤ s.lowOf n
      omega
    have hpop := h.pop hw hp hlow hsame
    simpa using hpop
  · rw [close_of_ne (by rw [hself, hidx]; exact hlow)]
    exact h.keep hw (Nat.lt_of_le_of_ne (h.low_le n hn) hlow)

end Close

end ComponentSearch

end CodeAtlas
