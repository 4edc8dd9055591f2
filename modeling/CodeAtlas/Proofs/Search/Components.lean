import CodeAtlas.Proofs.Graph.Adjacency
import CodeAtlas.Proofs.Graph.Reachable
import CodeAtlas.Proofs.Search.ComponentInvariant
import Mathlib.Algebra.GroupWithZero.Nat

/-!
# Strongly connected components

The component search keeps its invariant at every step and lowers a measure, so that its budget is
never used up. Once it stops nothing is pending, and the invariant says that the finished components
are the classes of mutual reachability.
-/

namespace CodeAtlas

namespace ComponentSearch

variable {successors : String → List String} {ids : List String} {s t : ComponentSearch}

/-! ## Steps -/

/-- Everything a step can do. -/
theorem step_cases (hstep : step successors s = some t) :
    (∃ n m rest below, s.work = (n, m :: rest) :: below ∧
      (¬s.index.has m = true ∧
          t = ({ s with work := (n, rest) :: below } : ComponentSearch).discover successors m ∨
        s.index.has m = true ∧ m ∈ s.pending ∧
          t = ({ s with work := (n, rest) :: below } : ComponentSearch).lower n (s.indexOf m) ∨
        s.index.has m = true ∧ m ∉ s.pending ∧ t = { s with work := (n, rest) :: below })) ∨
    ∃ n below, s.work = (n, []) :: below ∧
      t = (({ s with work := below } : ComponentSearch).report n).close n := by
  unfold step at hstep
  split at hstep
  · cases hstep
  · rename_i n m rest below hwork
    refine Or.inl ⟨n, m, rest, below, hwork, ?_⟩
    simp only at hstep
    split at hstep
    · rename_i hnew
      exact Or.inl ⟨by simpa using hnew, (Option.some.inj hstep).symm⟩
    · rename_i hnew
      have hhas : s.index.has m = true := by simpa using hnew
      split at hstep
      · rename_i hpend
        exact Or.inr (Or.inl ⟨hhas, by simpa using hpend, (Option.some.inj hstep).symm⟩)
      · rename_i hpend
        exact Or.inr (Or.inr ⟨hhas, by simpa using hpend, (Option.some.inj hstep).symm⟩)
  · rename_i n below hwork
    exact Or.inr ⟨n, below, hwork, (Option.some.inj hstep).symm⟩

theorem Invariant.todo_advance (h : Invariant successors ids s) {n m : String}
    {rest : List String} {below : List (String × List String)}
    (hw : s.work = (n, m :: rest) :: below) :
    ∀ w todo, (w, todo) ∈ (n, rest) :: below → ∀ b ∈ todo, b ∈ successors w := by
  intro w todo hmem b hb
  rcases List.mem_cons.mp hmem with heq | hmem
  · obtain ⟨rfl, rfl⟩ := Prod.mk.inj heq
    exact h.todo_mem w (m :: todo) (by rw [hw]; exact List.mem_cons_self) b
      (List.mem_cons_of_mem _ hb)
  · exact h.todo_mem w todo (by rw [hw]; exact List.mem_cons_of_mem _ hmem) b hb

/-- Moving past a successor that is discovered already. -/
theorem Invariant.advance (h : Invariant successors ids s) {n m : String} {rest : List String}
    {below : List (String × List String)} (hw : s.work = (n, m :: rest) :: below)
    (hm : m ∈ s.discovered) (hlow : m ∈ s.pending → s.lowOf n ≤ s.indexOf m) :
    Invariant successors ids { s with work := (n, rest) :: below } where
  toLayout := h.toLayout.of_eq rfl rfl (opened_eq_cons hw).symm rfl rfl
  toLows := h.toLows.advance hw hlow
  todo_mem := h.todo_advance hw
  looked_mem := by
    intro a ha b hlook
    rcases looked_advance hw rfl hlook with hlook | ⟨-, rfl⟩
    · exact h.looked_mem a ha b hlook
    · exact hm

theorem Invariant.lower (h : Invariant successors ids s) {n m : String} (hm : m ∈ s.pending)
    (hlead : Leads successors n m) : Invariant successors ids (s.lower n (s.indexOf m)) where
  toLayout := h.toLayout.of_eq rfl rfl rfl rfl rfl
  toLows := h.toLows.lower hm hlead
  todo_mem := h.todo_mem
  looked_mem := h.looked_mem

theorem Invariant.step (hclosed : ∀ a ∈ ids, ∀ b ∈ successors a, b ∈ ids)
    (h : Invariant successors ids s) (hstep : step successors s = some t) :
    Invariant successors ids t := by
  rcases step_cases hstep with ⟨n, m, rest, below, hw, hcase⟩ | ⟨n, below, hw, rfl⟩
  · have hmn : m ∈ successors n :=
      h.todo_mem n (m :: rest) (by rw [hw]; exact List.mem_cons_self) m List.mem_cons_self
    rcases hcase with ⟨hnew, rfl⟩ | ⟨hhas, hmp, rfl⟩ | ⟨hhas, hmp, rfl⟩
    · have hnp := h.deepest_pending hw
      have hnotin : m ∉ s.pending :=
        fun hmp => hnew ((h.has_iff m).mpr (List.mem_append_left _ hmp))
      refine Invariant.discover (h.toLayout.of_eq rfl rfl (opened_eq_cons hw).symm rfl rfl)
        (h.toLows.advance hw fun hmp => absurd hmp hnotin) (h.todo_advance hw) ?_ hnew
        (hclosed n (h.within n (List.mem_append_left _ hnp)) m hmn) ?_
      · intro a ha b hlook
        rcases looked_advance hw rfl hlook with hlook | ⟨-, rfl⟩
        · exact Or.inl (h.looked_mem a ha b hlook)
        · exact Or.inr rfl
      · intro w hwo
        exact (h.leads_deepest hw (by rw [opened_eq_cons hw]; exact hwo)).tail hmn
    · refine (h.lower hmp (Relation.ReflTransGen.single hmn)).advance
        (s := s.lower n (s.indexOf m)) hw ((h.has_iff m).mp hhas) ?_
      intro _
      rw [lowOf_lower, if_pos rfl]
      exact Nat.min_le_right _ _
    · exact h.advance hw ((h.has_iff m).mp hhas) fun hmem => absurd hmem hmp
  · exact h.close hw

/-! ## The search ends -/

/-- A bound on the steps to come: each open node has its successors to look at and is then closed,
and each new node brings as many again. -/
def remaining (ids : List String) (s : ComponentSearch) : Nat :=
  (ids.length - s.discovered.length) * (ids.length + 1) +
    (s.work.map fun frame => frame.2.length + 1).sum

theorem close_index (s : ComponentSearch) (n : String) : (s.close n).index = s.index := by
  unfold close
  split <;> rfl

theorem close_work (s : ComponentSearch) (n : String) : (s.close n).work = s.work := by
  unfold close
  split <;> rfl

/-- The discovered nodes are as many as there are numbers. -/
theorem Layout.length_discovered_eq (hs : Layout successors ids s) (ht : Layout successors ids t)
    (hi : t.index = s.index) : t.discovered.length = s.discovered.length := by
  apply List.Perm.length_eq
  rw [List.perm_ext_iff_of_nodup ht.nodup hs.nodup]
  intro a
  rw [← ht.has_iff, ← hs.has_iff, hi]

theorem Layout.length_discovered_le (h : Layout successors ids s) :
    s.discovered.length ≤ ids.length :=
  (h.nodup.subperm h.within).length_le

theorem remaining_step_lt (hlen : ∀ a, (successors a).length ≤ ids.length)
    (hs : Invariant successors ids s) (ht : Invariant successors ids t)
    (hstep : step successors s = some t) : remaining ids t < remaining ids s := by
  unfold remaining
  rcases step_cases hstep with ⟨n, m, rest, below, hw, hcase⟩ | ⟨n, below, hw, rfl⟩
  · rcases hcase with ⟨-, rfl⟩ | ⟨-, -, rfl⟩ | ⟨-, -, rfl⟩
    · have hle := ht.length_discovered_le
      have hm := hlen m
      rw [discovered_discover, List.length_cons] at hle ⊢
      have hsame : ({ s with work := (n, rest) :: below } : ComponentSearch).discovered.length =
        s.discovered.length := rfl
      rw [hsame] at hle ⊢
      -- one node fewer is left, and that makes room for its successors
      obtain ⟨left, hleft⟩ := Nat.exists_eq_add_of_le hle
      have h1 : ids.length - s.discovered.length = left + 1 := by omega
      have h2 : ids.length - (s.discovered.length + 1) = left := by omega
      rw [h1, h2, Nat.succ_mul, hw]
      simp only [discover, List.map_cons, List.sum_cons, List.length_cons]
      omega
    · have hsame := hs.length_discovered_eq ht.toLayout rfl
      rw [hsame, hw]
      simp only [lower, List.map_cons, List.sum_cons, List.length_cons]
      omega
    · have hsame := hs.length_discovered_eq ht.toLayout rfl
      rw [hsame, hw]
      simp only [List.map_cons, List.sum_cons, List.length_cons]
      omega
  · have hsame := hs.length_discovered_eq ht.toLayout (by rw [close_index, report_index])
    rw [hsame, hw, close_work, report_work]
    simp only [List.map_cons, List.sum_cons, List.length_nil]
    omega

theorem step_eq_none_iff : step successors s = none ↔ s.work = [] := by
  unfold step
  constructor
  · intro hstep
    split at hstep
    · assumption
    · simp only at hstep
      split at hstep
      · cases hstep
      · split at hstep <;> cases hstep
    · cases hstep
  · intro hwork
    rw [hwork]

/-- A number once given stays. -/
theorem has_of_step (hstep : step successors s = some t) {a : String}
    (ha : s.index.has a = true) : t.index.has a = true := by
  rcases step_cases hstep with ⟨n, m, rest, below, -, hcase⟩ | ⟨n, below, -, rfl⟩
  · rcases hcase with ⟨-, rfl⟩ | ⟨-, -, rfl⟩ | ⟨-, -, rfl⟩
    · exact (Assoc.has_set s.index m a s.next).mpr (Or.inr ha)
    · exact ha
    · exact ha
  · rwa [close_index, report_index]

theorem invariant_empty : Invariant successors ids {} where
  within := fun _ ha => absurd ha List.not_mem_nil
  has_iff := fun a => by simp [Assoc.has, discovered]
  nodup := List.nodup_nil
  index_lt := fun _ ha => absurd ha List.not_mem_nil
  pending_sorted := List.Pairwise.nil
  opened_sorted := List.Pairwise.nil
  opened_pending := fun _ hw => absurd hw List.not_mem_nil
  opened_leads := fun _ hw => absurd hw List.not_mem_nil
  leads_opened := fun _ ha => absurd ha List.not_mem_nil
  found_ne_nil := fun _ hc => absurd hc List.not_mem_nil
  found_joined := fun _ hc => absurd hc List.not_mem_nil
  found_closed := fun _ ha => absurd ha List.not_mem_nil
  found_ordered := List.Pairwise.nil
  low_le := fun _ hw => absurd hw List.not_mem_nil
  low_attained := fun _ hw => absurd hw List.not_mem_nil
  low_bounds := fun _ hw => absurd hw List.not_mem_nil
  todo_mem := fun _ _ hmem => absurd hmem List.not_mem_nil
  looked_mem := fun _ ha => absurd ha List.not_mem_nil

/-- With nothing open, nothing is pending. -/
theorem Layout.pending_eq_nil (h : Layout successors ids s) (hwork : s.work = []) :
    s.pending = [] := by
  rw [List.eq_nil_iff_forall_not_mem]
  intro a ha
  obtain ⟨w, hw, -⟩ := h.leads_opened a ha
  unfold opened at hw
  rw [hwork] at hw
  exact absurd hw List.not_mem_nil

/-! ## The whole search -/

/-- A search between two roots: nothing is open. -/
structure Rests (successors : String → List String) (ids : List String) (s : ComponentSearch) :
    Prop where
  invariant : Invariant successors ids s
  work_eq_nil : s.work = []

/-- A new root can be opened when nothing else is. -/
theorem Rests.invariant_discover (h : Rests successors ids s) {root : String} (hroot : root ∈ ids)
    (hnew : ¬s.index.has root = true) : Invariant successors ids (s.discover successors root) := by
  have hopened : s.opened = [] := by
    unfold opened
    rw [h.work_eq_nil]
    rfl
  refine Invariant.discover h.invariant.toLayout h.invariant.toLows h.invariant.todo_mem ?_
    hnew hroot ?_
  · exact fun a ha b hlook => Or.inl (h.invariant.looked_mem a ha b hlook)
  · intro w hw
    rw [hopened] at hw
    exact absurd hw List.not_mem_nil

section Run

variable (hclosed : ∀ a ∈ ids, ∀ b ∈ successors a, b ∈ ids)
  (hlen : ∀ a, (successors a).length ≤ ids.length)

include hclosed hlen

/-- The search from one root closes all it opens before its budget is used up. -/
theorem Rests.searchFrom (h : Rests successors ids s) {root : String} (hroot : root ∈ ids)
    {budget : Nat} (hbudget : ids.length * (ids.length + 1) < budget) :
    Rests successors ids (s.searchFrom successors budget root) := by
  unfold ComponentSearch.searchFrom
  split
  · exact h
  · rename_i hnew
    have hstart := h.invariant_discover hroot hnew
    have hfuel : remaining ids (s.discover successors root) < budget := by
      refine Nat.lt_of_le_of_lt ?_ hbudget
      have hle := hstart.length_discovered_le
      have hroot := hlen root
      obtain ⟨left, hleft⟩ := Nat.exists_eq_add_of_le hle
      have hcount : left + 1 ≤ ids.length := by
        rw [discovered_discover, List.length_cons] at hleft
        omega
      have hmul := Nat.mul_le_mul_right (ids.length + 1) hcount
      rw [Nat.succ_mul] at hmul
      unfold remaining
      rw [hleft, Nat.add_sub_cancel_left, ← hleft]
      simp only [discover, h.work_eq_nil, List.map_cons, List.map_nil, List.sum_cons, List.sum_nil]
      omega
    have hkeep : ∀ u v, Invariant successors ids u → step successors u = some v →
        Invariant successors ids v := fun u v hu huv => hu.step hclosed huv
    have hstop := step_iterate_eq_none (remaining ids) hkeep
      (fun u v hu huv => remaining_step_lt hlen hu (hkeep u v hu huv) huv) budget _ hstart hfuel
    exact ⟨iterate_induction hkeep budget _ hstart, step_eq_none_iff.mp hstop⟩

omit hclosed hlen in
theorem has_searchFrom {budget : Nat} {root a : String}
    (ha : s.index.has a = true ∨ a = root) :
    (s.searchFrom successors budget root).index.has a = true := by
  unfold ComponentSearch.searchFrom
  split
  · rename_i hhas
    rcases ha with ha | rfl
    · exact ha
    · exact hhas
  · refine iterate_induction (P := fun t => t.index.has a = true)
      (fun u v hu huv => has_of_step huv hu) budget _ ?_
    exact (Assoc.has_set s.index root a s.next).mpr ha.symm

/-- After any row of roots nothing is open, and every root has been discovered. -/
theorem Rests.foldl {budget : Nat} (hbudget : ids.length * (ids.length + 1) < budget)
    (roots : List String) (hroots : ∀ a ∈ roots, a ∈ ids) (h : Rests successors ids s) :
    Rests successors ids (roots.foldl (ComponentSearch.searchFrom successors budget) s) ∧
      ∀ a, s.index.has a = true ∨ a ∈ roots →
        (roots.foldl (ComponentSearch.searchFrom successors budget) s).index.has a = true := by
  induction roots generalizing s with
  | nil => exact ⟨h, fun a ha => ha.resolve_right List.not_mem_nil⟩
  | cons root roots ih =>
    have hnext := h.searchFrom hclosed hlen (hroots root List.mem_cons_self) hbudget
    obtain ⟨hrests, hhas⟩ := ih (fun a ha => hroots a (List.mem_cons_of_mem _ ha)) hnext
    refine ⟨hrests, ?_⟩
    intro a ha
    rw [List.mem_cons, ← or_assoc] at ha
    exact hhas a (ha.imp_left fun ha => has_searchFrom ha)

end Run

/-! ## Components -/

/-- What can be reached from the components finished first stays in them. -/
theorem Layout.leads_prefix (h : Layout successors ids s) {early late : List (List String)}
    (hsplit : s.found = early ++ late) {a b : String} (ha : a ∈ early.flatten)
    (hab : Leads successors a b) : b ∈ early.flatten := by
  induction hab with
  | refl => exact ha
  | @tail x y _ hxy hx =>
    have hy : y ∈ s.found.flatten := by
      refine h.found_closed x ?_ y hxy
      rw [hsplit, List.flatten_append]
      exact List.mem_append_left _ hx
    rw [hsplit, List.flatten_append, List.mem_append] at hy
    rcases hy with hy | hy
    · exact hy
    · -- an edge to a later component would contradict the order
      obtain ⟨c, hc, hxc⟩ := List.mem_flatten.mp hx
      obtain ⟨d, hd, hyd⟩ := List.mem_flatten.mp hy
      have hordered := h.found_ordered
      rw [hsplit] at hordered
      exact absurd hyd ((List.pairwise_append.mp hordered).2.2 c hc d hd x hxc y hxy)

/-- Two nodes share a component exactly when each leads to the other. -/
theorem Layout.share_iff (h : Layout successors ids s) {a b : String}
    (ha : a ∈ s.found.flatten) :
    (∃ c ∈ s.found, a ∈ c ∧ b ∈ c) ↔ Leads successors a b ∧ Leads successors b a := by
  constructor
  · rintro ⟨c, hc, hac, hbc⟩
    exact ⟨h.found_joined c hc a hac b hbc, h.found_joined c hc b hbc a hac⟩
  · rintro ⟨hab, hba⟩
    obtain ⟨c, hc, hac⟩ := List.mem_flatten.mp ha
    obtain ⟨early, late, hsplit⟩ := List.append_of_mem hc
    have hsplit' : s.found = (early ++ [c]) ++ late := by
      rw [hsplit, List.append_assoc]
      rfl
    have hflat : (early ++ [c]).flatten = early.flatten ++ c := by simp
    have hb := h.leads_prefix hsplit' (by rw [hflat]; exact List.mem_append_right _ hac) hab
    rw [hflat, List.mem_append] at hb
    rcases hb with hb | hb
    · -- then `a` would stand in an earlier component as well
      have ha' := h.leads_prefix hsplit hb hba
      have hnodup := (List.nodup_append.mp h.nodup).2.1
      rw [hsplit, List.flatten_append] at hnodup
      have hac' : a ∈ (c :: late).flatten := List.mem_flatten.mpr ⟨c, List.mem_cons_self, hac⟩
      exact absurd rfl ((List.nodup_append.mp hnodup).2.2 a ha' a hac')
    · exact ⟨c, hc, hac, hb⟩

end ComponentSearch

namespace Graph

open ComponentSearch

/-! ## Components of a graph -/

/-- The successors the component search works with. -/
abbrev allSuccessors (g : Graph) (id : String) : List String :=
  g.successors id none

theorem Consistent.leads_iff {g : Graph} (hg : g.Consistent) {a b : String} :
    Leads g.allSuccessors a b ↔ g.Reaches none a b := by
  have hrel : (fun a b => b ∈ g.allSuccessors a) = g.Adjacent none := by
    funext a b
    exact propext hg.mem_successors_iff
  unfold Leads Reaches
  rw [hrel]

/-- After any of the roots the search has closed all it opened, and discovered these roots. -/
theorem Consistent.rests_foldl {g : Graph} (hg : g.Consistent) {roots : List String}
    (hroots : ∀ a ∈ roots, a ∈ g.nodeIds) :
    Rests g.allSuccessors g.nodeIds
        (roots.foldl (searchFrom g.allSuccessors g.componentBudget) {}) ∧
      ∀ a ∈ roots,
        (roots.foldl (searchFrom g.allSuccessors g.componentBudget) {}).index.has a = true := by
  have hcount : g.nodeIds.length = g.nodes.length := List.length_map _
  have hclosed : ∀ a ∈ g.nodeIds, ∀ b ∈ g.allSuccessors a, b ∈ g.nodeIds :=
    fun a _ b hb => hg.successors_subset a none hb
  have hlen : ∀ a, (g.allSuccessors a).length ≤ g.nodeIds.length := by
    intro a
    rw [hcount]
    exact hg.length_successors_le a none
  have hbudget : g.nodeIds.length * (g.nodeIds.length + 1) < g.componentBudget := by
    unfold componentBudget
    rw [hcount]
    exact Nat.lt_succ_self _
  obtain ⟨hrests, hhas⟩ :=
    Rests.foldl hclosed hlen hbudget roots hroots ⟨invariant_empty, rfl⟩
  exact ⟨hrests, fun a ha => hhas a (Or.inr ha)⟩

theorem Consistent.componentLayout {g : Graph} (hg : g.Consistent) :
    Layout g.allSuccessors g.nodeIds g.componentSearch :=
  (hg.rests_foldl fun _ ha => ha).1.invariant.toLayout

theorem Consistent.discovered_componentSearch {g : Graph} (hg : g.Consistent) :
    g.componentSearch.discovered = g.components.flatten := by
  unfold discovered
  rw [hg.componentLayout.pending_eq_nil (hg.rests_foldl fun _ ha => ha).1.work_eq_nil]
  rfl

theorem Consistent.mem_components_iff {g : Graph} (hg : g.Consistent) {id : String} :
    id ∈ g.components.flatten ↔ id ∈ g.nodeIds := by
  rw [← hg.discovered_componentSearch]
  constructor
  · exact hg.componentLayout.within id
  · intro hid
    exact (hg.componentLayout.has_iff id).mp ((hg.rests_foldl fun _ ha => ha).2 id hid)

/-- **Strongly connected components.** In every reachable graph the search from each root ends with
nothing left open, and it returns nonempty disjoint sets that together hold exactly the nodes of the
graph. Two nodes share a set exactly when each can be reached from the other. -/
theorem components_partition {g : Graph} (hg : g.Reachable) :
    (∀ roots, roots <+: g.nodeIds → (roots.foldl
      (searchFrom (fun id => g.successors id none) g.componentBudget) {}).work = []) ∧
    (∀ c ∈ g.components, c ≠ [] ∧ c.Nodup) ∧
    g.components.Pairwise List.Disjoint ∧
    (∀ id, (∃ c ∈ g.components, id ∈ c) ↔ id ∈ g.nodeIds) ∧
    ∀ u ∈ g.nodeIds, ∀ v ∈ g.nodeIds,
      (∃ c ∈ g.components, u ∈ c ∧ v ∈ c) ↔ g.Reaches none u v ∧ g.Reaches none v u := by
  have hc := hg.consistent
  have hlayout := hc.componentLayout
  have hnodup := hlayout.nodup
  rw [hc.discovered_componentSearch, List.nodup_flatten] at hnodup
  refine ⟨?_, ?_, hnodup.2, ?_, ?_⟩
  · intro roots hroots
    exact (hc.rests_foldl fun a ha => hroots.subset ha).1.work_eq_nil
  · exact fun c hmem => ⟨hlayout.found_ne_nil c hmem, hnodup.1 c hmem⟩
  · intro id
    rw [← hc.mem_components_iff, List.mem_flatten]
  · intro u hu v _
    rw [← hc.leads_iff, ← hc.leads_iff]
    exact hlayout.share_iff (hc.mem_components_iff.mpr hu)

/-- Two cycles joined by an edge, one with a self-loop and one with parallel edges, and a node that
leads into them. -/
def knots : Graph :=
  (empty {} []).performAll
    ((["f", "a", "b", "c", "d", "e"].map fun id =>
        .createNode (.str "function") none { id := some id }) ++
      ([("f", "c"), ("a", "b"), ("a", "b"), ("b", "c"), ("c", "a"), ("c", "d"), ("d", "d"),
        ("d", "e"), ("e", "d"), ("f", "e")].map fun ends =>
        .createEdge ends.1 ends.2 (.str "calls") [] none))

theorem knots_reachable : knots.Reachable :=
  (Reachable.empty {} []).performAll _

theorem components_partition_knots :
    knots.Reachable ∧ knots.components = [["e", "d"], ["b", "a", "c"], ["f"]] ∧
      knots.Reaches none "a" "c" ∧ knots.Reaches none "c" "a" := by
  have hcomponents : knots.components = [["e", "d"], ["b", "a", "c"], ["f"]] := rfl
  refine ⟨knots_reachable, hcomponents, ?_⟩
  refine ((components_partition knots_reachable).2.2.2.2 "a" (by decide) "c" (by decide)).mp ?_
  rw [hcomponents]
  exact ⟨["b", "a", "c"], by decide, by decide, by decide⟩

end Graph

end CodeAtlas
