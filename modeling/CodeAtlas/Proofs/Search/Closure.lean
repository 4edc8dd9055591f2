import CodeAtlas.Search.Closure
import CodeAtlas.Proofs.Graph.Adjacency
import CodeAtlas.Proofs.Graph.Copy
import CodeAtlas.Proofs.Graph.FreshIds
import CodeAtlas.Proofs.Graph.Reachable

/-!
# Transitive closure

What the passes over the nodes compute is reachability along one or more edges: each pass keeps what
was reached truly reached, and closes the relation under ways through one more node. From this
follow the pairs that get an inferred edge. Adding these edges is never refused, because their ids
are fresh and their ends are nodes.
-/

namespace CodeAtlas

/-! ## Reached nodes -/

theorem mem_union {as bs : List String} {b : String} : b ∈ union as bs ↔ b ∈ as ∨ b ∈ bs := by
  unfold union
  by_cases hb : b ∈ as <;> simp [hb]

theorem Assoc.get?_mapValues {β γ : Type} (m : Assoc β) (f : β → γ) (key : String) :
    Assoc.get? (m.map fun entry => (entry.1, f entry.2)) key = (m.get? key).map f := by
  induction m with
  | nil => rfl
  | cons entry m ih =>
    obtain ⟨k, b⟩ := entry
    rw [List.map_cons, get?_cons, get?_cons, ih]
    split <;> rfl

namespace Reach

theorem get?_through (r : Reach) (via a : String) :
    (r.through via).get? a = (r.get? a).map fun targets =>
      if targets.contains via then union targets (r.of via) else targets :=
  Assoc.get?_mapValues r (fun targets =>
    if targets.contains via then union targets (r.of via) else targets) a

theorem mem_of_through {r : Reach} {via a b : String} :
    b ∈ (r.through via).of a ↔ b ∈ r.of a ∨ via ∈ r.of a ∧ b ∈ r.of via := by
  unfold of
  rw [get?_through]
  cases r.get? a with
  | none => simp
  | some targets =>
    rw [Option.map_some, Option.getD_some, Option.getD_some]
    by_cases hvia : via ∈ targets
    · simp [hvia, mem_union, of]
    · simp [hvia]

/-- What is reached after ways through the nodes `done` are allowed. -/
structure Covers (R : String → String → Prop) (done : List String) (r : Reach) : Prop where
  sound : ∀ a b, b ∈ r.of a → Relation.TransGen R a b
  direct : ∀ a b, R a b → b ∈ r.of a
  closed : ∀ v ∈ done, ∀ a b, v ∈ r.of a → b ∈ r.of v → b ∈ r.of a

theorem Covers.through {R : String → String → Prop} {done : List String} {r : Reach}
    (h : Covers R done r) (via : String) : Covers R (via :: done) (r.through via) where
  sound := by
    intro a b hb
    rcases mem_of_through.mp hb with hb | ⟨hvia, hb⟩
    · exact h.sound a b hb
    · exact (h.sound a via hvia).trans (h.sound via b hb)
  direct := fun a b hab => mem_of_through.mpr (Or.inl (h.direct a b hab))
  closed := by
    intro v hv a b hva hbv
    rw [mem_of_through] at hva hbv ⊢
    rcases List.mem_cons.mp hv with rfl | hv
    · -- a way to `v` or on from it gains nothing by going through `v` once more
      have hva : v ∈ r.of a := hva.elim id And.left
      have hbv : b ∈ r.of v := hbv.elim id And.right
      exact Or.inr ⟨hva, hbv⟩
    · rcases hva with hva | ⟨hvia, hva⟩
      · rcases hbv with hbv | ⟨hvia, hbv⟩
        · exact Or.inl (h.closed v hv a b hva hbv)
        · exact Or.inr ⟨h.closed v hv a via hva hvia, hbv⟩
      · rcases hbv with hbv | ⟨-, hbv⟩
        · exact Or.inr ⟨hvia, h.closed v hv via b hva hbv⟩
        · exact Or.inr ⟨hvia, hbv⟩

theorem Covers.foldl {R : String → String → Prop} {done : List String} {r : Reach}
    (h : Covers R done r) (vias : List String) :
    Covers R (vias.reverse ++ done) (vias.foldl Reach.through r) := by
  induction vias generalizing done r with
  | nil => exact h
  | cons via vias ih =>
    rw [List.reverse_cons, List.append_assoc, List.singleton_append]
    exact ih (h.through via)

/-- Once every node that can be left is a middle node, all that is reachable is reached. -/
theorem Covers.mem_of_iff {R : String → String → Prop} {done : List String} {r : Reach}
    (h : Covers R done r) (hdone : ∀ a b, R a b → a ∈ done) {a b : String} :
    b ∈ r.of a ↔ Relation.TransGen R a b := by
  constructor
  · exact h.sound a b
  · intro hab
    induction hab with
    | single hab => exact h.direct _ _ hab
    | @tail b c _ hbc ih => exact h.closed b (hdone b c hbc) a c ih (h.direct b c hbc)

end Reach

namespace Graph

variable {g : Graph} {filter : KindFilter}

theorem get?_directReach (id : String) : (g.directReach filter).get? id =
    if id ∈ g.nodeIds then some (g.successors id filter) else none := by
  unfold directReach
  induction g.nodeIds with
  | nil => simp
  | cons i ids ih =>
    rw [List.map_cons, Assoc.get?_cons, ih]
    by_cases hid : id = i
    · simp [hid]
    · simp [hid]

theorem Consistent.mem_directReach_iff (hg : g.Consistent) {a b : String} :
    b ∈ (g.directReach filter).of a ↔ g.Adjacent filter a b := by
  unfold Reach.of
  rw [get?_directReach]
  by_cases ha : a ∈ g.nodeIds
  · rw [if_pos ha, Option.getD_some, hg.mem_successors_iff]
  · rw [if_neg ha, Option.getD_none]
    constructor
    · intro hb
      exact absurd hb List.not_mem_nil
    · rintro ⟨e, he, rfl, -⟩
      exact absurd (hg.source_mem e he) ha

theorem Consistent.covers_directReach (hg : g.Consistent) :
    Reach.Covers (g.Adjacent filter) [] (g.directReach filter) where
  sound := fun _ _ hb => .single (hg.mem_directReach_iff.mp hb)
  direct := fun _ _ hab => hg.mem_directReach_iff.mpr hab
  closed := fun _ hv => absurd hv List.not_mem_nil

/-- The passes over all nodes find what can be reached by one or more edges. -/
theorem Consistent.mem_fullReach_iff (hg : g.Consistent) {a b : String} :
    b ∈ (g.fullReach filter).of a ↔ Relation.TransGen (g.Adjacent filter) a b := by
  refine (hg.covers_directReach.foldl g.nodeIds).mem_of_iff ?_
  rintro a b ⟨e, he, rfl, -⟩
  simpa using hg.source_mem e he

theorem Consistent.mem_indirectPairs_iff (hg : g.Consistent) {a b : String} :
    (a, b) ∈ g.indirectPairs filter ↔ a ∈ g.nodeIds ∧ b ∈ g.nodeIds ∧ b ≠ a ∧
      Relation.TransGen (g.Adjacent filter) a b ∧ ¬g.Adjacent filter a b := by
  unfold indirectPairs
  simp only [List.mem_flatMap, List.mem_map, List.mem_filter, Prod.mk.injEq, Bool.and_eq_true,
    bne_iff_ne, List.contains_iff_mem, Bool.not_eq_true', ← Bool.not_eq_true]
  constructor
  · rintro ⟨_, ha, _, ⟨hb, ⟨hne, hfull⟩, hdirect⟩, rfl, rfl⟩
    rw [hg.mem_fullReach_iff] at hfull
    rw [hg.mem_directReach_iff] at hdirect
    exact ⟨ha, hb, hne, hfull, hdirect⟩
  · rintro ⟨ha, hb, hne, hfull, hdirect⟩
    rw [← hg.mem_fullReach_iff] at hfull
    rw [← hg.mem_directReach_iff] at hdirect
    exact ⟨a, ha, b, ⟨hb, ⟨hne, hfull⟩, hdirect⟩, rfl, rfl⟩

/-! ## Inferred edges -/

/-- An edge inferred for a pair. -/
structure Infers (e : Edge) (pair : String × String) : Prop where
  source_eq : e.source = pair.1
  target_eq : e.target = pair.2
  kind_eq : e.kind = .dependsOn
  metadata_eq : e.metadata = inferredMetadata

theorem Infers.map_ends {added : List Edge} {pairs : List (String × String)}
    (h : List.Forall₂ Infers added pairs) : added.map (fun e => (e.source, e.target)) = pairs := by
  rw [← List.forall₂_eq_eq_eq, List.forall₂_map_left_iff]
  exact h.imp fun _ _ hinfers => Prod.ext hinfers.source_eq hinfers.target_eq

/-- The edge of a pair of nodes is added under an id that no edge has. -/
theorem Consistent.addInferred_eq (hg : g.Consistent) {pair : String × String}
    (hsource : pair.1 ∈ g.nodeIds) (htarget : pair.2 ∈ g.nodeIds) :
    ∃ e counter, Infers e pair ∧ e.id ∉ g.edgeIds ∧ g.addInferred pair =
      .ok (({ g with edgeCounter := counter } : Graph).withEdges (g.edges ++ [e])) := by
  let e : Edge := { id := g.freshEdgeId.2, source := pair.1, target := pair.2,
                    kind := .dependsOn, metadata := inferredMetadata }
  have hfresh : e.id ∉ g.freshEdgeId.1.edgeIds := g.freshEdgeId_not_mem
  obtain ⟨h, hadd⟩ : ∃ h, g.freshEdgeId.1.addEdge e = .ok h :=
    ⟨_, addEdge_eq_ok_iff.mpr ⟨⟨hfresh, hsource, htarget⟩, rfl⟩⟩
  have hh := (hg.of_eq rfl rfl : g.freshEdgeId.1.Consistent).addEdge_eq hadd
  refine ⟨e, g.freshEdgeId.1.edgeCounter, ⟨rfl, rfl, rfl, rfl⟩, hfresh, ?_⟩
  have hconnect : g.connect pair.1 pair.2 .dependsOn inferredMetadata none = (h, .ok e) := by
    unfold Graph.connect Graph.claimEdgeId
    simp only
    rw [hadd]
  unfold Graph.addInferred
  rw [hconnect, hh]
  rfl

/-- A row of pairs of nodes gets its edges, in order and under ids that are new. -/
theorem Consistent.foldlM_addInferred (hg : g.Consistent) (pairs : List (String × String))
    (hpairs : ∀ pair ∈ pairs, pair.1 ∈ g.nodeIds ∧ pair.2 ∈ g.nodeIds) :
    ∃ added counter, List.Forall₂ Infers added pairs ∧ (∀ e ∈ added, e.id ∉ g.edgeIds) ∧
      pairs.foldlM Graph.addInferred g =
        .ok (({ g with edgeCounter := counter } : Graph).withEdges (g.edges ++ added)) := by
  induction pairs generalizing g with
  | nil =>
    refine ⟨[], g.edgeCounter, .nil, fun e he => absurd he List.not_mem_nil, ?_⟩
    rw [List.append_nil]
    show Except.ok g = .ok (g.withEdges g.edges)
    rw [hg.withEdges_eq]
  | cons pair pairs ih =>
    obtain ⟨⟨hsource, htarget⟩, hpairs⟩ := List.forall_mem_cons.mp hpairs
    obtain ⟨e, counter, hinfers, hnew, hadd⟩ := hg.addInferred_eq hsource htarget
    have hnext := hg.addInferred hadd
    obtain ⟨added, counter', hall, hfresh, hfold⟩ := ih hnext (by
      rw [nodeIds_withEdges]
      exact hpairs)
    refine ⟨e :: added, counter', .cons hinfers hall, ?_, ?_⟩
    · intro d hd
      rcases List.mem_cons.mp hd with rfl | hd
      · exact hnew
      · have hd := hfresh d hd
        unfold edgeIds at hd ⊢
        rw [edges_withEdges, List.map_append, List.mem_append, not_or] at hd
        exact hd.1
    · rw [List.foldlM_cons, hadd]
      show pairs.foldlM Graph.addInferred _ = _
      rw [hfold, edges_withEdges, List.append_assoc, List.singleton_append]
      unfold withEdges
      simp

/-- A closure is never refused. It is the graph with inferred edges added, one for each pair that is
linked indirectly and not directly. -/
theorem Consistent.closureOver_eq (hg : g.Consistent) (filter : KindFilter) :
    ∃ added counter, List.Forall₂ Infers added (g.indirectPairs filter) ∧
      (∀ e ∈ added, e.id ∉ g.edgeIds) ∧ g.closureOver filter =
        .ok (({ g with edgeCounter := counter } : Graph).withEdges (g.edges ++ added)) := by
  obtain ⟨added, counter, hall, hfresh, hfold⟩ := hg.foldlM_addInferred
    (g.indirectPairs filter) (fun pair hpair => by
      obtain ⟨hsource, htarget, -⟩ := hg.mem_indirectPairs_iff.mp hpair
      exact ⟨hsource, htarget⟩)
  refine ⟨added, counter, hall, hfresh, ?_⟩
  unfold Graph.closureOver
  rw [hg.copy_eq]
  exact hfold

theorem closure_of_ofValues {kinds : Option (List Value)}
    (hkinds : KindFilter.ofValues kinds = .ok filter) : g.closure kinds = g.closureOver filter := by
  unfold Graph.closure
  rw [hkinds]
  rfl

/-- A closure over known kinds is never refused. -/
theorem Consistent.closure_eq (hg : g.Consistent) {kinds : Option (List Value)}
    (hkinds : KindFilter.ofValues kinds = .ok filter) :
    ∃ added counter, List.Forall₂ Infers added (g.indirectPairs filter) ∧
      (∀ e ∈ added, e.id ∉ g.edgeIds) ∧ g.closure kinds =
        .ok (({ g with edgeCounter := counter } : Graph).withEdges (g.edges ++ added)) := by
  rw [closure_of_ofValues hkinds]
  exact hg.closureOver_eq filter

end Graph

end CodeAtlas
