import CodeAtlas.Document
import CodeAtlas.Proofs.Graph.Consistent

/-!
# Rebuilding a graph from a document

Loading adds the nodes of a document and then those of its edges that have both ends. What it
returns is therefore known from the document alone, and the document of a consistent graph gives
that graph back.
-/

namespace CodeAtlas

namespace Document

variable {g h : Graph}

/-! ## Nodes -/

theorem loadNodes_eq_ok_iff {nodes : List Node} :
    loadNodes g nodes = .ok h ↔
      ((nodes.map Node.id).Nodup ∧ ∀ n ∈ nodes, n.id ∉ g.nodeIds) ∧
        h = { g with nodes := g.nodes ++ nodes.map Node.detached } := by
  induction nodes generalizing g with
  | nil => simp [loadNodes, eq_comm]
  | cons n nodes ih =>
    unfold loadNodes
    by_cases hn : n.id ∈ g.nodeIds
    · have hdup : g.addNode n = .error (.duplicateNode n.id) := by
        unfold Graph.addNode
        rw [if_pos ((g.hasNode_iff n.id).mpr hn)]
      rw [hdup]
      constructor
      · intro hok
        cases hok
      · rintro ⟨⟨-, hfree⟩, -⟩
        exact absurd hn (hfree n List.mem_cons_self)
    · have hadd : g.addNode n = .ok { g with nodes := g.nodes ++ [n.detached] } :=
        Graph.addNode_eq_ok_iff.mpr ⟨hn, rfl⟩
      have hids : ({ g with nodes := g.nodes ++ [n.detached] } : Graph).nodeIds =
          g.nodeIds ++ [n.id] := by
        simp [Graph.nodeIds]
      rw [hadd]
      simp only [ih, hids, List.mem_append, List.mem_singleton, not_or, List.map_cons,
        List.nodup_cons, List.mem_map, List.forall_mem_cons, List.append_assoc,
        List.singleton_append]
      constructor
      · rintro ⟨⟨hnodup, hfree⟩, rfl⟩
        refine ⟨⟨⟨?_, hnodup⟩, hn, fun m hm => (hfree m hm).1⟩, rfl⟩
        rintro ⟨m, hm, hmn⟩
        exact (hfree m hm).2 hmn
      · rintro ⟨⟨⟨hnew, hnodup⟩, -, hfree⟩, rfl⟩
        exact ⟨⟨hnodup, fun m hm => ⟨hfree m hm, fun hmn => hnew ⟨m, hm, hmn⟩⟩⟩, rfl⟩

/-! ## Edges -/

/-- Both ends of the edge are nodes of the graph. -/
def HasEnds (g : Graph) (e : Edge) : Prop :=
  e.source ∈ g.nodeIds ∧ e.target ∈ g.nodeIds

instance (g : Graph) : DecidablePred (HasEnds g) :=
  fun e => inferInstanceAs (Decidable (e.source ∈ g.nodeIds ∧ e.target ∈ g.nodeIds))

theorem missingEnds_eq_nil_iff {e : Edge} : missingEnds g e = [] ↔ HasEnds g e := by
  unfold missingEnds HasEnds
  rw [List.filter_eq_nil_iff]
  simp [Graph.hasNode_iff]

/-- Ends are a matter of the nodes alone. -/
theorem hasEnds_withEdges (edges : List Edge) : HasEnds (g.withEdges edges) = HasEnds g := by
  funext e
  unfold HasEnds
  rw [Graph.nodeIds_withEdges]

theorem missingEnds_withEdges (edges : List Edge) (e : Edge) :
    missingEnds (g.withEdges edges) e = missingEnds g e := by
  have hsame : (g.withEdges edges).hasNode = g.hasNode := by
    funext id
    rw [Bool.eq_iff_iff, Graph.hasNode_iff, Graph.hasNode_iff, Graph.nodeIds_withEdges]
  unfold missingEnds
  rw [hsame]

/-- Edges with their ends and unique ids are all added. -/
theorem loadEdges_of_hasEnds (policy : DanglingPolicy) (drops : List Drop) {edges : List Edge}
    (hg : g.Consistent) (hends : ∀ e ∈ edges, HasEnds g e)
    (hids : ((g.edges ++ edges).map Edge.id).Nodup) :
    loadEdges policy g drops edges =
      { drops, outcome := .ok (g.withEdges (g.edges ++ edges)) } := by
  induction edges generalizing g with
  | nil =>
    rw [List.append_nil, hg.withEdges_eq]
    rfl
  | cons e edges ih =>
    obtain ⟨hend, hends⟩ := List.forall_mem_cons.mp hends
    have hnew : e.id ∉ g.edgeIds := by
      intro hmem
      rw [List.map_append, List.map_cons] at hids
      exact (List.nodup_append.mp hids).2.2 e.id hmem e.id List.mem_cons_self rfl
    obtain ⟨g', hadd⟩ : ∃ g', g.addEdge e = .ok g' :=
      ⟨_, Graph.addEdge_eq_ok_iff.mpr ⟨⟨hnew, hend⟩, rfl⟩⟩
    have hnext := hg.addEdge_eq hadd
    have hrest := ih (hg.addEdge hadd) (by rw [hnext, hasEnds_withEdges]; exact hends)
      (by rw [hnext, Graph.edges_withEdges, List.append_assoc]; exact hids)
    unfold loadEdges
    rw [missingEnds_eq_nil_iff.mpr hend]
    simp only [hadd]
    rw [hrest, hnext]
    simp

/-- What a load of edges returns holds exactly those that have their ends. -/
theorem eq_of_loadEdges {policy : DanglingPolicy} {drops : List Drop} {edges : List Edge}
    (hg : g.Consistent) (hok : (loadEdges policy g drops edges).outcome = .ok h) :
    h = g.withEdges (g.edges ++ edges.filter fun e => HasEnds g e) := by
  induction edges generalizing g drops with
  | nil =>
    obtain rfl : g = h := Except.ok.inj hok
    rw [List.filter_nil, List.append_nil, hg.withEdges_eq]
  | cons e edges ih =>
    unfold loadEdges at hok
    split at hok
    · rename_i hmissing
      have hend := missingEnds_eq_nil_iff.mp hmissing
      split at hok
      · rename_i g' hadd
        have hnext := hg.addEdge_eq hadd
        have hrest := ih (hg.addEdge hadd) hok
        rw [hnext] at hrest
        simp only [hasEnds_withEdges, Graph.edges_withEdges, Graph.withEdges_withEdges,
          List.append_assoc, List.singleton_append] at hrest
        rw [hrest, List.filter_cons_of_pos (by simpa using hend)]
      · cases hok
      · cases hok
    · rename_i hmissing
      have hend : ¬HasEnds g e := fun hend => hmissing (missingEnds_eq_nil_iff.mpr hend)
      split at hok
      · cases hok
      · rw [List.filter_cons_of_neg (by simpa using hend)]
        exact ih hg hok

/-- The record of an edge that was left out. -/
def dropOf (g : Graph) (e : Edge) : Drop :=
  { edge := e.id, missing := missingEnds g e }

/-- A load that may drop edges keeps those that have their ends, if their ids are unique; what it
drops may use any id. -/
theorem loadEdges_drop (drops : List Drop) {edges : List Edge} (hg : g.Consistent)
    (hids : ((g.edges ++ edges.filter fun e => HasEnds g e).map Edge.id).Nodup) :
    loadEdges .drop g drops edges =
      { drops := drops ++ (edges.filter fun e => ¬HasEnds g e).map (dropOf g)
        outcome := .ok (g.withEdges (g.edges ++ edges.filter fun e => HasEnds g e)) } := by
  induction edges generalizing g drops with
  | nil =>
    simp only [List.filter_nil, List.append_nil, List.map_nil, hg.withEdges_eq]
    rfl
  | cons e edges ih =>
    unfold loadEdges
    by_cases hend : HasEnds g e
    · have hkept : ((e :: edges).filter fun e => HasEnds g e) =
          e :: edges.filter fun e => HasEnds g e := List.filter_cons_of_pos (decide_eq_true hend)
      have hleft : ((e :: edges).filter fun e => ¬HasEnds g e) =
          edges.filter fun e => ¬HasEnds g e := List.filter_cons_of_neg (by simpa using hend)
      rw [hkept] at hids
      rw [hkept, hleft, missingEnds_eq_nil_iff.mpr hend]
      have hnew : e.id ∉ g.edgeIds := by
        intro hmem
        rw [List.map_append, List.map_cons] at hids
        exact (List.nodup_append.mp hids).2.2 e.id hmem e.id List.mem_cons_self rfl
      obtain ⟨g', hadd⟩ : ∃ g', g.addEdge e = .ok g' :=
        ⟨_, Graph.addEdge_eq_ok_iff.mpr ⟨⟨hnew, hend⟩, rfl⟩⟩
      have hnext := hg.addEdge_eq hadd
      have hdrop : dropOf g' = dropOf g := by
        funext d
        unfold dropOf
        rw [hnext, missingEnds_withEdges]
      have hrest := ih drops (hg.addEdge hadd) (by
        simpa only [hnext, hasEnds_withEdges, Graph.edges_withEdges, List.append_assoc,
          List.singleton_append] using hids)
      simp only [hadd, hrest, hdrop]
      simp only [hnext, hasEnds_withEdges, Graph.edges_withEdges, Graph.withEdges_withEdges,
        List.append_assoc, List.singleton_append]
    · have hkept : ((e :: edges).filter fun e => HasEnds g e) =
          edges.filter fun e => HasEnds g e := List.filter_cons_of_neg (by simpa using hend)
      have hleft : ((e :: edges).filter fun e => ¬HasEnds g e) =
          e :: edges.filter fun e => ¬HasEnds g e :=
        List.filter_cons_of_pos (decide_eq_true hend)
      rw [hkept] at hids
      rw [hkept, hleft]
      cases hmissing : missingEnds g e with
      | nil => exact absurd (missingEnds_eq_nil_iff.mp hmissing) hend
      | cons id more =>
        simp only [ih _ hg hids, List.map_cons, List.append_assoc, List.singleton_append]
        rw [dropOf, hmissing]

/-! ## The graph -/

/-- The graph of the nodes of a document, without its edges. -/
def bare (d : Document) (config : Config) : Graph :=
  { Graph.empty config d.metadata with nodes := d.nodes.map Node.detached }

theorem nodeIds_bare (d : Document) (config : Config) :
    (d.bare config).nodeIds = d.nodes.map Node.id := by
  simp [Graph.nodeIds, bare]

theorem consistent_bare {d : Document} (config : Config) (hids : (d.nodes.map Node.id).Nodup) :
    (d.bare config).Consistent := by
  have hbare : (d.bare config).withEdges [] = d.bare config := by
    unfold Graph.withEdges bare
    simp only [List.map_map]
    rfl
  rw [← hbare]
  apply Graph.consistent_withEdges
  · rwa [nodeIds_bare]
  · exact List.nodup_nil
  · exact fun e he => absurd he List.not_mem_nil
  · exact fun e he => absurd he List.not_mem_nil

theorem loadNodes_empty_eq_ok_iff {d : Document} {config : Config} :
    loadNodes (Graph.empty config d.metadata) d.nodes = .ok h ↔
      (d.nodes.map Node.id).Nodup ∧ h = d.bare config := by
  rw [loadNodes_eq_ok_iff]
  constructor
  · rintro ⟨⟨hids, -⟩, rfl⟩
    exact ⟨hids, rfl⟩
  · rintro ⟨hids, rfl⟩
    exact ⟨⟨hids, fun _ _ hmem => absurd hmem List.not_mem_nil⟩, rfl⟩

/-- What building a document returns, in terms of the document. -/
theorem eq_of_build {d : Document} {policy : DanglingPolicy} {config : Config}
    (hok : (d.build policy config).outcome = .ok h) :
    h = (d.bare config).withEdges (d.edges.filter fun e => HasEnds (d.bare config) e) := by
  unfold build at hok
  split at hok
  · cases hok
  · rename_i g hnodes
    obtain ⟨hids, rfl⟩ := loadNodes_empty_eq_ok_iff.mp hnodes
    exact eq_of_loadEdges (consistent_bare config hids) hok

/-- The graph of a document when edges may be dropped. -/
theorem build_drop {d : Document} (config : Config) (hnodes : (d.nodes.map Node.id).Nodup)
    (hedges : ((d.edges.filter fun e => HasEnds (d.bare config) e).map Edge.id).Nodup) :
    d.build .drop config =
      { drops := (d.edges.filter fun e => ¬HasEnds (d.bare config) e).map (dropOf (d.bare config))
        outcome := .ok ((d.bare config).withEdges
          (d.edges.filter fun e => HasEnds (d.bare config) e)) } := by
  unfold build
  rw [loadNodes_empty_eq_ok_iff.mpr ⟨hnodes, rfl⟩]
  exact loadEdges_drop [] (consistent_bare config hnodes) hedges

/-- The graph of a document whose ids are unique and whose edges have their ends. -/
theorem build_of_hasEnds {d : Document} (policy : DanglingPolicy) (config : Config)
    (hnodes : (d.nodes.map Node.id).Nodup) (hedges : (d.edges.map Edge.id).Nodup)
    (hends : ∀ e ∈ d.edges, HasEnds (d.bare config) e) :
    d.build policy config =
      { drops := [], outcome := .ok ((d.bare config).withEdges d.edges) } := by
  unfold build
  rw [loadNodes_empty_eq_ok_iff.mpr ⟨hnodes, rfl⟩]
  exact loadEdges_of_hasEnds policy [] (consistent_bare config hnodes) hends hedges

end Document

end CodeAtlas
