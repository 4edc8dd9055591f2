import CodeAtlas.Proofs.Graph.Reachable
import CodeAtlas.Proofs.Json.RoundTrip

/-!
# Saved graphs give graphs back

The text of a graph is read as its document, so that loading the text and loading the document are
the same thing, faults included, and the layout of the text does not matter.
-/

namespace CodeAtlas

open Json (Portable)

namespace Document

/-! ## The records of a document -/

theorem portable_nodeRecord {n : Node} (h : Portable (.object n.metadata)) :
    Portable (nodeRecord n) := by
  have hlocation : Portable (.object [("line", .int n.location.line),
      ("column", .int n.location.column)]) := by
    refine .object (show ["line", "column"].Nodup by decide) ?_
    simp only [List.forall_mem_cons]
    exact ⟨.int _, .int _, by simp⟩
  refine .object (show ["id", "type", "name", "file", "location", "code", "metadata"].Nodup by
    decide) ?_
  simp only [List.forall_mem_cons]
  exact ⟨.str _, .str _, .str _, .str _, hlocation, .str _, h, by simp⟩

theorem portable_edgeRecord {e : Edge} (h : Portable (.object e.metadata)) :
    Portable (edgeRecord e) := by
  refine .object (show ["id", "source", "target", "type", "metadata"].Nodup by decide) ?_
  simp only [List.forall_mem_cons]
  exact ⟨.str _, .str _, .str _, .str _, h, by simp⟩

/-- Only the metadata of a document is free; the rest of it can always be carried by a text. -/
theorem portable_toValue {d : Document} (hmetadata : Portable (.object d.metadata))
    (hnodes : ∀ n ∈ d.nodes, Portable (.object n.metadata))
    (hedges : ∀ e ∈ d.edges, Portable (.object e.metadata)) : Portable d.toValue := by
  refine .object (show ["nodes", "edges", "metadata"].Nodup by decide) ?_
  simp only [List.forall_mem_cons]
  refine ⟨.list ?_, .list ?_, hmetadata, by simp⟩
  · exact List.forall_mem_map.mpr fun n hn => portable_nodeRecord (hnodes n hn)
  · exact List.forall_mem_map.mpr fun e he => portable_edgeRecord (hedges e he)

end Document

namespace Graph

/-! ## The round trip -/

/-- The text of a graph is read as its document. -/
theorem parse_toText {g : Graph} (hmetadata : Portable (.object g.metadata))
    (hnodes : ∀ n ∈ g.nodes, Portable (.object n.metadata))
    (hedges : ∀ e ∈ g.edges, Portable (.object e.metadata)) (indent : Option Int) :
    Json.parse (g.toText indent) = .ok g.toData :=
  Json.parse_render _ (Document.portable_toValue hmetadata
    (List.forall_mem_map.mpr hnodes) hedges)

/-- **Text is lossless.** For every indentation, policy and configuration, loading the text of a
graph is loading its document: the same graph or the same fault. In particular the indentation does
not matter. -/
theorem loadText_toText_eq_loadData {g : Graph} (hmetadata : Portable (.object g.metadata))
    (hnodes : ∀ n ∈ g.nodes, Portable (.object n.metadata))
    (hedges : ∀ e ∈ g.edges, Portable (.object e.metadata)) (policy : Value) :
    (∀ indent config,
      loadText (g.toText indent) policy (.ok config) = loadData g.toData policy config) ∧
    ∀ indent other config,
      loadText (g.toText indent) policy config = loadText (g.toText other) policy config := by
  have hparse := parse_toText hmetadata hnodes hedges
  constructor
  · intro indent config
    unfold loadText
    rw [hparse]
  · intro indent other config
    unfold loadText
    rw [hparse, hparse]

/-- A graph whose texts and metadata need every kind of escape and value. -/
def annotated : Graph :=
  (empty {} [("title", .str "say \"é\" \\ \n\x1b\x7f"), ("parts", .list [])]).performAll [
    .createNode (.str "function") (some [-3]) { id := some "😀", metadata :=
      [("", .object [("ratio", .float 0.5), ("big", .int (-12345678901234567890))]),
        ("flags", .list [.null, .bool true, .list [.bool false, .object []]])] },
    .createEdge "😀" "😀" (.str "calls") [("weight", .float (-1.5e-7))] none]

theorem annotated_nodes_portable : ∀ n ∈ annotated.nodes, Portable (.object n.metadata) := by
  have hratio : Portable (.object [("ratio", .float 0.5),
      ("big", .int (-12345678901234567890))]) := by
    refine .object (by decide) ?_
    simp only [List.forall_mem_cons]
    exact ⟨.float rfl, .int _, by simp⟩
  have hflags : Portable (.list [.null, .bool true, .list [.bool false, .object []]]) := by
    refine .list ?_
    simp only [List.forall_mem_cons]
    refine ⟨.null, .bool _, .list ?_, by simp⟩
    simp only [List.forall_mem_cons]
    exact ⟨.bool _, .object List.nodup_nil (by simp), by simp⟩
  intro n hn
  obtain rfl := List.mem_singleton.mp hn
  refine .object (show ["", "flags"].Nodup by decide) ?_
  show ∀ p ∈ [("", _), ("flags", _)], Portable p.2
  simp only [List.forall_mem_cons]
  exact ⟨hratio, hflags, by simp⟩

theorem loadText_toText_eq_loadData_annotated :
    annotated.Reachable ∧ Portable (.object annotated.metadata) ∧
      (∀ n ∈ annotated.nodes, Portable (.object n.metadata)) ∧
      (∀ e ∈ annotated.edges, Portable (.object e.metadata)) ∧
      (loadText (annotated.toText (some 3)) (.str "error") (.ok {})).outcome =
        .ok { annotated with edgeCounter := 0 } ∧
      loadText (annotated.toText none) .null (.ok {}) =
        loadText (annotated.toText (some (-1))) .null (.ok {}) := by
  have hmetadata : Portable (.object annotated.metadata) := by
    refine .object (by decide) ?_
    show ∀ p ∈ [("title", _), ("parts", _)], Portable p.2
    simp only [List.forall_mem_cons]
    exact ⟨.str _, .list (by simp), by simp⟩
  have hnodes := annotated_nodes_portable
  have hedges : ∀ e ∈ annotated.edges, Portable (.object e.metadata) := by
    intro e he
    obtain rfl := List.mem_singleton.mp he
    refine .object (show ["weight"].Nodup by decide) ?_
    show ∀ p ∈ [("weight", _)], Portable p.2
    simp only [List.forall_mem_cons]
    exact ⟨.float rfl, by simp⟩
  have hstrict := loadText_toText_eq_loadData hmetadata hnodes hedges (.str "error")
  have hvacant := loadText_toText_eq_loadData hmetadata hnodes hedges .null
  refine ⟨(Reachable.empty _ _).performAll _, hmetadata, hnodes, hedges, ?_,
    hvacant.2 none (some (-1)) (.ok {})⟩
  rw [hstrict.1]
  rfl

end Graph

end CodeAtlas
