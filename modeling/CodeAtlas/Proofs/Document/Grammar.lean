import CodeAtlas.Proofs.Document.DanglingEdges
import CodeAtlas.Proofs.Document.Forms

/-!
# The grammar of documents

Which values are documents, said twice: as a grammar, with the fields that records need and those
they may have, and as the form that governs the check of a document. Where a value is not a
document, the load is refused with one issue for each place that offends, in the order in which
records and their fields are declared; fields that are not declared never matter.
-/

namespace CodeAtlas

namespace Document

open Check

/-! ## The grammar -/

def IsListOf (p : Value → Prop) (v : Value) : Prop :=
  ∃ items, v = .list items ∧ ∀ w ∈ items, p w

/-- The value is a location; both parts may be absent. -/
def IsPlace (v : Value) : Prop :=
  ∃ fields : Fields, v = .object fields ∧ fields.May "line" IsWhole ∧ fields.May "column" IsWhole

/-- The value is the record of a node: it needs an id and a kind. -/
def IsNodeRecord (v : Value) : Prop :=
  ∃ fields : Fields, v = .object fields ∧ fields.Has "id" IsIdent ∧
    fields.Has "type" (IsWord NodeKind) ∧ fields.May "name" IsText ∧ fields.May "file" IsText ∧
    fields.May "location" IsPlace ∧ fields.May "code" IsText ∧ fields.May "metadata" IsObject

/-- The value is the record of an edge: it needs an id, two ends and a kind. -/
def IsEdgeRecord (v : Value) : Prop :=
  ∃ fields : Fields, v = .object fields ∧ fields.Has "id" IsIdent ∧ fields.Has "source" IsIdent ∧
    fields.Has "target" IsIdent ∧ fields.Has "type" (IsWord EdgeKind) ∧
    fields.May "metadata" IsObject

/-- The value is a document: it needs a list of node records and one of edge records. -/
def IsDocument (v : Value) : Prop :=
  ∃ fields : Fields, v = .object fields ∧ fields.Has "nodes" (IsListOf IsNodeRecord) ∧
    fields.Has "edges" (IsListOf IsEdgeRecord) ∧ fields.May "metadata" IsObject

/-! ## The form -/

/-- A text that is not empty; an empty one is refused as too short. -/
def identForm : Form :=
  .single fun v kind => ¬IsText v ∧ kind = .notText ∨ v = .str "" ∧ kind = .tooShort

def textForm : Form :=
  .single fun v kind => ¬IsText v ∧ kind = .notText

def wordForm (α : Type) [Spelled α] : Form :=
  .single fun v kind => ¬IsWord α v ∧ kind = .unknownKind

def wholeForm : Form :=
  .single NotWhole

def attributesForm : Form :=
  .single fun v kind => ¬IsObject v ∧ kind = .notObject

def placeForm : Form :=
  .record [⟨"line", false, wholeForm⟩, ⟨"column", false, wholeForm⟩]

def nodeForm : Form :=
  .record [
    ⟨"id", true, identForm⟩,
    ⟨"type", true, wordForm NodeKind⟩,
    ⟨"name", false, textForm⟩,
    ⟨"file", false, textForm⟩,
    ⟨"location", false, placeForm⟩,
    ⟨"code", false, textForm⟩,
    ⟨"metadata", false, attributesForm⟩]

def edgeForm : Form :=
  .record [
    ⟨"id", true, identForm⟩,
    ⟨"source", true, identForm⟩,
    ⟨"target", true, identForm⟩,
    ⟨"type", true, wordForm EdgeKind⟩,
    ⟨"metadata", false, attributesForm⟩]

/-- A document, with its fields in the order in which they are declared. -/
def documentForm : Form :=
  .record [
    ⟨"nodes", true, .list nodeForm⟩,
    ⟨"edges", true, .list edgeForm⟩,
    ⟨"metadata", false, attributesForm⟩]

/-! ## Data without offences -/

theorem clean_listOf (item : Form) : (Form.list item).Clean = IsListOf item.Clean :=
  funext fun _ => propext Form.clean_list

theorem clean_place : placeForm.Clean = IsPlace := by
  ext v
  unfold placeForm
  rw [Form.clean_record]
  simp [IsPlace, wholeForm, Form.clean_single int_decides]

theorem clean_node : nodeForm.Clean = IsNodeRecord := by
  ext v
  have hkind := Form.clean_single (@word_decides NodeKind _ .unknownKind)
  unfold nodeForm
  rw [Form.clean_record]
  simp [IsNodeRecord, identForm, wordForm, textForm, attributesForm, clean_place, hkind,
    Form.clean_single nonemptyText_decides, Form.clean_single text_decides,
    Form.clean_single object_decides]

theorem clean_edge : edgeForm.Clean = IsEdgeRecord := by
  ext v
  have hkind := Form.clean_single (@word_decides EdgeKind _ .unknownKind)
  unfold edgeForm
  rw [Form.clean_record]
  simp [IsEdgeRecord, identForm, wordForm, attributesForm, hkind,
    Form.clean_single nonemptyText_decides, Form.clean_single object_decides]

/-- The values without offences are the documents. -/
theorem clean_document : documentForm.Clean = IsDocument := by
  ext v
  unfold documentForm
  rw [Form.clean_record]
  simp [IsDocument, attributesForm, clean_listOf, clean_node, clean_edge,
    Form.clean_single object_decides]

/-! ## The checks -/

theorem governs_ident : identForm.Governs nonemptyText :=
  Form.governs_single nonemptyText_decides

theorem governs_text : textForm.Governs text :=
  Form.governs_single text_decides

theorem governs_attributes : attributesForm.Governs object :=
  Form.governs_single object_decides

theorem governs_whole : wholeForm.Governs int :=
  Form.governs_single int_decides

theorem governs_place : placeForm.Governs (record checkLocation) :=
  ((governs_whole.optional "line" 0).both (governs_whole.optional "column" 0) (by decide)).map _

theorem governs_node : nodeForm.Governs (record checkNode) := by
  have hkind : (wordForm NodeKind).Governs (word NodeKind .unknownKind) :=
    Form.governs_single (word_decides .unknownKind)
  have hhead := ((governs_ident.required "id").both (hkind.required "type") (by decide)).both
    ((governs_text.optional "name" "").both (governs_text.optional "file" "") (by decide))
    (by decide)
  have htail := ((governs_place.optional "location" {}).both
    (governs_text.optional "code" "") (by decide)).both
    (governs_attributes.optional "metadata" []) (by decide)
  exact (hhead.both htail (by decide)).map _

theorem governs_edge : edgeForm.Governs (record checkEdge) := by
  have hkind : (wordForm EdgeKind).Governs (word EdgeKind .unknownKind) :=
    Form.governs_single (word_decides .unknownKind)
  have hends := (governs_ident.required "source").both (governs_ident.required "target")
    (by decide)
  have hhead := (governs_ident.required "id").both hends (by decide)
  have htail := (hkind.required "type").both (governs_attributes.optional "metadata" [])
    (by decide)
  exact (hhead.both htail (by decide)).map _

/-- The form of documents governs the check of a document. -/
theorem governs_document : documentForm.Governs ofValue := by
  have hlists := (governs_node.listOf.required "nodes").both (governs_edge.listOf.required "edges")
    (by decide)
  exact (hlists.both (governs_attributes.optional "metadata" []) (by decide)).map _

end Document

namespace Graph

variable {p : DanglingPolicy} {policy : Value} {config : Config}

/-- **Schema.** The schema accepts just the documents, and treats values alike that differ only in
fields that are not declared or in the order of fields. Any other value makes the load fail with a
list of issues that has each place that offends, no other place and none twice, in the order of the
places: nodes before edges before metadata, records by their index, fields as they are declared. -/
theorem loadData_schema_exact (hp : p.AskedBy policy config) (v : Value) :
    ((∃ d, Document.ofValue v = .accepted d) ↔ Document.IsDocument v) ∧
    (∀ v', Document.documentForm.Alike v v' → Document.ofValue v = Document.ofValue v') ∧
    (¬Document.IsDocument v → ∃ issues,
      (loadData v policy config).outcome = .error (.document (.invalid issues)) ∧
      issues ≠ [] ∧
      (∀ path kind, ⟨path, kind⟩ ∈ issues ↔ Document.documentForm.Offends v path kind) ∧
      (issues.map Issue.path).Nodup ∧
      (issues.map Issue.path).Pairwise Document.documentForm.Precedes) := by
  have hgoverns := Document.governs_document
  have haccepts : (∃ d, Document.ofValue v = .accepted d) ↔ Document.IsDocument v := by
    rw [hgoverns.accepts_iff, Document.clean_document]
  refine ⟨haccepts, hgoverns.congr v, fun hnot => ?_⟩
  cases hcheck : Document.ofValue v with
  | accepted d => exact absurd (haccepts.mp ⟨d, hcheck⟩) hnot
  | rejected issues =>
    have hissues : (Document.ofValue v).issues = issues := by
      rw [hcheck]
      rfl
    refine ⟨issues, ?_, ?_, ?_⟩
    · unfold loadData
      rw [DanglingPolicy.ofValue_eq_ok_iff.mpr hp]
      simp only [hcheck]
      rfl
    · rintro rfl
      exact hgoverns.honest v hcheck
    · rw [← hissues]
      exact ⟨hgoverns.mem_issues v, hgoverns.nodup_paths v, hgoverns.ordered v⟩

/-- A value with faults in several records, among fields that are not declared; its edges come before
its nodes. -/
def faultyRecords : Value :=
  .object [
    ("edges", .list [
      .object [("type", .str "calls"), ("target", .str "b"), ("weight", .int 3), ("id", .str "")],
      .null]),
    ("version", .int 2),
    ("metadata", .list []),
    ("nodes", .list [
      .object [("id", .str "a"), ("type", .str "function")],
      .object [("location", .object [("column", .str " +1_0.0 "), ("line", .str "top")]),
        ("type", .str "module"), ("name", .null)]])]

/-- The faults of the nodes come first all the same, and a further field changes none of them. -/
theorem loadData_schema_exact_faultyRecords :
    ∃ issues, (loadData faultyRecords .null {}).outcome = .error (.document (.invalid issues)) ∧
      issues = [
        ⟨[.field "nodes", .index 1, .field "id"], .missing⟩,
        ⟨[.field "nodes", .index 1, .field "type"], .unknownKind⟩,
        ⟨[.field "nodes", .index 1, .field "name"], .notText⟩,
        ⟨[.field "nodes", .index 1, .field "location", .field "line"], .unreadableInt⟩,
        ⟨[.field "edges", .index 0, .field "id"], .tooShort⟩,
        ⟨[.field "edges", .index 0, .field "source"], .missing⟩,
        ⟨[.field "edges", .index 1], .notRecord⟩,
        ⟨[.field "metadata"], .notObject⟩] ∧
      Document.documentForm.Offends faultyRecords
        [.field "nodes", .index 1, .field "location", .field "line"] .unreadableInt ∧
      (issues.map Issue.path).Pairwise Document.documentForm.Precedes ∧
      ∀ v : Value, ∃ fields : Fields, faultyRecords = .object fields ∧
        Document.ofValue faultyRecords = Document.ofValue (.object (fields.set "comment" v)) := by
  have hlenient : DanglingPolicy.drop.AskedBy .null {} := Or.inr ⟨rfl, rfl⟩
  obtain ⟨haccepts, halike, hrejects⟩ := loadData_schema_exact hlenient faultyRecords
  have hnot : ¬Document.IsDocument faultyRecords := by
    rw [← haccepts]
    rintro ⟨d, hd⟩
    cases hd
  obtain ⟨issues, houtcome, -, hmem, -, hordered⟩ := hrejects hnot
  obtain rfl := DocumentFault.invalid.inj (Fault.document.inj (Except.error.inj houtcome))
  refine ⟨_, rfl, rfl, (hmem _ _).mp (by decide), hordered, fun v => ⟨_, rfl, halike _ ?_⟩⟩
  refine Form.alike_set ?_ v
  decide

end Graph

end CodeAtlas
