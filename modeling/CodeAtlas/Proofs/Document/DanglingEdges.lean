import CodeAtlas.Journal
import CodeAtlas.Proofs.Document.Rebuild
import CodeAtlas.Proofs.Document.Schema
import CodeAtlas.Proofs.Graph.Updates

/-!
# Dangling edges

Loading looks at the edges of a document one by one: first at the ends, then at the id. The nodes
are all there by then, so whether an edge lacks an end is known from the document, and an edge that
does never gets as far as its id. This tells which documents load under either policy, what comes
out, and that the graph itself never has cause to refuse an edge for its ends.
-/

namespace CodeAtlas

/-! ## Policies -/

namespace DanglingPolicy

/-- The value asks for the policy: by its word, or by counting as nothing where the settings ask for
it. -/
def AskedBy (p : DanglingPolicy) (policy : Value) (config : Config) : Prop :=
  policy = .str (Spelled.text p) ∨
    policy.isVacant = true ∧ config.serialization.onDanglingEdge = p

theorem ofValue_eq_ok_iff {p : DanglingPolicy} {policy : Value} {config : Config} :
    ofValue policy config = .ok p ↔ p.AskedBy policy config := by
  unfold ofValue AskedBy
  by_cases hvacant : policy.isVacant = true
  · rw [if_pos hvacant]
    constructor
    · intro hok
      exact Or.inr ⟨hvacant, Except.ok.inj hok⟩
    · rintro (rfl | ⟨-, rfl⟩)
      · cases p <;> cases hvacant
      · rfl
  · rw [if_neg hvacant]
    constructor
    · intro hok
      left
      cases policy with
      | str word =>
        split at hok
        · rename_i q hfound
          obtain rfl : q = p := Except.ok.inj hok
          have hword : Spelled.text q = word := Spelled.text_of_ofText? hfound
          rw [hword]
        · cases hok
      | _ => cases hok
    · rintro (rfl | ⟨hv, -⟩)
      · cases p <;> rfl
      · exact absurd hv hvacant

theorem ofValue_eq_error {policy : Value} {config : Config} {fault : Fault}
    (hfault : ofValue policy config = .error fault) : ∃ words, fault = .unknownPolicy words := by
  unfold ofValue at hfault
  split at hfault
  · cases hfault
  · split at hfault
    · cases hfault
    · exact ⟨_, (Except.error.inj hfault).symm⟩

end DanglingPolicy

namespace Document

variable {g h : Graph} {d : Document} {policy : DanglingPolicy} {config : Config} {fault : Fault}

/-! ## Edges that are kept -/

/-- One of the ends of the edge is not the id of a node of the document. -/
def Dangling (d : Document) (e : Edge) : Prop :=
  e.source ∉ d.nodes.map Node.id ∨ e.target ∉ d.nodes.map Node.id

instance (d : Document) : DecidablePred d.Dangling :=
  fun e => inferInstanceAs
    (Decidable (e.source ∉ d.nodes.map Node.id ∨ e.target ∉ d.nodes.map Node.id))

def kept (d : Document) : List Edge :=
  d.edges.filter fun e => ¬d.Dangling e

theorem hasEnds_bare_iff {e : Edge} : HasEnds (d.bare config) e ↔ ¬d.Dangling e := by
  unfold HasEnds Dangling
  rw [nodeIds_bare, not_or, not_not, not_not]

theorem filter_hasEnds_bare (d : Document) (config : Config) :
    (d.edges.filter fun e => HasEnds (d.bare config) e) = d.kept :=
  List.filter_congr fun _ _ => decide_eq_decide.mpr hasEnds_bare_iff

theorem filter_not_hasEnds_bare (d : Document) (config : Config) :
    (d.edges.filter fun e => ¬HasEnds (d.bare config) e) = d.edges.filter fun e => d.Dangling e :=
  List.filter_congr fun _ _ => decide_eq_decide.mpr (by rw [hasEnds_bare_iff, not_not])

theorem kept_eq_edges (hends : ∀ e ∈ d.edges, ¬d.Dangling e) : d.kept = d.edges :=
  List.filter_eq_self.mpr fun e he => decide_eq_true (hends e he)

theorem length_dangling_add_length_kept (d : Document) :
    (d.edges.filter fun e => d.Dangling e).length + d.kept.length = d.edges.length := by
  have hsplit := d.edges.length_eq_length_filter_add fun e => decide (d.Dangling e)
  simp only [← decide_not] at hsplit
  exact hsplit.symm

/-! ## Success -/

/-- The graph of the nodes of a document and the edges that are kept. -/
def rebuilt (d : Document) (config : Config) : Graph :=
  { Graph.empty config d.metadata with
    nodes := d.nodes.map (Node.linked d.kept)
    edges := d.kept }

theorem withEdges_bare_kept (d : Document) (config : Config) :
    (d.bare config).withEdges d.kept = d.rebuilt config := by
  unfold Graph.withEdges bare rebuilt
  simp only [List.map_map]
  rfl

/-- Documents with unique ids are built, the ids of dangling edges apart; and unless there are such
edges and the policy rejects them. -/
theorem build_eq (config : Config) (hnodes : (d.nodes.map Node.id).Nodup)
    (hends : policy = .reject → ∀ e ∈ d.edges, ¬d.Dangling e)
    (hedges : (d.kept.map Edge.id).Nodup) :
    d.build policy config =
      { drops := (d.edges.filter fun e => d.Dangling e).map (dropOf (d.bare config))
        outcome := .ok (d.rebuilt config) } := by
  rw [← withEdges_bare_kept]
  cases policy with
  | drop =>
    rw [build_drop config hnodes (by rwa [filter_hasEnds_bare]), filter_hasEnds_bare,
      filter_not_hasEnds_bare]
  | reject =>
    have hends := hends rfl
    have hnone : (d.edges.filter fun e => d.Dangling e) = [] :=
      List.filter_eq_nil_iff.mpr fun e he => by simpa using hends e he
    rw [kept_eq_edges hends] at hedges ⊢
    rw [build_of_hasEnds .reject config hnodes hedges fun e he => hasEnds_bare_iff.mpr (hends e he),
      hnone]
    rfl

/-- Under the strict policy no edge without its ends is passed over. -/
theorem hasEnds_of_loadEdges {drops : List Drop} {edges : List Edge} (hg : g.Consistent)
    (hok : (loadEdges .reject g drops edges).outcome = .ok h) : ∀ e ∈ edges, HasEnds g e := by
  induction edges generalizing g with
  | nil => exact fun e he => absurd he List.not_mem_nil
  | cons e edges ih =>
    unfold loadEdges at hok
    split at hok
    · rename_i hmissing
      split at hok
      · rename_i g' hadd
        have hrest := ih (hg.addEdge hadd) hok
        rw [hg.addEdge_eq hadd, hasEnds_withEdges] at hrest
        exact List.forall_mem_cons.mpr ⟨missingEnds_eq_nil_iff.mp hmissing, hrest⟩
      · cases hok
      · cases hok
    · cases hok

theorem exists_build_eq_ok_iff :
    (∃ h, (d.build policy config).outcome = .ok h) ↔
      (d.nodes.map Node.id).Nodup ∧ (policy = .reject → ∀ e ∈ d.edges, ¬d.Dangling e) ∧
        (d.kept.map Edge.id).Nodup := by
  constructor
  · rintro ⟨h, hok⟩
    have hids := (Graph.Consistent.build hok).edgeIds_nodup
    rw [eq_of_build hok, filter_hasEnds_bare] at hids
    unfold build at hok
    split at hok
    · cases hok
    · rename_i hloaded
      obtain ⟨hnodes, rfl⟩ := loadNodes_empty_eq_ok_iff.mp hloaded
      refine ⟨hnodes, ?_, hids⟩
      rintro rfl e he
      exact hasEnds_bare_iff.mp (hasEnds_of_loadEdges (consistent_bare config hnodes) hok e he)
  · rintro ⟨hnodes, hends, hedges⟩
    exact ⟨_, congrArg Loading.outcome (build_eq config hnodes hends hedges)⟩

/-! ## Failure -/

theorem loadNodes_eq_error {nodes : List Node} (hfault : loadNodes g nodes = .error fault) :
    ∃ f, fault = .document f := by
  induction nodes generalizing g with
  | nil => cases hfault
  | cons n nodes ih =>
    unfold loadNodes at hfault
    split at hfault
    · exact ih hfault
    · exact ⟨_, (Except.error.inj hfault).symm⟩
    · rename_i hother hadd
      exact absurd (Graph.addNode_eq_error_iff.mp hadd).2 (hother _)

/-- An edge that reaches the graph has its ends, so its id is all there is to refuse. -/
theorem loadEdges_eq_error {drops : List Drop} {edges : List Edge}
    (hfault : (loadEdges policy g drops edges).outcome = .error fault) :
    ∃ f, fault = .document f := by
  induction edges generalizing g drops with
  | nil => cases hfault
  | cons e edges ih =>
    unfold loadEdges at hfault
    split at hfault
    · rename_i hmissing
      obtain ⟨hsource, htarget⟩ := missingEnds_eq_nil_iff.mp hmissing
      split at hfault
      · exact ih hfault
      · exact ⟨_, (Except.error.inj hfault).symm⟩
      · rename_i hother hadd
        rcases Graph.addEdge_eq_error_iff.mp hadd with ⟨-, hid⟩ | ⟨-, ⟨hout, -⟩ | ⟨-, hout, -⟩⟩
        · exact absurd hid (hother _)
        · exact absurd hsource hout
        · exact absurd htarget hout
    · split at hfault
      · exact ⟨_, (Except.error.inj hfault).symm⟩
      · exact ih hfault

theorem build_eq_error (hfault : (d.build policy config).outcome = .error fault) :
    ∃ f, fault = .document f := by
  unfold build at hfault
  split at hfault
  · rename_i hnodes
    obtain rfl := Except.error.inj hfault
    exact loadNodes_eq_error hnodes
  · exact loadEdges_eq_error hfault

/-! ## Deleting the records of dangling edges -/

/-- The text that a record gives under a name. -/
def recordText? (name : String) (record : Value) : Option String :=
  (record.fields?.bind fun fields => Assoc.get? fields name).bind Value.text?

/-- Both ends that a record gives are among some ids. -/
def recordJoins (ids : List String) (record : Value) : Bool :=
  ["source", "target"].all fun name => (recordText? name record).any (ids.contains ·)

/-- A list of edge records without those that give other ends. -/
def joiningRecords (ids : List String) : Value → Value
  | .list records => .list (records.filter (recordJoins ids))
  | v => v

/-- The data of a document without the edge records that give other ends than some ids. -/
def deleteDangling (ids : List String) : Value → Value
  | .object fields =>
    .object (fields.map fun field =>
      if field.1 == "edges" then (field.1, joiningRecords ids field.2) else field)
  | v => v

theorem get?_map_at (fields : Fields) (key name : String) (f : Value → Value) :
    Assoc.get? (fields.map fun field =>
      if field.1 == key then (field.1, f field.2) else field) name =
        if name = key then (fields.get? name).map f else fields.get? name := by
  induction fields with
  | nil => simp
  | cons field fields ih =>
    obtain ⟨k, v⟩ := field
    rw [List.map_cons, Assoc.get?_cons]
    by_cases hk : k = key
    · subst hk
      simp only [beq_self_eq_true, if_true, Assoc.get?_cons, ih]
      by_cases hname : name = k <;> simp [hname]
    · simp only [beq_eq_false_iff_ne.mpr hk, Bool.false_eq_true, if_false, Assoc.get?_cons, ih]
      by_cases hname : name = k
      · subst hname
        simp [hk]
      · simp [hname]

open Check in
theorem recordText?_of_required {fields : Fields} {name s : String}
    (hs : required fields name nonemptyText = .accepted s) :
    recordText? name (.object fields) = some s := by
  obtain ⟨v, hv, hs⟩ := required_eq_accepted.mp hs
  obtain ⟨rfl, -⟩ := nonemptyText_eq_accepted.mp hs
  simp [recordText?, Value.fields?, Value.text?, hv]

/-- On a record that is taken as an edge the ends can be read off. -/
theorem recordJoins_iff {record : Value} {e : Edge} {ids : List String}
    (he : Check.record checkEdge record = .accepted e) :
    recordJoins ids record = true ↔ e.source ∈ ids ∧ e.target ∈ ids := by
  obtain ⟨fields, rfl, he⟩ := Check.record_eq_accepted.mp he
  obtain ⟨-, hsource, htarget, -⟩ := checkEdge_eq_accepted.mp he
  simp [recordJoins, recordText?_of_required hsource, recordText?_of_required htarget]

theorem listOf_joiningRecords {ids : List String} {v : Value} {edges : List Edge}
    (hedges : Check.listOf (Check.record checkEdge) v = .accepted edges) :
    Check.listOf (Check.record checkEdge) (joiningRecords ids v) =
      .accepted (edges.filter fun e => e.source ∈ ids ∧ e.target ∈ ids) := by
  obtain ⟨records, rfl, hrecords⟩ := Check.listOf_eq_accepted.mp hedges
  refine Check.listOf_eq_accepted.mpr ⟨_, rfl, List.rel_filter ?_ hrecords⟩
  intro record e he
  show recordJoins ids record = true ↔ decide (e.source ∈ ids ∧ e.target ∈ ids) = true
  rw [recordJoins_iff he, decide_eq_true_iff]

def pruned (d : Document) : Document :=
  { d with edges := d.kept }

/-- The schema takes what is left of a document that it takes. -/
theorem ofValue_deleteDangling {data : Value} (hd : ofValue data = .accepted d) :
    ofValue (deleteDangling (d.nodes.map Node.id) data) = .accepted d.pruned := by
  obtain ⟨fields, rfl, hd⟩ := Check.record_eq_accepted.mp hd
  obtain ⟨hnodes, hedges, hmetadata⟩ := checkFields_eq_accepted.mp hd
  obtain ⟨v, hv, hedges⟩ := Check.required_eq_accepted.mp hedges
  have hkept : (d.edges.filter fun e =>
      e.source ∈ d.nodes.map Node.id ∧ e.target ∈ d.nodes.map Node.id) = d.kept := by
    refine List.filter_congr fun e _ => decide_eq_decide.mpr ?_
    unfold Dangling
    rw [not_or, not_not, not_not]
  refine Check.record_eq_accepted.mpr ⟨_, rfl, checkFields_eq_accepted.mpr ⟨?_, ?_, ?_⟩⟩
  · unfold Check.required
    rw [get?_map_at, if_neg (by decide)]
    exact hnodes
  · refine Check.required_eq_accepted.mpr ⟨joiningRecords (d.nodes.map Node.id) v, ?_, ?_⟩
    · rw [get?_map_at, if_pos rfl, hv]
      rfl
    · rw [listOf_joiningRecords hedges, hkept]
      rfl
  · unfold Check.optional
    rw [get?_map_at, if_neg (by decide)]
    exact hmetadata

theorem not_dangling_pruned : ∀ e ∈ d.pruned.edges, ¬d.pruned.Dangling e :=
  fun _ he => of_decide_eq_true (List.mem_filter.mp he).2

/-- No edge of the pruned document dangles, so both policies agree on it. -/
theorem build_pruned (policy : DanglingPolicy) (config : Config)
    (hnodes : (d.nodes.map Node.id).Nodup) (hedges : (d.kept.map Edge.id).Nodup) :
    (d.pruned.build policy config).outcome = .ok (d.rebuilt config) := by
  have hkept : d.pruned.kept = d.kept := kept_eq_edges not_dangling_pruned
  have hsame : d.pruned.rebuilt config = d.rebuilt config := by
    unfold rebuilt
    rw [hkept]
    rfl
  rw [build_eq (d := d.pruned) config hnodes (fun _ => not_dangling_pruned) (by rwa [hkept]), hsame]

end Document

namespace Graph

variable {data policy : Value} {p : DanglingPolicy} {config : Config} {d : Document}

theorem loadData_eq_build (hp : p.AskedBy policy config) (hd : Document.ofValue data = .accepted d) :
    loadData data policy config = d.build p config := by
  unfold loadData
  rw [DanglingPolicy.ofValue_eq_ok_iff.mpr hp]
  simp only [hd]

theorem loadData_eq_error {fault : Fault} (hp : p.AskedBy policy config)
    (hfault : (loadData data policy config).outcome = .error fault) :
    ∃ f, fault = .document f := by
  unfold loadData at hfault
  rw [DanglingPolicy.ofValue_eq_ok_iff.mpr hp] at hfault
  simp only at hfault
  split at hfault
  · exact ⟨_, (Except.error.inj hfault).symm⟩
  · exact Document.build_eq_error hfault

theorem loadData_unknownPolicy (data : Value) (hp : ∀ p : DanglingPolicy, ¬p.AskedBy policy config) :
    ∃ words, loadData data policy config = .failed (.unknownPolicy words) := by
  unfold loadData
  cases hpolicy : DanglingPolicy.ofValue policy config with
  | ok p => exact absurd (DanglingPolicy.ofValue_eq_ok_iff.mp hpolicy) (hp p)
  | error fault =>
    obtain ⟨words, rfl⟩ := DanglingPolicy.ofValue_eq_error hpolicy
    exact ⟨words, rfl⟩

/-! ## Rebuilding -/

/-- **Rebuilding.** A document that passes the schema is rebuilt under the strict policy exactly when
its node ids are distinct, no edge dangles and its edge ids are distinct; and under the other policy
exactly when its node ids and the ids of the edges that do not dangle are distinct. What comes out
then has the nodes of the document in their order, those edges in theirs, and its metadata; the
edges that are reported as dropped are the rest; and it is what the strict policy makes of the
document when the records of dangling edges are deleted from it. Whatever the data, a load under
either policy fails with a fault of the document only, and any other policy is refused as such. -/
theorem loadData_rebuilds (config : Config) :
    (∀ data d, Document.ofValue data = .accepted d →
      (∀ strict, DanglingPolicy.reject.AskedBy strict config →
        ((∃ h, (loadData data strict config).outcome = .ok h) ↔
          (d.nodes.map Node.id).Nodup ∧ (∀ e ∈ d.edges, ¬d.Dangling e) ∧
            (d.edges.map Edge.id).Nodup)) ∧
      ∀ lenient, DanglingPolicy.drop.AskedBy lenient config →
        ((∃ h, (loadData data lenient config).outcome = .ok h) ↔
          (d.nodes.map Node.id).Nodup ∧ (d.kept.map Edge.id).Nodup) ∧
        ∀ h, (loadData data lenient config).outcome = .ok h →
          h = { config
                metadata := d.metadata
                nodes := d.nodes.map (Node.linked d.kept)
                edges := d.kept } ∧
          (∃ dropped, (loadData data lenient config).logged.events.getLast? =
              some (.graphLoaded h.nodes.length h.edges.length dropped) ∧
            dropped + h.edges.length = d.edges.length) ∧
          ∀ strict, DanglingPolicy.reject.AskedBy strict config →
            (loadData (Document.deleteDangling (d.nodes.map Node.id) data) strict config).outcome =
              .ok h) ∧
    (∀ data policy (p : DanglingPolicy), p.AskedBy policy config →
      ∀ fault, (loadData data policy config).outcome = .error fault → ∃ f, fault = .document f) ∧
    ∀ data policy, (∀ p : DanglingPolicy, ¬p.AskedBy policy config) →
      ∃ words, (loadData data policy config).outcome = .error (.unknownPolicy words) := by
  refine ⟨fun data d hd => ⟨fun strict hstrict => ?_, fun lenient hlenient => ⟨?_, ?_⟩⟩, ?_, ?_⟩
  · rw [loadData_eq_build hstrict hd, Document.exists_build_eq_ok_iff]
    refine and_congr_right fun _ => ?_
    constructor
    · rintro ⟨hends, hids⟩
      rw [Document.kept_eq_edges (hends rfl)] at hids
      exact ⟨hends rfl, hids⟩
    · rintro ⟨hends, hids⟩
      exact ⟨fun _ => hends, by rwa [Document.kept_eq_edges hends]⟩
  · rw [loadData_eq_build hlenient hd, Document.exists_build_eq_ok_iff]
    simp only [reduceCtorEq, false_implies, true_and]
  · intro h hok
    rw [loadData_eq_build hlenient hd] at hok ⊢
    obtain ⟨hnodes, hends, hids⟩ := Document.exists_build_eq_ok_iff.mp ⟨h, hok⟩
    have hbuild := Document.build_eq config hnodes hends hids
    obtain rfl : d.rebuilt config = h := Except.ok.inj (by rw [← hok, hbuild])
    refine ⟨rfl, ?_, fun strict hstrict => ?_⟩
    · refine ⟨(d.build .drop config).drops.length, ?_, ?_⟩
      · unfold Document.Loading.logged
        simp only [hok, List.getLast?_concat]
      · rw [hbuild, List.length_map]
        exact d.length_dangling_add_length_kept
    · rw [loadData_eq_build hstrict (Document.ofValue_deleteDangling hd)]
      exact Document.build_pruned .reject config hnodes hids
  · exact fun data policy p hp fault hfault => loadData_eq_error hp hfault
  · intro data policy hp
    obtain ⟨words, hfailed⟩ := loadData_unknownPolicy data hp
    exact ⟨words, congrArg Document.Loading.outcome hfailed⟩

/-- A document in which an edge without its target has the id of the edge before it. -/
def danglingDuplicate : Value :=
  .object [
    ("edges", .list [
      .object [("id", .str "e1"), ("source", .str "a"), ("target", .str "b"),
        ("type", .str "calls")],
      .object [("id", .str "e1"), ("source", .str "a"), ("target", .str "ghost"),
        ("type", .str "calls")],
      .object [("type", .str "uses"), ("target", .str "a"), ("source", .str "b"),
        ("id", .str "e2")]]),
    ("nodes", .list [
      .object [("id", .str "a"), ("type", .str "function")],
      .object [("id", .str "b"), ("type", .str "class"), ("name", .str "B")]])]

/-- The repeated id does no harm, since the edge that repeats it is dropped. -/
theorem loadData_rebuilds_danglingDuplicate :
    ∃ d, Document.ofValue danglingDuplicate = .accepted d ∧
      (d.edges.map Edge.id = ["e1", "e1", "e2"] ∧ d.kept.map Edge.id = ["e1", "e2"]) ∧
      (∃ h, (loadData danglingDuplicate .null {}).outcome = .ok h ∧ h.edges = d.kept ∧
        (loadData (Document.deleteDangling ["a", "b"] danglingDuplicate) (.str "error") {}).outcome =
          .ok h) ∧
      (∃ f, (loadData danglingDuplicate (.str "error") {}).outcome = .error (.document f)) ∧
      ∃ words, (loadData danglingDuplicate (.str "keep") {}).outcome =
        .error (.unknownPolicy words) := by
  obtain ⟨hrebuilds, hfaults, hunknown⟩ := loadData_rebuilds {}
  have hlenient : DanglingPolicy.drop.AskedBy .null {} := Or.inr ⟨rfl, rfl⟩
  have hstrict : DanglingPolicy.reject.AskedBy (.str "error") {} := Or.inl rfl
  obtain ⟨d, hd⟩ : ∃ d, Document.ofValue danglingDuplicate = .accepted d := ⟨_, rfl⟩
  obtain ⟨hreject, hdrop⟩ := hrebuilds danglingDuplicate d hd
  obtain ⟨hiff, hresult⟩ := hdrop .null hlenient
  obtain rfl := Checked.accepted.inj hd
  refine ⟨_, hd, ⟨rfl, rfl⟩, ?_, ?_, ?_⟩
  · obtain ⟨h, hok⟩ := hiff.mpr ⟨by decide, by decide⟩
    obtain ⟨hh, -, hagree⟩ := hresult h hok
    exact ⟨h, hok, congrArg Graph.edges hh, hagree _ hstrict⟩
  · cases houtcome : (loadData danglingDuplicate (.str "error") {}).outcome with
    | ok h => exact absurd ((hreject _ hstrict).mp ⟨h, houtcome⟩).2.2 (by decide)
    | error fault =>
      obtain ⟨f, rfl⟩ := hfaults _ _ _ hstrict fault houtcome
      exact ⟨f, rfl⟩
  · refine hunknown danglingDuplicate (.str "keep") ?_
    rintro p (hword | ⟨hvacant, -⟩)
    · cases p <;> exact absurd (Value.str.inj hword) (by decide)
    · cases hvacant

end Graph

end CodeAtlas
