import CodeAtlas.Proofs.Graph.FreshIds
import CodeAtlas.Proofs.Graph.Reachable

/-!
# Changes in single steps

An insertion checks its arguments, claims an id, and writes to the nodes, to the edges and to the
lists at both ends of an edge. An `Update` is such a row of single steps: what was written before a
refusal stays written, and a write to a node fails if the node is not there. Every operation is an
update that does what the store does, and a refused one has written nothing but its counter.
-/

namespace CodeAtlas

/-- A row of checks and writes on a graph. -/
abbrev Update := ExceptT Fault (StateM Graph)

/-- What an operation gives back: the item that it put in, or whether there was one to remove. -/
inductive Outcome where
  | node (n : Node)
  | edge (e : Edge)
  | removed (found : Bool)
  deriving Inhabited

namespace Update

variable {α β : Type}

/-- How an update ends, and the graph that it leaves. -/
def carryOut (u : Update α) (g : Graph) : Except Fault α × Graph :=
  StateT.run (ExceptT.run u) g

/-- Refuses unless `holds` is true of the graph. -/
def require (holds : Graph → Bool) (fault : Fault) : Update Unit := do
  unless holds (← get) do throw fault

def withNode (g : Graph) (id : String) (change : Node → Node) : Graph :=
  { g with nodes := g.nodes.map fun n => if n.id == id then change n else n }

/-- Changes the node `id`, which has to be there. -/
def changeNode (id : String) (change : Node → Node) : Update Unit := do
  require (·.hasNode id) (.nodeNotFound id none)
  modify (withNode · id change)

def addNode (n : Node) : Update Node := do
  require (!·.hasNode n.id) (.duplicateNode n.id)
  modify fun g => { g with nodes := g.nodes ++ [n.detached] }
  return n.detached

/-- Adds a node built from a draft. The position is looked at before an id is claimed, the kind
after that. -/
def createNode (kind : Value) (position : Option (List Int)) (draft : NodeDraft) : Update Node := do
  let draft ← liftExcept (draft.placed position)
  let id ← modifyGet fun g => (g.claimNodeId draft.id).swap
  let kind ← liftExcept (NodeKind.ofValue kind)
  addNode
    { id, kind, name := draft.name, file := draft.file, location := draft.location,
      code := draft.code, metadata := draft.metadata }

/-- Adds an edge: first to the edges, then to the list of its source, then to that of its target. -/
def addEdge (e : Edge) : Update Edge := do
  require (!·.hasEdge e.id) (.duplicateEdge e.id)
  require (·.hasNode e.source) (.missingEndpoint e.source (some e.id))
  require (·.hasNode e.target) (.missingEndpoint e.target (some e.id))
  modify fun g => { g with edges := g.edges ++ [e] }
  changeNode e.source fun n => { n with outgoing := n.outgoing ++ [e.id] }
  changeNode e.target fun n => { n with incoming := n.incoming ++ [e.id] }
  return e

/-- Adds an edge of a kind that is looked at once an id is claimed. -/
def createEdge (source target : String) (kind : Value) (metadata : Fields) (id : Option String) :
    Update Edge := do
  let id ← modifyGet fun g => (g.claimEdgeId id).swap
  let kind ← liftExcept (EdgeKind.ofValue kind)
  addEdge { id, source, target, kind, metadata }

def ofOperation : Operation → Update Outcome
  | .addNode n => Outcome.node <$> addNode n
  | .createNode kind position draft => Outcome.node <$> createNode kind position draft
  | .removeNode id => modifyGet fun g => (.removed (g.hasNode id), g.removeNode id)
  | .addEdge e => Outcome.edge <$> addEdge e
  | .createEdge source target kind metadata id =>
    Outcome.edge <$> createEdge source target kind metadata id
  | .removeEdge id => modifyGet fun g => (.removed (g.hasEdge id), g.removeEdge id)

/-! ## Single steps -/

variable {g : Graph} {holds : Graph → Bool} {fault : Fault}

theorem carryOut_map (u : Update α) (f : α → β) (g : Graph) :
    (f <$> u).carryOut g = ((u.carryOut g).1.map f, (u.carryOut g).2) := by
  unfold carryOut
  rw [ExceptT.run_map, StateT.run_map]
  rfl

theorem carryOut_modify_bind (change : Graph → Graph) (next : Unit → Update β) (g : Graph) :
    (modify change >>= next).carryOut g = (next ()).carryOut (change g) := rfl

theorem carryOut_modifyGet_bind (f : Graph → α × Graph) (next : α → Update β) (g : Graph) :
    (modifyGet f >>= next).carryOut g = (next (f g).1).carryOut (f g).2 := rfl

theorem carryOut_require_bind (next : Unit → Update β) :
    (require holds fault >>= next).carryOut g =
      if holds g then (next ()).carryOut g else (.error fault, g) := by
  show ((if holds g then pure () else throw fault : Update Unit) >>= next).carryOut g = _
  split <;> rfl

theorem carryOut_liftExcept_bind (x : Except Fault α) (next : α → Update β) (g : Graph) :
    (liftExcept x >>= next : Update β).carryOut g = match x with
      | .ok a => (next a).carryOut g
      | .error fault => (.error fault, g) := by
  cases x <;> rfl

/-! ## What the updates do -/

theorem hasNode_withNode {change : Node → Node} (hchange : ∀ n, (change n).id = n.id)
    (id other : String) : (withNode g id change).hasNode other = g.hasNode other := by
  unfold withNode Graph.hasNode
  rw [List.any_map]
  congr 1
  funext n
  simp only [Function.comp_apply]
  split
  · rw [hchange]
  · rfl

theorem carryOut_changeNode_bind {id : String} (hid : g.hasNode id = true) (change : Node → Node)
    (next : Unit → Update β) :
    (changeNode id change >>= next).carryOut g = (next ()).carryOut (withNode g id change) := by
  unfold changeNode
  rw [bind_assoc, carryOut_require_bind, if_pos hid]
  exact carryOut_modify_bind _ next g

/-- Writing an edge to the lists of its ends one after the other is listing it at both. -/
theorem withNode_withNode (g : Graph) (e : Edge) :
    withNode (withNode g e.source fun n => { n with outgoing := n.outgoing ++ [e.id] }) e.target
        (fun n => { n with incoming := n.incoming ++ [e.id] }) =
      { g with nodes := g.nodes.map (Node.attach e) } := by
  unfold withNode
  simp only [List.map_map]
  congr 1
  apply List.map_congr_left
  intro n _
  simp only [Function.comp_apply, Node.attach]
  cases n.id == e.source <;> cases ht : n.id == e.target <;> simp [ht]

theorem carryOut_addNode (n : Node) (g : Graph) : (addNode n).carryOut g = match g.addNode n with
    | .ok h => (.ok n.detached, h)
    | .error fault => (.error fault, g) := by
  unfold addNode Graph.addNode
  rw [carryOut_require_bind]
  cases g.hasNode n.id <;> rfl

/-- An edge that passes the checks is written in full: its ends are there for every write. -/
theorem carryOut_addEdge (e : Edge) (g : Graph) : (addEdge e).carryOut g = match g.addEdge e with
    | .ok h => (.ok e, h)
    | .error fault => (.error fault, g) := by
  unfold addEdge Graph.addEdge
  rw [carryOut_require_bind]
  cases g.hasEdge e.id with
  | true => rfl
  | false =>
    simp only [Bool.not_false, if_true]
    rw [carryOut_require_bind]
    cases hs : g.hasNode e.source with
    | false => rfl
    | true =>
      simp only [if_true]
      rw [carryOut_require_bind]
      cases ht : g.hasNode e.target with
      | false => rfl
      | true =>
        simp only [if_true]
        have hs' : ({ g with edges := g.edges ++ [e] } : Graph).hasNode e.source = true := hs
        have ht' : ({ g with edges := g.edges ++ [e] } : Graph).hasNode e.target = true := ht
        rw [carryOut_modify_bind, carryOut_changeNode_bind hs', carryOut_changeNode_bind,
          withNode_withNode]
        · rfl
        · exact (hasNode_withNode (by intro n; rfl) e.source e.target).trans ht'

theorem carryOut_createNode (kind : Value) (position : Option (List Int)) (draft : NodeDraft)
    (g : Graph) : (createNode kind position draft).carryOut g = match draft.placed position with
      | .ok draft => (g.createNode kind draft).swap
      | .error fault => (.error fault, g) := by
  unfold createNode Graph.createNode
  rw [carryOut_liftExcept_bind]
  cases draft.placed position with
  | error fault => rfl
  | ok draft =>
    dsimp only
    rw [carryOut_modifyGet_bind, carryOut_liftExcept_bind]
    cases NodeKind.ofValue kind with
    | error fault => rfl
    | ok kind =>
      dsimp only
      rw [carryOut_addNode]
      unfold Graph.putNode
      dsimp only [Prod.swap]
      cases Graph.addNode _ _ <;> rfl

theorem carryOut_createEdge (source target : String) (kind : Value) (metadata : Fields)
    (id : Option String) (g : Graph) : (createEdge source target kind metadata id).carryOut g =
      (g.createEdge source target kind metadata id).swap := by
  unfold createEdge Graph.createEdge
  rw [carryOut_modifyGet_bind, carryOut_liftExcept_bind]
  cases EdgeKind.ofValue kind with
  | error fault => rfl
  | ok kind =>
    dsimp only
    rw [carryOut_addEdge]
    unfold Graph.connect
    dsimp only [Prod.swap]
    cases Graph.addEdge _ _ <;> rfl

end Update

theorem NodeDraft.placed_id {draft placed : NodeDraft} {position : Option (List Int)}
    (hplaced : draft.placed position = .ok placed) : placed.id = draft.id := by
  unfold NodeDraft.placed at hplaced
  split at hplaced
  · obtain rfl := Except.ok.inj hplaced
    rfl
  · rename_i parts
    cases hlocation : Location.ofList parts with
    | error fault => rw [hlocation] at hplaced; cases hplaced
    | ok location =>
      rw [hlocation] at hplaced
      obtain rfl := Except.ok.inj hplaced
      rfl

namespace Graph

variable {g h : Graph} {op : Operation} {fault : Fault}

/-- How an operation ends; `perform` is the graph that it leaves. -/
def outcome (g : Graph) : Operation → Except Fault Outcome
  | .addNode n => (g.addNode n).map fun _ => .node n.detached
  | .createNode kind position draft =>
    draft.placed position >>= fun draft => (g.createNode kind draft).2.map .node
  | .removeNode id => .ok (.removed (g.removeNode? id).isSome)
  | .addEdge e => (g.addEdge e).map fun _ => .edge e
  | .createEdge source target kind metadata id =>
    (g.createEdge source target kind metadata id).2.map .edge
  | .removeEdge id => .ok (.removed (g.removeEdge? id).isSome)

/-- **Operations in single steps.** Checked and written step by step, an operation ends as it does
at once, and leaves the same graph. -/
theorem carryOut_ofOperation (g : Graph) (op : Operation) :
    (Update.ofOperation op).carryOut g = (g.outcome op, g.perform op) := by
  cases op with
  | addNode n =>
    rw [Update.ofOperation, Update.carryOut_map, Update.carryOut_addNode, outcome, perform]
    cases g.addNode n <;> rfl
  | createNode kind position draft =>
    rw [Update.ofOperation, Update.carryOut_map, Update.carryOut_createNode, outcome, perform]
    cases draft.placed position <;> rfl
  | removeNode id =>
    rw [outcome, removeNode?, Option.isSome_map, node?_isSome]
    rfl
  | addEdge e =>
    rw [Update.ofOperation, Update.carryOut_map, Update.carryOut_addEdge, outcome, perform]
    cases g.addEdge e <;> rfl
  | createEdge source target kind metadata id =>
    rw [Update.ofOperation, Update.carryOut_map, Update.carryOut_createEdge]
    rfl
  | removeEdge id =>
    rw [outcome, removeEdge?, Option.isSome_map, edge?_isSome]
    rfl

/-! ## Refusals -/

theorem addNode_eq_error_iff {n : Node} :
    g.addNode n = .error fault ↔ n.id ∈ g.nodeIds ∧ fault = .duplicateNode n.id := by
  unfold addNode
  rw [← hasNode_iff]
  cases g.hasNode n.id <;> simp [@eq_comm _ fault]

/-- An edge is refused for the first thing wrong with it. -/
theorem addEdge_eq_error_iff {e : Edge} : g.addEdge e = .error fault ↔
    e.id ∈ g.edgeIds ∧ fault = .duplicateEdge e.id ∨
    e.id ∉ g.edgeIds ∧
      (e.source ∉ g.nodeIds ∧ fault = .missingEndpoint e.source (some e.id) ∨
        e.source ∈ g.nodeIds ∧ e.target ∉ g.nodeIds ∧
          fault = .missingEndpoint e.target (some e.id)) := by
  unfold addEdge
  simp only [← hasNode_iff, ← hasEdge_iff]
  cases g.hasEdge e.id with
  | true => simp [@eq_comm _ fault]
  | false =>
    cases g.hasNode e.source with
    | false => simp [@eq_comm _ fault]
    | true => cases g.hasNode e.target <;> simp [@eq_comm _ fault]

/-- Claiming an id moves no more than the counter, and that only if no id is given. -/
theorem claimNodeId_fst (g : Graph) (id : Option String) : (g.claimNodeId id).1 = g ∨
    id = none ∧ ∃ k, g.nodeCounter < k ∧ (g.claimNodeId id).1 = { g with nodeCounter := k } := by
  cases id with
  | some id => exact Or.inl rfl
  | none =>
    have hspec := nextFree_spec nodeStem g.nodeIds g.nodeIds.length g.nodeCounter
    exact Or.inr ⟨rfl, _, hspec.1.1, rfl⟩

theorem claimEdgeId_fst (g : Graph) (id : Option String) : (g.claimEdgeId id).1 = g ∨
    id = none ∧ ∃ k, g.edgeCounter < k ∧ (g.claimEdgeId id).1 = { g with edgeCounter := k } := by
  cases id with
  | some id => exact Or.inl rfl
  | none =>
    have hspec := nextFree_spec edgeStem g.edgeIds g.edgeIds.length g.edgeCounter
    exact Or.inr ⟨rfl, _, hspec.1.1, rfl⟩

/-- A node is refused for its kind or for its id, and all it has done is to claim the id. -/
theorem createNode_eq_error {kind : Value} {draft : NodeDraft}
    (hrefused : (g.createNode kind draft).2 = .error fault) :
    (g.createNode kind draft).1 = (g.claimNodeId draft.id).1 ∧
      ((∃ v, fault = .unknownWord .nodeKind v) ∨
        (g.claimNodeId draft.id).2 ∈ (g.claimNodeId draft.id).1.nodeIds) := by
  unfold createNode at *
  split at hrefused
  · rename_i hkind
    obtain rfl := Except.error.inj hrefused
    unfold NodeKind.ofValue at hkind
    split at hkind
    · cases hkind
    · exact ⟨rfl, Or.inl ⟨kind, (Except.error.inj hkind).symm⟩⟩
  · unfold putNode at *
    dsimp only at *
    split at hrefused
    · rename_i hadd
      exact ⟨rfl, Or.inr (addNode_eq_error_iff.mp hadd).1⟩
    · cases hrefused

/-- An edge is refused for its kind, its id or its ends, and all it has done is to claim the id. -/
theorem createEdge_eq_error {source target : String} {kind : Value} {metadata : Fields}
    {id : Option String} (hrefused : (g.createEdge source target kind metadata id).2 = .error fault) :
    (g.createEdge source target kind metadata id).1 = (g.claimEdgeId id).1 ∧
      ((∃ v, fault = .unknownWord .edgeKind v) ∨ (∃ n e, fault = .missingEndpoint n e) ∨
        (g.claimEdgeId id).2 ∈ (g.claimEdgeId id).1.edgeIds) := by
  unfold createEdge at *
  split at hrefused
  · rename_i hkind
    obtain rfl := Except.error.inj hrefused
    unfold EdgeKind.ofValue at hkind
    split at hkind
    · cases hkind
    · exact ⟨rfl, Or.inl ⟨kind, (Except.error.inj hkind).symm⟩⟩
  · unfold connect at *
    dsimp only at *
    split at hrefused
    · rename_i hadd
      obtain rfl := Except.error.inj hrefused
      refine ⟨rfl, Or.inr ?_⟩
      rcases addEdge_eq_error_iff.mp hadd with ⟨hid, -⟩ | ⟨-, ⟨-, hends⟩ | ⟨-, -, hends⟩⟩
      · exact Or.inr hid
      · exact Or.inl ⟨_, _, hends⟩
      · exact Or.inl ⟨_, _, hends⟩
    · cases hrefused

theorem map_eq_error_iff {α β : Type} {f : α → β} {x : Except Fault α} :
    x.map f = .error fault ↔ x = .error fault := by
  cases x <;> simp [Except.map]

/-- What a refused operation leaves: everything as it was, only that the counter may have moved from
which it took an id that it was not given. -/
structure LeftAlone (op : Operation) (g h : Graph) : Prop where
  nodes_eq : h.nodes = g.nodes
  edges_eq : h.edges = g.edges
  metadata_eq : h.metadata = g.metadata
  config_eq : h.config = g.config
  nodeCounter_eq : h.nodeCounter = g.nodeCounter ∨ g.nodeCounter < h.nodeCounter ∧
    ∃ kind position draft, op = .createNode kind position draft ∧ draft.id = none
  edgeCounter_eq : h.edgeCounter = g.edgeCounter ∨ g.edgeCounter < h.edgeCounter ∧
    ∃ source target kind metadata, op = .createEdge source target kind metadata none

theorem LeftAlone.refl (op : Operation) (g : Graph) : LeftAlone op g g :=
  ⟨rfl, rfl, rfl, rfl, Or.inl rfl, Or.inl rfl⟩

/-- Every refusal comes before the first write to nodes and edges. -/
theorem leftAlone_of_refused (hrefused : g.outcome op = .error fault) :
    LeftAlone op g (g.perform op) := by
  cases op with
  | addNode n =>
    rw [perform, map_eq_error_iff.mp hrefused]
    exact .refl _ g
  | createNode kind position draft =>
    rw [outcome] at hrefused
    rw [perform]
    cases hplaced : draft.placed position with
    | error fault' => exact .refl _ g
    | ok placed =>
      rw [hplaced] at hrefused
      dsimp only
      rw [(createNode_eq_error (map_eq_error_iff.mp hrefused)).1]
      rcases g.claimNodeId_fst placed.id with heq | ⟨hnone, k, hlt, heq⟩
      · rw [heq]
        exact .refl _ g
      · rw [heq]
        rw [NodeDraft.placed_id hplaced] at hnone
        exact ⟨rfl, rfl, rfl, rfl, Or.inr ⟨hlt, kind, position, draft, rfl, hnone⟩, Or.inl rfl⟩
  | removeNode id => cases hrefused
  | addEdge e =>
    rw [perform, map_eq_error_iff.mp hrefused]
    exact .refl _ g
  | createEdge source target kind metadata id =>
    rw [perform, (createEdge_eq_error (map_eq_error_iff.mp hrefused)).1]
    rcases g.claimEdgeId_fst id with heq | ⟨rfl, k, hlt, heq⟩
    · rw [heq]
      exact .refl _ g
    · rw [heq]
      exact ⟨rfl, rfl, rfl, rfl, Or.inl rfl, Or.inr ⟨hlt, source, target, kind, metadata, rfl⟩⟩
  | removeEdge id => cases hrefused

/-- A node that takes its id from the counter is refused only for its position or its kind. -/
theorem outcome_createNode_ne (g : Graph) (kind : Value) (position : Option (List Int))
    {draft : NodeDraft} (hid : draft.id = none) (id : String) :
    g.outcome (.createNode kind position draft) ≠ .error (.duplicateNode id) := by
  rw [outcome]
  intro hrefused
  cases hplaced : draft.placed position with
  | error fault =>
    rw [hplaced] at hrefused
    obtain rfl := Except.error.inj hrefused
    unfold NodeDraft.placed Location.ofList at hplaced
    split at hplaced
    · cases hplaced
    · split at hplaced <;> cases hplaced
  | ok placed =>
    rw [hplaced] at hrefused
    rw [← NodeDraft.placed_id hplaced] at hid
    obtain ⟨-, ⟨v, hv⟩ | htaken⟩ := createNode_eq_error (map_eq_error_iff.mp hrefused)
    · cases hv
    · rw [hid] at htaken
      exact g.freshNodeId_not_mem htaken

/-- An edge that takes its id from the counter is refused only for its kind or its ends. -/
theorem outcome_createEdge_ne (g : Graph) (source target : String) (kind : Value)
    (metadata : Fields) (id : String) :
    g.outcome (.createEdge source target kind metadata none) ≠ .error (.duplicateEdge id) := by
  intro hrefused
  obtain ⟨-, ⟨v, hv⟩ | ⟨n, e, hends⟩ | htaken⟩ :=
    createEdge_eq_error (map_eq_error_iff.mp hrefused)
  · cases hv
  · cases hends
  · exact g.freshEdgeId_not_mem htaken

/-- **Refused changes are atomic.** Whatever the graph and the arguments, an operation carried out
in single steps does what it does at once, and one that is refused leaves nodes, edges, attributes
and settings as they were, and at most the counter moved from which it was to take an id. A node is
refused exactly if its id is taken. An edge is refused first for a taken id, then for an absent
source, then for an absent target. What takes its id from a counter is never refused for that id. -/
theorem refusals_atomic (g : Graph) :
    (∀ op, (Update.ofOperation op).carryOut g = (g.outcome op, g.perform op)) ∧
    (∀ op fault, g.outcome op = .error fault → LeftAlone op g (g.perform op)) ∧
    (∀ n fault, g.outcome (.addNode n) = .error fault ↔
      n.id ∈ g.nodeIds ∧ fault = .duplicateNode n.id) ∧
    (∀ e fault, g.outcome (.addEdge e) = .error fault ↔
      e.id ∈ g.edgeIds ∧ fault = .duplicateEdge e.id ∨
      e.id ∉ g.edgeIds ∧
        (e.source ∉ g.nodeIds ∧ fault = .missingEndpoint e.source (some e.id) ∨
          e.source ∈ g.nodeIds ∧ e.target ∉ g.nodeIds ∧
            fault = .missingEndpoint e.target (some e.id))) ∧
    (∀ kind position draft id, draft.id = none →
      g.outcome (.createNode kind position draft) ≠ .error (.duplicateNode id)) ∧
    ∀ source target kind metadata id,
      g.outcome (.createEdge source target kind metadata none) ≠ .error (.duplicateEdge id) := by
  refine ⟨g.carryOut_ofOperation, fun op fault => leftAlone_of_refused, ?_, ?_, ?_, ?_⟩
  · exact fun n fault => map_eq_error_iff.trans addNode_eq_error_iff
  · exact fun e fault => map_eq_error_iff.trans addEdge_eq_error_iff
  · exact fun kind position draft id hid => g.outcome_createNode_ne kind position hid id
  · exact g.outcome_createEdge_ne

/-- An edge to a node that is not there takes an id, which is used up, and leaves the rest alone;
with a taken id it is refused for that id and takes none. -/
theorem refusals_atomic_tangle :
    tangle.outcome (.createEdge "a" "c" (.str "uses") [] none) =
        .error (.missingEndpoint "c" (some "edge_4")) ∧
      LeftAlone (.createEdge "a" "c" (.str "uses") [] none) tangle
        (tangle.perform (.createEdge "a" "c" (.str "uses") [] none)) ∧
      (tangle.perform (.createEdge "a" "c" (.str "uses") [] none)).edgeCounter = 4 ∧
      tangle.outcome (.addEdge { id := "loop", source := "a", target := "c" }) =
        .error (.duplicateEdge "loop") :=
  ⟨rfl, (refusals_atomic tangle).2.1 _ _ rfl, rfl,
    ((refusals_atomic tangle).2.2.2.1 _ _).mpr (Or.inl ⟨by decide, rfl⟩)⟩

end Graph

end CodeAtlas
