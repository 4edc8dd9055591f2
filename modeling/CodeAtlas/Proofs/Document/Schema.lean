import CodeAtlas.Document
import Mathlib.Data.List.Forall2

/-!
# What the schema accepts

A check accepts exactly when all its parts do. From this follow the two facts about documents that
loading rests on: a written record is accepted exactly when its ids are not empty, and then gives
back what was written; and whatever is accepted has no empty ids.
-/

namespace CodeAtlas

/-! ## Lists that match item by item -/

theorem forall₂_and_eq_iff {α β : Type} {p : α → Prop} {f : α → β} {as : List α} {bs : List β} :
    List.Forall₂ (fun a b => p a ∧ b = f a) as bs ↔ (∀ a ∈ as, p a) ∧ bs = as.map f := by
  induction as generalizing bs with
  | nil => simp
  | cons a as ih =>
    rw [List.forall₂_cons_left_iff]
    simp only [ih, List.forall_mem_cons, List.map_cons]
    constructor
    · rintro ⟨b, bs, ⟨ha, rfl⟩, ⟨has, rfl⟩, rfl⟩
      exact ⟨⟨ha, has⟩, rfl⟩
    · rintro ⟨⟨ha, has⟩, rfl⟩
      exact ⟨f a, as.map f, ⟨ha, rfl⟩, ⟨has, rfl⟩, rfl⟩

theorem forall_mem_of_forall₂ {α β : Type} {r : α → β → Prop} {p : β → Prop} {as : List α}
    {bs : List β} (h : List.Forall₂ r as bs) (hp : ∀ a b, r a b → p b) : ∀ b ∈ bs, p b := by
  induction h with
  | nil => exact fun b hb => absurd hb List.not_mem_nil
  | cons hab _ ih => exact List.forall_mem_cons.mpr ⟨hp _ _ hab, ih⟩

/-! ## Accepted parts -/

namespace Checked

variable {α β γ : Type}

theorem map_eq_accepted {f : α → β} {x : Checked α} {b : β} :
    x.map f = .accepted b ↔ ∃ a, x = .accepted a ∧ f a = b := by
  cases x <;> simp [map]

theorem both_eq_accepted {x : Checked α} {y : Checked β} {p : α × β} :
    x.both y = .accepted p ↔ x = .accepted p.1 ∧ y = .accepted p.2 := by
  obtain ⟨a, b⟩ := p
  cases x <;> cases y <;> simp [both]

theorem map₂_eq_accepted {f : α → β → γ} {x : Checked α} {y : Checked β} {c : γ} :
    map₂ f x y = .accepted c ↔ ∃ a b, x = .accepted a ∧ y = .accepted b ∧ f a b = c := by
  unfold map₂
  rw [map_eq_accepted]
  constructor
  · rintro ⟨p, hp, rfl⟩
    exact ⟨p.1, p.2, (both_eq_accepted.mp hp).1, (both_eq_accepted.mp hp).2, rfl⟩
  · rintro ⟨a, b, ha, hb, rfl⟩
    exact ⟨(a, b), both_eq_accepted.mpr ⟨ha, hb⟩, rfl⟩

theorem under_eq_accepted {step : Step} {x : Checked α} {a : α} :
    x.under step = .accepted a ↔ x = .accepted a := by
  cases x <;> simp [under]

theorem andThen_eq_accepted {x : Checked α} {f : α → Checked β} {b : β} :
    x.andThen f = .accepted b ↔ ∃ a, x = .accepted a ∧ f a = .accepted b := by
  cases x <;> simp [andThen]

end Checked

namespace Check

open Checked

variable {α : Type}

theorem required_eq_accepted {fields : Fields} {name : String} {check : Value → Checked α} {a : α} :
    required fields name check = .accepted a ↔
      ∃ v, fields.get? name = some v ∧ check v = .accepted a := by
  unfold required
  rw [under_eq_accepted]
  cases fields.get? name <;> simp [fail]

theorem itemsFrom_eq_accepted {check : Value → Checked α} {i : Nat} {vs : List Value}
    {as : List α} :
    itemsFrom check i vs = .accepted as ↔
      List.Forall₂ (fun v a => check v = .accepted a) vs as := by
  induction vs generalizing i as with
  | nil => simp [itemsFrom, eq_comm]
  | cons v vs ih =>
    unfold itemsFrom
    rw [map₂_eq_accepted, List.forall₂_cons_left_iff]
    simp only [under_eq_accepted, ih]
    constructor
    · rintro ⟨a, as, ha, has, rfl⟩
      exact ⟨a, as, ha, has, rfl⟩
    · rintro ⟨a, as, ha, has, rfl⟩
      exact ⟨a, as, ha, has, rfl⟩

theorem listOf_eq_accepted {check : Value → Checked α} {v : Value} {as : List α} :
    listOf check v = .accepted as ↔
      ∃ items, v = .list items ∧ List.Forall₂ (fun v a => check v = .accepted a) items as := by
  cases v <;> simp [listOf, fail, itemsFrom_eq_accepted]

theorem record_eq_accepted {check : Fields → Checked α} {v : Value} {a : α} :
    record check v = .accepted a ↔ ∃ fields, v = .object fields ∧ check fields = .accepted a := by
  cases v <;> simp [record, fail]

theorem nonemptyText_eq_accepted {v : Value} {s : String} :
    nonemptyText v = .accepted s ↔ v = .str s ∧ s ≠ "" := by
  unfold nonemptyText
  rw [andThen_eq_accepted]
  constructor
  · rintro ⟨t, ht, hs⟩
    cases v with
    | str u =>
      obtain rfl : u = t := Checked.accepted.inj ht
      split at hs
      · cases hs
      · rename_i hne
        obtain rfl : u = s := Checked.accepted.inj hs
        exact ⟨rfl, by simpa using hne⟩
    | _ => cases ht
  · rintro ⟨rfl, hne⟩
    exact ⟨s, rfl, by rw [if_neg (by simpa using hne)]⟩

end Check

namespace Document

open Check Checked

/-! ## Records -/

theorem checkNode_eq_accepted {fields : Fields} {m : Node} :
    checkNode fields = .accepted m ↔
      required fields "id" nonemptyText = .accepted m.id ∧
      required fields "type" (word NodeKind .unknownKind) = .accepted m.kind ∧
      optional fields "name" "" text = .accepted m.name ∧
      optional fields "file" "" text = .accepted m.file ∧
      optional fields "location" {} (record checkLocation) = .accepted m.location ∧
      optional fields "code" "" text = .accepted m.code ∧
      optional fields "metadata" [] object = .accepted m.metadata ∧
      m.outgoing = [] ∧ m.incoming = [] := by
  unfold checkNode
  simp only [map_eq_accepted, both_eq_accepted]
  constructor
  · rintro ⟨p, ⟨⟨⟨hid, hkind⟩, hname, hfile⟩, ⟨hlocation, hcode⟩, hmetadata⟩, rfl⟩
    exact ⟨hid, hkind, hname, hfile, hlocation, hcode, hmetadata, rfl, rfl⟩
  · obtain ⟨id, kind, name, file, location, code, metadata, outgoing, incoming⟩ := m
    rintro ⟨hid, hkind, hname, hfile, hlocation, hcode, hmetadata, rfl, rfl⟩
    exact ⟨(((id, kind), (name, file)), ((location, code), metadata)),
      ⟨⟨⟨hid, hkind⟩, hname, hfile⟩, ⟨hlocation, hcode⟩, hmetadata⟩, rfl⟩

theorem checkEdge_eq_accepted {fields : Fields} {e : Edge} :
    checkEdge fields = .accepted e ↔
      required fields "id" nonemptyText = .accepted e.id ∧
      required fields "source" nonemptyText = .accepted e.source ∧
      required fields "target" nonemptyText = .accepted e.target ∧
      required fields "type" (word EdgeKind .unknownKind) = .accepted e.kind ∧
      optional fields "metadata" [] object = .accepted e.metadata := by
  unfold checkEdge
  simp only [map_eq_accepted, both_eq_accepted]
  constructor
  · rintro ⟨p, ⟨⟨hid, hsource, htarget⟩, hkind, hmetadata⟩, rfl⟩
    exact ⟨hid, hsource, htarget, hkind, hmetadata⟩
  · rintro ⟨hid, hsource, htarget, hkind, hmetadata⟩
    exact ⟨((e.id, (e.source, e.target)), (e.kind, e.metadata)),
      ⟨⟨hid, hsource, htarget⟩, hkind, hmetadata⟩, rfl⟩

theorem checkFields_eq_accepted {fields : Fields} {d : Document} :
    checkFields fields = .accepted d ↔
      required fields "nodes" (listOf (record checkNode)) = .accepted d.nodes ∧
      required fields "edges" (listOf (record checkEdge)) = .accepted d.edges ∧
      optional fields "metadata" [] object = .accepted d.metadata := by
  unfold checkFields
  simp only [map_eq_accepted, both_eq_accepted]
  constructor
  · rintro ⟨p, ⟨⟨hnodes, hedges⟩, hmetadata⟩, rfl⟩
    exact ⟨hnodes, hedges, hmetadata⟩
  · rintro ⟨hnodes, hedges, hmetadata⟩
    exact ⟨((d.nodes, d.edges), d.metadata), ⟨⟨hnodes, hedges⟩, hmetadata⟩, rfl⟩

/-- The word of a kind is taken as that kind. -/
theorem word_text {α : Type} [Spelled α] (kind : IssueKind) (a : α) :
    word α kind (.str (Spelled.text a)) = .accepted a := by
  simp only [word]
  rw [Spelled.ofText?_text]

/-! ## Written records are read back -/

/-- A written node is taken exactly when its id is not empty, and then without its lists. -/
theorem checkNode_nodeRecord {n m : Node} :
    record checkNode (nodeRecord n) = .accepted m ↔ n.id ≠ "" ∧ m = n.detached := by
  have hkind := word_text .unknownKind n.kind
  show checkNode _ = .accepted m ↔ _
  rw [checkNode_eq_accepted, required_eq_accepted, required_eq_accepted]
  constructor
  · rintro ⟨⟨v, hv, hid⟩, ⟨w, hw, hk⟩, hname, hfile, hlocation, hcode, hmetadata, hout, hin⟩
    obtain rfl : .str n.id = v := Option.some.inj hv
    obtain rfl : .str (Spelled.text n.kind) = w := Option.some.inj hw
    obtain ⟨hid, hne⟩ := nonemptyText_eq_accepted.mp hid
    rw [hkind] at hk
    obtain ⟨id, kind, name, file, location, code, metadata, outgoing, incoming⟩ := m
    obtain rfl : n.id = id := Value.str.inj hid
    obtain rfl : n.kind = kind := accepted.inj hk
    obtain rfl : n.name = name := accepted.inj hname
    obtain rfl : n.file = file := accepted.inj hfile
    obtain rfl : n.location = location := accepted.inj hlocation
    obtain rfl : n.code = code := accepted.inj hcode
    obtain rfl : n.metadata = metadata := accepted.inj hmetadata
    obtain rfl : outgoing = [] := hout
    obtain rfl : incoming = [] := hin
    exact ⟨hne, rfl⟩
  · rintro ⟨hne, rfl⟩
    exact ⟨⟨_, rfl, nonemptyText_eq_accepted.mpr ⟨rfl, hne⟩⟩, ⟨_, rfl, hkind⟩, rfl, rfl, rfl, rfl,
      rfl, rfl, rfl⟩

/-- A written edge is taken exactly when neither its id nor an end is empty. -/
theorem checkEdge_edgeRecord {e d : Edge} :
    record checkEdge (edgeRecord e) = .accepted d ↔
      (e.id ≠ "" ∧ e.source ≠ "" ∧ e.target ≠ "") ∧ d = e := by
  have hkind := word_text .unknownKind e.kind
  show checkEdge _ = .accepted d ↔ _
  simp only [checkEdge_eq_accepted, required_eq_accepted]
  constructor
  · rintro ⟨⟨u, hu, hid⟩, ⟨v, hv, hsource⟩, ⟨w, hw, htarget⟩, ⟨x, hx, hk⟩, hmetadata⟩
    obtain rfl : .str e.id = u := Option.some.inj hu
    obtain rfl : .str e.source = v := Option.some.inj hv
    obtain rfl : .str e.target = w := Option.some.inj hw
    obtain rfl : .str (Spelled.text e.kind) = x := Option.some.inj hx
    obtain ⟨hid, hne⟩ := nonemptyText_eq_accepted.mp hid
    obtain ⟨hsource, hsne⟩ := nonemptyText_eq_accepted.mp hsource
    obtain ⟨htarget, htne⟩ := nonemptyText_eq_accepted.mp htarget
    rw [hkind] at hk
    obtain ⟨id, source, target, kind, metadata⟩ := d
    obtain rfl : e.id = id := Value.str.inj hid
    obtain rfl : e.source = source := Value.str.inj hsource
    obtain rfl : e.target = target := Value.str.inj htarget
    obtain rfl : e.kind = kind := accepted.inj hk
    obtain rfl : e.metadata = metadata := accepted.inj hmetadata
    exact ⟨⟨hne, hsne, htne⟩, rfl⟩
  · rintro ⟨⟨hne, hsne, htne⟩, rfl⟩
    exact ⟨⟨_, rfl, nonemptyText_eq_accepted.mpr ⟨rfl, hne⟩⟩,
      ⟨_, rfl, nonemptyText_eq_accepted.mpr ⟨rfl, hsne⟩⟩,
      ⟨_, rfl, nonemptyText_eq_accepted.mpr ⟨rfl, htne⟩⟩, ⟨_, rfl, hkind⟩, rfl⟩

/-- A written document is taken exactly when none of its ids is empty. -/
theorem ofValue_toValue {d d' : Document} :
    ofValue d.toValue = .accepted d' ↔
      ((∀ n ∈ d.nodes, n.id ≠ "") ∧ ∀ e ∈ d.edges, e.id ≠ "" ∧ e.source ≠ "" ∧ e.target ≠ "") ∧
        d' = { d with nodes := d.nodes.map Node.detached } := by
  have hnodes : ∀ as : List Node, listOf (record checkNode) (.list (d.nodes.map nodeRecord)) =
      .accepted as ↔ (∀ n ∈ d.nodes, n.id ≠ "") ∧ as = d.nodes.map Node.detached := by
    intro as
    rw [listOf_eq_accepted]
    simp only [Value.list.injEq, exists_eq_left', List.forall₂_map_left_iff, checkNode_nodeRecord]
    exact forall₂_and_eq_iff
  have hedges : ∀ as : List Edge, listOf (record checkEdge) (.list (d.edges.map edgeRecord)) =
      .accepted as ↔ (∀ e ∈ d.edges, e.id ≠ "" ∧ e.source ≠ "" ∧ e.target ≠ "") ∧ as = d.edges := by
    intro as
    rw [listOf_eq_accepted]
    simp only [Value.list.injEq, exists_eq_left', List.forall₂_map_left_iff, checkEdge_edgeRecord]
    rw [forall₂_and_eq_iff (f := fun e : Edge => e), List.map_id']
  show checkFields _ = .accepted d' ↔ _
  rw [checkFields_eq_accepted, required_eq_accepted, required_eq_accepted]
  constructor
  · rintro ⟨⟨v, hv, hns⟩, ⟨w, hw, hes⟩, hmetadata⟩
    obtain rfl : .list (d.nodes.map nodeRecord) = v := Option.some.inj hv
    obtain rfl : .list (d.edges.map edgeRecord) = w := Option.some.inj hw
    obtain ⟨hnid, hns⟩ := (hnodes _).mp hns
    obtain ⟨heid, hes⟩ := (hedges _).mp hes
    obtain ⟨nodes, edges, metadata⟩ := d'
    obtain rfl : nodes = d.nodes.map Node.detached := hns
    obtain rfl : edges = d.edges := hes
    obtain rfl : d.metadata = metadata := accepted.inj hmetadata
    exact ⟨⟨hnid, heid⟩, rfl⟩
  · rintro ⟨⟨hnid, heid⟩, rfl⟩
    exact ⟨⟨_, rfl, (hnodes _).mpr ⟨hnid, rfl⟩⟩, ⟨_, rfl, (hedges _).mpr ⟨heid, rfl⟩⟩, rfl⟩

/-! ## What is accepted has ids -/

theorem required_nonemptyText_ne {fields : Fields} {name s : String}
    (h : required fields name nonemptyText = .accepted s) : s ≠ "" := by
  obtain ⟨v, -, hv⟩ := required_eq_accepted.mp h
  exact (nonemptyText_eq_accepted.mp hv).2

theorem ids_ne_of_ofValue {v : Value} {d : Document} (h : ofValue v = .accepted d) :
    (∀ n ∈ d.nodes, n.id ≠ "") ∧ ∀ e ∈ d.edges, e.id ≠ "" := by
  obtain ⟨fields, -, h⟩ := record_eq_accepted.mp h
  obtain ⟨hnodes, hedges, -⟩ := checkFields_eq_accepted.mp h
  obtain ⟨vs, -, hnodes⟩ := required_eq_accepted.mp hnodes
  obtain ⟨ws, -, hedges⟩ := required_eq_accepted.mp hedges
  obtain ⟨nodeItems, -, hnodes⟩ := listOf_eq_accepted.mp hnodes
  obtain ⟨edgeItems, -, hedges⟩ := listOf_eq_accepted.mp hedges
  constructor
  · refine forall_mem_of_forall₂ hnodes ?_
    intro item n hn
    obtain ⟨fields, -, hn⟩ := record_eq_accepted.mp hn
    exact required_nonemptyText_ne (checkNode_eq_accepted.mp hn).1
  · refine forall_mem_of_forall₂ hedges ?_
    intro item e he
    obtain ⟨fields, -, he⟩ := record_eq_accepted.mp he
    exact required_nonemptyText_ne (checkEdge_eq_accepted.mp he).1

end Document

end CodeAtlas
