import CodeAtlas.Network
import CodeAtlas.Proofs.Config.Entries
import CodeAtlas.Proofs.Graph.Neighbors

/-!
# The network of a graph

Making a network takes the edges one by one and files each under its source, its target and its id.
What has been filed at any time are the edges so far, grouped: `Network.filed`. An id comes up only
once and the ends of every edge are there before it, so no link is renewed and no node is made for an
edge. Hence nothing is lost, and going through the network meets the edges group by group.
-/

namespace CodeAtlas

/-! ## A map of known keys -/

namespace Assoc

variable {β : Type} {ids : List String} {id : String} {f : String → β}

@[simp] theorem keys_map_pair (ids : List String) (f : String → β) :
    keys (ids.map fun i => (i, f i)) = ids := by
  simp [keys, Function.comp_def]

theorem get?_map_pair (h : id ∈ ids) : get? (ids.map fun i => (i, f i)) id = some (f id) := by
  induction ids with
  | nil => exact absurd h List.not_mem_nil
  | cons i ids ih =>
    rw [List.map_cons, get?_cons]
    by_cases hi : id = i
    · rw [if_pos hi, hi]
    · rw [if_neg hi, ih ((List.mem_cons.mp h).resolve_left hi)]

theorem get?_map_pair_of_not_mem (h : id ∉ ids) :
    get? (ids.map fun i => (i, f i)) id = none := by
  rw [get?_eq_none, keys_map_pair]
  exact h

/-- Setting a known key changes the value there and nowhere else. -/
theorem set_map_pair {f' : String → β} (hids : ids.Nodup) (h : id ∈ ids)
    (hother : ∀ i, i ≠ id → f' i = f i) :
    set (ids.map fun i => (i, f i)) id (f' id) = ids.map fun i => (i, f' i) := by
  induction ids with
  | nil => exact absurd h List.not_mem_nil
  | cons i ids ih =>
    obtain ⟨hnew, hids⟩ := List.nodup_cons.mp hids
    rw [List.map_cons, List.map_cons, set]
    by_cases hi : i = id
    · subst hi
      rw [if_pos (beq_self_eq_true i)]
      congr 1
      refine List.map_congr_left fun a ha => ?_
      rw [hother a]
      rintro rfl
      exact hnew ha
    · rw [if_neg (by simpa using hi), hother i hi,
        ih hids ((List.mem_cons.mp h).resolve_left (Ne.symm hi))]

end Assoc

namespace Network

/-! ## Filed edges -/

def linkOf (e : Edge) : Link :=
  { source := e.source, target := e.target, key := e.id, attributes := edgeAttributes e }

def link? (net : Network) (source target key : String) : Option Fields :=
  ((net.links.get? source).bind (Assoc.get? · target)).bind (Assoc.get? · key)

/-- The targets of the edges from a node, in the order of the first edge to each. -/
def targetsFrom (edges : List Edge) (source : String) : List String :=
  distinct ((edgesAt Edge.source edges source).map Edge.target)

def between (edges : List Edge) (source target : String) : List Edge :=
  edgesAt Edge.target (edgesAt Edge.source edges source) target

/-- The links between two nodes that some edges make. -/
def filedBetween (edges : List Edge) (source target : String) : Assoc Fields :=
  (between edges source target).map fun e => (e.id, edgeAttributes e)

/-- The links from a node that some edges make. -/
def filedFrom (edges : List Edge) (source : String) : Assoc (Assoc Fields) :=
  (targetsFrom edges source).map fun target => (target, filedBetween edges source target)

/-- The links from the nodes `ids` that some edges make. -/
def filed (ids : List String) (edges : List Edge) : Links :=
  ids.map fun source => (source, filedFrom edges source)

variable {ids : List String} {edges : List Edge} {e : Edge} {a b : String}

theorem mem_between : e ∈ between edges a b ↔ e ∈ edges ∧ e.source = a ∧ e.target = b := by
  unfold between
  rw [mem_edgesAt, mem_edgesAt, and_assoc]

theorem mem_targetsFrom :
    b ∈ targetsFrom edges a ↔ ∃ e ∈ edges, e.source = a ∧ e.target = b := by
  unfold targetsFrom
  simp only [mem_distinct, List.mem_map, mem_edgesAt, and_assoc]

theorem keys_filedBetween (edges : List Edge) (a b : String) :
    (filedBetween edges a b).keys = (between edges a b).map Edge.id := by
  simp [filedBetween, Assoc.keys, Function.comp_def]

theorem filedBetween_eq_nil (h : b ∉ targetsFrom edges a) : filedBetween edges a b = [] := by
  have hnone : between edges a b = [] := List.eq_nil_iff_forall_not_mem.mpr fun e he =>
    h (mem_targetsFrom.mpr ⟨e, mem_between.mp he⟩)
  rw [filedBetween, hnone]
  rfl

theorem filedBetween_append (edges : List Edge) (e : Edge) (a b : String) :
    filedBetween (edges ++ [e]) a b =
      if e.source = a ∧ e.target = b then filedBetween edges a b ++ [(e.id, edgeAttributes e)]
      else filedBetween edges a b := by
  unfold filedBetween between edgesAt
  by_cases ha : e.source = a <;> by_cases hb : e.target = b <;> simp [ha, hb]

theorem targetsFrom_append (edges : List Edge) (e : Edge) (a : String) :
    targetsFrom (edges ++ [e]) a =
      if e.source = a ∧ e.target ∉ targetsFrom edges a then targetsFrom edges a ++ [e.target]
      else targetsFrom edges a := by
  unfold targetsFrom
  by_cases ha : e.source = a
  · have hone : edgesAt Edge.source [e] a = [e] := by simp [edgesAt, ha]
    have hsplit : edgesAt Edge.source (edges ++ [e]) a = edgesAt Edge.source edges a ++ [e] := by
      rw [edgesAt, List.filter_append, ← edgesAt, ← edgesAt, hone]
    rw [hsplit, List.map_append, List.map_singleton, distinct_append_singleton]
    by_cases hb : e.target ∈ (edgesAt Edge.source edges a).map Edge.target <;> simp [ha, hb]
  · simp [edgesAt, ha]

/-! ## Filing one more edge -/

theorem filedFrom_append_of_ne (edges : List Edge) (h : e.source ≠ a) :
    filedFrom (edges ++ [e]) a = filedFrom edges a := by
  unfold filedFrom
  rw [targetsFrom_append, if_neg fun hnew => h hnew.1]
  refine List.map_congr_left fun b _ => ?_
  rw [filedBetween_append, if_neg fun hends => h hends.1]

/-- At its source, an edge goes behind the edges to the same target, whether there are any or not. -/
theorem filedFrom_append_source (edges : List Edge) (e : Edge) :
    filedFrom (edges ++ [e]) e.source = (filedFrom edges e.source).set e.target
      (filedBetween edges e.source e.target ++ [(e.id, edgeAttributes e)]) := by
  have hthere : filedBetween (edges ++ [e]) e.source e.target =
      filedBetween edges e.source e.target ++ [(e.id, edgeAttributes e)] := by
    rw [filedBetween_append, if_pos ⟨rfl, rfl⟩]
  have hother : ∀ b, b ≠ e.target →
      filedBetween (edges ++ [e]) e.source b = filedBetween edges e.source b := by
    intro b hb
    rw [filedBetween_append, if_neg fun hends => hb hends.2.symm]
  rw [← hthere]
  unfold filedFrom
  rw [targetsFrom_append]
  by_cases hold : e.target ∈ targetsFrom edges e.source
  · have hnodup : (targetsFrom edges e.source).Nodup := nodup_distinct _
    rw [if_neg fun hnew => hnew.2 hold, Assoc.set_map_pair hnodup hold hother]
  · rw [if_pos ⟨rfl, hold⟩, Assoc.set_of_not_mem (by rwa [Assoc.keys_map_pair]), List.map_append]
    congr 1
    refine List.map_congr_left fun b hb => ?_
    rw [hother b]
    rintro rfl
    exact hold hb

/-- What is filed between the ends of an edge is found by looking them up. -/
theorem getD_filedFrom (edges : List Edge) (a b : String) :
    (Assoc.get? (filedFrom edges a) b).getD [] = filedBetween edges a b := by
  unfold filedFrom
  by_cases hb : b ∈ targetsFrom edges a
  · rw [Assoc.get?_map_pair hb]
    rfl
  · rw [Assoc.get?_map_pair_of_not_mem hb, filedBetween_eq_nil hb]
    rfl

theorem getD_filed (edges : List Edge) (ha : a ∈ ids) :
    (Assoc.get? (filed ids edges) a).getD [] = filedFrom edges a := by
  unfold filed
  rw [Assoc.get?_map_pair ha]
  rfl

theorem update_edgeAttributes (e : Edge) :
    Fields.update [] (edgeAttributes e) = edgeAttributes e := rfl

/-- An edge with a new id between nodes that are there is filed as a link of its own. -/
theorem addLink_filed {net : Network} (hids : ids.Nodup) (hlinks : net.links = filed ids edges)
    (hnodes : net.nodes.keys = ids) (hsource : e.source ∈ ids) (htarget : e.target ∈ ids)
    (hid : e.id ∉ edges.map Edge.id) :
    net.addLink e.source e.target e.id (edgeAttributes e) =
      { net with links := filed ids (edges ++ [e]) } := by
  have hhas : ∀ a ∈ ids, net.ensureNode a = net := by
    intro a ha
    rw [← hnodes] at ha
    obtain ⟨entry, hentry, rfl⟩ := List.mem_map.mp ha
    exact if_pos (List.any_eq_true.mpr ⟨entry, hentry, beq_self_eq_true entry.1⟩)
  have hnew : e.id ∉ (filedBetween edges e.source e.target).keys := by
    rw [keys_filedBetween]
    intro hmem
    obtain ⟨d, hd, heq⟩ := List.mem_map.mp hmem
    exact hid (List.mem_map.mpr ⟨d, (mem_between.mp hd).1, heq⟩)
  have hfiled : (filed ids edges).set e.source (filedFrom (edges ++ [e]) e.source) =
      filed ids (edges ++ [e]) :=
    Assoc.set_map_pair hids hsource fun a ha => filedFrom_append_of_ne edges (Ne.symm ha)
  unfold addLink
  simp only [hhas _ hsource, hhas _ htarget, hlinks, getD_filed _ hsource, getD_filedFrom,
    Assoc.get?_eq_none.mpr hnew, Option.getD_none, update_edgeAttributes,
    Assoc.set_of_not_mem hnew]
  rw [← filedFrom_append_source, hfiled]

/-! ## The whole graph -/

theorem foldl_addLink_filed {net : Network} {more : List Edge} (hids : ids.Nodup)
    (hlinks : net.links = filed ids edges) (hnodes : net.nodes.keys = ids)
    (hsource : ∀ e ∈ more, e.source ∈ ids) (htarget : ∀ e ∈ more, e.target ∈ ids)
    (hnodup : ((edges ++ more).map Edge.id).Nodup) :
    more.foldl (fun net e => net.addLink e.source e.target e.id (edgeAttributes e)) net =
      { net with links := filed ids (edges ++ more) } := by
  induction more generalizing net edges with
  | nil => rw [List.append_nil, ← hlinks, List.foldl_nil]
  | cons e more ih =>
    obtain ⟨hs, hsource⟩ := List.forall_mem_cons.mp hsource
    obtain ⟨ht, htarget⟩ := List.forall_mem_cons.mp htarget
    have hid : e.id ∉ edges.map Edge.id := by
      rw [List.map_append, List.map_cons] at hnodup
      exact fun hmem => (List.nodup_append.mp hnodup).2.2 e.id hmem e.id List.mem_cons_self rfl
    have hsplit : edges ++ e :: more = edges ++ [e] ++ more := by simp
    rw [List.foldl_cons, addLink_filed hids hlinks hnodes hs ht hid, hsplit]
    rw [hsplit] at hnodup
    exact ih rfl hnodes hsource htarget hnodup

theorem foldl_addNode {net : Network} {nodes : List Node} (hlinks : net.links.keys = net.nodes.keys)
    (hnodup : (net.nodes.keys ++ nodes.map Node.id).Nodup) :
    nodes.foldl (fun net n => net.addNode n.id (nodeAttributes n)) net =
      { net with
        nodes := net.nodes ++ nodes.map fun n => (n.id, nodeAttributes n)
        links := net.links ++ nodes.map fun n => (n.id, []) } := by
  induction nodes generalizing net with
  | nil => simp
  | cons n nodes ih =>
    have hnew : n.id ∉ net.nodes.keys := fun hmem =>
      (List.nodup_append.mp hnodup).2.2 n.id hmem n.id List.mem_cons_self rfl
    have hfresh : net.links.has n.id = false := by
      rw [← Bool.not_eq_true, Assoc.has, List.any_eq_true]
      rintro ⟨entry, hentry, heq⟩
      exact hnew (hlinks ▸ List.mem_map.mpr ⟨entry, hentry, eq_of_beq heq⟩)
    have hadd : net.addNode n.id (nodeAttributes n) =
        { net with
          nodes := net.nodes ++ [(n.id, nodeAttributes n)]
          links := net.links ++ [(n.id, [])] } := by
      unfold addNode
      rw [hfresh, Assoc.get?_eq_none.mpr hnew, Assoc.set_of_not_mem hnew,
        Assoc.set_of_not_mem (by rwa [hlinks])]
      rfl
    rw [List.foldl_cons, hadd, ih]
    · simp
    · simp only [Assoc.keys, List.map_append] at hlinks ⊢
      rw [hlinks]
      rfl
    · simpa [Assoc.keys] using hnodup

/-! ## Links of filed edges -/

/-- A link is found under the ends and the id of an edge, and nowhere else. -/
theorem link?_filed {net : Network} {key : String} {attributes : Fields}
    (hlinks : net.links = filed ids edges) (hsource : ∀ e ∈ edges, e.source ∈ ids)
    (hnodup : (edges.map Edge.id).Nodup) :
    net.link? a b key = some attributes ↔ ∃ e ∈ edges,
      e.source = a ∧ e.target = b ∧ e.id = key ∧ edgeAttributes e = attributes := by
  have hlink : net.link? a b key = Assoc.get? (filedBetween edges a b) key := by
    unfold link?
    rw [hlinks]
    by_cases hb : b ∈ targetsFrom edges a
    · obtain ⟨e, he, rfl, -⟩ := mem_targetsFrom.mp hb
      rw [filed, Assoc.get?_map_pair (hsource e he), Option.bind_some, filedFrom,
        Assoc.get?_map_pair hb, Option.bind_some]
    · rw [filedBetween_eq_nil hb, filed]
      by_cases ha : a ∈ ids
      · rw [Assoc.get?_map_pair ha, Option.bind_some, filedFrom, Assoc.get?_map_pair_of_not_mem hb]
        rfl
      · rw [Assoc.get?_map_pair_of_not_mem ha]
        rfl
  have hkeys : (filedBetween edges a b).keys.Nodup := by
    rw [keys_filedBetween]
    exact hnodup.sublist ((List.filter_sublist.trans List.filter_sublist).map _)
  rw [hlink, Assoc.get?_eq_some hkeys, filedBetween, List.mem_map]
  simp only [mem_between, Prod.mk.injEq, and_assoc]

/-- Links are met by source, by target and then by edge. -/
theorem allLinks_filed {net : Network} (hlinks : net.links = filed ids edges) :
    net.allLinks = ids.flatMap fun a =>
      (targetsFrom edges a).flatMap fun b => (between edges a b).map linkOf := by
  unfold allLinks
  rw [hlinks, filed, List.flatMap_map]
  refine List.flatMap_congr fun a _ => ?_
  dsimp only
  rw [filedFrom, List.flatMap_map]
  refine List.flatMap_congr fun b _ => ?_
  dsimp only
  rw [filedBetween, List.map_map]
  refine List.map_congr_left fun e he => ?_
  obtain ⟨-, rfl, rfl⟩ := mem_between.mp he
  rfl

/-- Going through the groups meets every edge once. -/
theorem flatMap_between_perm (hids : ids.Nodup) (hsource : ∀ e ∈ edges, e.source ∈ ids) :
    (ids.flatMap fun a => (targetsFrom edges a).flatMap (between edges a)).Perm edges := by
  refine .trans (.flatMap_left ids fun a _ => ?_) (flatMap_edgesAt_perm hids hsource)
  refine flatMap_edgesAt_perm (nodup_distinct _) fun e he => mem_distinct.mpr ?_
  exact List.mem_map_of_mem he

end Network

namespace Graph

open Network

variable {g : Graph}

/-- The network of a consistent graph has its nodes, and its edges are filed in it. -/
theorem Consistent.toNetwork_eq (hg : g.Consistent) :
    g.toNetwork =
      { attributes := Assoc.ofEntries g.metadata
        nodes := g.nodes.map fun n => (n.id, nodeAttributes n)
        links := filed g.nodeIds g.edges } := by
  have hbare : filed g.nodeIds [] = g.nodes.map fun n => (n.id, []) := by
    rw [filed, nodeIds, List.map_map]
    rfl
  unfold toNetwork
  dsimp only
  rw [foldl_addNode rfl (by simpa [Assoc.keys, nodeIds] using hg.nodeIds_nodup)]
  refine (foldl_addLink_filed hg.nodeIds_nodup hbare.symm ?_ hg.source_mem hg.target_mem
    (by simpa [edgeIds] using hg.edgeIds_nodup)).trans ?_
  · simp [Assoc.keys, nodeIds, Function.comp_def]
  · rfl

/-- **Lossless networks.** The network of a reachable graph has the nodes of the graph in their order,
each with its own attributes, and as attributes of its own the metadata of the graph, as soon as these
are a map, that is, give each name once. It has a link under two ends and a key exactly if there is an
edge with these ends and this id, and then the link has the attributes of the edge. Going through the
links meets each edge once: by source in the order of the nodes, then by target in the order of the
first edge from that source to it, then in the order of the edges. -/
theorem toNetwork_lossless (hg : g.Reachable) :
    ((Assoc.keys g.metadata).Nodup → g.toNetwork.attributes = g.metadata) ∧
    g.toNetwork.nodes = g.nodes.map (fun n => (n.id,
      [("node_type", .str (Spelled.text n.kind)), ("name", .str n.name), ("file_path", .str n.file),
        ("line", .int n.location.line), ("column", .int n.location.column),
        ("metadata", .object n.metadata)])) ∧
    (∀ source target key attributes,
      g.toNetwork.link? source target key = some attributes ↔ ∃ e ∈ g.edges,
        e.source = source ∧ e.target = target ∧ e.id = key ∧
          [("edge_type", .str (Spelled.text e.kind)), ("metadata", .object e.metadata)] =
            attributes) ∧
    g.toNetwork.allLinks.Perm (g.edges.map linkOf) ∧
    g.toNetwork.allLinks = g.nodeIds.flatMap fun source =>
      (distinct ((g.edges.filter (·.source = source)).map Edge.target)).flatMap fun target =>
        ((g.edges.filter (·.source = source)).filter (·.target = target)).map linkOf := by
  have hc := hg.consistent
  have hlinks : g.toNetwork.links = filed g.nodeIds g.edges := by rw [hc.toNetwork_eq]
  refine ⟨?_, ?_, ?_, ?_, allLinks_filed hlinks⟩
  · intro hmetadata
    rw [hc.toNetwork_eq]
    exact Assoc.ofEntries_eq_self hmetadata
  · rw [hc.toNetwork_eq]
    rfl
  · intro source target key attributes
    exact link?_filed hlinks hc.source_mem hc.edgeIds_nodup
  · rw [allLinks_filed hlinks]
    simp only [← List.map_flatMap]
    exact (flatMap_between_perm hc.nodeIds_nodup hc.source_mem).map linkOf

/-- A graph in which no two edges with the same ends follow each other. -/
def braided : Graph :=
  (empty {} [("project", .str "sample"), ("build", .int 7)]).performAll
    ((["a", "b"].map fun id => .createNode (.str "function") none { id := some id }) ++
      ([("b", "a"), ("a", "b"), ("a", "a"), ("a", "b"), ("b", "a")].map fun ends =>
        .createEdge ends.1 ends.2 (.str "uses") [] none))

theorem toNetwork_lossless_braided :
    braided.Reachable ∧ braided.toNetwork.attributes = braided.metadata ∧
      braided.toNetwork.link? "a" "b" "edge_4" =
        some [("edge_type", .str "uses"), ("metadata", .object [])] ∧
      braided.toNetwork.link? "b" "a" "edge_4" = none ∧
      braided.toNetwork.allLinks.map Link.key = ["edge_2", "edge_4", "edge_3", "edge_1", "edge_5"] := by
  have hreachable : braided.Reachable := (Reachable.empty {} _).performAll _
  obtain ⟨hattributes, -, hlinks, -, horder⟩ := toNetwork_lossless hreachable
  refine ⟨hreachable, hattributes (by decide), (hlinks "a" "b" "edge_4" _).mpr ?_, ?_, ?_⟩
  · exact ⟨{ id := "edge_4", source := "a", target := "b", kind := .uses },
      List.mem_of_getElem? (i := 3) rfl, rfl, rfl, rfl, rfl⟩
  · cases hfound : braided.toNetwork.link? "b" "a" "edge_4" with
    | none => rfl
    | some attributes =>
      obtain ⟨e, he, hsource, -, hid, -⟩ := (hlinks "b" "a" "edge_4" attributes).mp hfound
      have hall : ∀ e ∈ braided.edges, e.id = "edge_4" → e.source ≠ "b" := by decide
      exact absurd hsource (hall e he hid)
  · rw [horder]
    rfl

end Graph

end CodeAtlas
