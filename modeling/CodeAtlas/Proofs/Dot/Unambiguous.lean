import CodeAtlas.Dot

/-!
# Drawings are unambiguous

A drawing is a sequence of texts between quotes with fixed words around them. An escaped text holds
no bare quote, so the quote that ends it is found from the left whatever stands after it. The same
then holds of a statement, and of all statements up to the closing brace: two graphs with the same
drawing have the same statements.
-/

namespace CodeAtlas

/-- Whatever follows, what was written and what follows it can be told from the text. -/
def SelfDelimiting {α : Type} (write : α → List Char) : Prop :=
  ∀ a b rest rest', write a ++ rest = write b ++ rest' → a = b ∧ rest = rest'

namespace SelfDelimiting

variable {α β : Type} {f : α → List Char} {g : β → List Char}

theorem framed (hf : SelfDelimiting f) (before after : List Char) :
    SelfDelimiting fun a => before ++ (f a ++ after) := by
  intro a b rest rest' h
  simp only [List.append_assoc, List.append_cancel_left_eq] at h
  obtain ⟨hab, hafter⟩ := hf a b _ _ h
  exact ⟨hab, List.append_cancel_left hafter⟩

theorem pair (hf : SelfDelimiting f) (hg : SelfDelimiting g) :
    SelfDelimiting fun p : α × β => f p.1 ++ g p.2 := by
  rintro ⟨a, b⟩ ⟨a', b'⟩ rest rest' h
  simp only [List.append_assoc] at h
  obtain ⟨rfl, hsecond⟩ := hf a a' _ _ h
  obtain ⟨rfl, hrest⟩ := hg b b' _ _ hsecond
  exact ⟨rfl, hrest⟩

theorem either (hf : SelfDelimiting f) (hg : SelfDelimiting g)
    (hapart : ∀ a b rest rest', f a ++ rest ≠ g b ++ rest') : SelfDelimiting (Sum.elim f g) := by
  rintro (a | b) (a' | b') rest rest' h
  · obtain ⟨rfl, hrest⟩ := hf a a' rest rest' h
    exact ⟨rfl, hrest⟩
  · exact absurd h (hapart a b' rest rest')
  · exact absurd h.symm (hapart a' b rest' rest)
  · obtain ⟨rfl, hrest⟩ := hg b b' rest rest' h
    exact ⟨rfl, hrest⟩

/-- Items one after the other, up to a mark that starts no item. -/
theorem upTo (hf : SelfDelimiting f) (mark : List Char)
    (hmark : ∀ a rest rest', f a ++ rest ≠ mark ++ rest') :
    SelfDelimiting fun items : List α => items.flatMap f ++ mark := by
  intro items
  induction items with
  | nil =>
    rintro (_ | ⟨b, items'⟩) rest rest' h
    · exact ⟨rfl, List.append_cancel_left h⟩
    · simp only [List.flatMap_nil, List.nil_append, List.flatMap_cons, List.append_assoc] at h
      exact absurd h.symm (hmark b _ rest)
  | cons a items ih =>
    rintro (_ | ⟨b, items'⟩) rest rest' h
    · simp only [List.flatMap_nil, List.nil_append, List.flatMap_cons, List.append_assoc] at h
      exact absurd h (hmark a _ rest')
    · simp only [List.flatMap_cons, List.append_assoc] at h
      obtain ⟨rfl, hitems⟩ := hf a b _ _ h
      rw [← List.append_assoc, ← List.append_assoc] at hitems
      obtain ⟨rfl, hrest⟩ := ih items' rest rest' hitems
      exact ⟨rfl, hrest⟩

theorem comap (hf : SelfDelimiting f) {e : β → α} (he : Function.Injective e) :
    SelfDelimiting fun b => f (e b) := by
  intro b b' rest rest' h
  obtain ⟨heq, hrest⟩ := hf (e b) (e b') rest rest' h
  exact ⟨he heq, hrest⟩

theorem injective (hf : SelfDelimiting f) : Function.Injective f := by
  intro a b h
  exact (hf a b [] [] (congrArg (· ++ []) h)).1

end SelfDelimiting

namespace Dot

/-! ## Quoted texts -/

theorem escapeChar_selfDelimiting : SelfDelimiting escapeChar := by
  intro c d rest rest' h
  unfold escapeChar at h
  grind

theorem escapeChar_ne_quote (c : Char) (rest rest' : List Char) :
    escapeChar c ++ rest ≠ ['"'] ++ rest' := by
  unfold escapeChar
  grind

theorem quote_selfDelimiting : SelfDelimiting fun s => (quote s).toList := by
  have htext := escapeChar_selfDelimiting.upTo ['"'] escapeChar_ne_quote
  have hquote := (htext.comap fun _ _ => String.toList_inj.mp).framed ['"'] []
  intro s t rest rest' h
  refine hquote s t rest rest' ?_
  simpa [quote, escape_eq_flatMap, List.append_assoc] using h

/-! ## Statements -/

/-- What the statement of a node says: its id, label and colour. -/
abbrev NodeStatement := String × String × String

/-- What the statement of an edge says: its ends, label and colour. -/
abbrev EdgeStatement := String × String × String × String

def nodeStatement (o : DotOptions) (n : Node) : NodeStatement :=
  (n.id, o.nodeLabel n, o.nodeColor n)

def edgeStatement (o : DotOptions) (e : Edge) : EdgeStatement :=
  (e.source, e.target, o.edgeLabel e, o.edgeColor e)

def writeLook (look : String × String) : List Char :=
  (attributes look.1 look.2).toList ++ ['\n']

def writeNode (pad : List Char) (n : NodeStatement) : List Char :=
  pad ++ ((quote n.1).toList ++ writeLook n.2)

def writeEdge (pad : List Char) (e : EdgeStatement) : List Char :=
  pad ++ ((quote e.1).toList ++ (" -> ".toList ++ ((quote e.2.1).toList ++ writeLook e.2.2)))

theorem writeLook_selfDelimiting : SelfDelimiting writeLook := by
  have hlabel := quote_selfDelimiting.framed " [label=".toList ", color=".toList
  have hcolor := quote_selfDelimiting.framed [] "];\n".toList
  intro look look' rest rest' h
  refine hlabel.pair hcolor look look' rest rest' ?_
  simpa [writeLook, attributes, List.append_assoc] using h

theorem writeNode_selfDelimiting (pad : List Char) : SelfDelimiting (writeNode pad) := by
  have hnode := (quote_selfDelimiting.pair writeLook_selfDelimiting).framed pad []
  intro n n' rest rest' h
  refine hnode n n' rest rest' ?_
  simpa only [writeNode, List.append_nil] using h

theorem writeEdge_selfDelimiting (pad : List Char) : SelfDelimiting (writeEdge pad) := by
  have htarget := (quote_selfDelimiting.pair writeLook_selfDelimiting).framed " -> ".toList []
  have hedge := (quote_selfDelimiting.pair htarget).framed pad []
  intro e e' rest rest' h
  refine hedge e e' rest rest' ?_
  simpa only [writeEdge, List.append_nil] using h

/-- After the quote that ends the first id stands a bracket in one and an arrow in the other. -/
theorem writeNode_ne_writeEdge (pad : List Char) (n : NodeStatement) (e : EdgeStatement)
    (rest rest' : List Char) : writeNode pad n ++ rest ≠ writeEdge pad e ++ rest' := by
  intro h
  simp only [writeNode, writeEdge, List.append_assoc, List.append_cancel_left_eq] at h
  obtain ⟨-, hafter⟩ := quote_selfDelimiting _ _ _ _ h
  simp [writeLook, attributes] at hafter

def writeStatement (pad : List Char) : NodeStatement ⊕ EdgeStatement → List Char :=
  Sum.elim (writeNode pad) (writeEdge pad)

theorem writeStatement_selfDelimiting (pad : List Char) : SelfDelimiting (writeStatement pad) :=
  (writeNode_selfDelimiting pad).either (writeEdge_selfDelimiting pad) (writeNode_ne_writeEdge pad)

/-- A statement starts with a blank or a quote, so it is not taken for the closing brace. -/
theorem writeStatement_ne_closing (width : Nat) (s : NodeStatement ⊕ EdgeStatement)
    (rest rest' : List Char) :
    writeStatement (List.replicate width ' ') s ++ rest ≠ ['\x7d', '\n'] ++ rest' := by
  cases width <;> cases s <;>
    simp [writeStatement, writeNode, writeEdge, quote, List.replicate_succ]

/-! ## Whole drawings -/

def writeBody (width : Nat) (nodes : List NodeStatement) (edges : List EdgeStatement) :
    List Char :=
  (nodes.map Sum.inl ++ edges.map Sum.inr).flatMap (writeStatement (List.replicate width ' '))
    ++ ['\x7d', '\n']

theorem filterMap_getLeft? (nodes : List NodeStatement) (edges : List EdgeStatement) :
    (nodes.map Sum.inl ++ edges.map Sum.inr).filterMap Sum.getLeft? = nodes := by
  simp [List.filterMap_map, Function.comp_def]

theorem filterMap_getRight? (nodes : List NodeStatement) (edges : List EdgeStatement) :
    (nodes.map Sum.inl ++ edges.map Sum.inr).filterMap Sum.getRight? = edges := by
  simp [List.filterMap_map, Function.comp_def]

theorem writeBody_inj {width : Nat} {nodes nodes' : List NodeStatement}
    {edges edges' : List EdgeStatement} :
    writeBody width nodes edges = writeBody width nodes' edges' ↔
      nodes = nodes' ∧ edges = edges' := by
  constructor
  · intro h
    have hstatements := ((writeStatement_selfDelimiting _).upTo _
      (writeStatement_ne_closing width)).injective h
    have hnodes := congrArg (List.filterMap Sum.getLeft?) hstatements
    have hedges := congrArg (List.filterMap Sum.getRight?) hstatements
    simp only [filterMap_getLeft?, filterMap_getRight?] at hnodes hedges
    exact ⟨hnodes, hedges⟩
  · rintro ⟨rfl, rfl⟩
    rfl

/-- The lines above the first statement. -/
def heading (name rank : String) (width : Nat) : List Char :=
  ("digraph " ++ writeName name ++ " \x7b\n").toList
    ++ if rank.isEmpty then [] else
      List.replicate width ' ' ++ ("rankdir=" ++ rank ++ ";\n").toList

end Dot

/-- A drawing is its heading and a body that depends on the graph through its statements only. -/
theorem Graph.toList_toDot (g : Graph) (o : DotOptions) :
    (g.toDot o).toList =
      Dot.heading (Dot.firstNonempty o.graphName g.config.serialization.dotGraphName)
          (Dot.rankDir o g.config.serialization)
          (o.indent.getD g.config.serialization.dotIndent).toNat
        ++ Dot.writeBody (o.indent.getD g.config.serialization.dotIndent).toNat
          (g.nodes.map (Dot.nodeStatement o)) (g.edges.map (Dot.edgeStatement o)) := by
  unfold toDot Dot.lines Dot.heading Dot.writeBody
  by_cases hrank : (Dot.rankDir o g.config.serialization).isEmpty
  all_goals
    simp [hrank, List.flatMap_map, Dot.writeStatement, Dot.writeNode, Dot.writeEdge, Dot.writeLook,
      Dot.nodeStatement, Dot.edgeStatement, Dot.nodeLine, Dot.edgeLine, Function.comp_def]

/-- Two drawings with the same name, layout direction and indentation are the same text just when
the two graphs have the same statements in the same order. -/
theorem Graph.toDot_eq_iff (g h : Graph) (o p : DotOptions)
    (hname : Dot.firstNonempty o.graphName g.config.serialization.dotGraphName =
      Dot.firstNonempty p.graphName h.config.serialization.dotGraphName)
    (hrank : Dot.rankDir o g.config.serialization = Dot.rankDir p h.config.serialization)
    (hindent : o.indent.getD g.config.serialization.dotIndent =
      p.indent.getD h.config.serialization.dotIndent) :
    g.toDot o = h.toDot p ↔
      g.nodes.map (fun n => (n.id, o.nodeLabel n, o.nodeColor n)) =
          h.nodes.map (fun n => (n.id, p.nodeLabel n, p.nodeColor n)) ∧
        g.edges.map (fun e => (e.source, e.target, o.edgeLabel e, o.edgeColor e)) =
          h.edges.map (fun e => (e.source, e.target, p.edgeLabel e, p.edgeColor e)) := by
  rw [← String.toList_inj, toList_toDot, toList_toDot, hname, hrank, hindent,
    List.append_cancel_left_eq, Dot.writeBody_inj]
  rfl

/-- One node whose id spells the end of its own statement and the start of another. -/
def Graph.forged : Graph where
  nodes := [{ id := "a\" [label=\"a\", color=\"blue\"];\n  \"b", kind := .func, name := "b" }]

/-- The two nodes that the id of the one in `forged` spells. -/
def Graph.spelled : Graph where
  nodes := [{ id := "a", kind := .func }, { id := "b", kind := .func }]

def Graph.lone (kind : NodeKind) : Graph where
  nodes := [{ id := "s", kind }]

/-- The one node is not taken for the two that it spells; of two kinds drawn alike, which one a node
has does not show. -/
theorem Graph.toDot_eq_iff_forged : forged.toDot {} ≠ spelled.toDot {} ∧
    (lone .statement).toDot {} = (lone .expression).toDot {} := by
  constructor
  · intro h
    have hnodes := ((toDot_eq_iff forged spelled {} {} rfl rfl rfl).mp h).1
    exact absurd (congrArg List.length hnodes) (by decide)
  · exact (toDot_eq_iff (lone .statement) (lone .expression) {} {} rfl rfl rfl).mpr ⟨rfl, rfl⟩

end CodeAtlas
