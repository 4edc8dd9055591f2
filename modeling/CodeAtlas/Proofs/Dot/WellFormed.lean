import CodeAtlas.Dot
import CodeAtlas.Proofs.Graph.Reachable
import Mathlib.Data.List.Forall2

/-!
# Well-formed drawings

A drawing is read line by line, and a name in it is a text between quotes or a word of the drawing
language. What this asks of a drawing is said here apart from how drawings are written.

An escaped text holds no line break and no bare quote, so every statement is well formed whatever
its ids, labels and colours are. The name of the drawing is quoted unless it looks plain, and two
kinds of names look plain that are not words: keywords, and words with a line break behind them. A
drawing is well formed just when its name is of neither kind.
-/

namespace CodeAtlas

namespace Dot

/-! ## Quoted texts -/

/-- `body` is how `text` stands between quotes: each quote, backslash and line break in it is
escaped by a backslash. -/
inductive Escapes : List Char → List Char → Prop
  | nil : Escapes [] []
  | plain {c : Char} {text body : List Char} (hquote : c ≠ '"') (hslash : c ≠ '\\')
      (hbreak : c ≠ '\n') (h : Escapes text body) : Escapes (c :: text) (c :: body)
  | quote {text body : List Char} (h : Escapes text body) :
      Escapes ('"' :: text) ('\\' :: '"' :: body)
  | slash {text body : List Char} (h : Escapes text body) :
      Escapes ('\\' :: text) ('\\' :: '\\' :: body)
  | lineBreak {text body : List Char} (h : Escapes text body) :
      Escapes ('\n' :: text) ('\\' :: 'n' :: body)

/-- `written` is `text` between double quotes. -/
def Quotes (text written : String) : Prop :=
  ∃ body, Escapes text.toList body ∧ written.toList = '"' :: (body ++ ['"'])

theorem escapes_escape (text : List Char) : Escapes text (escape text) := by
  rw [escape_eq_flatMap]
  induction text with
  | nil => exact .nil
  | cons c text ih =>
    rw [List.flatMap_cons]
    by_cases hslash : c = '\\'
    · subst hslash
      exact ih.slash
    · by_cases hquote : c = '"'
      · subst hquote
        exact ih.quote
      · by_cases hbreak : c = '\n'
        · subst hbreak
          exact ih.lineBreak
        · have hplain : escapeChar c = [c] := by simp [escapeChar, hslash, hquote, hbreak]
          rw [hplain]
          exact ih.plain hquote hslash hbreak

theorem Escapes.eq_escape {text body : List Char} (h : Escapes text body) :
    body = escape text := by
  rw [escape_eq_flatMap]
  induction h with
  | nil => rfl
  | plain hquote hslash hbreak _ ih => simp [escapeChar, hquote, hslash, hbreak, ih]
  | quote _ ih => rw [ih]; rfl
  | slash _ ih => rw [ih]; rfl
  | lineBreak _ ih => rw [ih]; rfl

theorem Escapes.not_mem {text body : List Char} (h : Escapes text body) : '\n' ∉ body := by
  induction h with
  | nil => exact List.not_mem_nil
  | plain _ _ hbreak _ ih => simp [ih, hbreak.symm]
  | quote _ ih | slash _ ih | lineBreak _ ih => simp [ih]

/-- There is one way to quote a text. -/
theorem quotes_iff {text written : String} : Quotes text written ↔ written = quote text := by
  constructor
  · rintro ⟨body, hbody, hwritten⟩
    rw [← String.toList_inj, hwritten, hbody.eq_escape, quote, String.toList_ofList]
  · rintro rfl
    exact ⟨_, escapes_escape _, String.toList_ofList⟩

theorem not_mem_quote (text : String) : '\n' ∉ (quote text).toList := by
  obtain ⟨body, hbody, hwritten⟩ := quotes_iff.mpr (rfl : quote text = quote text)
  simp [hwritten, hbody.not_mem]

/-! ## Names -/

/-- The words that have a meaning of their own in the drawing language. -/
def keywords : List String :=
  ["node", "edge", "graph", "digraph", "subgraph", "strict"]

/-- A keyword, in upper or lower case. -/
def IsKeyword (word : String) : Prop :=
  String.ofList (word.toList.map Char.toLower) ∈ keywords

instance (word : String) : Decidable (IsKeyword word) :=
  inferInstanceAs (Decidable (_ ∈ keywords))

/-- A word of letters, digits and underscores that does not start with a digit. -/
structure IsPlain (word : String) : Prop where
  chars : ∀ c ∈ word.toList, c.isAlphanum = true ∨ c = '_'
  start : ∃ c ∈ word.toList.head?, ¬c.isDigit = true

/-- `written` is an identifier that stands for `name`. -/
def IsId (name written : String) : Prop :=
  Quotes name written ∨ written = name ∧ IsPlain name ∧ ¬IsKeyword name

/-- A plain word with a line break behind it. -/
def IsBroken (name : String) : Prop :=
  ∃ word, IsPlain word ∧ name = word ++ "\n"

theorem isNameStart_iff {c : Char} :
    isNameStart c = true ↔ (c.isAlphanum = true ∨ c = '_') ∧ ¬c.isDigit = true := by
  have hdigit : c.isAlpha = true → ¬c.isDigit = true := by
    unfold Char.isAlpha Char.isUpper Char.isLower Char.isDigit
    grind
  have hunderscore : c = '_' → ¬c.isDigit = true := by
    rintro rfl
    decide
  simp only [isNameStart, Char.isAlphanum, Bool.or_eq_true, beq_iff_eq]
  tauto

theorem isPlain_iff {word : String} :
    IsPlain word ↔ ∃ c rest, word.toList = c :: rest ∧ isNameStart c = true ∧
      ∀ d ∈ rest, isNameRest d = true := by
  have hrest : ∀ d, isNameRest d = true ↔ d.isAlphanum = true ∨ d = '_' := by
    intro d
    rw [isNameRest, Bool.or_eq_true, beq_iff_eq]
  simp only [hrest, isNameStart_iff]
  constructor
  · rintro ⟨hchars, c, hhead, hdigit⟩
    obtain ⟨rest, hword⟩ := List.head?_eq_some_iff.mp hhead
    rw [hword] at hchars
    obtain ⟨hc, hchars⟩ := List.forall_mem_cons.mp hchars
    exact ⟨c, rest, hword, ⟨hc, hdigit⟩, hchars⟩
  · rintro ⟨c, rest, hword, ⟨hc, hdigit⟩, hchars⟩
    refine ⟨?_, c, ?_, hdigit⟩
    · rw [hword]
      exact List.forall_mem_cons.mpr ⟨hc, hchars⟩
    · rw [hword]
      rfl

theorem isPlainRest_cons (c : Char) (rest : List Char) :
    isPlainRest (c :: rest) = true ↔
      c = '\n' ∧ rest = [] ∨ isNameRest c = true ∧ isPlainRest rest = true := by
  by_cases hlast : c = '\n' ∧ rest = []
  · obtain ⟨rfl, rfl⟩ := hlast
    simp [isPlainRest]
  · rw [isPlainRest.eq_3 c rest fun hc hrest => hlast ⟨hc, hrest⟩, Bool.and_eq_true,
      or_iff_right hlast]

theorem isPlainRest_iff {cs : List Char} :
    isPlainRest cs = true ↔ (∀ c ∈ cs, isNameRest c = true) ∨
      ∃ front, cs = front ++ ['\n'] ∧ ∀ c ∈ front, isNameRest c = true := by
  induction cs with
  | nil => simp [isPlainRest]
  | cons c cs ih =>
    rw [isPlainRest_cons, ih]
    constructor
    · rintro (⟨rfl, rfl⟩ | ⟨hc, hall | ⟨front, rfl, hfront⟩⟩)
      · exact Or.inr ⟨[], rfl, List.forall_mem_nil _⟩
      · exact Or.inl (List.forall_mem_cons.mpr ⟨hc, hall⟩)
      · exact Or.inr ⟨c :: front, rfl, List.forall_mem_cons.mpr ⟨hc, hfront⟩⟩
    · rintro (hall | ⟨front, heq, hfront⟩)
      · obtain ⟨hc, hall⟩ := List.forall_mem_cons.mp hall
        exact Or.inr ⟨hc, Or.inl hall⟩
      · cases front with
        | nil =>
          obtain ⟨rfl, rfl⟩ := List.cons.inj heq
          exact Or.inl ⟨rfl, rfl⟩
        | cons d front =>
          obtain ⟨rfl, rfl⟩ := List.cons.inj heq
          obtain ⟨hc, hfront⟩ := List.forall_mem_cons.mp hfront
          exact Or.inr ⟨hc, Or.inr ⟨front, rfl, hfront⟩⟩

/-- What is left unquoted: plain words, and plain words with a line break behind them. -/
theorem isPlainName_iff {name : String} :
    isPlainName name.toList = true ↔ IsPlain name ∨ IsBroken name := by
  constructor
  · intro h
    obtain ⟨c, rest, hname⟩ : ∃ c rest, name.toList = c :: rest := by
      cases hname : name.toList with
      | nil => simp [hname, isPlainName] at h
      | cons c rest => exact ⟨c, rest, rfl⟩
    rw [hname, isPlainName, Bool.and_eq_true, isPlainRest_iff] at h
    obtain ⟨hc, hall | ⟨front, rfl, hfront⟩⟩ := h
    · exact Or.inl (isPlain_iff.mpr ⟨c, rest, hname, hc, hall⟩)
    · refine Or.inr ⟨String.ofList (c :: front), ?_, ?_⟩
      · exact isPlain_iff.mpr ⟨c, front, String.toList_ofList, hc, hfront⟩
      · rw [← String.toList_inj, hname, String.toList_append, String.toList_ofList]
        rfl
  · rintro (hplain | ⟨word, hword, rfl⟩)
    · obtain ⟨c, rest, hname, hc, hall⟩ := isPlain_iff.mp hplain
      rw [hname, isPlainName, hc, isPlainRest_iff.mpr (Or.inl hall), Bool.and_self]
    · obtain ⟨c, rest, hname, hc, hall⟩ := isPlain_iff.mp hword
      have hrest : isPlainRest (rest ++ "\n".toList) = true :=
        isPlainRest_iff.mpr (Or.inr ⟨rest, rfl, hall⟩)
      rw [String.toList_append, hname, List.cons_append, isPlainName, hc, hrest, Bool.and_self]

theorem IsPlain.not_mem {word : String} (h : IsPlain word) {c : Char}
    (hc : ¬(c.isAlphanum = true ∨ c = '_')) : c ∉ word.toList :=
  fun hmem => hc (h.chars c hmem)

theorem isAlpha_of_isLower_toLower {c : Char} (h : c.toLower.isLower = true) :
    c.isAlpha = true := by
  show (c.isUpper || c.isLower) = true
  by_cases hupper : c.isUpper = true
  · rw [hupper, Bool.true_or]
  · have hsame : c.toLower = c := by
      unfold Char.isUpper at hupper
      unfold Char.toLower
      grind
    rw [← hsame, h, Bool.or_true]

theorem isPlain_of_isKeyword {word : String} (h : IsKeyword word) : IsPlain word := by
  have hlower : ∀ keyword ∈ keywords,
      keyword.toList ≠ [] ∧ keyword.toList.all Char.isLower = true := by
    decide
  obtain ⟨hne, hchars⟩ := hlower _ h
  rw [String.toList_ofList] at hne hchars
  rw [List.all_eq_true, List.forall_mem_map] at hchars
  obtain ⟨c, rest, hword⟩ := List.exists_cons_of_ne_nil (mt List.map_eq_nil_iff.mpr hne)
  rw [hword] at hchars
  obtain ⟨hc, hrest⟩ := List.forall_mem_cons.mp hchars
  refine isPlain_iff.mpr ⟨c, rest, hword, ?_, fun d hd => ?_⟩
  · rw [isNameStart, isAlpha_of_isLower_toLower hc, Bool.true_or]
  · rw [isNameRest, Char.isAlphanum, isAlpha_of_isLower_toLower (hrest d hd), Bool.true_or,
      Bool.true_or]

/-- A name that is not broken is written as an identifier unless it is a keyword. -/
theorem isId_writeName_iff {name : String} (hbroken : ¬IsBroken name) :
    IsId name (writeName name) ↔ ¬IsKeyword name := by
  unfold writeName
  split
  · rename_i hplain
    have hplain := (isPlainName_iff.mp hplain).resolve_right hbroken
    have hunquoted : ¬Quotes name name := by
      rintro ⟨body, -, hname⟩
      refine hplain.not_mem (by decide : ¬('"'.isAlphanum = true ∨ '"' = '_')) ?_
      rw [hname]
      exact List.mem_cons_self
    exact (or_iff_right hunquoted).trans ⟨fun h => h.2.2, fun h => ⟨rfl, hplain, h⟩⟩
  · rename_i hquoted
    refine iff_of_true (Or.inl (quotes_iff.mpr rfl)) fun hkeyword => hquoted ?_
    exact isPlainName_iff.mpr (Or.inl (isPlain_of_isKeyword hkeyword))

theorem not_mem_writeName {name : String} (hbroken : ¬IsBroken name) :
    '\n' ∉ (writeName name).toList := by
  unfold writeName
  split
  · rename_i hplain
    exact ((isPlainName_iff.mp hplain).resolve_right hbroken).not_mem (by decide)
  · exact not_mem_quote name

/-! ## Lines -/

/-- `text` consists of `lines`, each of which is ended by a line break and holds no other. -/
structure HasLines (text : String) (lines : List String) : Prop where
  text_eq : text = String.join (lines.map (· ++ "\n"))
  single : ∀ line ∈ lines, '\n' ∉ line.toList

theorem line_inj {line line' rest rest' : List Char} (hline : '\n' ∉ line)
    (hline' : '\n' ∉ line') (h : line ++ '\n' :: rest = line' ++ '\n' :: rest') :
    line = line' ∧ rest = rest' := by
  rcases List.append_eq_append_iff.mp h with
    ⟨_ | ⟨c, more⟩, rfl, hrest⟩ | ⟨_ | ⟨c, more⟩, rfl, hrest⟩
  · simpa using hrest
  · obtain ⟨rfl, -⟩ := List.cons.inj hrest
    simp at hline'
  · simpa using hrest.symm
  · obtain ⟨rfl, -⟩ := List.cons.inj hrest
    simp at hline

theorem HasLines.cons_inv {text line : String} {lines : List String}
    (h : HasLines text (line :: lines)) :
    '\n' ∉ line.toList ∧ ∃ rest, text.toList = line.toList ++ '\n' :: rest.toList ∧
      HasLines rest lines := by
  obtain ⟨hline, hlines⟩ := List.forall_mem_cons.mp h.single
  refine ⟨hline, String.join (lines.map (· ++ "\n")), ?_, rfl, hlines⟩
  rw [h.text_eq]
  simp

/-- The lines of a text can be told from the text. -/
theorem HasLines.unique {text : String} {lines lines' : List String} (h : HasLines text lines)
    (h' : HasLines text lines') : lines = lines' := by
  induction lines generalizing text lines' with
  | nil =>
    cases lines' with
    | nil => rfl
    | cons line' lines' =>
      obtain ⟨-, rest, htext, -⟩ := h'.cons_inv
      rw [h.text_eq] at htext
      simp at htext
  | cons line lines ih =>
    obtain ⟨hline, rest, htext, hrest⟩ := h.cons_inv
    cases lines' with
    | nil =>
      rw [h'.text_eq] at htext
      simp at htext
    | cons line' lines' =>
      obtain ⟨hline', rest', htext', hrest'⟩ := h'.cons_inv
      obtain ⟨heq, hresteq⟩ := line_inj hline hline' (htext.symm.trans htext')
      obtain rfl := String.toList_inj.mp hresteq
      rw [String.toList_inj.mp heq, ih hrest hrest']

/-! ## Statements -/

/-- The statement of a node: its id, then its label and colour in brackets, all of them quoted. -/
def IsNodeLine (o : DotOptions) (pad : String) (n : Node) (line : String) : Prop :=
  ∃ id label color,
    Quotes n.id id ∧ Quotes (o.nodeLabel n) label ∧ Quotes (o.nodeColor n) color ∧
      line = pad ++ id ++ " [label=" ++ label ++ ", color=" ++ color ++ "];"

/-- The statement of an edge: its ends, then its label and colour in brackets, all of them
quoted. -/
def IsEdgeLine (o : DotOptions) (pad : String) (e : Edge) (line : String) : Prop :=
  ∃ source target label color,
    Quotes e.source source ∧ Quotes e.target target ∧ Quotes (o.edgeLabel e) label ∧
      Quotes (o.edgeColor e) color ∧
      line = pad ++ source ++ " -> " ++ target ++ " [label=" ++ label ++ ", color=" ++ color ++ "];"

section Statements

variable {o : DotOptions} {pad line : String}

theorem isNodeLine_iff {n : Node} : IsNodeLine o pad n line ↔ line = nodeLine o pad n := by
  simp only [IsNodeLine, quotes_iff, exists_and_left, exists_eq_left, nodeLine, attributes,
    String.append_assoc]

theorem isEdgeLine_iff {e : Edge} : IsEdgeLine o pad e line ↔ line = edgeLine o pad e := by
  simp only [IsEdgeLine, quotes_iff, exists_and_left, exists_eq_left, edgeLine, attributes,
    String.append_assoc]

theorem not_mem_nodeLine (hpad : '\n' ∉ pad.toList) (n : Node) :
    '\n' ∉ (nodeLine o pad n).toList := by
  simp [nodeLine, attributes, hpad, not_mem_quote]

theorem not_mem_edgeLine (hpad : '\n' ∉ pad.toList) (e : Edge) :
    '\n' ∉ (edgeLine o pad e).toList := by
  simp [edgeLine, attributes, hpad, not_mem_quote]

theorem forall₂_iff_eq_map {α : Type} {R : α → String → Prop} (write : α → String)
    (h : ∀ a line, R a line ↔ line = write a) {as : List α} {lines : List String} :
    List.Forall₂ R as lines ↔ lines = as.map write := by
  have hR : R = fun a line => write a = line := by
    funext a line
    exact propext ((h a line).trans eq_comm)
  rw [hR, ← List.forall₂_map_left_iff, List.forall₂_eq_eq_eq, eq_comm]

end Statements

/-! ## Whole drawings -/

def drawnName (g : Graph) (o : DotOptions) : String :=
  firstNonempty o.graphName g.config.serialization.dotGraphName

/-- What the lines between the braces are indented by. -/
def drawnPad (g : Graph) (o : DotOptions) : String :=
  String.ofList (List.replicate (o.indent.getD g.config.serialization.dotIndent).toNat ' ')

def headerLine (id : String) : String :=
  "digraph " ++ id ++ " \x7b"

def bodyLines (pad : String) (rank : Option RankDir) (nodes edges : List String) : List String :=
  (rank.map fun r => pad ++ "rankdir=" ++ Spelled.text r ++ ";").toList ++ nodes ++ edges
    ++ ["\x7d"]

/-- `text` is a drawing of `g`: a header with an identifier for the name, the layout direction if
there is one, one statement for each node and then one for each edge, and the closing brace, each on
a line of its own. -/
def WellFormed (g : Graph) (o : DotOptions) (rank : Option RankDir) (text : String) : Prop :=
  ∃ id nodes edges,
    IsId (drawnName g o) id ∧
    List.Forall₂ (IsNodeLine o (drawnPad g o)) g.nodes nodes ∧
    List.Forall₂ (IsEdgeLine o (drawnPad g o)) g.edges edges ∧
    HasLines text (headerLine id :: bodyLines (drawnPad g o) rank nodes edges)

section Drawings

variable {g : Graph} {o : DotOptions} {direction rank : Option RankDir} {text : String}

def writtenBody (g : Graph) (o : DotOptions) (rank : Option RankDir) : List String :=
  bodyLines (drawnPad g o) rank (g.nodes.map (nodeLine o (drawnPad g o)))
    (g.edges.map (edgeLine o (drawnPad g o)))

theorem wellFormed_iff :
    WellFormed g o rank text ↔ ∃ id, IsId (drawnName g o) id ∧
      HasLines text (headerLine id :: writtenBody g o rank) := by
  have hnodes : ∀ nodes, List.Forall₂ (IsNodeLine o (drawnPad g o)) g.nodes nodes ↔
      nodes = g.nodes.map (nodeLine o (drawnPad g o)) :=
    fun _ => forall₂_iff_eq_map (nodeLine o _) fun _ _ => isNodeLine_iff
  have hedges : ∀ edges, List.Forall₂ (IsEdgeLine o (drawnPad g o)) g.edges edges ↔
      edges = g.edges.map (edgeLine o (drawnPad g o)) :=
    fun _ => forall₂_iff_eq_map (edgeLine o _) fun _ _ => isEdgeLine_iff
  simp only [WellFormed, hnodes, hedges, exists_and_left, exists_eq_left, writtenBody]

theorem length_writtenBody (g : Graph) (o : DotOptions) (rank : Option RankDir) :
    (writtenBody g o rank).length =
      rank.toList.length + g.nodes.length + g.edges.length + 1 := by
  simp only [writtenBody, bodyLines, List.length_append, List.length_map, List.length_singleton]
  cases rank <;> rfl

theorem not_mem_writtenBody (g : Graph) (o : DotOptions) (rank : Option RankDir) :
    ∀ line ∈ writtenBody g o rank, '\n' ∉ line.toList := by
  have hpad : '\n' ∉ (drawnPad g o).toList := by simp [drawnPad]
  have htext : ∀ r : RankDir, '\n' ∉ (Spelled.text r).toList := by
    intro r
    cases r <;> decide
  have hrank : ∀ r : RankDir,
      '\n' ∉ (drawnPad g o ++ "rankdir=" ++ Spelled.text r ++ ";").toList := by
    intro r
    simp [hpad, htext r]
  intro line hline
  simp only [writtenBody, bodyLines, List.mem_append, List.mem_singleton, Option.mem_toList,
    Option.map_eq_some_iff, List.mem_map] at hline
  rcases hline with ((⟨r, -, rfl⟩ | ⟨n, -, rfl⟩) | ⟨e, -, rfl⟩) | rfl
  · exact hrank r
  · exact not_mem_nodeLine hpad n
  · exact not_mem_edgeLine hpad e
  · decide

theorem isEmpty_text (r : RankDir) : (Spelled.text r).isEmpty = false := by
  cases r <;> rfl

/-- The layout direction in force is the one asked for or the one in the settings. -/
theorem rankDir_eq (hrank : o.rankDir = direction.map Spelled.text) (settings : ExportSettings) :
    rankDir o settings = ((direction <|> settings.dotRankDir).map Spelled.text).getD "" := by
  unfold rankDir firstNonempty
  cases direction with
  | none => rw [hrank]; rfl
  | some r => rw [hrank]; simp [isEmpty_text r]

theorem lines_eq (hrank : o.rankDir = direction.map Spelled.text) :
    lines g o = headerLine (writeName (drawnName g o)) ::
      writtenBody g o (direction <|> g.config.serialization.dotRankDir) := by
  simp only [lines, rankDir_eq hrank]
  cases direction <|> g.config.serialization.dotRankDir with
  | none => rfl
  | some r =>
    rw [Option.map_some, Option.getD_some, isEmpty_text r]
    rfl

/-- A name that is not broken leaves the header on one line. -/
theorem hasLines_toDot (hrank : o.rankDir = direction.map Spelled.text)
    (hbroken : ¬IsBroken (drawnName g o)) :
    HasLines (g.toDot o) (headerLine (writeName (drawnName g o)) ::
      writtenBody g o (direction <|> g.config.serialization.dotRankDir)) := by
  refine ⟨by rw [Graph.toDot, lines_eq hrank], ?_⟩
  refine List.forall_mem_cons.mpr ⟨?_, not_mem_writtenBody g o _⟩
  simp [headerLine, not_mem_writeName hbroken]

/-- A broken name breaks the header after its word. -/
theorem hasLines_toDot_of_broken (hrank : o.rankDir = direction.map Spelled.text) {word : String}
    (hword : IsPlain word) (hname : drawnName g o = word ++ "\n") :
    HasLines (g.toDot o) (("digraph " ++ word) :: " \x7b" ::
      writtenBody g o (direction <|> g.config.serialization.dotRankDir)) := by
  have hwritten : writeName (drawnName g o) = word ++ "\n" := by
    rw [writeName, if_pos (isPlainName_iff.mpr (Or.inr ⟨word, hword, hname⟩)), hname]
  constructor
  · rw [Graph.toDot, lines_eq hrank, hwritten]
    simp [headerLine, ← String.toList_inj]
  · refine List.forall_mem_cons.mpr ⟨?_, List.forall_mem_cons.mpr ⟨?_, not_mem_writtenBody g o _⟩⟩
    · have hbreak : '\n' ∉ word.toList := hword.not_mem (by decide)
      simp [hbreak]
    · decide

theorem headerLine_inj {id id' : String} : headerLine id = headerLine id' ↔ id = id' := by
  simp [headerLine]

theorem wellFormed_toDot_iff (direction : Option RankDir)
    (hrank : o.rankDir = direction.map Spelled.text) :
    WellFormed g o (direction <|> g.config.serialization.dotRankDir) (g.toDot o) ↔
      ¬IsKeyword (drawnName g o) ∧ ¬IsBroken (drawnName g o) := by
  rw [wellFormed_iff]
  constructor
  · rintro ⟨id, hid, hlines⟩
    have hbroken : ¬IsBroken (drawnName g o) := by
      rintro ⟨word, hword, hname⟩
      have hheader := (List.cons.inj (hlines.unique (hasLines_toDot_of_broken hrank hword hname))).1
      have htail : id ++ " \x7b" = word := by
        simpa [headerLine, String.append_assoc] using hheader
      refine hword.not_mem (by decide : ¬('\x7b'.isAlphanum = true ∨ '\x7b' = '_')) ?_
      simp [← htail]
    have hheader := (List.cons.inj (hlines.unique (hasLines_toDot hrank hbroken))).1
    rw [headerLine_inj.mp hheader] at hid
    exact ⟨(isId_writeName_iff hbroken).mp hid, hbroken⟩
  · rintro ⟨hkeyword, hbroken⟩
    exact ⟨_, (isId_writeName_iff hbroken).mpr hkeyword, hasLines_toDot hrank hbroken⟩

end Drawings

end Dot

namespace Graph

/-- **Well-formed drawings.** Whatever its ids, labels, colours and indentation, a drawing is well
formed just when its name is no keyword and no plain word with a line break behind it. Of the latter
the header takes one line more than it should; every other drawing has two lines for the braces, one
for the layout direction if there is one, and one for each node and each edge. -/
theorem toDot_wellFormed (g : Graph) (o : DotOptions) (direction : Option RankDir)
    (hrank : o.rankDir = direction.map Spelled.text) :
    (Dot.WellFormed g o (direction <|> g.config.serialization.dotRankDir) (g.toDot o) ↔
      ¬Dot.IsKeyword (Dot.drawnName g o) ∧ ¬Dot.IsBroken (Dot.drawnName g o)) ∧
    ∃ lines, Dot.HasLines (g.toDot o) lines ∧
      (¬Dot.IsBroken (Dot.drawnName g o) → lines.length =
        2 + (direction <|> g.config.serialization.dotRankDir).toList.length + g.nodes.length
          + g.edges.length) ∧
      (Dot.IsBroken (Dot.drawnName g o) → lines.length =
        3 + (direction <|> g.config.serialization.dotRankDir).toList.length + g.nodes.length
          + g.edges.length) := by
  refine ⟨Dot.wellFormed_toDot_iff direction hrank, ?_⟩
  have hlength := Dot.length_writtenBody g o (direction <|> g.config.serialization.dotRankDir)
  by_cases hbroken : Dot.IsBroken (Dot.drawnName g o)
  · obtain ⟨word, hword, hname⟩ := hbroken
    refine ⟨_, Dot.hasLines_toDot_of_broken hrank hword hname, ?_, fun _ => ?_⟩
    · exact fun hnot => absurd ⟨word, hword, hname⟩ hnot
    · simp only [List.length_cons]
      omega
  · refine ⟨_, Dot.hasLines_toDot hrank hbroken, fun _ => ?_, fun h => absurd h hbroken⟩
    rw [List.length_cons]
    omega

/-- Labels that spell the end of their statement, and a name with a blank and a line break in it. -/
def closingLabels : DotOptions where
  nodeLabel n := n.id ++ "\"];\n"
  graphName := some "my graph\n"
  rankDir := some "LR"
  indent := some (-1)

/-- What `closingLabels` asks for is drawn on the lines there should be, unless the name is a
keyword. -/
theorem toDot_wellFormed_closingLabels :
    closingLabels.rankDir = (some RankDir.leftRight).map Spelled.text ∧
      Dot.WellFormed tangle closingLabels (some .leftRight) (tangle.toDot closingLabels) ∧
      (∃ lines, Dot.HasLines (tangle.toDot closingLabels) lines ∧ lines.length = 2 + 1 + 2 + 3) ∧
      ¬Dot.WellFormed tangle { closingLabels with graphName := some "Graph" } (some .leftRight)
        (tangle.toDot { closingLabels with graphName := some "Graph" }) := by
  have hquoted : ¬Dot.IsBroken (Dot.drawnName tangle closingLabels) := by
    intro hbroken
    exact absurd (Dot.isPlainName_iff.mpr (Or.inr hbroken)) (by decide)
  obtain ⟨hiff, lines, hlines, hcount, -⟩ :=
    toDot_wellFormed tangle closingLabels (some .leftRight) rfl
  refine ⟨rfl, hiff.mpr ⟨by decide, hquoted⟩, ⟨lines, hlines, hcount hquoted⟩, fun h => ?_⟩
  exact ((toDot_wellFormed tangle { closingLabels with graphName := some "Graph" } (some .leftRight)
    rfl).1.mp h).1 (by decide)

/-- Not every drawing of a reachable graph is well formed: `graph` stands in the header as a
keyword, and the line break behind `x` breaks the header. -/
theorem toDot_misread :
    (empty {} []).Reachable ∧
      (empty {} []).toDot { graphName := some "graph" } = "digraph graph \x7b\n\x7d\n" ∧
      ¬Dot.WellFormed (empty {} []) { graphName := some "graph" } none
        ((empty {} []).toDot { graphName := some "graph" }) ∧
      (empty {} []).toDot { graphName := some "x\n" } = "digraph x\n \x7b\n\x7d\n" ∧
      ¬Dot.WellFormed (empty {} []) { graphName := some "x\n" } none
        ((empty {} []).toDot { graphName := some "x\n" }) := by
  have hplain : Dot.IsPlain "x" :=
    Dot.isPlain_iff.mpr ⟨'x', [], rfl, rfl, List.forall_mem_nil _⟩
  refine ⟨Reachable.empty {} [], rfl, fun h => ?_, rfl, fun h => ?_⟩
  · exact ((Dot.wellFormed_toDot_iff none rfl).mp h).1 (by decide)
  · exact ((Dot.wellFormed_toDot_iff none rfl).mp h).2 ⟨"x", hplain, rfl⟩

end Graph

end CodeAtlas
