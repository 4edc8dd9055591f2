import CodeAtlas.Config.Files
import CodeAtlas.Proofs.Config.Entries

/-!
# Files name each field once

In what is read from a file, no object names a field twice, at any depth: a format that repeats a
name either is refused or lets the last value count. This is what makes it right to speak of the
value a file gives to a field.
-/

namespace CodeAtlas

/-! ## Values -/

/-- Every object in a value names each of its fields once. -/
inductive Value.NamesOnce : Value → Prop
  | null : NamesOnce .null
  | bool (b : Bool) : NamesOnce (.bool b)
  | int (i : Int) : NamesOnce (.int i)
  | float (x : Float) : NamesOnce (.float x)
  | str (s : String) : NamesOnce (.str s)
  | list {items : List Value} : (∀ v ∈ items, NamesOnce v) → NamesOnce (.list items)
  | object {fields : Fields} :
      fields.keys.Nodup → (∀ p ∈ fields, NamesOnce p.2) → NamesOnce (.object fields)

namespace Value.NamesOnce

theorem emptyList : NamesOnce (.list []) :=
  .list fun _ hv => nomatch hv

theorem of_list {items : List Value} (h : NamesOnce (.list items)) : ∀ v ∈ items, NamesOnce v := by
  cases h with
  | list hitems => exact hitems

theorem append_singleton {items : List Value} {v : Value} (h : ∀ w ∈ items, NamesOnce w)
    (hv : NamesOnce v) : NamesOnce (.list (items ++ [v])) := by
  refine .list fun w hw => ?_
  rcases List.mem_append.mp hw with hw | hw
  · exact h w hw
  · exact List.mem_singleton.mp hw ▸ hv

end Value.NamesOnce

namespace Fields

/-- Each field is named once, and so in every object below. -/
structure NamesOnce (fields : Fields) : Prop where
  nodup : fields.keys.Nodup
  values : ∀ p ∈ fields, p.2.NamesOnce

variable {fields : Fields} {key : String} {v : Value}

theorem namesOnce_nil : NamesOnce [] :=
  ⟨List.nodup_nil, fun _ hp => nomatch hp⟩

theorem NamesOnce.object (h : NamesOnce fields) : (Value.object fields).NamesOnce :=
  .object h.nodup h.values

theorem NamesOnce.of_object (h : (Value.object fields).NamesOnce) : NamesOnce fields := by
  cases h with
  | object hnodup hvalues => exact ⟨hnodup, hvalues⟩

theorem NamesOnce.get? (h : NamesOnce fields) (hget : Assoc.get? fields key = some v) :
    v.NamesOnce :=
  h.values _ (Assoc.mem_of_get? hget)

theorem NamesOnce.set (h : NamesOnce fields) (hv : v.NamesOnce) :
    NamesOnce (Assoc.set fields key v) := by
  refine ⟨Assoc.nodup_keys_set h.nodup key v, fun p hp => ?_⟩
  rcases Assoc.eq_or_mem_of_mem_set hp with rfl | hp
  · exact hv
  · exact h.values p hp

theorem namesOnce_ofEntries {entries : List (String × Value)}
    (h : ∀ p ∈ entries, p.2.NamesOnce) : NamesOnce (Assoc.ofEntries entries) :=
  Assoc.ofEntries_induction namesOnce_nil fun _ e he hm => hm.set (h e he)

end Fields

open Value (NamesOnce)

/-! ## JSON -/

namespace Json

theorem namesOnce_of_findSome? {words : List (List Char × Value)} {text : List Char}
    {found : Value × List Char} (hwords : ∀ w ∈ words, w.2.NamesOnce)
    (h : (words.findSome? fun (word, v) => (afterWord? word text).map fun rest => (v, rest)) =
      some found) : found.1.NamesOnce := by
  obtain ⟨w, hw, hfound⟩ := List.exists_of_findSome?_eq_some h
  obtain ⟨rest, -, rfl⟩ := Option.map_eq_some_iff.mp hfound
  exact hwords w hw

theorem namesOnce_of_readWord? {text : List Char} {found : Value × List Char}
    (h : readWord? text = some found) : found.1.NamesOnce := by
  refine namesOnce_of_findSome? ?_ h
  simp [words, NamesOnce.null, NamesOnce.bool, NamesOnce.float]

theorem namesOnce_of_readMagnitude? {negative : Bool} {text : List Char}
    {found : Value × List Char} (h : readMagnitude? negative text = some found) :
    found.1.NamesOnce := by
  unfold readMagnitude? at h
  split at h
  · cases h
  · dsimp only at h
    split at h
    · obtain rfl := Option.some.inj h
      exact .int _
    · obtain rfl := Option.some.inj h
      exact .float _

theorem namesOnce_of_readNumber? {text : List Char} {found : Value × List Char}
    (h : readNumber? text = some found) : found.1.NamesOnce := by
  unfold readNumber? at h
  split at h
  · exact namesOnce_of_readMagnitude? h
  · exact namesOnce_of_readMagnitude? h

theorem namesOnce_of_map_str {r : Reading String} {found : Value × List Char}
    (h : (r.map fun (s, rest) => (Value.str s, rest)) = .ok found) : found.1.NamesOnce := by
  cases r with
  | error e => cases h
  | ok p =>
    obtain rfl := Except.ok.inj h
    exact .str p.1

/-- With this much fuel the three readers give values that name their fields once. -/
structure ReadsOnce (fuel : Nat) : Prop where
  value : ∀ {text found}, readValue fuel text = .ok found → found.1.NamesOnce
  items : ∀ read {text found}, (∀ v ∈ read, v.NamesOnce) →
    readItems fuel read text = .ok found → found.1.NamesOnce
  fields : ∀ read {text found}, (∀ p ∈ read, p.2.NamesOnce) →
    readFields fuel read text = .ok found → found.1.NamesOnce

namespace ReadsOnce

variable {fuel : Nat} {text : List Char} {found : Value × List Char}

theorem readValue_succ (hreads : ReadsOnce fuel) (h : readValue (fuel + 1) text = .ok found) :
    found.1.NamesOnce := by
  unfold readValue at h
  split at h
  · exact namesOnce_of_map_str h
  · split at h
    · obtain rfl := Except.ok.inj h
      exact Fields.namesOnce_nil.object
    · exact hreads.fields [] (fun _ hp => nomatch hp) h
  · split at h
    · obtain rfl := Except.ok.inj h
      exact .emptyList
    · exact hreads.items [] (fun _ hv => nomatch hv) h
  · split at h
    · rename_i hword
      obtain rfl := Except.ok.inj h
      exact namesOnce_of_readWord? hword
    · split at h
      · rename_i hnumber
        obtain rfl := Except.ok.inj h
        exact namesOnce_of_readNumber? hnumber
      · cases h

theorem readItems_succ (hreads : ReadsOnce fuel) {read : List Value}
    (hread : ∀ v ∈ read, v.NamesOnce) (h : readItems (fuel + 1) read text = .ok found) :
    found.1.NamesOnce := by
  unfold readItems at h
  split at h
  · cases h
  · rename_i v rest hv
    have hread' : ∀ w ∈ v :: read, w.NamesOnce :=
      List.forall_mem_cons.mpr ⟨hreads.value hv, hread⟩
    split at h
    · obtain rfl := Except.ok.inj h
      exact .list fun w hw => hread' w (List.mem_reverse.mp hw)
    · exact hreads.items _ hread' h
    · cases h

theorem readFields_succ (hreads : ReadsOnce fuel) {read : List (String × Value)}
    (hread : ∀ p ∈ read, p.2.NamesOnce) (h : readFields (fuel + 1) read text = .ok found) :
    found.1.NamesOnce := by
  unfold readFields at h
  split at h
  · split at h
    · cases h
    · rename_i key rest hkey
      split at h
      · split at h
        · cases h
        · rename_i v rest hv
          have hread' : ∀ p ∈ (key, v) :: read, p.2.NamesOnce :=
            List.forall_mem_cons.mpr ⟨hreads.value hv, hread⟩
          split at h
          · obtain rfl := Except.ok.inj h
            exact (Fields.namesOnce_ofEntries fun p hp =>
              hread' p (List.mem_reverse.mp hp)).object
          · exact hreads.fields _ hread' h
          · cases h
      · cases h
  · cases h

end ReadsOnce

/-- The readers call each other with one unit of fuel less. -/
theorem namesOnce_of_reading (fuel : Nat) : ReadsOnce fuel := by
  induction fuel with
  | zero =>
    refine ⟨fun h => ?_, fun _ _ _ _ h => ?_, fun _ _ _ _ h => ?_⟩
    · cases h
    · cases h
    · cases h
  | succ fuel ih =>
    exact ⟨ih.readValue_succ, fun _ => ih.readItems_succ, fun _ => ih.readFields_succ⟩

theorem namesOnce_of_readWhole {text : List Char} {v : Value} (h : readWhole text = .ok v) :
    v.NamesOnce := by
  unfold readWhole at h
  split at h
  · cases h
  · split at h
    · cases h
    · rename_i hv
      split at h
      · obtain rfl := Except.ok.inj h
        exact (namesOnce_of_reading _).value hv
      · cases h

theorem namesOnce_of_parse {text : String} {v : Value} (h : parse text = .ok v) :
    v.NamesOnce := by
  unfold parse at h
  dsimp only at h
  split at h
  · rename_i hwhole
    obtain rfl := Except.ok.inj h
    exact namesOnce_of_readWhole hwhole
  · cases h

end Json

/-! ## Dates and times -/

theorem Moment.namesOnce_toValue (m : Moment) : m.toValue.NamesOnce := by
  cases m with
  | date d =>
    refine .list ?_
    simp [Date.numbers, NamesOnce.int]
  | time t =>
    refine .list ?_
    simp [TimeOfDay.numbers, NamesOnce.int]
  | dateTime d t offset =>
    refine .list ?_
    cases offset <;> simp [Date.numbers, TimeOfDay.numbers, NamesOnce.int, NamesOnce.null]

/-! ## TOML -/

namespace Toml

theorem namesOnce_updateAt {f : Fields → Option Fields}
    (hf : ∀ fields fields', Fields.NamesOnce fields → f fields = some fields' →
      Fields.NamesOnce fields') (key : Key) {fields fields' : Fields}
    (hfields : Fields.NamesOnce fields) (h : updateAt f key fields = some fields') :
    Fields.NamesOnce fields' := by
  induction key generalizing fields fields' with
  | nil => exact hf fields fields' hfields h
  | cons k key ih =>
    unfold updateAt at h
    split at h
    · obtain ⟨inner, hinner, rfl⟩ := Option.map_eq_some_iff.mp h
      exact hfields.set (ih Fields.namesOnce_nil hinner).object
    · rename_i old hold
      obtain ⟨inner, hinner, rfl⟩ := Option.map_eq_some_iff.mp h
      exact hfields.set (ih (.of_object (hfields.get? hold)) hinner).object
    · rename_i items hitems
      have honce := (hfields.get? hitems).of_list
      split at h
      · rename_i old hold
        obtain ⟨inner, hinner, rfl⟩ := Option.map_eq_some_iff.mp h
        have hlast := ih (.of_object (honce _ (List.mem_of_getLast? hold))) hinner
        exact hfields.set
          (.append_singleton (fun v hv => honce v (List.dropLast_subset items hv)) hlast.object)
      · cases h
    · cases h

theorem namesOnce_addEntry {key : String} {v : Value} (hv : v.NamesOnce)
    (fields fields' : Fields) (hfields : Fields.NamesOnce fields)
    (h : addEntry key v fields = some fields') : Fields.NamesOnce fields' := by
  unfold addEntry at h
  split at h
  · cases h
  · obtain rfl := Option.some.inj h
    exact hfields.set hv

theorem namesOnce_addItem {key : String} (fields fields' : Fields)
    (hfields : Fields.NamesOnce fields) (h : addItem key fields = some fields') :
    Fields.NamesOnce fields' := by
  have hempty : (Value.object []).NamesOnce := Fields.namesOnce_nil.object
  unfold addItem at h
  split at h
  · obtain rfl := Option.some.inj h
    exact hfields.set (.list (List.forall_mem_singleton.mpr hempty))
  · rename_i items hitems
    obtain rfl := Option.some.inj h
    exact hfields.set (.append_singleton (hfields.get? hitems).of_list hempty)
  · cases h

theorem namesOnce_of_readBased? {text : List Char} {found : Value × List Char}
    (h : readBased? text = some found) : found.1.NamesOnce := by
  unfold readBased? at h
  split at h
  · split at h
    · cases h
    · split at h
      · cases h
      · obtain rfl := Option.some.inj h
        exact .int _
  · cases h

theorem namesOnce_of_readDecimal? {text : List Char} {found : Value × List Char}
    (h : readDecimal? text = some found) : found.1.NamesOnce := by
  unfold readDecimal? at h
  dsimp only at h
  split at h
  · cases h
  · split at h
    · obtain rfl := Option.some.inj h
      exact .int _
    · obtain rfl := Option.some.inj h
      exact .float _

theorem namesOnce_of_readAtom? {text : List Char} {found : Value × List Char}
    (h : readAtom? text = some found) : found.1.NamesOnce := by
  unfold readAtom? at h
  simp only [Option.orElse_eq_orElse, Option.orElse_eq_or, Option.or_eq_some_iff] at h
  rcases h with h | ⟨-, h | ⟨-, h | ⟨-, h⟩⟩⟩
  · refine Json.namesOnce_of_findSome? ?_ h
    simp [boolWords, NamesOnce.bool]
  · exact namesOnce_of_readBased? h
  · exact namesOnce_of_readDecimal? h
  · refine Json.namesOnce_of_findSome? ?_ h
    simp [floatWords, notANumber, NamesOnce.float]

/-- With this much fuel the three readers give values that name their fields once. -/
structure ReadsOnce (fuel : Nat) : Prop where
  value : ∀ {text found}, readValue fuel text = some found → found.1.NamesOnce
  items : ∀ read {text found}, (∀ v ∈ read, v.NamesOnce) →
    readItems fuel read text = some found → found.1.NamesOnce
  pairs : ∀ (read : Tables) {text found}, Fields.NamesOnce read.root →
    readPairs fuel read text = some found → found.1.NamesOnce

namespace ReadsOnce

variable {fuel : Nat} {text : List Char} {found : Value × List Char}

theorem readValue_succ (hreads : ReadsOnce fuel) (h : readValue (fuel + 1) text = some found) :
    found.1.NamesOnce := by
  unfold readValue at h
  split at h
  · obtain ⟨s, -, rfl⟩ := Option.map_eq_some_iff.mp h
    exact .str s.1
  · split at h
    · split at h
      · cases h
      · obtain rfl := Option.some.inj h
        exact .emptyList
      · exact hreads.items [] (fun _ hv => nomatch hv) h
    · split at h
      · obtain rfl := Option.some.inj h
        exact Fields.namesOnce_nil.object
      · exact hreads.pairs {} Fields.namesOnce_nil h
    · split at h
      · obtain ⟨m, -, rfl⟩ := Option.map_eq_some_iff.mp h
        exact Moment.namesOnce_toValue m.1
      · exact namesOnce_of_readAtom? h

theorem readItems_succ (hreads : ReadsOnce fuel) {read : List Value}
    (hread : ∀ v ∈ read, v.NamesOnce) (h : readItems (fuel + 1) read text = some found) :
    found.1.NamesOnce := by
  unfold readItems at h
  split at h
  · cases h
  · rename_i v rest hv
    have hread' : ∀ w ∈ v :: read, w.NamesOnce :=
      List.forall_mem_cons.mpr ⟨hreads.value hv, hread⟩
    have hlist : (Value.list (v :: read).reverse).NamesOnce :=
      .list fun w hw => hread' w (List.mem_reverse.mp hw)
    split at h
    · obtain rfl := Option.some.inj h
      exact hlist
    · split at h
      · obtain rfl := Option.some.inj h
        exact hlist
      · exact hreads.items _ hread' h
      · cases h
    · cases h

theorem readPairs_succ (hreads : ReadsOnce fuel) {read : Tables}
    (hread : Fields.NamesOnce read.root) (h : readPairs (fuel + 1) read text = some found) :
    found.1.NamesOnce := by
  unfold readPairs at h
  split at h
  · split at h
    · cases h
    · rename_i hv
      split at h
      · cases h
      · split at h
        · cases h
        · split at h
          · cases h
          · rename_i hroot
            have hroot' := namesOnce_updateAt (namesOnce_addEntry (hreads.value hv)) _ hread hroot
            split at h
            · obtain rfl := Option.some.inj h
              exact hroot'.object
            · exact hreads.pairs _ hroot' h
            · cases h
  · cases h

end ReadsOnce

/-- The readers call each other with one unit of fuel less. -/
theorem namesOnce_of_reading (fuel : Nat) : ReadsOnce fuel := by
  induction fuel with
  | zero =>
    refine ⟨fun h => ?_, fun _ _ _ _ h => ?_, fun _ _ _ _ h => ?_⟩
    · cases h
    · cases h
    · cases h
  | succ fuel ih =>
    exact ⟨ih.readValue_succ, fun _ => ih.readItems_succ, fun _ => ih.readPairs_succ⟩

/-! ### Statements -/

variable {t t' : Tables} {header key : Key}

theorem namesOnce_put {v : Value} (ht : Fields.NamesOnce t.root) (hv : v.NamesOnce)
    (h : t.put header key v = some t') : Fields.NamesOnce t'.root := by
  unfold Tables.put at h
  split at h
  · cases h
  · dsimp only at h
    split at h
    · cases h
    · obtain ⟨root, hroot, rfl⟩ := Option.map_eq_some_iff.mp h
      exact namesOnce_updateAt (namesOnce_addEntry hv) _ ht hroot

theorem namesOnce_openTable (ht : Fields.NamesOnce t.root) (h : t.openTable key = some t') :
    Fields.NamesOnce t'.root := by
  unfold Tables.openTable at h
  split at h
  · cases h
  · obtain ⟨root, hroot, rfl⟩ := Option.map_eq_some_iff.mp h
    exact namesOnce_updateAt (fun _ _ hfields hsame => Option.some.inj hsame ▸ hfields) _ ht hroot

theorem namesOnce_openItem (ht : Fields.NamesOnce t.root) (h : t.openItem key = some t') :
    Fields.NamesOnce t'.root := by
  unfold Tables.openItem at h
  split at h
  · cases h
  · split at h
    · cases h
    · obtain ⟨root, hroot, rfl⟩ := Option.map_eq_some_iff.mp h
      exact namesOnce_updateAt namesOnce_addItem _ ht hroot

theorem namesOnce_readHeader {text : List Char} {found : (Tables × Key) × List Char}
    (ht : Fields.NamesOnce t.root) (h : readHeader t text = some found) :
    Fields.NamesOnce found.1.1.root := by
  have ht' : Fields.NamesOnce t.endSection.root := ht
  unfold readHeader at h
  dsimp only at h
  split at h
  · split at h
    · obtain ⟨t', hopen, rfl⟩ := Option.map_eq_some_iff.mp h
      exact namesOnce_openItem ht' hopen
    · cases h
  · split at h
    · obtain ⟨t', hopen, rfl⟩ := Option.map_eq_some_iff.mp h
      exact namesOnce_openTable ht' hopen
    · cases h

theorem namesOnce_readPair {text : List Char} {found : (Key × Value) × List Char}
    (h : readPair text = some found) : found.1.2.NamesOnce := by
  unfold readPair at h
  split at h
  · obtain ⟨r, hvalue, rfl⟩ := Option.map_eq_some_iff.mp h
    exact (namesOnce_of_reading _).value hvalue
  · cases h

theorem namesOnce_readStatement {text : List Char} {found : (Tables × Key) × List Char}
    (ht : Fields.NamesOnce t.root) (h : readStatement t header text = some found) :
    Fields.NamesOnce found.1.1.root := by
  unfold readStatement at h
  split at h
  · obtain ⟨r, hheader, rfl⟩ := Option.map_eq_some_iff.mp h
    have hroot := namesOnce_readHeader ht hheader
    exact hroot
  · split at h
    · obtain ⟨r, hpair, hput⟩ := Option.bind_eq_some_iff.mp h
      obtain ⟨t', hadded, rfl⟩ := Option.map_eq_some_iff.mp hput
      exact namesOnce_put ht (namesOnce_readPair hpair) hadded
    · split at h
      · obtain rfl := Option.some.inj h
        exact ht
      · cases h
  · obtain rfl := Option.some.inj h
    exact ht

theorem namesOnce_readStatements {fuel : Nat} {text : List Char} (ht : Fields.NamesOnce t.root)
    (h : readStatements fuel t header text = some t') : Fields.NamesOnce t'.root := by
  induction fuel generalizing t header text with
  | zero => cases h
  | succ fuel ih =>
    unfold readStatements at h
    split at h
    · cases h
    · rename_i hstatement
      have ht' := namesOnce_readStatement ht hstatement
      split at h
      · obtain rfl := Option.some.inj h
        exact ht'
      · exact ih ht' h
      · cases h

theorem namesOnce_of_parse {text : String} {fields : Fields} (h : parse text = some fields) :
    Fields.NamesOnce fields := by
  obtain ⟨t, ht, rfl⟩ := Option.map_eq_some_iff.mp h
  exact namesOnce_readStatements Fields.namesOnce_nil ht

end Toml

/-! ## YAML -/

namespace Config

theorem namesOnce_scalarValue (name : String) (s : Yaml.Scalar) :
    (scalarValue name s).NamesOnce := by
  unfold scalarValue
  split
  · exact .null
  · exact .bool _
  · exact .int _
  · exact .float _
  · exact .str _
  · exact Moment.namesOnce_toValue _
  · exact .emptyList
  · split
    · exact .emptyList
    · exact .str _

-- Of repeated keys of a mapping the last counts, so none is left. The three statements follow the
-- tree, the items of a list and the entries of a mapping.
mutual

theorem namesOnce_treeValue (name : String) : ∀ t : Yaml.Tree, (treeValue name t).NamesOnce
  | .scalar s => by
    rw [treeValue]
    exact namesOnce_scalarValue name s
  | .list items => by
    rw [treeValue]
    exact .list (namesOnce_itemValues items)
  | .set _ => by
    rw [treeValue]
    exact .emptyList
  | .mapping entries => by
    rw [treeValue]
    exact (Fields.namesOnce_ofEntries (namesOnce_entryValues entries)).object

theorem namesOnce_itemValues : ∀ items : List Yaml.Tree, ∀ v ∈ itemValues items, v.NamesOnce
  | [] => fun _ hv => nomatch hv
  | t :: rest => by
    rw [itemValues]
    exact List.forall_mem_cons.mpr ⟨namesOnce_treeValue "" t, namesOnce_itemValues rest⟩

theorem namesOnce_entryValues :
    ∀ entries : List (Option String × Yaml.Tree), ∀ p ∈ entryValues entries, p.2.NamesOnce
  | [] => fun _ hp => nomatch hp
  | (some key, t) :: rest => by
    rw [entryValues]
    exact List.forall_mem_cons.mpr ⟨namesOnce_treeValue key t, namesOnce_entryValues rest⟩
  | (none, _) :: rest => by
    rw [entryValues]
    exact namesOnce_entryValues rest

end

theorem namesOnce_of_treeFields {t : Yaml.Tree} {fields : Fields} (h : treeFields t = .ok fields) :
    Fields.NamesOnce fields := by
  unfold treeFields at h
  split at h
  · exact Except.ok.inj h ▸ Fields.namesOnce_nil
  · split at h
    · split at h
      · exact Except.ok.inj h ▸ Fields.namesOnce_ofEntries (namesOnce_entryValues _)
      · cases h
    · cases h

/-! ## Files of any format -/

theorem namesOnce_of_givenFields {v : Value} {fields : Fields} (hv : v.NamesOnce)
    (h : givenFields v = .ok fields) : Fields.NamesOnce fields := by
  cases v with
  | object given =>
    obtain rfl := Except.ok.inj h
    exact .of_object hv
  | _ => cases h

/-- Whatever is read from the text of a file, with any reader of YAML, each of its objects names a
field once. -/
theorem namesOnce_of_readFields {yaml : Yaml.Reader} {suffix text : String} {fields : Fields}
    (h : readFields yaml suffix text = .ok fields) : Fields.NamesOnce fields := by
  unfold readFields at h
  split at h
  · split at h
    · rename_i hparse
      obtain rfl := Except.ok.inj h
      exact Toml.namesOnce_of_parse hparse
    · cases h
  · split at h
    · split at h
      · exact namesOnce_of_treeFields h
      · cases h
    · split at h
      · split at h
        · rename_i hparse
          exact namesOnce_of_givenFields (Json.namesOnce_of_parse hparse) h
        · cases h
      · cases h

end Config

end CodeAtlas
