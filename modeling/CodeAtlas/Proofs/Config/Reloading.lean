import CodeAtlas.Proofs.Config.Likeness
import CodeAtlas.Proofs.Config.Loading

/-!
# A written configuration is read back in every environment

A written configuration gives every setting, also those that are null. What is given hides whatever
the environment holds for the setting before anything is checked, so of the environment only the
variables of the groups matter, which have to hold JSON at all. Since the check of each setting
takes back what was written, reading gives the same configuration again.
-/

namespace CodeAtlas

open Checked

/-! ## What is given hides what lies below -/

namespace Fields

/-- A given object over a value of any shape is an object, and has its own fields. -/
theorem get?_overlay_object (base : Fields) {given inner : Fields} {group : String}
    (hgiven : given.NamesOnce) (hinner : given.get? group = some (.object inner)) :
    ∃ merged : Fields, (overlay base given).get? group = some (.object merged) ∧
      ∀ name v, inner.get? name = some v →
        (merged.get? name).map Value.outline = some v.outline := by
  have honce : Fields.NamesOnce inner := .of_object (hgiven.get? hinner)
  rw [get?_overlay hgiven.nodup, hinner, Option.map_some, Option.some_or, overlayValue.eq_def]
  dsimp only
  split
  · refine ⟨_, rfl, fun name v hv => ?_⟩
    rw [outline_get?_overlay honce.nodup, hv]
    rfl
  · refine ⟨inner, rfl, fun name v hv => ?_⟩
    rw [hv]
    rfl

end Fields

namespace Setting

open Fields

variable {s : Setting} {base given : Fields} {v : Value}

theorem find?_overlay (hgiven : given.NamesOnce) (hv : s.find? given = some v) :
    (s.find? (overlay base given)).map Value.outline = some v.outline := by
  rcases find?_eq_some.mp hv with ⟨hgroup, hv⟩ | ⟨group, inner, hgroup, hinner, hv⟩
  · have hfind : s.find? (overlay base given) = (overlay base given).get? s.name := by
      simp only [find?, hgroup]
    rw [hfind, outline_get?_overlay hgiven.nodup, hv]
    rfl
  · obtain ⟨merged, hmerged, hfields⟩ := get?_overlay_object base hgiven hinner
    have hfind : s.find? (overlay base given) = Assoc.get? merged s.name := by
      simp [find?, hgroup, below, hmerged, Value.fields?]
    rw [hfind, hfields _ _ hv]

end Setting

/-- The variables of the groups, if set, hold JSON of any shape. -/
def Environment.HoldsJson (env : Environment) : Prop :=
  ∀ group ∈ Config.groups, ∀ text, env.spelled? (Environment.stem ++ group.1) = some text →
    ∃ v, Json.parse text = .ok v

namespace Environment

variable {env : Environment}

theorem groupEntry_of_parse {group : String} (names : List String)
    (hjson : ∀ text, env.spelled? (stem ++ group) = some text → ∃ v, Json.parse text = .ok v) :
    ∃ entry : Fields, env.lowered.groupEntry group names = .ok entry ∧
      ∀ key ∈ entry.keys, key = group := by
  have hvalue : ∃ value, env.lowered.groupValue group = .ok value := by
    unfold groupValue
    rw [get?_lowered]
    cases hvariable : env.spelled? (stem ++ group) with
    | none =>
      dsimp only
      split <;> exact ⟨_, rfl⟩
    | some text =>
      obtain ⟨v, hv⟩ := hjson text hvariable
      simp only [hv]
      split <;> first | exact ⟨_, rfl⟩ | contradiction
  obtain ⟨value, hvalue⟩ := hvalue
  unfold groupEntry
  rw [hvalue]
  rcases value with _ | v
  · exact ⟨[], rfl, fun key hkey => nomatch hkey⟩
  · cases v <;> exact ⟨_, rfl, fun key hkey => List.mem_singleton.mp hkey⟩

/-- With JSON for the groups the environment gives known fields, whatever they hold. -/
theorem fields_of_holdsJson (henv : env.HoldsJson) :
    ∃ base, env.fields = .ok base ∧ ∀ key ∈ base.keys, key ∈ Config.fieldNames := by
  obtain ⟨hjson, hjson', -⟩ := List.forall_mem_cons.mp henv |>.imp_right List.forall_mem_cons.mp
  obtain ⟨analysis, hanalysis, hkeys⟩ :=
    groupEntry_of_parse AnalysisSettings.fieldNames hjson
  obtain ⟨serialization, hserialization, hkeys'⟩ :=
    groupEntry_of_parse ExportSettings.fieldNames hjson'
  refine ⟨_, fields_eq_append hanalysis hserialization, fun key hkey => ?_⟩
  have hlevel : ∀ key ∈ env.levelFields.keys, key = "log_level" := by
    unfold levelFields
    cases env.spelled? (stem ++ "log_level") <;> simp [Assoc.keys]
  simp only [Assoc.keys, List.map_append, List.mem_append] at hkey
  rcases hkey with (hkey | hkey) | hkey
  · rw [hlevel key hkey]
    decide
  · rw [hkeys key hkey]
    decide
  · rw [hkeys' key hkey]
    decide

end Environment

namespace Config

open Fields

variable {env : Environment} {given : Fields} {c : Config}

/-- Fields under their proper names keep them. -/
theorem settle_eq_self (hknown : ∀ key ∈ given.keys, key ∈ fieldNames) : settle given = given := by
  unfold settle
  refine (List.map_congr_left fun p hp => ?_).trans (List.map_id given)
  obtain ⟨key, v⟩ := p
  have hkey : key ∈ given.keys := List.mem_map_of_mem hp
  have hlower := lower_fieldNames key (hknown key hkey)
  rcases settleName_cases given key with ⟨-, -, hfree, -⟩ | ⟨hkept, -⟩
  · exact absurd (hlower.symm ▸ hkey) hfree
  · show (settleName given key, v) = (key, v)
    rw [hkept]

/-- Every group has a setting. -/
theorem exists_group?_eq : ∀ group ∈ groups, ∃ s : Setting, s.group? = some group.1 :=
  List.forall_mem_cons.mpr
    ⟨⟨.pathMaxDepth, rfl⟩, List.forall_mem_singleton.mpr ⟨.dotIndent, rfl⟩⟩

/-- Where every setting is given, the environment does not matter. -/
theorem ofGiven_of_find? (henv : env.HoldsJson) (hgiven : given.NamesOnce)
    (hknown : ∀ key ∈ given.keys, key ∈ fieldNames)
    (hall : ∀ s : Setting, ∃ v, s.find? given = some v ∧ s.check v = .accepted (s.get c)) :
    ofGiven env given = .ok c := by
  obtain ⟨base, hbase, hbaseKnown⟩ := Environment.fields_of_holdsJson henv
  rw [ofGiven_eq_ok hbase, settle_eq_self hknown]
  have hobjects : ∀ group ∈ groups, ∃ inner, given.get? group.1 = some (.object inner) := by
    intro group hgroup
    obtain ⟨s, hs⟩ := exists_group?_eq group hgroup
    obtain ⟨v, hv, -⟩ := hall s
    rcases Setting.find?_eq_some.mp hv with ⟨hnone, -⟩ | ⟨group', inner, hsome, hinner, -⟩
    · cases hs.symm.trans hnone
    · obtain rfl := Option.some.inj (hs.symm.trans hsome)
      exact ⟨inner, hinner⟩
  have hobject : ∀ group ∈ groups, ∀ v, (overlay base given).get? group.1 = some v →
      ∃ inner, v = .object inner := by
    intro group hgroup v hv
    obtain ⟨inner, hinner⟩ := hobjects group hgroup
    obtain ⟨merged, hmerged, -⟩ := get?_overlay_object base hgiven hinner
    exact ⟨merged, Option.some.inj (hv.symm.trans hmerged)⟩
  refine (ofFields_eq_accepted hobject).mpr ⟨fun key hkey => ?_, fun s => ?_⟩
  · rcases mem_keys_overlay.mp hkey with hkey | hkey
    · exact hbaseKnown key hkey
    · exact hknown key hkey
  · obtain ⟨v, hv, hcheck⟩ := hall s
    have htake : s.take (s.find? (overlay base given)) = s.take (some v) :=
      s.take_congr (Setting.find?_overlay hgiven hv)
    exact htake.trans hcheck

/-! ## Written configurations -/

theorem namesOnce_getD_null {α : Type} {f : α → Value} (hf : ∀ a, (f a).NamesOnce) (x : Option α) :
    ((x.map f).getD .null).NamesOnce := by
  cases x with
  | none => exact .null
  | some a => exact hf a

theorem namesOnce_toValue (c : Config) : c.toValue.NamesOnce := by
  have hanalysis : c.analysis.toValue.NamesOnce := by
    refine .object (by simp [Assoc.keys]) ?_
    simp [namesOnce_getD_null, Value.NamesOnce.int, Value.NamesOnce.bool]
  have hserialization : c.serialization.toValue.NamesOnce := by
    refine .object (by simp [Assoc.keys]) ?_
    simp [namesOnce_getD_null, Value.NamesOnce.int, Value.NamesOnce.str]
  refine .object (by simp [Assoc.keys]) ?_
  simp [hanalysis, hserialization, Value.NamesOnce.str]

/-- A written configuration holds every setting, under proper names. -/
theorem toValue_eq_object (c : Config) :
    ∃ fields : Fields, c.toValue = .object fields ∧ fields.keys = fieldNames ∧
      ∀ s : Setting, s.find? fields = some (s.written (s.get c)) :=
  ⟨_, rfl, rfl, fun s => by cases s <;> rfl⟩

theorem toValue_isLike_self (c : Config) : c.toValue.isLike c.toValue = true := by
  obtain ⟨level, ⟨depth, length, unique⟩, ⟨name, indent, rank, dangling, width⟩⟩ := c
  cases depth <;> cases length <;> cases rank <;> cases width <;>
    simp [Config.toValue, AnalysisSettings.toValue, ExportSettings.toValue, Value.isLike,
      Value.fieldsWithin, Assoc.get?_cons, Value.magnitude?]

/-- Fields that mean the same as a written configuration are read as that configuration. -/
theorem ofGiven_of_isLike {data : Value} (henv : env.HoldsJson)
    (hc : ∀ s : Setting, s.Within (s.get c)) (hdata : data.NamesOnce)
    (hlike : data.isLike c.toValue = true) :
    ∃ given, data = .object given ∧ ofGiven env given = .ok c := by
  obtain ⟨fields, hfields, hkeys, hfind⟩ := c.toValue_eq_object
  rw [hfields] at hlike
  obtain ⟨given, rfl, hlike⟩ := Value.isLike_object.mp hlike
  have hgiven : Fields.NamesOnce given := .of_object hdata
  refine ⟨given, rfl, ofGiven_of_find? henv hgiven (fun key hkey => ?_) fun s => ?_⟩
  · exact hkeys ▸ keys_subset_of_isLike hlike hkey
  · obtain ⟨v, hv, hsetting⟩ := Setting.find?_of_isLike hgiven hlike (hfind s)
    exact ⟨v, hv, Setting.check_of_isLike (hc s) hsetting⟩

/-- How a configuration comes about: as the defaults, from given fields over an environment, from a
file, from the first file that is found, or from fields that were put together in any other way, such
as under options of the settings class. -/
inductive Produced : Config → Prop
  | defaults : Produced {}
  | given {env : Environment} {given : Fields} {c : Config} :
      ofGiven env given = .ok c → Produced c
  | file {yaml : Yaml.Reader} {files : FileSystem} {env : Environment} {path : String}
      {c : Config} : ofFile yaml files env path = .ok c → Produced c
  | found {yaml : Yaml.Reader} {files : FileSystem} {env : Environment}
      {path searchDir : Option String} {c : Config} :
      load yaml files env path searchDir = .ok c → Produced c
  | checked {fields : Fields} {c : Config} : ofFields fields = .accepted c → Produced c

theorem within_of_bind {fields : Except ConfigFault Fields} (h : fields.bind (ofGiven env) = .ok c)
    (s : Setting) : s.Within (s.get c) := by
  cases fields with
  | error fault => cases h
  | ok given => exact within_of_ofGiven h s

theorem Produced.within (hc : c.Produced) (s : Setting) : s.Within (s.get c) := by
  cases hc with
  | defaults => exact s.within_default
  | given h => exact within_of_ofGiven h s
  | file h => exact within_of_bind (ofFile_eq _ _ _ _ ▸ h) s
  | found h => exact within_of_bind (load_eq _ _ _ _ _ ▸ h) s
  | checked h => exact within_of_ofFields h s

/-- A configuration, however it came about, is the same again after it was written and read over
any environment whose variables of the groups hold JSON: from the written fields themselves, and
from a JSON file that means the same, wherever it stands in whatever file system. -/
theorem reload_unchanged (hc : c.Produced) (henv : env.HoldsJson) :
    (∃ fields, c.toValue = .object fields ∧ ofGiven env fields = .ok c) ∧
      ∀ (yaml : Yaml.Reader) (files : FileSystem) (path text : String) (data : Value),
        files.entry? path = some (.file text) → Text.lower (PathName.suffix path) = ".json" →
        Json.parse (String.ofList (FileEntry.unifyLineEnds text.toList)) = .ok data →
        data.isLike c.toValue = true → ofFile yaml files env path = .ok c := by
  refine ⟨ofGiven_of_isLike henv hc.within c.namesOnce_toValue c.toValue_isLike_self, ?_⟩
  intro yaml files path text data hfile hsuffix hparse hlike
  obtain ⟨given, rfl, hgiven⟩ :=
    ofGiven_of_isLike henv hc.within (Json.namesOnce_of_parse hparse) hlike
  have hfields : fileFields yaml files path = .ok given := by
    simp [fileFields, hfile, hsuffix, readFields, hparse, givenFields]
  rw [ofFile_eq, hfields]
  exact hgiven

/-- A configuration with settings from a variable, from given fields and by default; some are
null. -/
def mixedConfig : Config where
  analysis := { cycleMaxLength := some 10 }
  serialization := { dotRankDir := some .leftRight, jsonIndent := none }

/-- Variables of the wrong shape, out of range, or that no setting understands. -/
def invalidEnv : Environment :=
  [("DEPGRAPH_ANALYSIS", "[1]"), ("DEPGRAPH_SERIALIZATION", "\x7b\"JSON_INDENT\": 99\x7d"),
    ("depgraph_log_level", "loud"), ("DEPGRAPH_ANALYSIS__UNIQUE_CYCLES", "?")]

/-- The configuration as text, with its fields in another order and a flag as a number. -/
def mixedText : List Char :=
  ["\x7b\"serialization\": \x7b\"json_indent\": null,\r\n",
    " \"dot_rankdir\": \"LR\", \"dot_indent\": 2,\r\n",
    " \"dot_graph_name\": \"CodeGraph\",\r\n",
    " \"on_dangling_edge\": \"drop\"\x7d,\r\n",
    " \"log_level\": \"INFO\", \"analysis\": \x7b\r\n",
    " \"unique_cycles\": 1, \"path_max_depth\": null,\r\n",
    " \"cycle_max_length\": 10\x7d\x7d\r\n"].flatMap String.toList

def mixedFiles : FileTree where
  cwd := "/home/work"
  files := [("/home/etc/saved.JSON", String.ofList mixedText)]

theorem holdsJson_of_isOk {env : Environment}
    (h : ∀ group ∈ groups, ∀ text ∈ env.spelled? (Environment.stem ++ group.1),
      (Json.parse text).isOk = true) : env.HoldsJson := by
  intro group hgroup text htext
  have hok := h group hgroup text htext
  cases hparse : Json.parse text with
  | ok v => exact ⟨v, rfl⟩
  | error fault =>
    rw [hparse] at hok
    cases hok

theorem mixedConfig_produced : mixedConfig.Produced := by
  have hgiven : ofGiven [("DEPGRAPH_ANALYSIS__CYCLE_MAX_LENGTH", " 1_0 ")]
      [("Serialization", .object [("json_indent", .null), ("dot_rankdir", .str "LR")])] =
      .ok mixedConfig := by decide +kernel
  exact .given hgiven

theorem invalidEnv_holdsJson : invalidEnv.HoldsJson :=
  holdsJson_of_isOk (by decide +kernel)

theorem exists_parse_of_readWhole {text : List Char} {v : Value}
    (h : (match Json.readWhole (FileEntry.unifyLineEnds text) with
      | .ok data => data.isLike v
      | .error _ => false) = true) :
    ∃ data, Json.parse (String.ofList (FileEntry.unifyLineEnds (String.ofList text).toList)) =
      .ok data ∧ data.isLike v = true := by
  split at h
  · rename_i data hdata
    refine ⟨data, ?_, h⟩
    simp only [Json.parse, String.toList_ofList, hdata]
  · cases h

/-- With the variables alone nothing is loaded, and still both ways give the configuration back. The
path of the file is absolute and climbs. -/
theorem reload_unchanged_over_invalid_variables :
    mixedConfig.Produced ∧ invalidEnv.HoldsJson ∧ (ofGiven invalidEnv []).isOk = false ∧
      (∃ fields, mixedConfig.toValue = .object fields ∧
        ofGiven invalidEnv fields = .ok mixedConfig) ∧
      ofFile Yaml.parse mixedFiles.system invalidEnv "/home/work/../etc/saved.JSON" =
        .ok mixedConfig := by
  obtain ⟨hgiven, hfile⟩ := reload_unchanged mixedConfig_produced invalidEnv_holdsJson
  obtain ⟨data, hparse, hlike⟩ : ∃ data, Json.parse (String.ofList (FileEntry.unifyLineEnds
      (String.ofList mixedText).toList)) = .ok data ∧ data.isLike mixedConfig.toValue = true :=
    exists_parse_of_readWhole (by decide +kernel)
  have hentry : mixedFiles.system.entry? "/home/work/../etc/saved.JSON" =
      some (.file (String.ofList mixedText)) := by decide +kernel
  have hsuffix : Text.lower (PathName.suffix "/home/work/../etc/saved.JSON") = ".json" := by
    decide +kernel
  refine ⟨mixedConfig_produced, invalidEnv_holdsJson, by decide +kernel, hgiven, ?_⟩
  exact hfile Yaml.parse mixedFiles.system _ _ data hentry hsuffix hparse hlike

end Config

end CodeAtlas
