import CodeAtlas.Config.FileTree
import CodeAtlas.Proofs.Config.Settings
import CodeAtlas.Yaml.Reader
import Mathlib.Data.List.Nodup

/-!
# Loading settles each setting by itself

The given fields are those of the first file that exists. Each setting has the given value, else
what variables give, else its default, and neither the value nor its check depends on any other
setting.
-/

namespace CodeAtlas

open Checked

namespace Config

/-! ## Given fields under their proper names -/

/-- The given name that stands for a top field: its own, or else the first that differs from it only
in case. -/
def topName? (given : Fields) (name : String) : Option String :=
  if given.has name then some name else given.keys.find? fun k => Text.lower k == name

/-- What is given for a top field. -/
def top? (given : Fields) (name : String) : Option Value :=
  (topName? given name).bind given.get?

theorem lower_fieldNames : ∀ name ∈ fieldNames, Text.lower name = name := by
  have hsmall : ∀ name ∈ fieldNames, Text.isPlainSmall name = true := by decide +kernel
  exact fun name hname => Text.lower_eq_self (hsmall name hname)

theorem has_iff {given : Fields} {name : String} : given.has name = true ↔ name ∈ given.keys := by
  simp [Assoc.has, Assoc.keys]

/-- When a given name is replaced by the proper one. -/
theorem settleName_cases (given : Fields) (key : String) :
    (settleName given key = Text.lower key ∧ Text.lower key ∈ fieldNames ∧
        Text.lower key ∉ given.keys ∧
        given.keys.find? (fun k => Text.lower k == Text.lower key) = some key) ∨
      (settleName given key = key ∧ (Text.lower key ∈ fieldNames → Text.lower key ∉ given.keys →
        given.keys.find? (fun k => Text.lower k == Text.lower key) ≠ some key)) := by
  unfold settleName
  dsimp only
  split
  · rename_i hsettled
    simp only [Bool.and_eq_true, Bool.not_eq_true', ← Bool.not_eq_true, has_iff,
      List.contains_iff_mem, beq_iff_eq] at hsettled
    obtain ⟨⟨hname, hhas⟩, hfirst⟩ := hsettled
    exact Or.inl ⟨rfl, hname, hhas, hfirst⟩
  · rename_i hkept
    refine Or.inr ⟨rfl, fun hname hhas hfirst => hkept ?_⟩
    simp only [Bool.and_eq_true, Bool.not_eq_true', ← Bool.not_eq_true, has_iff,
      List.contains_iff_mem, beq_iff_eq]
    exact ⟨⟨hname, hhas⟩, hfirst⟩

theorem settleName_eq_iff {given : Fields} {key name : String} (hkey : key ∈ given.keys)
    (hname : name ∈ fieldNames) :
    settleName given key = name ↔ topName? given name = some key := by
  have hlower := lower_fieldNames name hname
  unfold topName?
  by_cases hhas : name ∈ given.keys
  · rw [if_pos (has_iff.mpr hhas), Option.some_inj]
    rcases settleName_cases given key with ⟨hsettled, -, hfree, -⟩ | ⟨hkept, -⟩
    · rw [hsettled]
      constructor
      · rintro rfl
        exact absurd hhas hfree
      · rintro rfl
        exact hlower
    · rw [hkept, eq_comm]
  · rw [if_neg (by rwa [has_iff])]
    rcases settleName_cases given key with ⟨hsettled, -, -, hfirst⟩ | ⟨hkept, hother⟩
    · rw [hsettled]
      constructor
      · rintro rfl
        exact hfirst
      · intro hfind
        simpa using List.find?_some hfind
    · rw [hkept]
      constructor
      · rintro rfl
        exact absurd hkey hhas
      · intro hfind
        obtain rfl : Text.lower key = name := by simpa using List.find?_some hfind
        exact absurd hfind (hother hname hhas)

/-- Two given names never become the same. -/
theorem settleName_inj {given : Fields} {key key' : String} (hkey : key ∈ given.keys)
    (hkey' : key' ∈ given.keys) (h : settleName given key = settleName given key') :
    key = key' := by
  by_cases hname : settleName given key ∈ fieldNames
  · have hfirst := (settleName_eq_iff hkey hname).mp rfl
    have hfirst' := (settleName_eq_iff hkey' hname).mp h.symm
    exact Option.some.inj (hfirst.symm.trans hfirst')
  · have hkept : ∀ k, settleName given k ∉ fieldNames → settleName given k = k := by
      intro k hk
      rcases settleName_cases given k with ⟨hsettled, hmem, -⟩ | ⟨hkept, -⟩
      · exact absurd (hsettled ▸ hmem) hk
      · exact hkept
    rw [← hkept key hname, h, hkept key' (h ▸ hname)]

theorem keys_settle (given : Fields) : (settle given).keys = given.keys.map (settleName given) := by
  unfold settle Assoc.keys
  rw [List.map_map, List.map_map]
  rfl

theorem nodup_keys_settle {given : Fields} (h : given.keys.Nodup) : (settle given).keys.Nodup := by
  rw [keys_settle]
  exact List.Nodup.map_on (fun key hkey key' hkey' => settleName_inj hkey hkey') h

theorem get?_settle {given : Fields} (h : given.keys.Nodup) {name : String}
    (hname : name ∈ fieldNames) : (settle given).get? name = top? given name := by
  refine Option.ext fun v => ?_
  rw [Assoc.get?_eq_some (nodup_keys_settle h), top?, Option.bind_eq_some_iff]
  simp only [Assoc.get?_eq_some h]
  unfold settle
  simp only [List.mem_map, Prod.mk.injEq, Prod.exists]
  constructor
  · rintro ⟨key, w, hmem, hsettled, rfl⟩
    exact ⟨key, (settleName_eq_iff (List.mem_map_of_mem hmem) hname).mp hsettled, hmem⟩
  · rintro ⟨key, hfirst, hmem⟩
    exact ⟨key, v, hmem, (settleName_eq_iff (List.mem_map_of_mem hmem) hname).mpr hfirst, rfl⟩

/-- A given name is known if it stands for one of the top fields. -/
def Known (given : Fields) (key : String) : Prop :=
  ∃ name ∈ fieldNames, topName? given name = some key

theorem forall_keys_settle {given : Fields} :
    (∀ key ∈ (settle given).keys, key ∈ fieldNames) ↔ ∀ key ∈ given.keys, Known given key := by
  rw [keys_settle]
  simp only [List.mem_map, forall_exists_index, and_imp, forall_apply_eq_imp_iff₂]
  refine forall₂_congr fun key hkey => ?_
  constructor
  · intro hname
    exact ⟨_, hname, (settleName_eq_iff hkey hname).mp rfl⟩
  · rintro ⟨name, hname, hfirst⟩
    rwa [(settleName_eq_iff hkey hname).mpr hfirst]

end Config

/-! ## What a setting is given -/

namespace Setting

/-- The given value of a setting. -/
def given? (s : Setting) (given : Fields) : Option Value :=
  match s.group? with
  | none => Config.top? given s.name
  | some group => ((Config.top? given group).bind Value.fields?).bind fun inner => inner.get? s.name

/-- What variables give to a setting. -/
def ambient? (s : Setting) (env : Environment) : Option Value :=
  match s.group? with
  | none => (env.spelled? (Environment.stem ++ s.name)).map Value.str
  | some group => env.fieldValue? group s.name

/-- The value that a setting is checked with. -/
def raw (s : Setting) (env : Environment) (given : Fields) : Option Value :=
  (s.given? given).or (s.ambient? env)

/-- A setting is the log level or a field of one of the groups. -/
theorem group_cases (s : Setting) : (s.group? = none ∧ s.name = "log_level") ∨
    ∃ group ∈ Config.groups, s.group? = some group.1 ∧ s.name ∈ group.2 := by
  cases s <;> decide

end Setting

/-- The variables of the groups, if set, hold objects. -/
def Environment.HoldsObjects (env : Environment) : Prop :=
  ∀ group ∈ Config.groups, ∀ text, env.spelled? (Environment.stem ++ group.1) = some text →
    ∃ fields, Json.parse text = .ok (.object fields)

/-- No given name starts with an underscore. Under such names the settings class takes options of its
own, such as another stem for the variables, and these are not settings. -/
def Config.NamesNoOption (given : Fields) : Prop :=
  ∀ key ∈ given.keys, key.toList.head? ≠ some '_'

instance (given : Fields) : Decidable (Config.NamesNoOption given) :=
  inferInstanceAs (Decidable (∀ key ∈ given.keys, key.toList.head? ≠ some '_'))

/-- The groups, if given, are objects. -/
def Config.GivesObjects (given : Fields) : Prop :=
  ∀ group ∈ Config.groups, ∀ v, Config.top? given group.1 = some v → ∃ fields, v = .object fields

namespace Environment

theorem plain_names : ∀ group ∈ Config.groups, ∀ field ∈ group.2, Plain field := by
  decide +kernel

def levelFields (env : Environment) : Fields :=
  match env.spelled? (stem ++ "log_level") with
  | some v => [("log_level", .str v)]
  | none => []

theorem get?_levelFields (env : Environment) :
    env.levelFields.get? "log_level" = (env.spelled? (stem ++ "log_level")).map Value.str := by
  unfold levelFields
  cases env.spelled? (stem ++ "log_level") <;> rfl

/-- The level and the groups stand under different names. -/
theorem get?_parts (env : Environment) {analysis serialization : Fields}
    (hanalysis : analysis = [] ∨ ∃ inner, analysis = [("analysis", .object inner)])
    (hserialization : serialization = [] ∨
      ∃ inner, serialization = [("serialization", .object inner)]) :
    (env.levelFields ++ analysis ++ serialization).get? "log_level" =
        env.levelFields.get? "log_level" ∧
      (env.levelFields ++ analysis ++ serialization).get? "analysis" = analysis.get? "analysis" ∧
      (env.levelFields ++ analysis ++ serialization).get? "serialization" =
        serialization.get? "serialization" ∧
      ∀ key ∈ (env.levelFields ++ analysis ++ serialization).keys, key ∈ Config.fieldNames := by
  unfold levelFields
  cases env.spelled? (stem ++ "log_level") <;> rcases hanalysis with rfl | ⟨inner, rfl⟩ <;>
    rcases hserialization with rfl | ⟨inner', rfl⟩ <;>
    simp [Assoc.get?_cons, Assoc.keys, Config.fieldNames]

theorem fields_eq_append {env : Environment} {analysis serialization : Fields}
    (hanalysis : env.lowered.groupEntry "analysis" AnalysisSettings.fieldNames = .ok analysis)
    (hserialization : env.lowered.groupEntry "serialization" ExportSettings.fieldNames =
      .ok serialization) :
    env.fields = .ok (env.levelFields ++ analysis ++ serialization) := by
  unfold fields levelFields
  dsimp only
  rw [hanalysis, hserialization, get?_lowered]
  rfl

/-- The environment gives fields that are known, with objects as groups, and each setting as
settled. -/
theorem fields_eq_ok {env : Environment} (henv : env.HoldsObjects) :
    ∃ base, env.fields = .ok base ∧ (∀ key ∈ base.keys, key ∈ Config.fieldNames) ∧
      (∀ group ∈ Config.groups, ∀ v, base.get? group.1 = some v → ∃ inner, v = .object inner) ∧
      ∀ s : Setting, (s.find? base).map Value.outline = (s.ambient? env).map Value.outline := by
  obtain ⟨hjson, hjson', -⟩ := List.forall_mem_cons.mp henv |>.imp_right List.forall_mem_cons.mp
  obtain ⟨hplain, hplain', -⟩ :=
    List.forall_mem_cons.mp plain_names |>.imp_right List.forall_mem_cons.mp
  obtain ⟨analysis, hanalysis, hshape, hvalues⟩ := groupEntry_eq_ok hplain hjson
  obtain ⟨serialization, hserialization, hshape', hvalues'⟩ := groupEntry_eq_ok hplain' hjson'
  obtain ⟨hlevel, hbelow, hbelow', hknown⟩ := get?_parts env hshape hshape'
  refine ⟨_, fields_eq_append hanalysis hserialization, hknown, ?_, fun s => ?_⟩
  · refine List.forall_mem_cons.mpr ⟨fun v hv => ?_, List.forall_mem_singleton.mpr fun v hv => ?_⟩
    · rw [hbelow] at hv
      rcases hshape with rfl | ⟨inner, rfl⟩
      · cases hv
      · exact ⟨inner, (Option.some.inj hv).symm⟩
    · rw [hbelow'] at hv
      rcases hshape' with rfl | ⟨inner, rfl⟩
      · cases hv
      · exact ⟨inner, (Option.some.inj hv).symm⟩
  · rcases s.group_cases with ⟨hgroup, hname⟩ | ⟨group, hmem, hgroup, hname⟩
    · unfold Setting.find? Setting.ambient?
      rw [hgroup, hname]
      dsimp only
      rw [hlevel, get?_levelFields]
    · unfold Setting.find? Setting.ambient? Fields.below
      rw [hgroup]
      dsimp only
      rcases List.mem_cons.mp hmem with rfl | hmem
      · rw [hbelow]
        exact hvalues s.name hname
      · obtain rfl := List.mem_singleton.mp hmem
        rw [hbelow']
        exact hvalues' s.name hname

end Environment

/-! ## Given fields over the environment -/

namespace Config

open Fields

variable {env : Environment} {given base : Fields} {c : Config}

theorem get?_overlay_settle (hgiven : given.keys.Nodup) {name : String}
    (hname : name ∈ fieldNames) :
    (overlay base (settle given)).get? name =
      ((top? given name).map (overlayValue (base.get? name))).or (base.get? name) := by
  rw [get?_overlay (nodup_keys_settle hgiven), get?_settle hgiven hname]

/-- A given group is laid over that of the environment field by field. -/
theorem overlay_settle_group {group : String} (hgroup : group ∈ fieldNames)
    (hgiven : given.NamesOnce)
    (htop : ∀ v, top? given group = some v → ∃ inner, v = .object inner)
    (hbase : ∀ v, base.get? group = some v → ∃ inner, v = .object inner) :
    (∀ v, (overlay base (settle given)).get? group = some v → ∃ inner, v = .object inner) ∧
      ∀ field, (((overlay base (settle given)).below group).get? field).map Value.outline =
        ((((top? given group).bind Value.fields?).bind fun inner => inner.get? field).or
          ((base.below group).get? field)).map Value.outline := by
  have hget : (overlay base (settle given)).get? group = _ :=
    get?_overlay_settle hgiven.nodup hgroup
  unfold below
  cases htopv : top? given group with
  | none =>
    rw [htopv, Option.map_none, Option.none_or] at hget
    rw [hget]
    exact ⟨hbase, fun field => rfl⟩
  | some v =>
    obtain ⟨new, rfl⟩ := htop v htopv
    obtain ⟨key, -, hkey⟩ := Option.bind_eq_some_iff.mp htopv
    have hnew : (Assoc.keys new).Nodup := (NamesOnce.of_object (hgiven.get? hkey)).nodup
    rw [htopv, Option.map_some, Option.some_or] at hget
    rw [hget]
    cases hbasev : base.get? group with
    | none =>
      rw [overlayValue_none]
      refine ⟨fun v hv => ⟨new, (Option.some.inj hv).symm⟩, fun field => ?_⟩
      show (Assoc.get? new field).map Value.outline =
        ((Assoc.get? new field).or none).map Value.outline
      rw [Option.or_none]
    | some b =>
      obtain ⟨old, rfl⟩ := hbase b hbasev
      refine ⟨fun v hv => ⟨overlay old new, (Option.some.inj hv).symm⟩, fun field => ?_⟩
      show ((overlay old new).get? field).map Value.outline =
        ((Assoc.get? new field).or (Assoc.get? old field)).map Value.outline
      exact outline_get?_overlay hnew

theorem ofGiven_eq_ok (hbase : env.fields = .ok base) :
    ofGiven env given = .ok c ↔ ofFields (overlay base (settle given)) = .accepted c := by
  unfold ofGiven
  rw [hbase]
  cases hfields : ofFields (overlay base (settle given)) with
  | accepted config => simp [hfields, bind, Except.bind, pure, Except.pure]
  | rejected issues => simp [hfields, bind, Except.bind, throw, throwThe, MonadExceptOf.throw]

/-- Given fields over the environment: each setting is taken from its own raw value. -/
theorem ofGiven_eq_ok_iff (henv : env.HoldsObjects) (hgiven : given.NamesOnce)
    (hobjects : GivesObjects given) :
    ofGiven env given = .ok c ↔ (∀ key ∈ given.keys, Known given key) ∧
      ∀ s : Setting, s.take (s.raw env given) = .accepted (s.get c) := by
  obtain ⟨base, hbase, hknown, hgroups, hambient⟩ := Environment.fields_eq_ok henv
  have hmem : ∀ group ∈ groups, group.1 ∈ fieldNames := by decide
  have hover := fun group (hgroup : group ∈ groups) => overlay_settle_group (hmem group hgroup)
    hgiven (hobjects group hgroup) (hgroups group hgroup)
  have hkeys : (∀ key ∈ (overlay base (settle given)).keys, key ∈ fieldNames) ↔
      ∀ key ∈ given.keys, Known given key := by
    rw [← forall_keys_settle]
    simp only [mem_keys_overlay]
    exact ⟨fun h key hkey => h key (Or.inr hkey), fun h key hkey => hkey.elim (hknown key) (h key)⟩
  have hraw : ∀ s : Setting, s.take (s.find? (overlay base (settle given))) =
      s.take (s.raw env given) := by
    intro s
    refine s.take_congr ?_
    unfold Setting.raw
    rw [Option.map_or, ← hambient s, ← Option.map_or]
    unfold Setting.find? Setting.given?
    rcases s.group_cases with ⟨hgroup, hname⟩ | ⟨group, hmemg, hgroup, -⟩
    · rw [hgroup, hname]
      dsimp only
      rw [outline_get?_overlay (nodup_keys_settle hgiven.nodup),
        get?_settle hgiven.nodup (by decide)]
    · rw [hgroup]
      exact (hover group hmemg).2 s.name
  rw [ofGiven_eq_ok hbase, ofFields_eq_accepted fun group hgroup => (hover group hgroup).1, hkeys]
  simp only [hraw]

theorem within_of_ofGiven (h : ofGiven env given = .ok c) (s : Setting) : s.Within (s.get c) := by
  cases hbase : env.fields with
  | error fault => simp [ofGiven, hbase, bind, Except.bind] at h
  | ok base => exact within_of_ofFields ((ofGiven_eq_ok hbase).mp h) s

/-! ## The first file that exists -/

section

variable (yaml : Yaml.Reader) (files : FileSystem)

/-- The fields that the file at a path gives. -/
def fileFields (path : String) : Except ConfigFault Fields :=
  match files.entry? path with
  | none => .error (.fileMissing (PathName.normal path))
  | some .directory => .error .isDirectory
  | some .unreadable => .error .unreadableFile
  | some (.file text) =>
    readFields yaml (Text.lower (PathName.suffix path))
      (String.ofList (FileEntry.unifyLineEnds text.toList))

/-- The fields that the first of some paths that exists gives; none if no path exists. -/
def firstFields : List String → Except ConfigFault Fields
  | [] => .ok []
  | path :: rest =>
    if (files.entry? path).isSome then fileFields yaml files path else firstFields rest

theorem ofFile_eq (env : Environment) (path : String) :
    ofFile yaml files env path = (fileFields yaml files path).bind (ofGiven env) := by
  unfold ofFile fileFields
  cases files.entry? path with
  | none => rfl
  | some entry => cases entry <;> rfl

theorem load_eq (env : Environment) (path searchDir : Option String) :
    load yaml files env path searchDir =
      (firstFields yaml files (candidates files path searchDir)).bind (ofGiven env) := by
  unfold load
  induction candidates files path searchDir with
  | nil => rfl
  | cons first rest ih =>
    rw [List.find?_cons, firstFields]
    cases hfound : (files.entry? first).isSome with
    | true => exact ofFile_eq yaml files env first
    | false => exact ih

end

variable {yaml : Yaml.Reader} {files : FileSystem}

theorem namesOnce_of_firstFields {paths : List String}
    (h : firstFields yaml files paths = .ok given) : given.NamesOnce := by
  induction paths with
  | nil => exact Except.ok.inj h ▸ namesOnce_nil
  | cons first rest ih =>
    unfold firstFields at h
    split at h
    · unfold fileFields at h
      split at h
      · cases h
      · cases h
      · cases h
      · exact namesOnce_of_readFields h
    · exact ih h

/-- Loading reads the first file that exists, and fails with it. Otherwise each setting is the
checked form of its own raw value; all are taken just when each is and no unknown name is given at
the top, and whatever is loaded is in the declared ranges. This holds in every file system and with
every reader of YAML. -/
theorem load_layers (yaml : Yaml.Reader) (files : FileSystem) (env : Environment)
    (path searchDir : Option String) (henv : env.HoldsObjects) :
    (∀ fault, firstFields yaml files (path.toList ++
          ["depgraph.toml", "depgraph.yaml", "depgraph.yml", "depgraph.json"].map
            (PathName.join (searchDir.getD files.cwd))) = .error fault →
        load yaml files env path searchDir = .error fault) ∧
      (∀ given, firstFields yaml files (path.toList ++
            ["depgraph.toml", "depgraph.yaml", "depgraph.yml", "depgraph.json"].map
              (PathName.join (searchDir.getD files.cwd))) = .ok given →
          NamesNoOption given → GivesObjects given →
        ((∃ c, load yaml files env path searchDir = .ok c) ↔
          (∀ key ∈ given.keys, Known given key) ∧
            ∀ s : Setting, ∃ a, s.take (s.raw env given) = .accepted a) ∧
        ∀ c, load yaml files env path searchDir = .ok c → ∀ s : Setting,
          s.take (s.raw env given) = .accepted (s.get c) ∧
          ∀ env' given' c', env'.HoldsObjects → given'.NamesOnce → NamesNoOption given' →
            GivesObjects given' → ofGiven env' given' = .ok c' →
            s.raw env' given' = s.raw env given → s.get c' = s.get c) ∧
      ∀ c, load yaml files env path searchDir = .ok c → ∀ s : Setting, s.Within (s.get c) := by
  have hpaths : path.toList ++ ["depgraph.toml", "depgraph.yaml", "depgraph.yml",
      "depgraph.json"].map (PathName.join (searchDir.getD files.cwd)) =
      candidates files path searchDir := rfl
  rw [hpaths, load_eq]
  refine ⟨fun fault hfault => ?_, fun given hfirst _ hobjects => ?_, fun c hc s => ?_⟩
  · rw [hfault]
    rfl
  · have hiff := fun c => ofGiven_eq_ok_iff (c := c) henv (namesOnce_of_firstFields hfirst) hobjects
    rw [hfirst]
    refine ⟨⟨?_, ?_⟩, fun c hc s => ⟨((hiff c).mp hc).2 s, ?_⟩⟩
    · rintro ⟨c, hc⟩
      obtain ⟨hknown, htaken⟩ := (hiff c).mp hc
      exact ⟨hknown, fun s => ⟨_, htaken s⟩⟩
    · rintro ⟨hknown, htaken⟩
      choose value hvalue using htaken
      refine ⟨Setting.configOf value, (hiff _).mpr ⟨hknown, fun s => ?_⟩⟩
      rw [hvalue s, Setting.get_configOf]
    · intro env' given' c' henv' hgiven' _ hobjects' hc' hraw
      have htaken := ((hiff c).mp hc).2 s
      rw [← hraw, ((ofGiven_eq_ok_iff henv' hgiven' hobjects').mp hc').2 s] at htaken
      exact accepted.inj htaken
  · cases hfirst : firstFields yaml files (candidates files path searchDir) with
    | error fault =>
      rw [hfirst] at hc
      cases hc
    | ok given =>
      rw [hfirst] at hc
      exact within_of_ofGiven hc s

/-- A file that gives one field, beside the current directory. -/
def layeredFiles : FileTree where
  cwd := "/srv/work"
  files := [("/srv/etc/depgraph.yaml", "analysis:\n  path_max_depth: 7\n"),
    ("/srv/etc/depgraph.json", "?")]

/-- Variables that give the same field, another one twice, and the log level. -/
def layeredEnv : Environment :=
  [("DEPGRAPH_ANALYSIS", "\x7b\"PATH_MAX_DEPTH\": 3, \"CYCLE_MAX_LENGTH\": 4\x7d"),
    ("DEPGRAPH_ANALYSIS__CYCLE_MAX_LENGTH", "5"), ("DEPGRAPH_LOG_LEVEL", "DEBUG")]

theorem holdsObjects_of_isObject {env : Environment}
    (h : ∀ group ∈ groups, ∀ text ∈ env.spelled? (Environment.stem ++ group.1),
      (match Json.parse text with
        | .ok (.object _) => true
        | _ => false) = true) : env.HoldsObjects := by
  intro group hgroup text htext
  have hobject := h group hgroup text htext
  split at hobject
  · rename_i fields hparse
    exact ⟨fields, hparse⟩
  · cases hobject

/-- Whether the fields that were read give a single number. -/
def givesNumber (group field : String) (n : Int) : Except ConfigFault Fields → Bool
  | .ok [(group', .object [(field', .int n')])] => group' == group && field' == field && n' == n
  | _ => false

theorem eq_of_givesNumber {group field : String} {n : Int} {read : Except ConfigFault Fields}
    (h : givesNumber group field n read = true) :
    read = .ok [(group, .object [(field, .int n)])] := by
  unfold givesNumber at h
  split at h
  · simp only [Bool.and_eq_true, beq_iff_eq] at h
    obtain ⟨⟨rfl, rfl⟩, rfl⟩ := h
    rfl
  · cases h

theorem firstFields_layered :
    firstFields Yaml.parse layeredFiles.system
        (candidates layeredFiles.system none (some "../etc")) =
      .ok [("analysis", .object [("path_max_depth", .int 7)])] := by
  apply eq_of_givesNumber
  decide +kernel

theorem layeredEnv_holdsObjects : layeredEnv.HoldsObjects :=
  holdsObjects_of_isObject (by decide +kernel)

theorem givesObjects_layered :
    GivesObjects [("analysis", .object [("path_max_depth", .int 7)])] := by
  refine List.forall_mem_cons.mpr ⟨fun v hv => ?_, List.forall_mem_singleton.mpr fun v hv => ?_⟩
  · exact ⟨_, (Option.some.inj hv).symm⟩
  · have hnone : (top? [("analysis", .object [("path_max_depth", .int 7)])]
        "serialization").isNone = true := by decide +kernel
    rw [hv] at hnone
    cases hnone

/-- The file comes before the variables, a variable of its own before the object of the group, and
what nobody gives has its default; the file behind the first is not even read. -/
theorem load_layers_layered :
    layeredEnv.HoldsObjects ∧
      NamesNoOption [("analysis", .object [("path_max_depth", .int 7)])] ∧
      GivesObjects [("analysis", .object [("path_max_depth", .int 7)])] ∧
      load Yaml.parse layeredFiles.system layeredEnv none (some "../etc") = .ok {
        logLevel := .debug
        analysis := { pathMaxDepth := some 7, cycleMaxLength := some 5 } } ∧
      ∀ s : Setting,
        s.take (s.raw layeredEnv [("analysis", .object [("path_max_depth", .int 7)])]) =
          .accepted (s.get {
            logLevel := .debug
            analysis := { pathMaxDepth := some 7, cycleMaxLength := some 5 } }) := by
  have hload : load Yaml.parse layeredFiles.system layeredEnv none (some "../etc") = .ok {
      logLevel := .debug
      analysis := { pathMaxDepth := some 7, cycleMaxLength := some 5 } } := by decide +kernel
  have hoption : NamesNoOption [("analysis", .object [("path_max_depth", .int 7)])] := by decide
  obtain ⟨-, hlayers, -⟩ :=
    load_layers Yaml.parse layeredFiles.system layeredEnv none (some "../etc")
      layeredEnv_holdsObjects
  obtain ⟨-, htaken⟩ := hlayers _ firstFields_layered hoption givesObjects_layered
  exact ⟨layeredEnv_holdsObjects, hoption, givesObjects_layered, hload,
    fun s => (htaken _ hload s).1⟩

/-! ## Where the plain order of layers fails -/

/-- The raw value of a setting if only its own variable and its place in the object of the group
counted, in this order. -/
def plainRaw (s : Setting) (env : Environment) (given : Fields) : Option Value :=
  match s.group? with
  | none => s.raw env given
  | some group =>
    (s.given? given).or <|
      ((env.spelled? (Environment.singleName group s.name)).map Value.str).or
        ((env.jsonFields group).spelled? s.name)

/-- A variable whose name goes on behind that of a setting. -/
def deepVariable : Environment :=
  [("DEPGRAPH_ANALYSIS__PATH_MAX_DEPTH__X", "1")]

/-- An object that holds a field in two spellings, and the variable of that field. -/
def twoSpellings : Environment :=
  [("DEPGRAPH_ANALYSIS", "\x7b\"path_max_depth\": 3, \"PATH_MAX_DEPTH\": 4\x7d"),
    ("DEPGRAPH_ANALYSIS__PATH_MAX_DEPTH", "5")]

/-- Nothing but the current directory. -/
def noFiles : FileSystem :=
  FileTree.system {}

theorem spelled?_deepVariable (name : String) :
    deepVariable.spelled? name =
      if "depgraph_analysis__path_max_depth__x" = name then some "1" else none := by
  have hlower : Text.lower "DEPGRAPH_ANALYSIS__PATH_MAX_DEPTH__X" =
      "depgraph_analysis__path_max_depth__x" := by decide +kernel
  unfold Assoc.spelled? deepVariable
  rw [Assoc.last?_cons, hlower]
  simp

/-- A variable that goes on behind the name of a setting spoils it though every setting would have
its default, and a second spelling in the object of a group comes before the variable. -/
theorem plainRaw_fails :
    (deepVariable.HoldsObjects ∧
      (∀ s : Setting, s.take (plainRaw s deepVariable []) = .accepted (s.get {})) ∧
      load Yaml.parse noFiles deepVariable none none =
        .error (.invalid [⟨[.field "analysis", .field "path_max_depth"], .notInt⟩])) ∧
    twoSpellings.HoldsObjects ∧
      Setting.take .pathMaxDepth (plainRaw .pathMaxDepth twoSpellings []) = .accepted (some 5) ∧
      load Yaml.parse noFiles twoSpellings none none =
        .ok { analysis := { pathMaxDepth := some 4 } } := by
  refine ⟨⟨holdsObjects_of_isObject (by decide +kernel), fun s => ?_, by decide +kernel⟩,
    holdsObjects_of_isObject (by decide +kernel), ?_, by decide +kernel⟩
  · have hnone : plainRaw s deepVariable [] = none := by
      cases s <;> simp [plainRaw, Setting.raw, Setting.group?, Setting.given?, Setting.ambient?,
        Setting.name, top?, topName?, Assoc.has, Assoc.keys, Environment.jsonFields,
        Environment.singleName, Environment.stem, spelled?_deepVariable]
    rw [hnone]
    rfl
  · show (_ : Checked (Option Int)) = _
    decide +kernel

end Config

end CodeAtlas
