import CodeAtlas.Proofs.Config.Variables
import CodeAtlas.Proofs.Document.Schema

/-!
# Settings one by one

The schema checks every setting by itself. All fields are taken exactly when each setting is and
nothing unknown stands at the top, and a setting that is not there has its default.
-/

namespace CodeAtlas

open Checked

deriving instance DecidableEq for Checked

theorem Check.optional_eq_accepted {α : Type} {fields : Fields} {name : String} {absent a : α}
    {check : Value → Checked α} :
    optional fields name absent check = .accepted a ↔
      ((fields.get? name).map check).getD (.accepted absent) = .accepted a := by
  unfold optional
  cases fields.get? name with
  | none => rfl
  | some v => exact under_eq_accepted

/-! ## The settings -/

/-- The settings that are checked by themselves. -/
inductive Setting where
  | logLevel
  | pathMaxDepth
  | cycleMaxLength
  | uniqueCycles
  | dotGraphName
  | dotIndent
  | dotRankDir
  | onDanglingEdge
  | jsonIndent
  deriving DecidableEq

namespace Setting

/-- The group that a setting belongs to; the log level stands alone. -/
def group? : Setting → Option String
  | .logLevel => none
  | .pathMaxDepth | .cycleMaxLength | .uniqueCycles => some "analysis"
  | .dotGraphName | .dotIndent | .dotRankDir | .onDanglingEdge | .jsonIndent => some "serialization"

def name : Setting → String
  | .logLevel => "log_level"
  | .pathMaxDepth => "path_max_depth"
  | .cycleMaxLength => "cycle_max_length"
  | .uniqueCycles => "unique_cycles"
  | .dotGraphName => "dot_graph_name"
  | .dotIndent => "dot_indent"
  | .dotRankDir => "dot_rankdir"
  | .onDanglingEdge => "on_dangling_edge"
  | .jsonIndent => "json_indent"

abbrev Range : Setting → Type
  | .logLevel => LogLevel
  | .pathMaxDepth => Option Int
  | .cycleMaxLength => Option Int
  | .uniqueCycles => Bool
  | .dotGraphName => String
  | .dotIndent => Int
  | .dotRankDir => Option RankDir
  | .onDanglingEdge => DanglingPolicy
  | .jsonIndent => Option Int

def check : (s : Setting) → Value → Checked s.Range
  | .logLevel => Check.word LogLevel .notAChoice
  | .pathMaxDepth => Check.nullable (Check.intBetween 1 10000)
  | .cycleMaxLength => Check.nullable (Check.intBetween 1 10000)
  | .uniqueCycles => Check.bool
  | .dotGraphName => Check.nonemptyText
  | .dotIndent => Check.intBetween 0 8
  | .dotRankDir => Check.nullable (Check.word RankDir .notAChoice)
  | .onDanglingEdge => Check.word DanglingPolicy .notAChoice
  | .jsonIndent => Check.nullable (Check.intBetween 0 8)

def get (c : Config) : (s : Setting) → s.Range
  | .logLevel => c.logLevel
  | .pathMaxDepth => c.analysis.pathMaxDepth
  | .cycleMaxLength => c.analysis.cycleMaxLength
  | .uniqueCycles => c.analysis.uniqueCycles
  | .dotGraphName => c.serialization.dotGraphName
  | .dotIndent => c.serialization.dotIndent
  | .dotRankDir => c.serialization.dotRankDir
  | .onDanglingEdge => c.serialization.onDanglingEdge
  | .jsonIndent => c.serialization.jsonIndent

def configOf (value : (s : Setting) → s.Range) : Config where
  logLevel := value .logLevel
  analysis :=
    { pathMaxDepth := value .pathMaxDepth, cycleMaxLength := value .cycleMaxLength
      uniqueCycles := value .uniqueCycles }
  serialization :=
    { dotGraphName := value .dotGraphName, dotIndent := value .dotIndent
      dotRankDir := value .dotRankDir, onDanglingEdge := value .onDanglingEdge
      jsonIndent := value .jsonIndent }

theorem get_configOf (value : (s : Setting) → s.Range) (s : Setting) :
    get (configOf value) s = value s := by
  cases s <;> rfl

/-- What becomes of a raw value; without one the default stands. -/
def take (s : Setting) (raw : Option Value) : Checked s.Range :=
  (raw.map s.check).getD (.accepted (get {} s))

/-- No check looks into an object. -/
theorem check_outline (s : Setting) (v : Value) : s.check v.outline = s.check v := by
  cases v with
  | object fields => cases s <;> rfl
  | _ => rfl

theorem take_congr (s : Setting) {raw raw' : Option Value}
    (h : raw.map Value.outline = raw'.map Value.outline) : s.take raw = s.take raw' := by
  have hcheck : ∀ raw : Option Value, raw.map s.check = (raw.map Value.outline).map s.check := by
    intro raw
    rw [Option.map_map]
    congr 1
    funext v
    exact (s.check_outline v).symm
  unfold take
  rw [hcheck raw, h, ← hcheck raw']

/-- The declared range of a setting, where its type does not say it. -/
def Within : (s : Setting) → s.Range → Prop
  | .pathMaxDepth, bound => ∀ n ∈ bound, 1 ≤ n ∧ n ≤ 10000
  | .cycleMaxLength, bound => ∀ n ∈ bound, 1 ≤ n ∧ n ≤ 10000
  | .dotGraphName, name => name ≠ ""
  | .dotIndent, width => 0 ≤ width ∧ width ≤ 8
  | .jsonIndent, width => ∀ n ∈ width, 0 ≤ n ∧ n ≤ 8
  | _, _ => True

theorem intBetween_accepted {lo hi i : Int} {v : Value}
    (h : Check.intBetween lo hi v = .accepted i) : lo ≤ i ∧ i ≤ hi := by
  obtain ⟨j, -, hj⟩ := andThen_eq_accepted.mp h
  split at hj
  · cases hj
  · split at hj
    · cases hj
    · obtain rfl := Checked.accepted.inj hj
      omega

theorem nullable_intBetween_accepted {lo hi : Int} {v : Value} {bound : Option Int}
    (h : Check.nullable (Check.intBetween lo hi) v = .accepted bound) :
    ∀ n ∈ bound, lo ≤ n ∧ n ≤ hi := by
  unfold Check.nullable at h
  split at h
  · obtain rfl := Checked.accepted.inj h
    exact fun n hn => nomatch hn
  · obtain ⟨i, hi, rfl⟩ := map_eq_accepted.mp h
    intro n hn
    obtain rfl := Option.some.inj hn
    exact intBetween_accepted hi

theorem within_of_check {s : Setting} {v : Value} {a : s.Range} (h : s.check v = .accepted a) :
    s.Within a := by
  cases s with
  | pathMaxDepth => exact nullable_intBetween_accepted h
  | cycleMaxLength => exact nullable_intBetween_accepted h
  | dotGraphName => exact (Check.nonemptyText_eq_accepted.mp h).2
  | dotIndent => exact intBetween_accepted h
  | jsonIndent => exact nullable_intBetween_accepted h
  | _ => exact trivial

/-- Every default is in its own range. -/
theorem within_default (s : Setting) : s.Within (get {} s) := by
  cases s <;> simp [Within, get]

theorem within_of_take {s : Setting} {raw : Option Value} {a : s.Range}
    (h : s.take raw = .accepted a) : s.Within a := by
  cases raw with
  | none => exact Checked.accepted.inj h ▸ within_default s
  | some v => exact within_of_check h

/-- Where a setting stands among all fields. -/
def find? (s : Setting) (fields : Fields) : Option Value :=
  match s.group? with
  | none => fields.get? s.name
  | some group => (fields.below group).get? s.name

end Setting

/-! ## All settings together -/

/-- The groups of settings with the names of their fields. -/
def Config.groups : List (String × List String) :=
  [("analysis", AnalysisSettings.fieldNames), ("serialization", ExportSettings.fieldNames)]

theorem AnalysisSettings.ofFields_nil : ofFields [] = .accepted {} := rfl

theorem ExportSettings.ofFields_nil : ofFields [] = .accepted {} := rfl

theorem AnalysisSettings.ofFields_eq_accepted {fields : Fields} {a : AnalysisSettings} :
    ofFields fields = .accepted a ↔
      Setting.take .pathMaxDepth (fields.get? "path_max_depth") = .accepted a.pathMaxDepth ∧
      Setting.take .cycleMaxLength (fields.get? "cycle_max_length") = .accepted a.cycleMaxLength ∧
      Setting.take .uniqueCycles (fields.get? "unique_cycles") = .accepted a.uniqueCycles := by
  unfold ofFields
  simp only [map_eq_accepted, both_eq_accepted, Check.optional_eq_accepted]
  constructor
  · rintro ⟨p, ⟨⟨hdepth, hlength⟩, hunique⟩, rfl⟩
    exact ⟨hdepth, hlength, hunique⟩
  · rintro ⟨hdepth, hlength, hunique⟩
    exact ⟨((a.pathMaxDepth, a.cycleMaxLength), a.uniqueCycles), ⟨⟨hdepth, hlength⟩, hunique⟩, rfl⟩

theorem ExportSettings.ofFields_eq_accepted {fields : Fields} {e : ExportSettings} :
    ofFields fields = .accepted e ↔
      Setting.take .dotGraphName (fields.get? "dot_graph_name") = .accepted e.dotGraphName ∧
      Setting.take .dotIndent (fields.get? "dot_indent") = .accepted e.dotIndent ∧
      Setting.take .dotRankDir (fields.get? "dot_rankdir") = .accepted e.dotRankDir ∧
      Setting.take .onDanglingEdge (fields.get? "on_dangling_edge") = .accepted e.onDanglingEdge ∧
      Setting.take .jsonIndent (fields.get? "json_indent") = .accepted e.jsonIndent := by
  unfold ofFields
  simp only [map_eq_accepted, both_eq_accepted, Check.optional_eq_accepted]
  constructor
  · rintro ⟨p, ⟨⟨hname, hindent⟩, hrank, hdangling, hjson⟩, rfl⟩
    exact ⟨hname, hindent, hrank, hdangling, hjson⟩
  · rintro ⟨hname, hindent, hrank, hdangling, hjson⟩
    exact ⟨((e.dotGraphName, e.dotIndent), (e.dotRankDir, (e.onDanglingEdge, e.jsonIndent))),
      ⟨⟨hname, hindent⟩, hrank, hdangling, hjson⟩, rfl⟩

namespace Config

theorem checkUnknown_eq_accepted {fields : Fields} {u : Unit} :
    checkUnknown fields = .accepted u ↔ ∀ key ∈ fields.keys, key ∈ fieldNames := by
  have hnone : (fields.filter fun f => !fieldNames.contains f.1) = [] ↔
      ∀ key ∈ fields.keys, key ∈ fieldNames := by
    simp [List.filter_eq_nil_iff, Assoc.keys]
  rw [← hnone]
  unfold checkUnknown
  split
  · rename_i hempty
    exact iff_of_true rfl hempty
  · rename_i hne
    refine iff_of_false (fun h => ?_) hne
    cases h

/-- A group that is left out is checked as an empty one. -/
theorem optional_record {α : Type} {check : Fields → Checked α} {absent a : α} {fields : Fields}
    {group : String} (habsent : check [] = .accepted absent)
    (hobject : ∀ v, fields.get? group = some v → ∃ inner, v = .object inner) :
    Check.optional fields group absent (Check.record check) = .accepted a ↔
      check (fields.below group) = .accepted a := by
  rw [Check.optional_eq_accepted]
  unfold Fields.below
  cases hget : fields.get? group with
  | none =>
    show Checked.accepted absent = _ ↔ check [] = _
    rw [habsent]
  | some v =>
    obtain ⟨inner, rfl⟩ := hobject v hget
    rfl

theorem exists_of_optional_record {α : Type} {check : Fields → Checked α} {absent a : α}
    {fields : Fields} {group : String} (habsent : check [] = .accepted absent)
    (h : Check.optional fields group absent (Check.record check) = .accepted a) :
    ∃ inner, check inner = .accepted a := by
  rw [Check.optional_eq_accepted] at h
  cases hget : fields.get? group with
  | none =>
    rw [hget] at h
    exact ⟨[], habsent.trans h⟩
  | some v =>
    rw [hget] at h
    obtain ⟨inner, -, hinner⟩ := Check.record_eq_accepted.mp h
    exact ⟨inner, hinner⟩

/-- Whatever is taken is in its range. -/
theorem within_of_ofFields {fields : Fields} {c : Config} (h : ofFields fields = .accepted c)
    (s : Setting) : s.Within (s.get c) := by
  unfold ofFields at h
  simp only [map_eq_accepted, both_eq_accepted] at h
  obtain ⟨p, ⟨⟨⟨hlevel, hanalysis⟩, hserialization⟩, -⟩, rfl⟩ := h
  obtain ⟨analysis, hanalysis⟩ := exists_of_optional_record AnalysisSettings.ofFields_nil hanalysis
  obtain ⟨serialization, hserialization⟩ :=
    exists_of_optional_record ExportSettings.ofFields_nil hserialization
  obtain ⟨hdepth, hlength, hunique⟩ := AnalysisSettings.ofFields_eq_accepted.mp hanalysis
  obtain ⟨hname, hindent, hrank, hdangling, hjson⟩ :=
    ExportSettings.ofFields_eq_accepted.mp hserialization
  cases s with
  | logLevel => exact trivial
  | pathMaxDepth => exact Setting.within_of_take hdepth
  | cycleMaxLength => exact Setting.within_of_take hlength
  | uniqueCycles => exact trivial
  | dotGraphName => exact Setting.within_of_take hname
  | dotIndent => exact Setting.within_of_take hindent
  | dotRankDir => exact trivial
  | onDanglingEdge => exact trivial
  | jsonIndent => exact Setting.within_of_take hjson

/-- Where the groups are objects, the check of all fields is the checks of all settings. -/
theorem ofFields_eq_accepted {fields : Fields} {c : Config}
    (hobject : ∀ group ∈ groups, ∀ v, fields.get? group.1 = some v → ∃ inner, v = .object inner) :
    ofFields fields = .accepted c ↔ (∀ key ∈ fields.keys, key ∈ fieldNames) ∧
      ∀ s : Setting, s.take (s.find? fields) = .accepted (s.get c) := by
  have hanalysis := hobject _ (List.mem_cons_self)
  have hserialization := hobject _ (List.mem_cons_of_mem _ List.mem_cons_self)
  unfold ofFields
  simp only [map_eq_accepted, both_eq_accepted, checkUnknown_eq_accepted,
    optional_record AnalysisSettings.ofFields_nil hanalysis,
    optional_record ExportSettings.ofFields_nil hserialization,
    AnalysisSettings.ofFields_eq_accepted, ExportSettings.ofFields_eq_accepted,
    Check.optional_eq_accepted]
  constructor
  · rintro ⟨p, ⟨⟨⟨hlevel, hdepth, hlength, hunique⟩, hname, hindent, hrank, hdangling, hjson⟩,
      hknown⟩, rfl⟩
    refine ⟨hknown, fun s => ?_⟩
    cases s
    · exact hlevel
    · exact hdepth
    · exact hlength
    · exact hunique
    · exact hname
    · exact hindent
    · exact hrank
    · exact hdangling
    · exact hjson
  · rintro ⟨hknown, hsettings⟩
    exact ⟨(((c.logLevel, c.analysis), c.serialization), ()),
      ⟨⟨⟨hsettings .logLevel, hsettings .pathMaxDepth, hsettings .cycleMaxLength,
        hsettings .uniqueCycles⟩, hsettings .dotGraphName, hsettings .dotIndent,
        hsettings .dotRankDir, hsettings .onDanglingEdge, hsettings .jsonIndent⟩, hknown⟩, rfl⟩

end Config

end CodeAtlas
