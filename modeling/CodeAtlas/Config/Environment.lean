import CodeAtlas.Config.Schema
import CodeAtlas.Fault
import CodeAtlas.Json.Reader
import CodeAtlas.Text.Case
/-!
# Settings from the environment

Variables whose names start with the program's own stem supply settings, whatever the case of their
letters. A group is given as JSON in one variable, field by field in several, or both; then the
single fields win. What a caller gives wins over the environment, field by field. The rules are those
that pydantic-settings documents.
-/

namespace CodeAtlas

/-- Variables with their values, in the order in which they were set. -/
abbrev Environment := Assoc String

namespace Fields

mutual

/-- Lays `new` over a value: two objects are merged, anything else replaces what was there. -/
def overlayValue (old : Option Value) : Value → Value
  | .object new =>
    match old with
    | some (.object fields) => .object (overlay fields new)
    | _ => .object new
  | v => v

/-- Lays fields over others, merging objects of the same name. -/
def overlay (fields : Fields) : List (String × Value) → Fields
  | [] => fields
  | (k, v) :: rest => overlay (Assoc.set fields k (overlayValue (Assoc.get? fields k) v)) rest

end

/-- Sets a value at the end of a path of names, making the objects on the way. Where something else
than an object is in the way nothing is set. -/
def setPath (fields : Fields) (path : List String) (v : Value) : Fields :=
  match path with
  | [] => fields
  | [key] => fields.set key v
  | key :: rest =>
    match fields.get? key with
    | none => fields.set key (.object (setPath [] rest v))
    | some (.object inner) => fields.set key (.object (setPath inner rest v))
    | some _ => fields

/-- Gives the fields whose names differ only in case from one of `names` that name; of several the
last counts. -/
def canonical (names : List String) (fields : Fields) : Fields :=
  Assoc.ofEntries <| fields.map fun (k, v) =>
    ((names.find? fun name => name == Text.lower k).getD k, v)

end Fields

namespace Environment

/-- What the names of all variables of the program start with. -/
def stem : String := "depgraph_"

/-- What separates the parts of a name. -/
def delimiter : List Char := ['_', '_']

/-- The variables under small names; of several that differ only in case the last counts. -/
def lowered (env : Environment) : Environment :=
  Assoc.ofEntries (env.map fun (name, v) => (Text.lower name, v))

/-- Splits a name at each delimiter; `part` holds the characters of the current part, last
first. -/
def splitName (part : List Char) : List Char → List String
  | '_' :: '_' :: rest => String.ofList part.reverse :: splitName [] rest
  | c :: rest => splitName (c :: part) rest
  | [] => [String.ofList part.reverse]

/-- The path that a variable gives below a group, if it belongs to the group. -/
def pathBelow? (group name : String) : Option (List String) :=
  (Json.afterWord? ((stem ++ group).toList ++ delimiter) name.toList).map (splitName [])

/-- The fields of a group that single variables give. -/
def singleFields (env : Environment) (group : String) : Fields :=
  env.foldl (fun fields (name, v) =>
    match pathBelow? group name with
    | some path => Fields.setPath fields path (.str v)
    | none => fields) []

/-- What the environment gives for a group. A variable that holds JSON other than an object stands
for the whole group, and one that holds null for nothing. -/
def groupValue (env : Environment) (group : String) : Except ConfigFault (Option Value) :=
  match env.get? (stem ++ group) with
  | none =>
    match env.singleFields group with
    | [] => .ok none
    | fields => .ok (some (.object fields))
  | some text =>
    match Json.parse text with
    | .error _ => .error (.unreadableVariable group)
    | .ok .null => .ok none
    | .ok (.object fields) => .ok (some (.object (Fields.overlay fields (env.singleFields group))))
    | .ok v => .ok (some v)

/-- What the environment gives for a group, with the names of its fields settled. -/
def groupEntry (env : Environment) (group : String) (names : List String) :
    Except ConfigFault Fields := do
  match ← env.groupValue group with
  | none => return []
  | some (.object fields) => return [(group, .object (Fields.canonical names fields))]
  | some v => return [(group, v)]

def fields (env : Environment) : Except ConfigFault Fields := do
  let env := env.lowered
  let level : Fields :=
    match env.get? (stem ++ "log_level") with
    | some v => [("log_level", .str v)]
    | none => []
  let analysis ← env.groupEntry "analysis" AnalysisSettings.fieldNames
  let serialization ← env.groupEntry "serialization" ExportSettings.fieldNames
  return level ++ analysis ++ serialization

end Environment

namespace Config

/-- Gives a top field its proper name: where no field has it, the first that differs from it only in
case. -/
def settleName (given : Fields) (key : String) : String :=
  let name := Text.lower key
  if fieldNames.contains name && !given.has name
      && given.keys.find? (fun k => Text.lower k == name) == some key then name
  else key

/-- The given fields under their proper names. -/
def settle (given : Fields) : Fields :=
  given.map fun (k, v) => (settleName given k, v)

/-- The settings made of given fields over the environment. The settings class takes options of its
own under names that start with an underscore; here such names are unknown like any other. -/
def ofGiven (env : Environment) (given : Fields) : Except ConfigFault Config := do
  let base ← env.fields
  match ofFields (Fields.overlay base (settle given)) with
  | .accepted config => return config
  | .rejected issues => throw (.invalid issues)

end Config

end CodeAtlas
