import CodeAtlas.Config.Environment
import CodeAtlas.Toml.Reader
import CodeAtlas.Yaml.Tree
/-!
# Settings from files

A settings file is chosen by its path or found under one of the usual names, and read by the format
that the end of its name tells. What the paths lead to is up to the file system, and YAML is read by
a reader that the caller brings along.
-/

namespace CodeAtlas

/-! ## Paths -/

namespace PathName

def splitSlashes (part : List Char) : List Char → List (List Char)
  | [] => [part.reverse]
  | c :: rest =>
    if c == '/' then part.reverse :: splitSlashes [] rest else splitSlashes (c :: part) rest

/-- The parts of a path; empty ones and single dots do not count. -/
def parts (path : String) : List String :=
  ((splitSlashes [] path.toList).map String.ofList).filter fun p => !p.isEmpty && p != "."

/-- What an absolute path starts with: a slash, or just two. -/
def root (path : String) : String :=
  match path.toList with
  | '/' :: '/' :: '/' :: _ => "/"
  | '/' :: '/' :: _ => "//"
  | '/' :: _ => "/"
  | _ => ""

/-- A path in the form in which it is shown and looked up. -/
def normal (path : String) : String :=
  let shown := root path ++ String.intercalate "/" (parts path)
  if shown.isEmpty then "." else shown

/-- The path of a name inside a directory. -/
def join (dir name : String) : String :=
  match dir.toList.getLast? with
  | none => name
  | some c => if c == '/' then dir ++ name else dir ++ "/" ++ name

/-- The end of a name from its last dot on; empty if the dot is its first or last character. -/
def suffix (path : String) : String :=
  let name := ((parts path).getLast?.getD "").toList
  let tail := (name.reverse.takeWhile (· != '.')).reverse
  let head := name.take (name.length - tail.length - 1)
  if tail.length < name.length && !head.isEmpty && !tail.isEmpty then String.ofList ('.' :: tail)
  else ""

end PathName

/-! ## File systems -/

inductive FileEntry where
  | directory
  | file (text : String)
  /-- A file that may not be read, or whose bytes spell no text. -/
  | unreadable
  deriving DecidableEq, Inhabited

/-- Where files are looked up: a current directory, and what stands at each path in normal form. A
path may be absolute or relative, climb with two dots and pass through links. -/
structure FileSystem where
  cwd : String
  find? : String → Option FileEntry

def FileSystem.entry? (files : FileSystem) (path : String) : Option FileEntry :=
  files.find? (PathName.normal path)

/-- The text of a file as it is read: every form of line end becomes a newline. -/
def FileEntry.unifyLineEnds : List Char → List Char
  | '\r' :: '\n' :: rest => '\n' :: unifyLineEnds rest
  | '\r' :: rest => '\n' :: unifyLineEnds rest
  | c :: rest => c :: unifyLineEnds rest
  | [] => []

namespace Config

/-! ## YAML data -/

/-- The settings that are one of a few words. -/
def choiceNames : List String := ["log_level", "dot_rankdir", "on_dangling_edge"]

/-- What the check of a setting of this name takes a scalar for. Bytes count as the text that they
spell, except where one of a few words is asked for. Bytes that spell no text are refused like a
list, and so are moments. -/
def scalarValue (name : String) : Yaml.Scalar → Value
  | .null => .null
  | .bool b => .bool b
  | .int i => .int i
  | .float x => .float x
  | .str s => .str s
  | .moment m => m.toValue
  | .binary none => .list []
  | .binary (some s) => if choiceNames.contains (Text.lower name) then .list [] else .str s

mutual

/-- What the check of a setting of this name takes a tree for. Entries whose keys are no texts
cannot be asked for and are left out. -/
def treeValue (name : String) : Yaml.Tree → Value
  | .scalar s => scalarValue name s
  | .list items => .list (itemValues items)
  | .set _ => .list []
  | .mapping entries => .object (Assoc.ofEntries (entryValues entries))

def itemValues : List Yaml.Tree → List Value
  | [] => []
  | t :: rest => treeValue "" t :: itemValues rest

def entryValues : List (Option String × Yaml.Tree) → List (String × Value)
  | [] => []
  | (some key, t) :: rest => (key, treeValue key t) :: entryValues rest
  | (none, _) :: rest => entryValues rest

end

/-- The fields that a YAML tree gives; a vacant one gives none. -/
def treeFields (t : Yaml.Tree) : Except ConfigFault Fields :=
  if t.isVacant then .ok []
  else
    match t with
    | .mapping entries =>
      if entries.all fun e => e.1.isSome then .ok (Assoc.ofEntries (entryValues entries))
      else .error .nonTextKey
    | t => .error (.notMapping t.shapeWord)

/-! ## Files -/

def givenFields : Value → Except ConfigFault Fields
  | .object fields => .ok fields
  | v => .error (.notMapping v.shapeWord)

variable (yaml : Yaml.Reader) (files : FileSystem)

/-- The fields in the text of a file, by the end of its name. -/
def readFields (suffix text : String) : Except ConfigFault Fields :=
  if suffix == ".toml" then
    match Toml.parse text with
    | some fields => .ok fields
    | none => .error .badToml
  else if suffix == ".yaml" || suffix == ".yml" then
    match yaml text with
    | some tree => treeFields tree
    | none => .error .badYaml
  else if suffix == ".json" then
    match Json.parse text with
    | .ok v => givenFields v
    | .error fault => .error (.badJson fault)
  else .error (.unsupportedFormat suffix)

/-- The settings of a file over the environment. The file has to exist and to be readable before its
format matters. -/
def ofFile (env : Environment) (path : String) : Except ConfigFault Config :=
  match files.entry? path with
  | none => .error (.fileMissing (PathName.normal path))
  | some .directory => .error .isDirectory
  | some .unreadable => .error .unreadableFile
  | some (.file text) => do
    let text := String.ofList (FileEntry.unifyLineEnds text.toList)
    let given ← readFields yaml (Text.lower (PathName.suffix path)) text
    ofGiven env given

/-- The names under which a settings file is looked for, in this order. -/
def usualNames : List String :=
  ["depgraph.toml", "depgraph.yaml", "depgraph.yml", "depgraph.json"]

/-- The paths that are tried: the one asked for, then the usual names in the search directory or
else in the current one. -/
def candidates (path searchDir : Option String) : List String :=
  path.toList ++ usualNames.map (PathName.join (searchDir.getD files.cwd))

/-- The settings of the first file that exists, or those of the environment alone. -/
def load (env : Environment) (path searchDir : Option String) : Except ConfigFault Config :=
  match (candidates files path searchDir).find? fun p => (files.entry? p).isSome with
  | some found => ofFile yaml files env found
  | none => ofGiven env []

end Config

end CodeAtlas
