import CodeAtlas.Config.Files
/-!
# File systems as data

A file system without links, written down as the directories and the texts that it holds.
-/

namespace CodeAtlas

/-- Directories and files by their paths, absolute or from the current directory. The paths do not
climb. -/
structure FileTree where
  cwd : String := "/"
  dirs : List String := []
  files : Assoc String := []
  deriving Inhabited

namespace FileTree

/-- The parts from the root on that a path starts at. -/
def base (t : FileTree) (path : String) : List String :=
  if (PathName.root path).isEmpty then PathName.parts t.cwd else []

/-- The place of a path that does not climb. -/
def place (t : FileTree) (path : String) : List String :=
  t.base path ++ PathName.parts path

/-- What stands at a place; the directories on the way to anything exist. -/
def entryAt? (t : FileTree) (place : List String) : Option FileEntry :=
  match t.files.find? fun f => t.place f.1 == place with
  | some (_, text) => some (.file text)
  | none =>
    let known := PathName.parts t.cwd :: (t.dirs ++ t.files.keys).map t.place
    if known.any (place.isPrefixOf ·) then some .directory else none

/-- Follows the parts of a path from a place; only a directory can be gone through, and the root is
above itself. -/
def follow? (t : FileTree) (place : List String) : List String → Option FileEntry
  | [] => t.entryAt? place
  | p :: rest =>
    match t.entryAt? place with
    | some .directory => t.follow? (if p == ".." then place.dropLast else place ++ [p]) rest
    | _ => none

/-- The file system that a tree describes. -/
def system (t : FileTree) : FileSystem where
  cwd := t.cwd
  find? path := t.follow? (t.base path) (PathName.parts path)

end FileTree

end CodeAtlas
