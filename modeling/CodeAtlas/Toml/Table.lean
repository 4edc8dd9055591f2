import CodeAtlas.Value
/-!
# Tables under construction

A TOML document fills a tree of tables one statement at a time. A table may be opened by a header
only once, what is written as one value may not be added to later, and nothing is overwritten.
-/

namespace CodeAtlas.Toml

abbrev Key := List String

/-- The tables read so far and what may no longer be done to them. -/
structure Tables where
  root : Fields := []
  /-- Tables that were opened by a header, or by dotted keys of an earlier section. -/
  opened : List Key := []
  /-- Tables that dotted keys of the current section pass through. -/
  passed : List Key := []
  /-- Values that are complete, with everything below them. -/
  frozen : List Key := []
  deriving Inhabited

/-- Applies `f` to the table at the end of a path, making the tables on the way. In a list of tables
the last one is meant. -/
def updateAt (f : Fields → Option Fields) : Key → Fields → Option Fields
  | [], fields => f fields
  | k :: rest, fields =>
    match fields.get? k with
    | none => (updateAt f rest []).map fun inner => fields.set k (.object inner)
    | some (.object inner) =>
      (updateAt f rest inner).map fun inner => fields.set k (.object inner)
    | some (.list items) =>
      match items.getLast? with
      | some (.object inner) =>
        (updateAt f rest inner).map fun inner =>
          fields.set k (.list (items.dropLast ++ [.object inner]))
      | _ => none
    | some _ => none

/-- Adds an entry that is not there yet. -/
def addEntry (key : String) (v : Value) (fields : Fields) : Option Fields :=
  if fields.has key then none else some (fields.set key v)

/-- Adds an empty table to a list of tables, which is made if need be. -/
def addItem (key : String) (fields : Fields) : Option Fields :=
  match fields.get? key with
  | none => some (fields.set key (.list [.object []]))
  | some (.list items) => some (fields.set key (.list (items ++ [.object []])))
  | some _ => none

/-- Whether a value stands for a whole subtree. -/
def isCompound : Value → Bool
  | .list _ => true
  | .object _ => true
  | _ => false

/-- The tables that a dotted key passes through, from the section of `header` on. -/
def passedKeys (header key : Key) : List Key :=
  (List.range (key.length - 1)).map fun i => header ++ key.take (i + 1)

namespace Tables

/-- Whether a key lies at or below something complete. -/
def isFrozen (t : Tables) (key : Key) : Bool :=
  !key.isEmpty && t.frozen.any (·.isPrefixOf key)

/-- Whether a table may not be opened again. -/
def isOpened (t : Tables) (key : Key) : Bool :=
  !key.isEmpty && t.opened.contains key

/-- Starts a new section: the tables passed through so far are closed to headers. -/
def endSection (t : Tables) : Tables :=
  { t with opened := t.opened ++ t.passed, passed := [] }

/-- Adds an entry to the section of `header`. -/
def put (t : Tables) (header key : Key) (v : Value) : Option Tables :=
  match key.getLast? with
  | none => none
  | some stem =>
    let parent := header ++ key.dropLast
    let passed := passedKeys header key
    if passed.any t.isOpened || t.isFrozen parent then none
    else (updateAt (addEntry stem v) parent t.root).map fun root =>
      { t with
        root
        passed := t.passed ++ passed
        frozen := if isCompound v then t.frozen ++ [header ++ key] else t.frozen }

def openTable (t : Tables) (key : Key) : Option Tables :=
  if t.isOpened key || t.isFrozen key then none
  else (updateAt some key t.root).map fun root => { t with root, opened := t.opened ++ [key] }

/-- Adds a table to a list of tables by its header; what lies below is open again. -/
def openItem (t : Tables) (key : Key) : Option Tables :=
  match key.getLast? with
  | none => none
  | some stem =>
    if t.isFrozen key then none
    else (updateAt (addItem stem) key.dropLast t.root).map fun root =>
      { t with
        root
        opened := t.opened.filter (!key.isPrefixOf ·) ++ [key]
        frozen := t.frozen.filter (!key.isPrefixOf ·) }

end Tables

end CodeAtlas.Toml
