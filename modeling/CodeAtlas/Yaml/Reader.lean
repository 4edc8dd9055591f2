import CodeAtlas.Yaml.Token
/-!
# Reading YAML text

A reader for the part of YAML that settings files are written in: block mappings and lists by
indentation, the bracketed forms, and scalars. Anchors, tags, block scalars, directives, and
explicit and merge keys count as faults here. Settings may be read with any `Reader`; nothing that is
proved of them rests on this one.
-/

namespace CodeAtlas.Yaml

def Tree.scalar? : Tree → Option Scalar
  | .scalar v => some v
  | _ => none

def Tree.empty : Tree := .scalar .null

/-! ## Bracketed collections -/

mutual

/-- A value inside brackets. -/
def readFlow : Nat → Cursor → Reading Tree
  | 0, _ => none
  | fuel + 1, cur =>
    match cur.rest with
    | '[' :: _ => readFlowItems fuel [] (cur.skip 1).gap
    | '\x7b' :: _ => readFlowEntries fuel [] (cur.skip 1).gap
    | _ => (readScalar true 0 cur).map fun (v, cur) => (.scalar v, cur)

/-- The value behind a colon inside brackets; it may be left out. -/
def readFlowValue : Nat → Cursor → Reading Tree
  | 0, _ => none
  | fuel + 1, cur =>
    match cur.rest with
    | c :: _ => if c == ',' || c == ']' || c == '\x7d' then some (.empty, cur) else readFlow fuel cur
    | [] => none

/-- The items of a list in brackets; a pair among them is a mapping of its own. -/
def readFlowItems : Nat → List Tree → Cursor → Reading Tree
  | 0, _, _ => none
  | fuel + 1, read, cur =>
    match cur.rest with
    | ']' :: _ => some (.list read.reverse, cur.skip 1)
    | _ =>
      match readFlow fuel cur with
      | none => none
      | some (item, cur) =>
        let cur := cur.gap
        let paired : Option (Tree × Cursor) :=
          match cur.rest with
          | ':' :: _ =>
            match item.scalar?, readFlowValue fuel (cur.skip 1).gap with
            | some key, some (v, cur) => some (.mapping [(key.text?, v)], cur.gap)
            | _, _ => none
          | _ => some (item, cur)
        match paired with
        | none => none
        | some (item, cur) =>
          match cur.rest with
          | ',' :: _ => readFlowItems fuel (item :: read) (cur.skip 1).gap
          | ']' :: _ => some (.list (item :: read).reverse, cur.skip 1)
          | _ => none

/-- The entries of a mapping in braces; a key alone has no value. -/
def readFlowEntries : Nat → List (Option String × Tree) → Cursor → Reading Tree
  | 0, _, _ => none
  | fuel + 1, read, cur =>
    match cur.rest with
    | '\x7d' :: _ => some (.mapping read.reverse, cur.skip 1)
    | _ =>
      match readFlow fuel cur with
      | none => none
      | some (key, cur) =>
        let cur := cur.gap
        let entry : Option (Tree × Cursor) :=
          match cur.rest with
          | ':' :: _ => (readFlowValue fuel (cur.skip 1).gap).map fun (v, cur) => (v, cur.gap)
          | _ => some (.empty, cur)
        match key.scalar?, entry with
        | some key, some (v, cur) =>
          match cur.rest with
          | ',' :: _ => readFlowEntries fuel ((key.text?, v) :: read) (cur.skip 1).gap
          | '\x7d' :: _ => some (.mapping ((key.text?, v) :: read).reverse, cur.skip 1)
          | _ => none
        | _, _ => none

end

/-! ## Blocks -/

/-- A scalar or a bracketed collection outside brackets. -/
def readInline (fuel indent : Nat) (cur : Cursor) : Reading Tree :=
  match cur.rest with
  | '[' :: _ => readFlow fuel cur
  | '\x7b' :: _ => readFlow fuel cur
  | _ => (readScalar false indent cur).map fun (v, cur) => (.scalar v, cur)

/-- Moves past the spaces behind a possible key. -/
def Cursor.skipSpaces (cur : Cursor) : Cursor :=
  cur.skip (cur.rest.takeWhile (· == ' ')).length

mutual

/-- The value at a token. `indent` is the least indentation of what continues it; `open?` tells
whether a list or a mapping may start here. -/
def readBlock : Nat → Nat → Bool → Cursor → Reading Tree
  | 0, _, _, _ => none
  | fuel + 1, indent, open?, cur =>
    if cur.atIndicator '-' then
      if open? then readBlockItems fuel cur.column [] cur else none
    else if cur.atIndicator '?' || cur.atIndicator ':' then none
    else
      match readInline fuel indent cur with
      | none => none
      | some (v, after) =>
        let colon := after.skipSpaces
        if colon.atIndicator ':' then
          match v.scalar? with
          | some key =>
            if open? && colon.line == cur.line then
              readBlockEntries fuel cur.column [] key.text? (colon.skip 1)
            else none
          | none => none
        else some (v, after)

/-- The items of a list whose dashes stand in column `column`, from a dash on. -/
def readBlockItems : Nat → Nat → List Tree → Cursor → Reading Tree
  | 0, _, _, _ => none
  | fuel + 1, column, read, cur =>
    let after := cur.skip 1
    let next := after.gap
    let item : Option (Tree × Cursor) :=
      if next.atEnd || (next.line != cur.line && next.column ≤ column) then some (.empty, after)
      else readBlock fuel (column + 1) true next
    match item with
    | none => none
    | some (v, after) =>
      let next := after.gap
      if next.atEnd || next.column < column then some (.list (v :: read).reverse, after)
      else if next.line == after.line || column < next.column then none
      else if next.atIndicator '-' then readBlockItems fuel column (v :: read) next
      else some (.list (v :: read).reverse, after)

/-- The entries of a mapping whose keys stand in column `column`, from behind the colon of `key`
on. -/
def readBlockEntries : Nat → Nat → List (Option String × Tree) → Option String → Cursor →
    Reading Tree
  | 0, _, _, _, _ => none
  | fuel + 1, column, read, key, cur =>
    let next := cur.gap
    let value : Option (Tree × Cursor) :=
      if next.atEnd then some (.empty, cur)
      else if next.line == cur.line then readBlock fuel (column + 1) false next
      else if column < next.column then readBlock fuel (column + 1) true next
      else if next.column == column && next.atIndicator '-' then
        readBlockItems fuel column [] next
      else some (.empty, cur)
    match value with
    | none => none
    | some (v, after) =>
      let next := after.gap
      let entries := (key, v) :: read
      if next.atEnd || next.column < column then some (.mapping entries.reverse, after)
      else if next.line == after.line || column < next.column || next.atIndicator '-' then none
      else
        match readInline fuel (column + 1) next with
        | none => none
        | some (v, after) =>
          let colon := after.skipSpaces
          match v.scalar? with
          | some key =>
            if colon.atIndicator ':' && colon.line == next.line then
              readBlockEntries fuel column entries key.text? (colon.skip 1)
            else none
          | none => none

end

/-! ## Documents -/

/-- The value of the document and the place behind it. A value on the line of the marker that opens
the document may not be a block. -/
def readDocument (fuel : Nat) (cur : Cursor) : Reading Tree :=
  let cur := cur.gap
  if cur.atMarker '-' then
    let after := cur.skip 3
    let next := after.gap
    if next.atEnd then some (.empty, after) else readBlock fuel 0 (next.line != after.line) next
  else if cur.atEnd then some (.empty, cur)
  else readBlock fuel 0 true cur

/-- Whether nothing follows the document. -/
def isFinished (cur : Cursor) : Bool :=
  let next := cur.gap
  next.rest.isEmpty || (next.atMarker '.' && (next.skip 3).gap.rest.isEmpty)

/-- Drops a byte order mark. -/
def dropMark (cs : List Char) : List Char :=
  match cs with
  | c :: rest => if c.toNat == 0xFEFF then rest else cs
  | [] => []

def parse (text : String) : Option Tree :=
  let cs := text.toList
  if cs.all isAllowed then
    match readDocument (4 * cs.length + 4) { rest := dropMark cs } with
    | some (tree, after) => if isFinished after then some tree else none
    | none => none
  else none

end CodeAtlas.Yaml
