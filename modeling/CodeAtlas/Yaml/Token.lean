import CodeAtlas.Toml.Reader
import CodeAtlas.Yaml.Cursor
import CodeAtlas.Yaml.Scalar
/-!
# Scalars in a YAML text

Plain scalars end where the text around them goes on, and run over several lines as long as these
are indented; quoted scalars end at their quote. Line breaks inside either are folded.
-/

namespace CodeAtlas.Yaml

/-- The outcome of reading part of a text. -/
abbrev Reading (α : Type) := Option (α × Cursor)

/-! ## Folding -/

/-- What a line break and the further breaks behind it fold to: a space for a single newline, else
the breaks themselves without a first newline. -/
def foldBreaks (first : Char) (more : List Char) : List Char :=
  if first != '\n' then first :: more else if more.isEmpty then [' '] else more

/-- Collects the breaks of a run of blank lines and moves to the text behind them. `isBlank` tells
which characters are passed over. -/
def takeBreaks (isBlank : Char → Bool) : Nat → List Char → Cursor → Option (List Char × Cursor)
  | 0, breaks, cur => some (breaks.reverse, cur)
  | fuel + 1, breaks, cur =>
    match cur.rest with
    | [] => some (breaks.reverse, cur)
    | c :: _ =>
      if isBlank c then takeBreaks isBlank fuel breaks cur.next
      else if isBreak c then
        let cur := cur.next
        if cur.atMarker '-' || cur.atMarker '.' then none
        else takeBreaks isBlank fuel (c :: breaks) cur
      else some (breaks.reverse, cur)

/-! ## Plain scalars -/

/-- Characters that end a plain scalar inside brackets. -/
def isFlowMark (c : Char) : Bool :=
  c == ',' || c == '[' || c == ']' || c == '\x7b' || c == '\x7d'

/-- The length of the run without blanks that continues a plain scalar. -/
def chunkLength (inFlow : Bool) : List Char → Nat
  | [] => 0
  | c :: rest =>
    if c == ' ' || c == '\t' || isBreak c then 0
    else if c == ':' && (isGapStart rest || (inFlow && (rest.head?.map isFlowMark).getD false)) then 0
    else if inFlow && (isFlowMark c || c == '?') then 0
    else chunkLength inFlow rest + 1

/-- What stands between two runs of a plain scalar, folded, and the place behind it; `none` when the
scalar ends here. -/
def plainSpaces (cur : Cursor) : Option (List Char × Cursor) :=
  let n := (cur.rest.takeWhile (· == ' ')).length
  let cur' := cur.skip n
  match cur'.rest with
  | [] => none
  | c :: _ =>
    if isBreak c then
      let next := cur'.next
      if next.atMarker '-' || next.atMarker '.' then none
      else (takeBreaks (· == ' ') next.rest.length [] next).map fun (breaks, cur) =>
        (foldBreaks c breaks, cur)
    else if n == 0 then none
    else some (List.replicate n ' ', cur')

/-- The runs of a plain scalar; `read` holds its characters so far, last first. Further lines have
to be indented by at least `indent` outside brackets. -/
def plainRuns (inFlow : Bool) (indent : Nat) : Nat → List Char → Cursor → List Char × Cursor
  | 0, read, cur => (read, cur)
  | fuel + 1, read, cur =>
    match plainSpaces cur with
    | none => (read, cur)
    | some (spaces, next) =>
      let n := chunkLength inFlow next.rest
      if next.rest.head? == some '#' || n == 0 || (!inFlow && next.column < indent) then (read, cur)
      else
        let run := next.rest.take n
        plainRuns inFlow indent fuel (run.reverse ++ spaces.reverse ++ read) (next.skip n)

/-- Characters that cannot start a plain scalar. -/
def isIndicator (c : Char) : Bool :=
  "-?:,[]\x7b\x7d#&*!|>'\"%@`".toList.contains c

/-- Whether a plain scalar starts here. -/
def startsPlain (inFlow : Bool) : List Char → Bool
  | [] => false
  | c :: rest =>
    if c == ' ' || c == '\t' || isBreak c then false
    else !isIndicator c
      || (!isGapStart rest && (c == '-' || (!inFlow && (c == '?' || c == ':'))))

def readPlain (inFlow : Bool) (indent : Nat) (cur : Cursor) : Reading String :=
  let n := chunkLength inFlow cur.rest
  if n == 0 || !startsPlain inFlow cur.rest then none
  else
    let first := cur.rest.take n
    let (read, cur) := plainRuns inFlow indent cur.rest.length first.reverse (cur.skip n)
    some (String.ofList read.reverse, cur)

/-! ## Quoted scalars -/

/-- The characters with a one-letter escape. -/
def escapes : List (Char × Nat) :=
  [('0', 0), ('a', 7), ('b', 8), ('t', 9), ('\t', 9), ('n', 10), ('v', 11), ('f', 12), ('r', 13),
    ('e', 27), (' ', 32), ('"', 34), ('\\', 92), ('/', 47), ('N', 0x85), ('_', 0xA0),
    ('L', 0x2028), ('P', 0x2029)]

/-- The escapes that are followed by hexadecimal digits, and how many. -/
def codeEscapes : List (Char × Nat) :=
  [('x', 2), ('u', 4), ('U', 8)]

/-- Blanks inside a quoted scalar; a line break among them folds them. -/
def quotedSpaces (cur : Cursor) : Option (List Char × Cursor) :=
  let blanks := cur.rest.takeWhile fun c => c == ' ' || c == '\t'
  let cur := cur.skip blanks.length
  match cur.rest with
  | [] => none
  | c :: _ =>
    if isBreak c then
      let next := cur.next
      if next.atMarker '-' || next.atMarker '.' then none
      else (takeBreaks (fun c => c == ' ' || c == '\t') next.rest.length [] next).map
        fun (breaks, cur) => (foldBreaks c breaks, cur)
    else some (blanks, cur)

/-- An escape in a scalar in double quotes, after its backslash. -/
def readEscape (cur : Cursor) : Option (List Char × Cursor) :=
  match cur.rest with
  | [] => none
  | c :: rest =>
    if isBreak c then
      let next := cur.next
      if next.atMarker '-' || next.atMarker '.' then none
      else takeBreaks (fun c => c == ' ' || c == '\t') next.rest.length [] next
    else match escapes.lookup c with
      | some n => some ([Char.ofNat n], cur.skip 1)
      | none =>
        match codeEscapes.lookup c with
        | some count => (Toml.readCode count rest).map fun (e, _) => ([e], cur.skip (count + 1))
        | none => none

/-- The rest of a scalar in single quotes; two of them stand for one. -/
def readSingle : Nat → List Char → Cursor → Reading String
  | 0, _, _ => none
  | fuel + 1, read, cur =>
    match cur.rest with
    | [] => none
    | '\x27' :: '\x27' :: _ => readSingle fuel ('\x27' :: read) (cur.skip 2)
    | '\x27' :: _ => some (String.ofList read.reverse, cur.skip 1)
    | c :: _ =>
      if c == ' ' || c == '\t' || isBreak c then
        (quotedSpaces cur).bind fun (s, cur) => readSingle fuel (s.reverse ++ read) cur
      else readSingle fuel (c :: read) (cur.skip 1)

/-- The rest of a scalar in double quotes. -/
def readDouble : Nat → List Char → Cursor → Reading String
  | 0, _, _ => none
  | fuel + 1, read, cur =>
    match cur.rest with
    | [] => none
    | '"' :: _ => some (String.ofList read.reverse, cur.skip 1)
    | '\\' :: _ =>
      (readEscape (cur.skip 1)).bind fun (s, cur) => readDouble fuel (s.reverse ++ read) cur
    | c :: _ =>
      if c == ' ' || c == '\t' || isBreak c then
        (quotedSpaces cur).bind fun (s, cur) => readDouble fuel (s.reverse ++ read) cur
      else readDouble fuel (c :: read) (cur.skip 1)

def readScalar (inFlow : Bool) (indent : Nat) (cur : Cursor) : Reading Scalar :=
  match cur.rest with
  | '\x27' :: _ =>
    (readSingle (cur.rest.length + 1) [] (cur.skip 1)).map fun (s, cur) => (.str s, cur)
  | '"' :: _ =>
    (readDouble (cur.rest.length + 1) [] (cur.skip 1)).map fun (s, cur) => (.str s, cur)
  | _ =>
    (readPlain inFlow indent cur).bind fun (s, cur) => (plainScalar? s).map fun v => (v, cur)

end CodeAtlas.Yaml
