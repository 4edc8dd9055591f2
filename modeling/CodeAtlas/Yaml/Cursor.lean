/-!
# Places in a YAML text

Indentation carries meaning, so a reader keeps track of the line and the column at which the
remaining text starts.
-/

namespace CodeAtlas.Yaml

/-- The text that remains and where it starts. -/
structure Cursor where
  line : Nat := 0
  column : Nat := 0
  rest : List Char
  deriving Inhabited

def isBreak (c : Char) : Bool :=
  c == '\n' || c == '\r' || c.toNat == 0x85 || c.toNat == 0x2028 || c.toNat == 0x2029

/-- Blanks, line breaks and the end of the text. -/
def isGapStart : List Char → Bool
  | [] => true
  | c :: _ => c == ' ' || c == '\t' || isBreak c

/-- Characters that may stand in a text. -/
def isAllowed (c : Char) : Bool :=
  let n := c.toNat
  n == 9 || n == 10 || n == 13 || (0x20 ≤ n && n ≤ 0x7E) || n == 0x85 || (0xA0 ≤ n && n ≤ 0xD7FF)
    || (0xE000 ≤ n && n ≤ 0xFFFD) || 0x10000 ≤ n

namespace Cursor

def next (cur : Cursor) : Cursor :=
  match cur.rest with
  | [] => cur
  | c :: rest =>
    if isBreak c then { line := cur.line + 1, column := 0, rest }
    else { cur with column := cur.column + 1, rest }

/-- Moves past `n` characters of one line. -/
def skip (cur : Cursor) (n : Nat) : Cursor :=
  { cur with column := cur.column + n, rest := cur.rest.drop n }

/-- Whether a marker of three characters stands alone at the start of a line. -/
def atMarker (cur : Cursor) (mark : Char) : Bool :=
  match cur.rest with
  | a :: b :: c :: rest =>
    cur.column == 0 && a == mark && b == mark && c == mark && isGapStart rest
  | _ => false

/-- Whether the text or the document ends here. -/
def atEnd (cur : Cursor) : Bool :=
  cur.rest.isEmpty || cur.atMarker '-' || cur.atMarker '.'

/-- Whether `c` stands here with a blank or the end of the line behind it. -/
def atIndicator (cur : Cursor) (c : Char) : Bool :=
  match cur.rest with
  | d :: rest => d == c && isGapStart rest
  | [] => false

end Cursor

/-- Moves to the next token: spaces, line breaks and comments are passed over. -/
def gapFrom (inComment : Bool) (line column : Nat) : List Char → Cursor
  | [] => { line, column, rest := [] }
  | c :: rest =>
    if isBreak c then gapFrom false (line + 1) 0 rest
    else if inComment || c == '#' then gapFrom true line (column + 1) rest
    else if c == ' ' then gapFrom false line (column + 1) rest
    else { line, column, rest := c :: rest }

def Cursor.gap (cur : Cursor) : Cursor :=
  gapFrom false cur.line cur.column cur.rest

end CodeAtlas.Yaml
