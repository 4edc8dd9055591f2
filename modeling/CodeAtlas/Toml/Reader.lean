import CodeAtlas.Calendar
import CodeAtlas.Decimal.FloatText
import CodeAtlas.Json.Reader
import CodeAtlas.Toml.Table
/-!
# Reading TOML text

The text of a settings file as tables: comments, headers, dotted keys, texts of all four forms,
dates and times, numbers, truth values, lists and inline tables. A fault has no description.
-/

namespace CodeAtlas.Toml

/-- The outcome of reading part of a text. -/
abbrev Reading (α : Type) := Option (α × List Char)

def isSpace (c : Char) : Bool :=
  c == ' ' || c == '\t'

/-- Control characters other than the tab. -/
def isControl (c : Char) : Bool :=
  (c.toNat < 0x20 && c != '\t') || c.toNat == 0x7f

/-- Drops blanks within a line. -/
def skipSpaces (text : List Char) : List Char :=
  text.dropWhile isSpace

/-- Drops a comment up to the end of its line; it may hold no control characters. -/
def skipComment : List Char → Option (List Char)
  | '#' :: rest =>
    let (comment, rest) := rest.span (· != '\n')
    if comment.any isControl then none else some rest
  | text => some text

/-- Drops blanks, line ends and comments between the items of a list. -/
def skipBetween : Nat → List Char → Option (List Char)
  | 0, text => some text
  | fuel + 1, text =>
    match text.dropWhile fun c => isSpace c || c == '\n' with
    | '#' :: rest => (skipComment ('#' :: rest)).bind (skipBetween fuel)
    | text => some text

/-! ## Texts -/

/-- The characters with a one-letter escape. -/
def shortEscape? (c : Char) : Option Char :=
  if c == '"' || c == '\\' then some c
  else if c == 'b' then some (Char.ofNat 8)
  else if c == 't' then some '\t'
  else if c == 'n' then some '\n'
  else if c == 'f' then some (Char.ofNat 12)
  else if c == 'r' then some '\r'
  else none

/-- The character whose code the first `count` hexadecimal digits give. -/
def readCode (count : Nat) (text : List Char) : Reading Char :=
  let ds := text.take count
  match ds.mapM Json.hexValue? with
  | none => none
  | some values =>
    let n := values.foldl (fun n d => n * 16 + d) 0
    if ds.length == count && (n < 0xD800 || (0xE000 ≤ n && n < 0x110000)) then
      some (Char.ofNat n, text.drop count)
    else none

/-- The character of an escape, after its backslash. -/
def readEscape : List Char → Reading Char
  | [] => none
  | c :: rest =>
    if c == 'u' then readCode 4 rest
    else if c == 'U' then readCode 8 rest
    else (shortEscape? c).map fun e => (e, rest)

/-- The rest of a text in double quotes; `read` holds the characters so far, last first. -/
def readBasic : Nat → List Char → List Char → Reading String
  | 0, _, _ => none
  | _ + 1, _, [] => none
  | fuel + 1, read, c :: rest =>
    if c == '"' then some (String.ofList read.reverse, rest)
    else if c == '\\' then
      (readEscape rest).bind fun (e, rest) => readBasic fuel (e :: read) rest
    else if isControl c then none
    else readBasic fuel (c :: read) rest

/-- The rest of a text in single quotes, which knows no escapes. -/
def readLiteral (text : List Char) : Reading String :=
  match text.span (· != '\x27') with
  | (s, '\x27' :: rest) => if s.any isControl then none else some (String.ofList s, rest)
  | _ => none

/-- Adds up to two quotes that stand directly behind the closing three. -/
def extraQuotes (quote : Char) (s : List Char) (text : List Char) : List Char × List Char :=
  match text with
  | c :: d :: rest =>
    if c == quote then
      if d == quote then (s ++ [c, d], rest) else (s ++ [c], d :: rest)
    else (s, text)
  | [c] => if c == quote then (s ++ [c], []) else (s, text)
  | [] => (s, text)

/-- What follows a backslash at the end of a line: blanks are dropped up to the next text. -/
def skipJoin (text : List Char) : Option (List Char) :=
  match skipSpaces text with
  | [] => some []
  | '\n' :: rest => some (rest.dropWhile fun c => isSpace c || c == '\n')
  | _ => none

/-- The rest of a text in three double quotes. -/
def readLongBasic : Nat → List Char → List Char → Reading String
  | 0, _, _ => none
  | _ + 1, _, [] => none
  | _ + 1, read, '"' :: '"' :: '"' :: rest =>
    let (s, rest) := extraQuotes '"' read.reverse rest
    some (String.ofList s, rest)
  | fuel + 1, read, '\\' :: rest =>
    match rest with
    | [] => none
    | c :: _ =>
      if isSpace c || c == '\n' then (skipJoin rest).bind (readLongBasic fuel read)
      else (readEscape rest).bind fun (e, rest) => readLongBasic fuel (e :: read) rest
  | fuel + 1, read, c :: rest =>
    if isControl c && c != '\n' then none else readLongBasic fuel (c :: read) rest

/-- The rest of a text in three single quotes. -/
def readLongLiteral : List Char → List Char → Reading String
  | _, [] => none
  | read, '\x27' :: '\x27' :: '\x27' :: rest =>
    let (s, rest) := extraQuotes '\x27' read.reverse rest
    some (String.ofList s, rest)
  | read, c :: rest =>
    if isControl c && c != '\n' then none else readLongLiteral (c :: read) rest

/-- Drops the line break directly behind three opening quotes. -/
def dropLineBreak : List Char → List Char
  | '\n' :: rest => rest
  | text => text

/-- A text of any form, if one starts here. -/
def readText? (text : List Char) : Option (Reading String) :=
  match text with
  | '"' :: '"' :: '"' :: rest => some (readLongBasic (text.length + 1) [] (dropLineBreak rest))
  | '"' :: rest => some (readBasic (text.length + 1) [] rest)
  | '\x27' :: '\x27' :: '\x27' :: rest => some (readLongLiteral [] (dropLineBreak rest))
  | '\x27' :: rest => some (readLiteral rest)
  | _ => none

/-! ## Keys -/

/-- The characters of a key without quotes. -/
def isBare (c : Char) : Bool :=
  c.isAlphanum || c == '-' || c == '_'

/-- One part of a key. -/
def readPart (text : List Char) : Reading String :=
  match text with
  | '"' :: rest => readBasic (text.length + 1) [] rest
  | '\x27' :: rest => readLiteral rest
  | _ =>
    match text.span isBare with
    | ([], _) => none
    | (part, rest) => some (String.ofList part, rest)

/-- A dotted key; blanks around the dots and behind the key are dropped. -/
def readKey : Nat → List Char → Reading Key
  | 0, _ => none
  | fuel + 1, text =>
    (readPart text).bind fun (part, rest) =>
      match skipSpaces rest with
      | '.' :: rest => (readKey fuel (skipSpaces rest)).map fun (key, rest) => (part :: key, rest)
      | rest => some ([part], rest)

/-! ## Numbers -/

/-- Digits of a class with single underscores between them; at least one is needed. -/
def spanGrouped (isDigit : Char → Bool) : List Char → List Char × List Char
  | c :: '_' :: d :: rest =>
    if isDigit c && isDigit d then
      let (ds, rest) := spanGrouped isDigit (d :: rest)
      (c :: ds, rest)
    else if isDigit c then ([c], '_' :: d :: rest)
    else ([], c :: '_' :: d :: rest)
  | c :: rest =>
    if isDigit c then
      let (ds, rest) := spanGrouped isDigit rest
      (c :: ds, rest)
    else ([], c :: rest)
  | [] => ([], [])

/-- The number that digits spell in a base. -/
def inBase (base : Nat) (ds : List Char) : Nat :=
  ds.foldl (fun n c => n * base + (Json.hexValue? c).getD 0) 0

/-- The bases that a letter behind a zero announces. -/
def bases : List (Char × Nat × (Char → Bool)) :=
  [('x', 16, fun c => (Json.hexValue? c).isSome), ('b', 2, fun c => c == '0' || c == '1'),
    ('o', 8, fun c => '0' ≤ c && c ≤ '7')]

/-- A whole number in another base than ten. -/
def readBased? : List Char → Option (Value × List Char)
  | '0' :: letter :: rest =>
    match bases.lookup letter with
    | none => none
    | some (base, isDigit) =>
      match spanGrouped isDigit rest with
      | ([], _) => none
      | (ds, rest) => some (.int (inBase base ds), rest)
  | _ => none

def readSign : List Char → Bool × List Char
  | '-' :: rest => (true, rest)
  | '+' :: rest => (false, rest)
  | text => (false, text)

/-- The digits of a whole part: a lone zero or a run without a leading zero. -/
def spanWhole : List Char → List Char × List Char
  | '0' :: rest => (['0'], rest)
  | text => spanGrouped Char.isDigit text

/-- The digits after a decimal point; nothing is taken unless there is at least one. -/
def spanFraction : List Char → List Char × List Char
  | '.' :: rest =>
    match spanGrouped Char.isDigit rest with
    | ([], _) => ([], '.' :: rest)
    | (ds, rest) => (ds, rest)
  | text => ([], text)

/-- An exponent; nothing is taken unless it has a digit. -/
def spanExponent (text : List Char) : Option Int × List Char :=
  match text with
  | c :: rest =>
    if c == 'e' || c == 'E' then
      let (negative, rest) := readSign rest
      match spanGrouped Char.isDigit rest with
      | ([], _) => (none, text)
      | (ds, rest) =>
        let n : Int := inBase 10 ds
        (some (if negative then -n else n), rest)
    else (none, text)
  | [] => (none, text)

/-- A number in base ten. A fraction or an exponent makes it a float. -/
def readDecimal? (text : List Char) : Option (Value × List Char) :=
  let (negative, rest) := readSign text
  match spanWhole rest with
  | ([], _) => none
  | (whole, rest) =>
    let (fraction, rest) := spanFraction rest
    let (exponent, rest) := spanExponent rest
    if fraction.isEmpty && exponent.isNone then
      let n : Int := inBase 10 whole
      some (.int (if negative then -n else n), rest)
    else
      let scale : Int := exponent.getD 0 - fraction.length
      some (.float (readFloat negative (inBase 10 (whole ++ fraction)) scale), rest)

/-- The float that is no number. -/
def notANumber : Value :=
  .float (Float.ofScientific 0 false 0 / Float.ofScientific 0 false 0)

def floatWords : List (List Char × Value) :=
  [("inf".toList, .float (readFloat false 1 400)), ("+inf".toList, .float (readFloat false 1 400)),
    ("-inf".toList, .float (readFloat true 1 400)), ("nan".toList, notANumber),
    ("+nan".toList, notANumber), ("-nan".toList, notANumber)]

def boolWords : List (List Char × Value) :=
  [("true".toList, .bool true), ("false".toList, .bool false)]

/-- The first of some words that a text starts with. -/
def readWordOf? (words : List (List Char × Value)) (text : List Char) :
    Option (Value × List Char) :=
  words.findSome? fun (word, v) => (Json.afterWord? word text).map fun rest => (v, rest)

/-- A number, a truth value or a float word. -/
def readAtom? (text : List Char) : Option (Value × List Char) :=
  readWordOf? boolWords text <|> readBased? text <|> readDecimal? text
    <|> readWordOf? floatWords text

/-! ## Dates and times -/

/-- A number of exactly `count` digits. -/
def readFixed (count : Nat) (text : List Char) : Reading Nat :=
  let ds := text.take count
  if ds.length == count && ds.all Char.isDigit then some (inBase 10 ds, text.drop count) else none

/-- A number of two digits behind a mark. -/
def readMarked (mark : Char) : List Char → Reading Nat
  | c :: rest => if c == mark then readFixed 2 rest else none
  | [] => none

/-- The digits behind a decimal point as millionths, of which six count; nothing is taken unless
there is at least one. -/
def readMicros : List Char → Nat × List Char
  | '.' :: rest =>
    match rest.span Char.isDigit with
    | ([], _) => (0, '.' :: rest)
    | (ds, rest) => (inBase 10 ((ds ++ List.replicate 6 '0').take 6), rest)
  | text => (0, text)

def readTime (text : List Char) : Option (TimeOfDay × List Char) := do
  let (hour, text) ← readFixed 2 text
  let (minute, text) ← readMarked ':' text
  let (second, text) ← readMarked ':' text
  let (micro, text) := readMicros text
  let time ← TimeOfDay.ofNumbers? hour minute second micro
  return (time, text)

/-- The offset of a clock: a letter for none, or a sign with hours and minutes. -/
def readOffset? : List Char → Option (ClockOffset × List Char)
  | [] => none
  | sign :: text =>
    if sign == 'Z' || sign == 'z' then some (⟨0, by decide⟩, text)
    else if sign == '+' || sign == '-' then do
      let (hours, text) ← readFixed 2 text
      let (minutes, text) ← readMarked ':' text
      let ahead : Int := hours * 60 + minutes
      let offset ← ClockOffset.ofMinutes? (if sign == '-' then -ahead else ahead)
      if minutes < 60 then some (offset, text) else none
    else none

/-- The numbers of a date, which need not be one of the calendar. -/
def readNumbers (text : List Char) : Option ((Nat × Nat × Nat) × List Char) := do
  let (year, text) ← readFixed 4 text
  let (month, text) ← readMarked '-' text
  let (day, text) ← readMarked '-' text
  return ((year, month, day), text)

/-- A date and, behind a letter or a single space, its time; anything else is left to what
follows. -/
def readDayTime (date : Date) (text : List Char) : Moment × List Char :=
  match text with
  | mark :: rest =>
    if mark == 'T' || mark == 't' || mark == ' ' then
      match readTime rest with
      | some (time, rest) =>
        match readOffset? rest with
        | some (offset, rest) => (.dateTime date time (some offset), rest)
        | none => (.dateTime date time none, rest)
      | none => (.date date, text)
    else (.date date, text)
  | [] => (.date date, text)

/-- A moment, if one starts here; a date has to be one of the calendar. -/
def readMoment? (text : List Char) : Option (Reading Moment) :=
  match readNumbers text with
  | some ((year, month, day), rest) =>
    some ((Date.ofNumbers? year month day).map fun date => readDayTime date rest)
  | none => (readTime text).map fun (time, rest) => some (.time time, rest)

/-! ## Values -/

mutual

/-- One value at the start of the text. -/
def readValue : Nat → List Char → Reading Value
  | 0, _ => none
  | fuel + 1, text =>
    match readText? text with
    | some reading => reading.map fun (s, rest) => (.str s, rest)
    | none =>
      match text with
      | '[' :: rest =>
        match skipBetween rest.length rest with
        | none => none
        | some (']' :: rest) => some (.list [], rest)
        | some rest => readItems fuel [] rest
      | '\x7b' :: rest =>
        match skipSpaces rest with
        | '\x7d' :: rest => some (.object [], rest)
        | rest => readPairs fuel {} rest
      | _ =>
        match readMoment? text with
        | some reading => reading.map fun (m, rest) => (m.toValue, rest)
        | none => readAtom? text

/-- The items of a list up to its bracket; a comma may end them. -/
def readItems : Nat → List Value → List Char → Reading Value
  | 0, _, _ => none
  | fuel + 1, read, text =>
    match readValue fuel text with
    | none => none
    | some (v, rest) =>
      match skipBetween rest.length rest with
      | some (']' :: rest) => some (.list (v :: read).reverse, rest)
      | some (',' :: rest) =>
        match skipBetween rest.length rest with
        | some (']' :: rest) => some (.list (v :: read).reverse, rest)
        | some rest => readItems fuel (v :: read) rest
        | none => none
      | _ => none

/-- The entries of an inline table up to its brace, added to those `read` so far. -/
def readPairs : Nat → Tables → List Char → Reading Value
  | 0, _, _ => none
  | fuel + 1, read, text =>
    match readKey (text.length + 1) text with
    | some (key, '=' :: rest) =>
      match readValue fuel (skipSpaces rest) with
      | none => none
      | some (v, rest) =>
        match key.getLast? with
        | none => none
        | some stem =>
          if read.isFrozen key then none
          else match updateAt (addEntry stem v) key.dropLast read.root with
            | none => none
            | some root =>
              match skipSpaces rest with
              | '\x7d' :: rest => some (.object root, rest)
              | ',' :: rest =>
                let frozen := if isCompound v then read.frozen ++ [key] else read.frozen
                readPairs fuel { read with root, frozen } (skipSpaces rest)
              | _ => none
    | _ => none

end

/-! ## Documents -/

def readPair (text : List Char) : Reading (Key × Value) :=
  match readKey (text.length + 1) text with
  | some (key, '=' :: rest) =>
    (readValue (2 * text.length + 2) (skipSpaces rest)).map fun (v, rest) => ((key, v), rest)
  | _ => none

/-- A table header, after its first bracket; the key becomes the current section. -/
def readHeader (t : Tables) (text : List Char) : Reading (Tables × Key) :=
  let t := t.endSection
  match text with
  | '[' :: rest =>
    match readKey (text.length + 1) (skipSpaces rest) with
    | some (key, ']' :: ']' :: rest) => (t.openItem key).map fun t => ((t, key), rest)
    | _ => none
  | _ =>
    match readKey (text.length + 1) (skipSpaces text) with
    | some (key, ']' :: rest) => (t.openTable key).map fun t => ((t, key), rest)
    | _ => none

/-- One statement: a header, a pair or nothing at all. -/
def readStatement (t : Tables) (header : Key) (text : List Char) : Reading (Tables × Key) :=
  match text with
  | '[' :: rest => (readHeader t rest).map fun (state, rest) => (state, skipSpaces rest)
  | c :: _ =>
    if isBare c || c == '"' || c == '\x27' then
      (readPair text).bind fun ((key, v), rest) =>
        (t.put header key v).map fun t => ((t, header), skipSpaces rest)
    else if c == '#' || c == '\n' then some ((t, header), text)
    else none
  | [] => some ((t, header), [])

/-- Statements, each on a line of its own, to the end of the text. -/
def readStatements : Nat → Tables → Key → List Char → Option Tables
  | 0, _, _, _ => none
  | fuel + 1, t, header, text =>
    match readStatement t header (skipSpaces text) with
    | none => none
    | some ((t, header), rest) =>
      match skipComment rest with
      | some [] => some t
      | some ('\n' :: rest) => readStatements fuel t header rest
      | _ => none

def parse (text : String) : Option Fields :=
  let cs := text.toList
  (readStatements (cs.length + 1) {} [] cs).map (·.root)

end CodeAtlas.Toml
