import CodeAtlas.Value
import CodeAtlas.Decimal.FloatText
import CodeAtlas.Json.Fault
/-!
# Reading JSON text

A reader works on the characters that remain. A failure names its problem and how many characters
remained there, from which the outermost function finds the place. Besides the standard forms the
words `NaN`, `Infinity` and `-Infinity` are numbers.
-/

namespace CodeAtlas.Json

/-- What went wrong and how many characters were left at that point. -/
structure Stop where
  problem : Problem
  left : Nat
  deriving DecidableEq, Inhabited

/-- The outcome of reading part of a text: a result and the characters after it. -/
abbrev Reading (α : Type) := Except Stop (α × List Char)

/-- Stops in front of `rest`. -/
def stopAt {α : Type} (problem : Problem) (rest : List Char) : Except Stop α :=
  .error ⟨problem, rest.length⟩

def isBlank (c : Char) : Bool :=
  c == ' ' || c == '\t' || c == '\n' || c == '\r'

def skipBlanks (text : List Char) : List Char :=
  text.dropWhile isBlank

/-! ## Numbers -/

def digitValue (c : Char) : Nat :=
  c.toNat - '0'.toNat

/-- The number that decimal digits spell, continuing from `n`. -/
def digitsValue (n : Nat) (ds : List Char) : Nat :=
  ds.foldl (fun n c => n * 10 + digitValue c) n

/-- Leading decimal digits and what follows them. -/
def spanDigits (text : List Char) : List Char × List Char :=
  text.span Char.isDigit

/-- The digits of a whole part: a lone zero or a run without a leading zero. -/
def spanWhole : List Char → List Char × List Char
  | '0' :: rest => (['0'], rest)
  | text => spanDigits text

/-- The digits after a decimal point; nothing is taken unless there is at least one. -/
def spanFraction : List Char → List Char × List Char
  | '.' :: rest =>
    match spanDigits rest with
    | ([], _) => ([], '.' :: rest)
    | (ds, rest) => (ds, rest)
  | text => ([], text)

/-- Sign and digits of an exponent after its mark. -/
def spanSigned : List Char → Bool × List Char × List Char
  | '-' :: rest => let (ds, rest) := spanDigits rest; (true, ds, rest)
  | '+' :: rest => let (ds, rest) := spanDigits rest; (false, ds, rest)
  | text => let (ds, rest) := spanDigits text; (false, ds, rest)

/-- An exponent; nothing is taken unless it has a digit. -/
def spanExponent (text : List Char) : Option Int × List Char :=
  match text with
  | c :: rest =>
    if c == 'e' || c == 'E' then
      match spanSigned rest with
      | (_, [], _) => (none, text)
      | (true, ds, rest) => (some (-(digitsValue 0 ds : Int)), rest)
      | (false, ds, rest) => (some (digitsValue 0 ds : Int), rest)
    else (none, text)
  | [] => (none, text)

/-- A number without its sign. A fraction or an exponent makes it a float. -/
def readMagnitude? (negative : Bool) (text : List Char) : Option (Value × List Char) :=
  match spanWhole text with
  | ([], _) => none
  | (whole, rest) =>
    let (fraction, rest) := spanFraction rest
    let (exponent, rest) := spanExponent rest
    let n := digitsValue 0 whole
    if fraction.isEmpty && exponent.isNone then
      some (.int (if negative then -(n : Int) else n), rest)
    else
      let scale : Int := exponent.getD 0 - fraction.length
      some (.float (readFloat negative (digitsValue n fraction) scale), rest)

/-- A number with an optional minus sign. -/
def readNumber? : List Char → Option (Value × List Char)
  | '-' :: rest => readMagnitude? true rest
  | text => readMagnitude? false text

/-! ## Words -/

/-- What follows `word` in `text`, if `text` starts with it. -/
def afterWord? : List Char → List Char → Option (List Char)
  | [], text => some text
  | _ :: _, [] => none
  | w :: word, c :: text => if w == c then afterWord? word text else none

/-- The words that stand for values. -/
def words : List (List Char × Value) :=
  [("null".toList, .null), ("true".toList, .bool true), ("false".toList, .bool false),
    ("NaN".toList, .float (Float.ofScientific 0 false 0 / Float.ofScientific 0 false 0)),
    ("Infinity".toList, .float (readFloat false 1 400)),
    ("-Infinity".toList, .float (readFloat true 1 400))]

/-- The first of the words that `text` starts with. -/
def readWord? (text : List Char) : Option (Value × List Char) :=
  words.findSome? fun (word, v) => (afterWord? word text).map fun rest => (v, rest)

/-! ## Texts -/

def hexValue? (c : Char) : Option Nat :=
  if '0' ≤ c && c ≤ '9' then some (c.toNat - '0'.toNat)
  else if 'a' ≤ c && c ≤ 'f' then some (c.toNat - 'a'.toNat + 10)
  else if 'A' ≤ c && c ≤ 'F' then some (c.toNat - 'A'.toNat + 10)
  else none

/-- The number spelled by four hexadecimal digits. -/
def unit? (a b c d : Char) : Option Nat := do
  let a ← hexValue? a
  let b ← hexValue? b
  let c ← hexValue? c
  let d ← hexValue? d
  return ((a * 16 + b) * 16 + c) * 16 + d

/-- First half of a surrogate pair. -/
def isHighUnit (n : Nat) : Bool := 0xD800 ≤ n && n ≤ 0xDBFF

/-- Second half of a surrogate pair. -/
def isLowUnit (n : Nat) : Bool := 0xDC00 ≤ n && n ≤ 0xDFFF

/-- The character a pair of units stands for. -/
def joinUnits (high low : Nat) : Char :=
  Char.ofNat (0x10000 + (high - 0xD800) * 0x400 + (low - 0xDC00))

/-- The character of one unit; half a pair alone becomes the replacement character. -/
def unitChar (n : Nat) : Char :=
  if isHighUnit n || isLowUnit n then Char.ofNat 0xFFFD else Char.ofNat n

/-- The characters with a one-letter escape. -/
def shortEscape? (c : Char) : Option Char :=
  if c == '"' || c == '\\' || c == '/' then some c
  else if c == 'b' then some (Char.ofNat 8)
  else if c == 'f' then some (Char.ofNat 12)
  else if c == 'n' then some '\n'
  else if c == 'r' then some '\r'
  else if c == 't' then some '\t'
  else none

/-- The rest of a text that starts at `opening`, its quote included; `read` holds the characters so
far, last first. A hexadecimal escape needs a character after it, and a second
half is looked for only where the text goes on behind it. -/
def readText (opening read : List Char) : List Char → Reading String
  | [] => stopAt .unterminatedText opening
  | '"' :: rest => .ok (String.ofList read.reverse, rest)
  | '\\' :: rest =>
    match rest with
    | [] => stopAt .unterminatedText opening
    | 'u' :: a :: b :: c :: d :: rest' =>
      if rest'.isEmpty then stopAt .badUnicodeEscape rest
      else match unit? a b c d with
        | none => stopAt .badUnicodeEscape rest
        | some high =>
          match rest' with
          | '\\' :: 'u' :: e :: f :: g :: h :: rest'' =>
            if isHighUnit high && !rest''.isEmpty then
              match unit? e f g h with
              | none => stopAt .badUnicodeEscape ('u' :: e :: f :: g :: h :: rest'')
              | some low =>
                if isLowUnit low then readText opening (joinUnits high low :: read) rest''
                else readText opening (unitChar high :: read) ('\\' :: 'u' :: e :: f :: g :: h :: rest'')
            else readText opening (unitChar high :: read) ('\\' :: 'u' :: e :: f :: g :: h :: rest'')
          | rest' => readText opening (unitChar high :: read) rest'
    | c :: rest' =>
      if c == 'u' then stopAt .badUnicodeEscape rest
      else match shortEscape? c with
        | some e => readText opening (e :: read) rest'
        | none => stopAt .badEscape ('\\' :: rest)
  | c :: rest =>
    if c.toNat < 0x20 then stopAt .controlCharacter (c :: rest)
    else readText opening (c :: read) rest
termination_by text => text.length

/-! ## Values -/

mutual

/-- One value at the start of the text. The fuel bounds the nesting and the number of items. -/
def readValue : Nat → List Char → Reading Value
  | 0, text => stopAt .expectedValue text
  | fuel + 1, text =>
    match text with
    | '"' :: rest => (readText text [] rest).map fun (s, rest) => (.str s, rest)
    | '\x7b' :: rest =>
      match skipBlanks rest with
      | '\x7d' :: rest => .ok (.object [], rest)
      | rest => readFields fuel [] rest
    | '[' :: rest =>
      match skipBlanks rest with
      | ']' :: rest => .ok (.list [], rest)
      | rest => readItems fuel [] rest
    | _ =>
      match readWord? text with
      | some found => .ok found
      | none =>
        match readNumber? text with
        | some found => .ok found
        | none => stopAt .expectedValue text

/-- The items of a list up to its bracket, after those `read` so far, last first. -/
def readItems : Nat → List Value → List Char → Reading Value
  | 0, _, text => stopAt .expectedValue text
  | fuel + 1, read, text =>
    match readValue fuel text with
    | .error e => .error e
    | .ok (v, rest) =>
      match skipBlanks rest with
      | ']' :: rest => .ok (.list (v :: read).reverse, rest)
      | ',' :: rest => readItems fuel (v :: read) (skipBlanks rest)
      | rest => stopAt .expectedComma rest

/-- The fields of an object up to its brace, after those `read` so far, last first. -/
def readFields : Nat → List (String × Value) → List Char → Reading Value
  | 0, _, text => stopAt .expectedValue text
  | fuel + 1, read, text =>
    match text with
    | '"' :: rest =>
      match readText text [] rest with
      | .error e => .error e
      | .ok (key, rest) =>
        match skipBlanks rest with
        | ':' :: rest =>
          match readValue fuel (skipBlanks rest) with
          | .error e => .error e
          | .ok (v, rest) =>
            match skipBlanks rest with
            | '\x7d' :: rest => .ok (.object (Assoc.ofEntries ((key, v) :: read).reverse), rest)
            | ',' :: rest => readFields fuel ((key, v) :: read) (skipBlanks rest)
            | rest => stopAt .expectedComma rest
        | rest => stopAt .expectedColon rest
    | text => stopAt .expectedName text

end

/-- The value that fills the whole text. -/
def readWhole (text : List Char) : Except Stop Value :=
  match text with
  | '\uFEFF' :: _ => stopAt .byteOrderMark text
  | _ =>
    match readValue (2 * text.length + 2) (skipBlanks text) with
    | .error e => .error e
    | .ok (v, rest) =>
      match skipBlanks rest with
      | [] => .ok v
      | rest => stopAt .extraData rest

def parse (text : String) : Except Fault Value :=
  let cs := text.toList
  match readWhole cs with
  | .ok v => .ok v
  | .error stop => .error (Fault.locate stop.problem cs (cs.length - stop.left))

end CodeAtlas.Json
