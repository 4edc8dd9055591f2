import CodeAtlas.Json.Reader
import CodeAtlas.Yaml.Tree
/-!
# Plain scalars

A word without quotes stands for a scalar by its form alone: a truth value, nothing, a whole number
in one of five notations, a float, a date with or without a time, or else the text itself.
-/

namespace CodeAtlas.Yaml

def trueWords : List String := ["yes", "Yes", "YES", "true", "True", "TRUE", "on", "On", "ON"]

def falseWords : List String := ["no", "No", "NO", "false", "False", "FALSE", "off", "Off", "OFF"]

def nullWords : List String := ["", "~", "null", "Null", "NULL"]

/-- Words with a special role that no plain value can take. -/
def reservedWords : List String := ["=", "<<"]

def readSign : List Char → Bool × List Char
  | '-' :: rest => (true, rest)
  | '+' :: rest => (false, rest)
  | cs => (false, cs)

/-- A digit of a class or an underscore. -/
def isGrouped (isDigit : Char → Bool) (c : Char) : Bool :=
  isDigit c || c == '_'

/-- A run of digits and underscores that starts with a digit. -/
def isNumeral (cs : List Char) : Bool :=
  match cs with
  | c :: rest => c.isDigit && rest.all (isGrouped Char.isDigit)
  | [] => false

/-- The number that digits spell in a base; underscores do not count. -/
def inBase (base : Nat) (cs : List Char) : Nat :=
  cs.foldl (fun n c => if c == '_' then n else n * base + (Json.hexValue? c).getD 0) 0

/-- A nonempty run of digits of a class and underscores, as a number in a base. -/
def readBased? (base : Nat) (isDigit : Char → Bool) (cs : List Char) : Option Nat :=
  if !cs.isEmpty && cs.all (isGrouped isDigit) then some (inBase base cs) else none

def splitColons (part : List Char) : List Char → List (List Char)
  | [] => [part.reverse]
  | c :: rest => if c == ':' then part.reverse :: splitColons [] rest else splitColons (c :: part) rest

/-- A place of a number in base sixty: one digit, or two of which the first is at most five. -/
def isSixtieth : List Char → Bool
  | [a] => a.isDigit
  | [a, b] => '0' ≤ a && a ≤ '5' && b.isDigit
  | _ => false

/-- A whole number without its sign. A leading zero means base eight, colons base sixty. -/
def readWhole? (cs : List Char) : Option Nat :=
  match cs with
  | ['0'] => some 0
  | '0' :: 'b' :: ds => readBased? 2 (fun c => c == '0' || c == '1') ds
  | '0' :: 'x' :: ds => readBased? 16 (fun c => (Json.hexValue? c).isSome) ds
  | '0' :: ds => readBased? 8 (fun c => '0' ≤ c && c ≤ '7') ds
  | _ =>
    match splitColons [] cs with
    | [] => none
    | first :: places =>
      if isNumeral first && places.all isSixtieth then
        some (places.foldl (fun n place => n * 60 + inBase 10 place) (inBase 10 first))
      else none

/-- The exponent of a float: a letter, a sign and digits; `none` unless it has this form. -/
def readExponent? : List Char → Option Int
  | [] => some 0
  | letter :: sign :: ds =>
    if (letter == 'e' || letter == 'E') && (sign == '-' || sign == '+') && !ds.isEmpty
        && ds.all Char.isDigit then
      some (if sign == '-' then -(inBase 10 ds : Int) else inBase 10 ds)
    else none
  | _ => none

/-- A float with a decimal point, without its sign. -/
def readPoint? (negative : Bool) (cs : List Char) : Option Float :=
  match cs.span (· != '.') with
  | (whole, '.' :: rest) =>
    let (fraction, rest) := rest.span (isGrouped Char.isDigit)
    let digits := fraction.filter (· != '_')
    let wholeOk := isNumeral whole || (whole.isEmpty && isNumeral fraction)
    if wholeOk then
      (readExponent? rest).map fun e =>
        readFloat negative (inBase 10 (whole ++ digits)) (e - digits.length)
    else none
  | _ => none

/-- A float in base sixty with a decimal point, without its sign. -/
def readSixties? (negative : Bool) (cs : List Char) : Option Float :=
  match cs.span (· != '.') with
  | (whole, '.' :: fraction) =>
    match splitColons [] whole with
    | first :: place :: places =>
      if isNumeral first && (place :: places).all isSixtieth
          && fraction.all (isGrouped Char.isDigit) then
        let digits := fraction.filter (· != '_')
        let n := (place :: places).foldl (fun n p => n * 60 + inBase 10 p) (inBase 10 first)
        some (readFloat negative (n * Nat.pow 10 digits.length + inBase 10 digits) (-digits.length))
      else none
    | _ => none
  | _ => none

/-- A float: with a decimal point, in base sixty, infinite or no number. A sign needs a digit in
front of the point. -/
def readFloat? (cs : List Char) : Option Float :=
  let (negative, rest) := readSign cs
  if [".inf", ".Inf", ".INF"].contains (String.ofList rest) then some (readFloat negative 1 400)
  else if [".nan", ".NaN", ".NAN"].contains (String.ofList cs) then
    some (Float.ofScientific 0 false 0 / Float.ofScientific 0 false 0)
  else if rest.head? == some '.' && rest.length != cs.length then none
  else readPoint? negative rest <|> readSixties? negative rest

/-! ## Dates and times -/

/-- Leading digits, of which there have to be from `least` to `most`, as a number. -/
def readDigits? (least most : Nat) (cs : List Char) : Option (Nat × List Char) :=
  let (ds, rest) := cs.span Char.isDigit
  if least ≤ ds.length && ds.length ≤ most then some (inBase 10 ds, rest) else none

/-- Digits behind a mark. -/
def readMarked? (mark : Char) (least : Nat) : List Char → Option (Nat × List Char)
  | c :: rest => if c == mark then readDigits? least 2 rest else none
  | [] => none

/-- The digits behind a point as millionths. -/
def readMicros : List Char → Nat × List Char
  | '.' :: rest =>
    let (ds, rest) := rest.span Char.isDigit
    (inBase 10 ((ds ++ List.replicate 6 '0').take 6), rest)
  | cs => (0, cs)

/-- The offset of a clock in minutes, if there is one, to the end of the scalar. -/
def readOffset? (cs : List Char) : Option (Option Int) :=
  match cs.dropWhile fun c => c == ' ' || c == '\t' with
  | [] => if cs.isEmpty then some none else none
  | ['Z'] => some (some 0)
  | sign :: rest =>
    if sign == '+' || sign == '-' then
      match readDigits? 1 2 rest with
      | none => none
      | some (hours, rest) =>
        let minutes := if rest.isEmpty then some (0, []) else readMarked? ':' 2 rest
        match minutes with
        | some (minutes, []) =>
          let n : Int := hours * 60 + minutes
          some (some (if sign == '-' then -n else n))
        | _ => none
    else none

/-- Whether what follows a date may start a time: a letter, or blanks. -/
def splitTime? : List Char → Option (List Char)
  | c :: rest =>
    if c == 'T' || c == 't' then some rest
    else if c == ' ' || c == '\t' then some (rest.dropWhile fun c => c == ' ' || c == '\t')
    else none
  | [] => none

/-- The numbers of a date, and whether month and day have two digits each. -/
def readDate? (cs : List Char) : Option ((Nat × Nat × Nat) × Bool × List Char) := do
  let (year, afterYear) ← readDigits? 4 4 cs
  let (month, afterMonth) ← readMarked? '-' 1 afterYear
  let (day, rest) ← readMarked? '-' 1 afterMonth
  return ((year, month, day), cs.length == rest.length + 10, rest)

/-- The numbers of a time with its offset, to the end of the scalar. -/
def readTime? (cs : List Char) : Option ((Nat × Nat × Nat × Nat) × Option Int) := do
  let (hour, rest) ← readDigits? 1 2 cs
  let (minute, rest) ← readMarked? ':' 2 rest
  let (second, rest) ← readMarked? ':' 2 rest
  let (micro, rest) := readMicros rest
  let offset ← readOffset? rest
  return ((hour, minute, second, micro), offset)

/-- A scalar in the form of a date, with a time or without; `some none` if its numbers are none of
the calendar or the clock. -/
def readMoment? (cs : List Char) : Option (Option Moment) :=
  match readDate? cs with
  | none => none
  | some ((year, month, day), isWide, rest) =>
    let date := Date.ofNumbers? year month day
    if rest.isEmpty then if isWide then some (date.map .date) else none
    else
      ((splitTime? rest).bind readTime?).map fun ((hour, minute, second, micro), offset) => do
        let d ← date
        let t ← TimeOfDay.ofNumbers? hour minute second micro
        match offset with
        | none => return .dateTime d t none
        | some n => return .dateTime d t (some (← ClockOffset.ofMinutes? n))

/-- What a plain scalar stands for; `none` for a reserved word and for a date that is none. -/
def plainScalar? (s : String) : Option Scalar :=
  if reservedWords.contains s then none
  else if trueWords.contains s then some (.bool true)
  else if falseWords.contains s then some (.bool false)
  else if nullWords.contains s then some .null
  else match readFloat? s.toList with
    | some x => some (.float x)
    | none =>
      let (negative, rest) := readSign s.toList
      match readWhole? rest, readMoment? s.toList with
      | some n, _ => some (.int (if negative then -(n : Int) else n))
      | none, some moment => moment.map .moment
      | none, none => some (.str s)

end CodeAtlas.Yaml
