import CodeAtlas.Value
import CodeAtlas.Decimal.FloatText
import CodeAtlas.Text.Quoted
/-!
# Writing JSON text

The text holds plain ASCII only. With an indentation every item stands on a line of its own;
without one the whole value is a single line.
-/

namespace CodeAtlas.Json

def floatText : FloatText :=
  { positionalFrom := -4, positionalTo := 16, nan := "NaN", infinite := "Infinity" }

/-- A unit of sixteen bits as an escape. -/
def unitEscape (n : Nat) : List Char :=
  '\\' :: 'u' :: Text.hexDigits 4 n

/-- One character of a text; above the first plane it takes two escapes. -/
def escapeChar (c : Char) : List Char :=
  if c == '"' || c == '\\' then ['\\', c]
  else if c == '\n' then ['\\', 'n']
  else if c == '\r' then ['\\', 'r']
  else if c == '\t' then ['\\', 't']
  else if c.toNat == 8 then ['\\', 'b']
  else if c.toNat == 12 then ['\\', 'f']
  else if 0x20 ≤ c.toNat && c.toNat ≤ 0x7e then [c]
  else if c.toNat < 0x10000 then unitEscape c.toNat
  else
    let n := c.toNat - 0x10000
    unitEscape (0xD800 + n / 0x400) ++ unitEscape (0xDC00 + n % 0x400)

def writeText (s : String) : List Char :=
  '"' :: (s.toList.flatMap escapeChar ++ ['"'])

def writeInt (i : Int) : List Char :=
  match i with
  | .ofNat n => Nat.toDigits 10 n
  | .negSucc n => '-' :: Nat.toDigits 10 (n + 1)

/-- What stands in front of an item at `depth`: a line break and its indentation, or nothing. -/
def lineStart (indent : Option Nat) (depth : Nat) : List Char :=
  match indent with
  | none => []
  | some width => '\n' :: List.replicate (width * depth) ' '

/-- What stands between two items at `depth`. -/
def separator (indent : Option Nat) (depth : Nat) : List Char :=
  match indent with
  | none => [',', ' ']
  | some _ => ',' :: lineStart indent depth

mutual

/-- A value whose items, if any, stand at `depth + 1`. -/
def writeValue (indent : Option Nat) (depth : Nat) : Value → List Char
  | .null => "null".toList
  | .bool true => "true".toList
  | .bool false => "false".toList
  | .int i => writeInt i
  | .float x => floatText.write x
  | .str s => writeText s
  | .list [] => ['[', ']']
  | .list (v :: rest) =>
    '[' :: (lineStart indent (depth + 1) ++ writeValue indent (depth + 1) v
      ++ writeItems indent (depth + 1) rest ++ lineStart indent depth ++ [']'])
  | .object [] => ['\x7b', '\x7d']
  | .object ((k, v) :: rest) =>
    '\x7b' :: (lineStart indent (depth + 1) ++ writeText k ++ [':', ' ']
      ++ writeValue indent (depth + 1) v ++ writeFields indent (depth + 1) rest
      ++ lineStart indent depth ++ ['\x7d'])

/-- Further items of a list, each after a separator. -/
def writeItems (indent : Option Nat) (depth : Nat) : List Value → List Char
  | [] => []
  | v :: rest =>
    separator indent depth ++ writeValue indent depth v ++ writeItems indent depth rest

/-- Further fields of an object, each after a separator. -/
def writeFields (indent : Option Nat) (depth : Nat) : List (String × Value) → List Char
  | [] => []
  | (k, v) :: rest =>
    separator indent depth ++ writeText k ++ [':', ' '] ++ writeValue indent depth v
      ++ writeFields indent depth rest

end

/-- The text of a value. No indentation means one line, a negative one counts as zero. -/
def render (indent : Option Int) (v : Value) : String :=
  String.ofList (writeValue (indent.map Int.toNat) 0 v)

end CodeAtlas.Json
