import CodeAtlas.Value
import CodeAtlas.Decimal.FloatText
import CodeAtlas.Text.Quoted
/-!
# Values in messages

How a value looks inside a message: texts are quoted, lists and objects bracketed, and the words
for truth and absence are capitalised.
-/

namespace CodeAtlas.Value

/-- Floats in messages: written in place from `1e-04` up to, not including, `1e+16`. -/
def shownFloat : FloatText :=
  { positionalFrom := -4, positionalTo := 16, nan := "nan", infinite := "inf" }

def commaSeparated (parts : List String) : String :=
  String.intercalate ", " parts

mutual

/-- The text of a value inside a message. -/
def display : Value → String
  | .null => "None"
  | .bool true => "True"
  | .bool false => "False"
  | .int i => toString i
  | .float x => String.ofList (shownFloat.write x)
  | .str s => Text.quoted s
  | .list items => "[" ++ commaSeparated (displayItems items) ++ "]"
  | .object fields => "\x7b" ++ commaSeparated (displayFields fields) ++ "\x7d"

def displayItems : List Value → List String
  | [] => []
  | v :: rest => display v :: displayItems rest

def displayFields : List (String × Value) → List String
  | [] => []
  | (k, v) :: rest => (Text.quoted k ++ ": " ++ display v) :: displayFields rest

end

def shapeWord : Value → String
  | .null => "NoneType"
  | .bool _ => "bool"
  | .int _ => "int"
  | .float _ => "float"
  | .str _ => "str"
  | .list _ => "list"
  | .object _ => "dict"

end CodeAtlas.Value
