import CodeAtlas.Calendar
/-!
# YAML data

What a YAML document holds. Besides the data that JSON knows there are moments, bytes and sets, and
the keys of a mapping need not be texts.
-/

namespace CodeAtlas.Yaml

/-- Data without parts. -/
inductive Scalar where
  | null
  | bool (b : Bool)
  | int (i : Int)
  | float (x : Float)
  | str (s : String)
  | moment (m : Moment)
  /-- Bytes, by the text that they spell, if they spell one. -/
  | binary (spelled : Option String)
  deriving Inhabited

/-- The data of a document. Of a key only its text counts; a key of another kind has none. Where a
document refers back to itself its tree is cut off, far below the settings. -/
inductive Tree where
  | scalar (s : Scalar)
  | list (items : List Tree)
  | set (size : Nat)
  | mapping (entries : List (Option String × Tree))
  deriving Inhabited

/-- What makes a tree of a text; `none` is a fault of any kind. -/
abbrev Reader := String → Option Tree

def Scalar.text? : Scalar → Option String
  | .str s => some s
  | _ => none

/-- Whether a scalar counts as nothing: null, false, zero, or a text or bytes of no length. -/
def Scalar.isVacant : Scalar → Bool
  | .null => true
  | .bool b => !b
  | .int i => i == 0
  | .float x => x == 0
  | .str s => s.isEmpty
  | .moment _ => false
  | .binary spelled => spelled == some ""

def Tree.isVacant : Tree → Bool
  | .scalar s => s.isVacant
  | .list items => items.isEmpty
  | .set size => size == 0
  | .mapping entries => entries.isEmpty

def Scalar.shapeWord : Scalar → String
  | .null => "NoneType"
  | .bool _ => "bool"
  | .int _ => "int"
  | .float _ => "float"
  | .str _ => "str"
  | .moment (.date _) => "datetime.date"
  | .moment (.time _) => "datetime.time"
  | .moment (.dateTime ..) => "datetime.datetime"
  | .binary _ => "bytes"

def Tree.shapeWord : Tree → String
  | .scalar s => s.shapeWord
  | .list _ => "list"
  | .set _ => "set"
  | .mapping _ => "dict"

end CodeAtlas.Yaml
