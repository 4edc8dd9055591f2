import CodeAtlas.Assoc
/-!
# Data values

The free-form data a code graph carries: attributes of nodes and edges, documents and settings.
An object keeps its fields in the order in which they were written.
-/

namespace CodeAtlas

/-- A tree of data with ordered objects; integers and floats are kept apart. -/
inductive Value where
  | null
  | bool (b : Bool)
  | int (i : Int)
  | float (x : Float)
  | str (s : String)
  | list (items : List Value)
  | object (fields : List (String × Value))
  deriving Inhabited

/-- The fields of an object, in writing order. -/
abbrev Fields := Assoc Value

namespace Value

/-- The fields of an object, `none` for any other value. -/
def fields? : Value → Option Fields
  | .object fields => some fields
  | _ => none

/-- The text of a string value, `none` for any other value. -/
def text? : Value → Option String
  | .str s => some s
  | _ => none

/-- Whether a value counts as nothing: null, false, zero or an empty text, list or object. -/
def isVacant : Value → Bool
  | .null => true
  | .bool b => !b
  | .int i => i == 0
  | .float x => x == 0
  | .str s => s.isEmpty
  | .list items => items.isEmpty
  | .object fields => fields.isEmpty

end Value

end CodeAtlas
