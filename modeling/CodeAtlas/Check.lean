import CodeAtlas.Value
import CodeAtlas.Issue
import CodeAtlas.Spelled
import CodeAtlas.Decimal.Dyadic
import CodeAtlas.Text.Blank
/-!
# Checks of single fields

The rules by which a value is taken as a whole number, a truth value, a text or one of several
choices. They are the rules that pydantic documents for its lax mode: numbers and truth values are
also read from texts, a float without a fraction is a whole number, and truth values and the numbers
zero and one stand for each other.
-/

namespace CodeAtlas.Check

/-! ## Whole numbers -/

/-- Reads digits with single underscores between them, continuing from `n`; `fresh` holds at the
start and after an underscore, where a digit has to follow. -/
def readDigits? (fresh : Bool) (n : Nat) : List Char → Option Nat
  | [] => if fresh then none else some n
  | c :: rest =>
    if c.isDigit then readDigits? false (n * 10 + (c.toNat - '0'.toNat)) rest
    else if c == '_' && !fresh then readDigits? true n rest
    else none

/-- Removes a decimal point followed by nothing but zeros. -/
def dropZeroFraction (cs : List Char) : List Char :=
  match cs.span (· != '.') with
  | (whole, '.' :: zeros) => if !zeros.isEmpty && zeros.all (· == '0') then whole else cs
  | _ => cs

/-- The number without its sign. -/
def readMagnitude? (cs : List Char) : Option Nat :=
  readDigits? true 0 (dropZeroFraction cs)

/-- The whole number a text spells: blanks around it are stripped, one sign is allowed, digits may
be grouped by single underscores, and a fraction of zeros does not count. -/
def readInt? (s : String) : Option Int :=
  match Text.strip s.toList with
  | '-' :: rest => (readMagnitude? rest).map fun n => -(n : Int)
  | '+' :: rest => (readMagnitude? rest).map fun n => (n : Int)
  | cs => (readMagnitude? cs).map fun n => (n : Int)

/-- The whole number equal to a float, which has to fit in 64 bits. -/
def floatInt (x : Float) : Checked Int :=
  match Dyadic.classify x with
  | .finite d =>
    match d.toInt? with
    | none => .fail .fractionalInt
    | some i => if 0x8000000000000000 ≤ i.natAbs then .fail .oversizedInt else .accepted i
  | _ => .fail .unboundedInt

/-- A value taken as a whole number. -/
def int : Value → Checked Int
  | .int i => .accepted i
  | .bool b => .accepted (if b then 1 else 0)
  | .float x => floatInt x
  | .str s =>
    match readInt? s with
    | some i => .accepted i
    | none => .fail .unreadableInt
  | _ => .fail .notInt

/-- A whole number from `lo` to `hi`. -/
def intBetween (lo hi : Int) (v : Value) : Checked Int :=
  (int v).andThen fun i =>
    if i < lo then .fail .belowRange else if hi < i then .fail .aboveRange else .accepted i

def nullable {α : Type} (check : Value → Checked α) : Value → Checked (Option α)
  | .null => .accepted none
  | v => (check v).map some

/-! ## Truth values, texts and choices -/

def trueWords : List String := ["1", "true", "t", "yes", "y", "on"]

def falseWords : List String := ["0", "false", "f", "no", "n", "off"]

/-- A value taken as a truth value; the case of letters does not matter. -/
def bool : Value → Checked Bool
  | .bool b => .accepted b
  | .int i => if i == 1 then .accepted true else if i == 0 then .accepted false
    else .fail .unreadableBool
  | .float x =>
    match Dyadic.classify x with
    | .finite d =>
      match d.toInt? with
      | some i => if i == 1 then .accepted true else if i == 0 then .accepted false
        else .fail .notBool
      | none => .fail .notBool
    | _ => .fail .notBool
  | .str s =>
    let word := s.map Char.toLower
    if trueWords.contains word then .accepted true
    else if falseWords.contains word then .accepted false
    else .fail .unreadableBool
  | _ => .fail .notBool

def text : Value → Checked String
  | .str s => .accepted s
  | _ => .fail .notText

def nonemptyText (v : Value) : Checked String :=
  (text v).andThen fun s => if s.isEmpty then .fail .tooShort else .accepted s

/-- One of the words of `α`; `kind` is the issue with anything else. -/
def word (α : Type) [Spelled α] (kind : IssueKind) : Value → Checked α
  | .str s =>
    match (Spelled.ofText? s : Option α) with
    | some a => .accepted a
    | none => .fail kind
  | _ => .fail kind

def object : Value → Checked Fields
  | .object fields => .accepted fields
  | _ => .fail .notObject

/-! ## Fields of a record -/

/-- A record: an object whose fields are then checked. -/
def record {α : Type} (check : Fields → Checked α) : Value → Checked α
  | .object fields => check fields
  | _ => .fail .notRecord

/-- A field that has to be there. -/
def required {α : Type} (fields : Fields) (name : String) (check : Value → Checked α) :
    Checked α :=
  (match fields.get? name with
    | some v => check v
    | none => .fail .missing).under (.field name)

/-- A field that may be absent, and its value then. -/
def optional {α : Type} (fields : Fields) (name : String) (absent : α)
    (check : Value → Checked α) : Checked α :=
  match fields.get? name with
  | some v => (check v).under (.field name)
  | none => .accepted absent

/-- The items of a list from position `i` on. -/
def itemsFrom {α : Type} (check : Value → Checked α) (i : Nat) : List Value → Checked (List α)
  | [] => .accepted []
  | v :: rest => Checked.map₂ (· :: ·) ((check v).under (.index i)) (itemsFrom check (i + 1) rest)

/-- A list whose items all pass. -/
def listOf {α : Type} (check : Value → Checked α) : Value → Checked (List α)
  | .list items => itemsFrom check 0 items
  | _ => .fail .notList

end CodeAtlas.Check
