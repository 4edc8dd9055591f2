import CodeAtlas.Value
import CodeAtlas.Decimal.Dyadic
/-!
# When two values are alike

Comparison of data by meaning: numbers are compared as numbers whatever their form, truth values
count as one and zero, and the order of the fields of an object does not matter.
-/

namespace CodeAtlas

/-- A number as compared between values. -/
inductive Magnitude where
  | whole (i : Int)
  | fractional (d : Dyadic)
  | infinite (negative : Bool)
  | undefined
  deriving DecidableEq, Inhabited

namespace Value

/-- The number that a value stands for in comparisons. -/
def magnitude? : Value → Option Magnitude
  | .bool b => some (.whole (if b then 1 else 0))
  | .int i => some (.whole i)
  | .float x => some <| match Dyadic.classify x with
    | .nan => .undefined
    | .infinite negative => .infinite negative
    | .finite d => match d.toInt? with
      | some i => .whole i
      | none => .fractional d
  | _ => none

mutual

/-- Whether two values mean the same. -/
def isLike : Value → Value → Bool
  | .null, .null => true
  | .str s, .str t => s == t
  | .list as, .list bs => listIsLike as bs
  | .object as, .object bs => as.length == bs.length && fieldsWithin as bs
  | a, b => match magnitude? a, magnitude? b with
    | some m, some n => m == n
    | _, _ => false

def listIsLike : List Value → List Value → Bool
  | [], [] => true
  | a :: as, b :: bs => isLike a b && listIsLike as bs
  | _, _ => false

/-- Whether every field of the first list has a like field in the second. -/
def fieldsWithin : List (String × Value) → List (String × Value) → Bool
  | [], _ => true
  | (k, a) :: rest, bs =>
    (match Assoc.get? bs k with
      | some b => isLike a b
      | none => false) && fieldsWithin rest bs

end

end Value

/-- Whether two sets of fields are alike, whatever their order. -/
def Fields.isLike (a b : Fields) : Bool :=
  a.length == b.length && Value.fieldsWithin a b

end CodeAtlas
