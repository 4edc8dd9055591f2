/-!
# Issues found while checking data

Checking data against a schema finds every fault, not only the first. An issue says where in the
data it lies and what is wrong there; a `Checked` result is either a value or the list of issues.
-/

namespace CodeAtlas

/-- One step down into a piece of data. -/
inductive Step where
  | field (name : String)
  | index (i : Nat)
  deriving DecidableEq, Inhabited

/-- What can be wrong at a place. -/
inductive IssueKind where
  | missing
  | notRecord
  | notList
  | notObject
  | notText
  | tooShort
  | unknownKind
  | notInt
  | unreadableInt
  | oversizedInt
  | fractionalInt
  | unboundedInt
  | belowRange
  | aboveRange
  | notBool
  | unreadableBool
  | notAChoice
  | unknownField
  deriving DecidableEq, Inhabited

def IssueKind.code : IssueKind → String
  | .missing => "missing"
  | .notRecord => "model_type"
  | .notList => "list_type"
  | .notObject => "dict_type"
  | .notText => "string_type"
  | .tooShort => "string_too_short"
  | .unknownKind => "enum"
  | .notInt => "int_type"
  | .unreadableInt => "int_parsing"
  | .oversizedInt => "int_parsing_size"
  | .fractionalInt => "int_from_float"
  | .unboundedInt => "finite_number"
  | .belowRange => "greater_than_equal"
  | .aboveRange => "less_than_equal"
  | .notBool => "bool_type"
  | .unreadableBool => "bool_parsing"
  | .notAChoice => "literal_error"
  | .unknownField => "extra_forbidden"

/-- A fault and the way to it from the top of the data. -/
structure Issue where
  path : List Step
  kind : IssueKind
  deriving DecidableEq, Inhabited

/-- The outcome of a check: the value found, or every issue in order. -/
inductive Checked (α : Type) where
  | accepted (a : α)
  | rejected (issues : List Issue)
  deriving Inhabited

namespace Checked

variable {α β γ : Type}

def issues : Checked α → List Issue
  | .accepted _ => []
  | .rejected is => is

/-- The outcome of a single fault at this very place. -/
def fail (kind : IssueKind) : Checked α :=
  .rejected [⟨[], kind⟩]

/-- Applies a function to an accepted value. -/
def map (f : α → β) : Checked α → Checked β
  | .accepted a => .accepted (f a)
  | .rejected is => .rejected is

/-- Checks two parts of one record; the issues of both are kept, in order. -/
def both (x : Checked α) (y : Checked β) : Checked (α × β) :=
  match x, y with
  | .accepted a, .accepted b => .accepted (a, b)
  | x, y => .rejected (x.issues ++ y.issues)

/-- Checks two parts and joins their values. -/
def map₂ (f : α → β → γ) (x : Checked α) (y : Checked β) : Checked γ :=
  (both x y).map fun p => f p.1 p.2

/-- Goes on to a further check of an accepted value. -/
def andThen (x : Checked α) (f : α → Checked β) : Checked β :=
  match x with
  | .accepted a => f a
  | .rejected is => .rejected is

/-- Places the issues of a part below the step that leads to it. -/
def under (step : Step) : Checked α → Checked α
  | .accepted a => .accepted a
  | .rejected is => .rejected (is.map fun i => { i with path := step :: i.path })

@[simp] theorem issues_both (x : Checked α) (y : Checked β) :
    (both x y).issues = x.issues ++ y.issues := by
  cases x <;> cases y <;> simp [both, issues]

@[simp] theorem issues_map (f : α → β) (x : Checked α) : (x.map f).issues = x.issues := by
  cases x <;> rfl

end Checked

end CodeAtlas
