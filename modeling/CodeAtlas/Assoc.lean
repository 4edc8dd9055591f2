/-!
# Ordered maps

A map from names to values that remembers in which order the names came.
-/

namespace CodeAtlas

/-- Names with their values, oldest name first. -/
abbrev Assoc (β : Type) := List (String × β)

namespace Assoc

variable {β : Type}

def get? (m : Assoc β) (key : String) : Option β :=
  List.lookup key m

def has (m : Assoc β) (key : String) : Bool :=
  m.any (·.1 == key)

/-- Gives `key` the value `b`: a known name keeps its place, a new one goes last. -/
def set (m : Assoc β) (key : String) (b : β) : Assoc β :=
  match m with
  | [] => [(key, b)]
  | (k, c) :: rest => if k == key then (k, b) :: rest else (k, c) :: set rest key b

/-- The names, oldest first. -/
def keys (m : Assoc β) : List String :=
  m.map (·.1)

/-- Sets each entry in turn, so a repeated name keeps its first place and its last value. -/
def ofEntries (entries : List (String × β)) : Assoc β :=
  entries.foldl (fun m e => set m e.1 e.2) []

@[simp] theorem get?_nil (key : String) : get? ([] : Assoc β) key = none := rfl

theorem get?_cons (k : String) (b : β) (m : Assoc β) (key : String) :
    get? ((k, b) :: m) key = if key = k then some b else get? m key := by
  unfold get?
  rw [List.lookup_cons]
  by_cases h : key = k
  · simp [h]
  · have hk : (key == k) = false := by simpa using h
    simp [h, hk]

theorem get?_set (m : Assoc β) (key other : String) (b : β) :
    get? (set m key b) other = if other = key then some b else get? m other := by
  induction m with
  | nil => rw [set, get?_cons]
  | cons e rest ih =>
    obtain ⟨k, c⟩ := e
    by_cases h : k = key
    · subst h
      simp only [set, beq_self_eq_true, if_true, get?_cons]
      split <;> rfl
    · have hk : (k == key) = false := by simpa using h
      simp only [set, hk, Bool.false_eq_true, if_false, get?_cons, ih]
      by_cases hk' : other = k
      · subst hk'
        simp [h]
      · simp [hk']

end Assoc

end CodeAtlas
