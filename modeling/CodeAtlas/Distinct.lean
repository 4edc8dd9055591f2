/-!
# First occurrences

Lists without repetition, keeping the order in which the items first appear.
-/

namespace CodeAtlas

/-- Keeps the first occurrence of each item. -/
def distinct {α : Type} [DecidableEq α] : List α → List α
  | [] => []
  | a :: as => a :: (distinct as).filter (· ≠ a)

variable {α : Type} [DecidableEq α]

@[simp] theorem mem_distinct {a : α} {as : List α} : a ∈ distinct as ↔ a ∈ as := by
  induction as with
  | nil => simp [distinct]
  | cons b bs ih =>
    by_cases h : a = b
    · simp [distinct, h]
    · simp [distinct, h, ih]

theorem nodup_distinct (as : List α) : (distinct as).Nodup := by
  induction as with
  | nil => simp [distinct]
  | cons b bs ih =>
    unfold distinct
    rw [List.nodup_cons]
    exact ⟨by simp, ih.filter _⟩

theorem distinct_append_singleton (as : List α) (a : α) :
    distinct (as ++ [a]) = if a ∈ as then distinct as else distinct as ++ [a] := by
  induction as with
  | nil => rfl
  | cons b bs ih =>
    rw [List.cons_append, distinct, distinct, ih]
    by_cases hbs : a ∈ bs
    · simp [hbs]
    · rw [if_neg hbs, List.filter_append]
      by_cases hb : a = b
      · simp [hb]
      · simp [hbs, hb]

end CodeAtlas
