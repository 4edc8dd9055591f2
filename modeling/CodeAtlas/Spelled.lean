/-!
# Words for closed sets of choices

Kinds, directions and policies are written as fixed words. A type with such words lists its members
and spells each; reading looks the word up in that list.
-/

namespace CodeAtlas

/-- A finite type whose members are written as words. Every member is listed, and no two of them
share a word, so the word of a member leads back to it. -/
class Spelled (α : Type) where
  /-- Every member, in the order in which they are listed. -/
  all : List α
  text : α → String
  find?_text : ∀ a : α, (all.find? fun b => text b == text a) = some a := by
    intro a
    cases a <;> decide

namespace Spelled

variable {α : Type} [Spelled α]

/-- The member written as `word`. -/
def ofText? (word : String) : Option α :=
  (all : List α).find? fun a => text a == word

theorem ofText?_text (a : α) : ofText? (text a) = some a :=
  find?_text a

theorem text_of_ofText? {word : String} {a : α} (h : ofText? word = some a) : text a = word := by
  have h' := List.find?_some h
  simpa using h'

end Spelled

end CodeAtlas
