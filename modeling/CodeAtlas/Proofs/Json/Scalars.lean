import CodeAtlas.Json.Reader
import CodeAtlas.Json.Writer
import Mathlib.Data.List.TakeDrop
import Mathlib.Data.List.TakeWhile

/-!
# Words and numbers are read back

A word or a number has no mark at its end: the reader takes as much as it can. What follows a value
in a written text can never be taken for more of it, so a scalar that is read back when it stands
alone is read back wherever it stands.
-/

namespace CodeAtlas.Json

/-! ## What follows a value -/

/-- The characters that can follow a value in a written text. -/
def delimiters : List Char := [',', ']', '\x7d', '\n']

/-- The text is over or goes on with a delimiter. -/
def Ends (rest : List Char) : Prop :=
  ∀ c ∈ rest.head?, c ∈ delimiters

theorem ends_nil : Ends [] := fun _ hc => nomatch hc

theorem ends_cons {c : Char} {rest : List Char} (h : c ∈ delimiters) :
    Ends (c :: rest) := by
  intro d hd
  obtain rfl : c = d := Option.some.inj hd
  exact h

theorem Ends.eq_nil_or_cons {rest : List Char} (h : Ends rest) :
    rest = [] ∨ ∃ tail, rest = ',' :: tail ∨ rest = ']' :: tail ∨ rest = '\x7d' :: tail ∨
      rest = '\n' :: tail := by
  cases rest with
  | nil => exact .inl rfl
  | cons c tail => exact .inr ⟨tail, by simpa [delimiters] using h c rfl⟩

/-! ## Scanners are local -/

variable {text rest : List Char}

/-- A scanned part of a text, for a longer text: the same part is taken, and more is left. -/
def extend {α : Type} (rest : List Char) (p : α × List Char) : α × List Char :=
  (p.1, p.2 ++ rest)

theorem spanDigits_append (hends : Ends rest) :
    spanDigits (text ++ rest) = extend rest (spanDigits text) := by
  unfold spanDigits extend
  simp only [List.span_eq_takeWhile_dropWhile]
  induction text with
  | nil => obtain rfl | ⟨tail, rfl | rfl | rfl | rfl⟩ := hends.eq_nil_or_cons <;> rfl
  | cons c text ih =>
    by_cases hc : c.isDigit
    · simpa [hc] using ih
    · simp [hc]

theorem spanWhole_append (hends : Ends rest) :
    spanWhole (text ++ rest) = extend rest (spanWhole text) := by
  cases text with
  | nil => obtain rfl | ⟨tail, rfl | rfl | rfl | rfl⟩ := hends.eq_nil_or_cons <;> rfl
  | cons c text =>
    by_cases hc : c = '0'
    · subst hc
      rfl
    · have hdigits : ∀ t, spanWhole (c :: t) = spanDigits (c :: t) := by
        intro t
        unfold spanWhole
        simp [hc]
      rw [List.cons_append, hdigits, hdigits, ← List.cons_append]
      exact spanDigits_append hends

theorem spanFraction_append (hends : Ends rest) :
    spanFraction (text ++ rest) = extend rest (spanFraction text) := by
  cases text with
  | nil => obtain rfl | ⟨tail, rfl | rfl | rfl | rfl⟩ := hends.eq_nil_or_cons <;> rfl
  | cons c text =>
    unfold spanFraction
    by_cases hc : c = '.'
    · subst hc
      simp only [List.cons_append, spanDigits_append hends]
      rcases spanDigits text with ⟨_ | ⟨d, ds⟩, left⟩ <;> rfl
    · simp [hc, extend]

theorem spanSigned_append (hends : Ends rest) :
    spanSigned (text ++ rest) =
      ((spanSigned text).1, extend rest (spanSigned text).2) := by
  cases text with
  | nil => obtain rfl | ⟨tail, rfl | rfl | rfl | rfl⟩ := hends.eq_nil_or_cons <;> rfl
  | cons c text =>
    unfold spanSigned
    by_cases hminus : c = '-'
    · subst hminus
      simp [spanDigits_append hends, extend]
    · by_cases hplus : c = '+'
      · subst hplus
        simp [spanDigits_append hends, extend]
      · have hall : spanDigits (c :: text ++ rest) = _ := spanDigits_append hends
        rw [List.cons_append] at hall ⊢
        simp [hminus, hplus, hall, extend]

theorem spanExponent_append (hends : Ends rest) :
    spanExponent (text ++ rest) = extend rest (spanExponent text) := by
  cases text with
  | nil => obtain rfl | ⟨tail, rfl | rfl | rfl | rfl⟩ := hends.eq_nil_or_cons <;> rfl
  | cons c text =>
    rw [List.cons_append]
    unfold spanExponent
    by_cases hc : c == 'e' || c == 'E'
    · simp only [hc, if_true, spanSigned_append hends]
      rcases spanSigned text with ⟨_ | _, _ | ⟨d, ds⟩, left⟩ <;> rfl
    · simp [hc, extend]

theorem readMagnitude?_append (negative : Bool) (hends : Ends rest) :
    readMagnitude? negative (text ++ rest) = (readMagnitude? negative text).map (extend rest) := by
  unfold readMagnitude?
  rw [spanWhole_append hends]
  rcases spanWhole text with ⟨_ | ⟨d, ds⟩, afterWhole⟩
  · rfl
  · simp only [extend, spanFraction_append hends, spanExponent_append hends]
    split <;> rfl

theorem readNumber?_append (hends : Ends rest) :
    readNumber? (text ++ rest) = (readNumber? text).map (extend rest) := by
  cases text with
  | nil => obtain rfl | ⟨tail, rfl | rfl | rfl | rfl⟩ := hends.eq_nil_or_cons <;> rfl
  | cons c text =>
    unfold readNumber?
    by_cases hc : c = '-'
    · subst hc
      exact readMagnitude?_append true hends
    · have hall : readMagnitude? false (c :: text ++ rest) = _ := readMagnitude?_append false hends
      rw [List.cons_append] at hall ⊢
      simpa [hc] using hall

theorem afterWord?_append {word : List Char} (hword : ∀ c ∈ word, c ∉ delimiters)
    (hends : Ends rest) :
    afterWord? word (text ++ rest) = (afterWord? word text).map (· ++ rest) := by
  induction word generalizing text with
  | nil => rfl
  | cons w word ih =>
    obtain ⟨hw, hword⟩ := List.forall_mem_cons.mp hword
    cases text with
    | nil =>
      cases rest with
      | nil => rfl
      | cons c rest =>
        have hne : w ≠ c := by
          rintro rfl
          exact hw (hends w rfl)
        simp [afterWord?, hne]
    | cons c text =>
      by_cases hc : w = c
      · simp [afterWord?, hc, ih hword]
      · simp [afterWord?, hc]

theorem readWord?_append (hends : Ends rest) :
    readWord? (text ++ rest) = (readWord? text).map (extend rest) := by
  have hall : words.all (fun p => p.1.all fun c => !delimiters.contains c) := rfl
  have hwords : ∀ p ∈ words, ∀ c ∈ p.1, c ∉ delimiters := by
    intro p hp c hc
    simpa using List.all_eq_true.mp (List.all_eq_true.mp hall p hp) c hc
  unfold readWord?
  generalize words = entries at hwords
  induction entries with
  | nil => rfl
  | cons entry entries ih =>
    obtain ⟨word, v⟩ := entry
    obtain ⟨hword, hwords⟩ := List.forall_mem_cons.mp hwords
    rw [List.findSome?_cons, List.findSome?_cons]
    simp only [afterWord?_append hword hends]
    cases afterWord? word text with
    | none => exact ih hwords
    | some left => rfl

/-! ## Scalars -/

/-- The text, standing alone, is read as the word or number `v`. -/
def Spells (text : List Char) (v : Value) : Prop :=
  (readWord? text).or (readNumber? text) = some (v, [])

/-- A value that is neither a text nor an object nor a list is a word or a number. -/
theorem readValue_scalar {c : Char} (fuel : Nat) (hc : c ∉ ['"', '\x7b', '[']) :
    readValue (fuel + 1) (c :: text) =
      ((readWord? (c :: text)).or (readNumber? (c :: text))).elim
        (stopAt .expectedValue (c :: text)) .ok := by
  simp only [List.mem_cons, List.not_mem_nil, or_false, not_or] at hc
  rw [readValue]
  · cases readWord? (c :: text) with
    | none => cases readNumber? (c :: text) <;> rfl
    | some found => rfl
  · simp [hc]
  · simp [hc]
  · simp [hc]

/-- A text opens with a quote, and an object and a list with their brackets: none of them is a word
or a number. -/
theorem not_spells_of_mem {c : Char} (hc : c ∈ ['"', '\x7b', '[']) (v : Value) :
    ¬Spells (c :: text) v := by
  simp only [List.mem_cons, List.not_mem_nil, or_false] at hc
  intro h
  rcases hc with rfl | rfl | rfl <;> cases h

/-- A scalar is read back in front of anything that can follow it. -/
theorem Spells.readValue {v : Value} (h : Spells text v) (fuel : Nat) (hends : Ends rest) :
    readValue (fuel + 1) (text ++ rest) = .ok (v, rest) := by
  cases text with
  | nil => cases h
  | cons c text =>
    have hc : c ∉ ['"', '\x7b', '['] := fun hc => not_spells_of_mem hc v h
    rw [List.cons_append, readValue_scalar fuel hc, ← List.cons_append, readWord?_append hends,
      readNumber?_append hends, ← Option.map_or, h]
    rfl

/-! ## Whole numbers -/

theorem digitsValue_toDigits (n : Nat) : digitsValue 0 (Nat.toDigits 10 n) = n := by
  have hvalue : ∀ ds, digitsValue 0 ds = Nat.ofDigitChars 10 ds 0 := by
    intro ds
    unfold digitsValue digitValue
    rw [Nat.ofDigitChars_eq_foldl]
    simp only [Nat.mul_comm]
  rw [hvalue, Nat.ofDigitChars_ten_toDigits]

/-- A positive number has no leading zero. -/
theorem toDigits_ne_zero_cons {n : Nat} (h : 0 < n) (ds : List Char) :
    Nat.toDigits 10 n ≠ '0' :: ds := by
  induction n using Nat.strongRecOn generalizing ds with
  | ind n ih =>
    by_cases hn : n < 10
    · have hall : ∀ n < 10, 0 < n → n.digitChar ≠ '0' := by decide
      rw [Nat.toDigits_of_lt_base hn]
      intro heq
      exact hall n hn h (List.cons.inj heq).1
    · rw [Nat.toDigits_of_base_le (by omega) (by omega)]
      cases hds : Nat.toDigits 10 (n / 10) with
      | nil => exact absurd hds Nat.toDigits_ne_nil
      | cons d rest =>
        intro heq
        obtain ⟨rfl, -⟩ := List.cons.inj heq
        exact ih (n / 10) (by omega) (by omega) rest hds

theorem spanDigits_toDigits (n : Nat) :
    spanDigits (Nat.toDigits 10 n) = (Nat.toDigits 10 n, []) := by
  have hdigits : ∀ c ∈ Nat.toDigits 10 n, c.isDigit := fun c hc =>
    Nat.isDigit_of_mem_toDigits (by omega) (by omega) hc
  unfold spanDigits
  rw [List.span_eq_takeWhile_dropWhile, List.takeWhile_eq_self_iff.mpr hdigits,
    List.dropWhile_eq_nil_iff.mpr hdigits]

theorem readMagnitude?_toDigits (negative : Bool) (n : Nat) :
    readMagnitude? negative (Nat.toDigits 10 n) =
      some (.int (if negative then -(n : Int) else n), []) := by
  have hwhole : spanWhole (Nat.toDigits 10 n) = (Nat.toDigits 10 n, []) := by
    by_cases hn : n = 0
    · subst hn
      rfl
    · unfold spanWhole
      split
      · rename_i heq
        exact absurd heq (toDigits_ne_zero_cons (by omega) _)
      · exact spanDigits_toDigits n
  have hvalue := digitsValue_toDigits n
  unfold readMagnitude?
  rw [hwhole]
  cases hds : Nat.toDigits 10 n with
  | nil => exact absurd hds Nat.toDigits_ne_nil
  | cons d ds =>
    rw [hds] at hvalue
    simp [spanFraction, spanExponent, hvalue]

/-- A digit, or a minus sign and a digit, starts no word. -/
theorem readWord?_digit {d : Char} (hd : d.isDigit) (text : List Char) :
    readWord? (d :: text) = none ∧ readWord? ('-' :: d :: text) = none := by
  have hne : ∀ c, c.isDigit = false → c ≠ d := by
    rintro c hc rfl
    exact absurd hd (by simp [hc])
  simp [readWord?, words, afterWord?, hne 'n' rfl, hne 't' rfl, hne 'f' rfl, hne 'N' rfl,
    hne 'I' rfl, hne '-' rfl]

theorem spells_writeInt (i : Int) : Spells (writeInt i) (.int i) := by
  have hfirst : ∀ n, ∃ d ds, Nat.toDigits 10 n = d :: ds ∧ d.isDigit := by
    intro n
    cases hds : Nat.toDigits 10 n with
    | nil => exact absurd hds Nat.toDigits_ne_nil
    | cons d ds =>
      exact ⟨d, ds, rfl, Nat.isDigit_of_mem_toDigits (b := 10) (n := n) (by omega) (by omega)
        (hds ▸ List.mem_cons_self)⟩
  unfold Spells writeInt
  cases i with
  | ofNat n =>
    obtain ⟨d, ds, hds, hd⟩ := hfirst n
    have hminus : d ≠ '-' := by
      rintro rfl
      exact absurd hd (by decide)
    have hread := readMagnitude?_toDigits false n
    rw [hds] at hread
    simp only [hds, (readWord?_digit hd ds).1, Option.none_or]
    unfold readNumber?
    split
    · rename_i heq
      exact absurd (List.cons.inj heq).1 hminus
    · exact hread
  | negSucc n =>
    obtain ⟨d, ds, hds, hd⟩ := hfirst (n + 1)
    have hread := readMagnitude?_toDigits true (n + 1)
    rw [hds] at hread
    simp only [hds, (readWord?_digit hd ds).2, Option.none_or]
    exact hread

end CodeAtlas.Json
