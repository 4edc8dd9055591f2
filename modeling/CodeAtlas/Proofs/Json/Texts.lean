import CodeAtlas.Json.Reader
import CodeAtlas.Json.Writer

/-!
# Texts are read back

Writing a text escapes its characters one by one, and reading undoes one escape at a time. A
character above the first plane takes two escapes, which the reader joins. No character is half a
pair, so an escape that stands alone is never taken for the first of two.
-/

namespace CodeAtlas.Json

open Text

/-! ## Units -/

theorem hexDigits_add_two (width n : Nat) :
    hexDigits (width + 2) n = hexDigits (width + 1) (n / 16) ++ [(n % 16).digitChar] := by
  unfold hexDigits
  by_cases hn : n < 16
  · rw [Nat.toDigits_of_lt_base hn, Nat.div_eq_of_lt hn, Nat.mod_eq_of_lt hn, Nat.toDigits_zero]
    simp only [List.length_singleton, Nat.add_sub_cancel, List.append_left_inj]
    exact List.replicate_succ'
  · rw [Nat.toDigits_of_base_le (by omega) (by omega)]
    simp only [List.length_append, List.length_singleton, ← List.append_assoc]
    congr 3
    omega

theorem hexDigits_one {n : Nat} (h : n < 16) : hexDigits 1 n = [n.digitChar] := by
  unfold hexDigits
  rw [Nat.toDigits_of_lt_base h]
  rfl

theorem hexValue?_digitChar {n : Nat} (h : n < 16) : hexValue? n.digitChar = some n := by
  have hall : ∀ n < 16, hexValue? n.digitChar = some n := by decide
  exact hall n h

/-- A unit is written with four digits, and they spell it. -/
theorem hexDigits_four {n : Nat} (h : n < 0x10000) :
    ∃ a b c d, hexDigits 4 n = [a, b, c, d] ∧ unit? a b c d = some n := by
  refine ⟨(n / 16 / 16 / 16).digitChar, (n / 16 / 16 % 16).digitChar, (n / 16 % 16).digitChar,
    (n % 16).digitChar, ?_, ?_⟩
  · rw [hexDigits_add_two, hexDigits_add_two, hexDigits_add_two, hexDigits_one (by omega)]
    rfl
  · unfold unit?
    rw [hexValue?_digitChar (by omega), hexValue?_digitChar (by omega),
      hexValue?_digitChar (by omega), hexValue?_digitChar (by omega)]
    show some _ = some n
    congr 1
    omega

/-- No character is half a pair. -/
theorem toNat_valid (c : Char) :
    c.toNat < 0xD800 ∨ (0xDFFF < c.toNat ∧ c.toNat < 0x110000) := c.valid

theorem unitChar_toNat (c : Char) : unitChar c.toNat = c := by
  have hvalid := toNat_valid c
  unfold unitChar isHighUnit isLowUnit
  rw [if_neg, Char.ofNat_toNat]
  simp only [Bool.or_eq_true, Bool.and_eq_true, decide_eq_true_eq]
  omega

theorem joinUnits_split {c : Char} (h : 0x10000 ≤ c.toNat) :
    joinUnits (0xD800 + (c.toNat - 0x10000) / 0x400) (0xDC00 + (c.toNat - 0x10000) % 0x400) =
      c := by
  unfold joinUnits
  have hn : 0x10000 + (0xD800 + (c.toNat - 0x10000) / 0x400 - 0xD800) * 0x400 +
      (0xDC00 + (c.toNat - 0x10000) % 0x400 - 0xDC00) = c.toNat := by
    omega
  rw [hn, Char.ofNat_toNat]

/-! ## One character -/

variable {opening read rest : List Char}

theorem readText_plain {c : Char} (hquote : c ≠ '"') (hslash : c ≠ '\\') (hc : 0x20 ≤ c.toNat) :
    readText opening read (c :: rest) = readText opening (c :: read) rest := by
  rw [readText]
  · rw [if_neg (by omega)]
  · exact hquote
  · exact hslash

theorem readText_short {c e : Char} (he : shortEscape? c = some e) :
    readText opening read ('\\' :: c :: rest) = readText opening (e :: read) rest := by
  have hu : c ≠ 'u' := by
    rintro rfl
    cases he
  rw [readText]
  · simp [hu, he]
  · simp [hu]

/-- An escape that is not the first half of a pair stands for itself, whatever follows it. -/
theorem readText_unit {n : Nat} (hn : n < 0x10000) (hhigh : isHighUnit n = false)
    (hrest : rest ≠ []) :
    readText opening read (unitEscape n ++ rest) = readText opening (unitChar n :: read) rest := by
  obtain ⟨a, b, c, d, hdigits, hunit⟩ := hexDigits_four hn
  unfold unitEscape
  rw [hdigits]
  show readText opening read ('\\' :: 'u' :: a :: b :: c :: d :: rest) = _
  rw [readText, if_neg (by simpa using hrest), hunit]
  simp only [hhigh, Bool.false_and, Bool.false_eq_true, if_false]
  split <;> rfl

/-- The two halves of a pair are joined. -/
theorem readText_pair {high low : Nat} (hhigh : isHighUnit high) (hlow : isLowUnit low)
    (hrest : rest ≠ []) :
    readText opening read (unitEscape high ++ unitEscape low ++ rest) =
      readText opening (joinUnits high low :: read) rest := by
  have hh : high < 0x10000 := by
    simp only [isHighUnit, Bool.and_eq_true, decide_eq_true_eq] at hhigh
    omega
  have hl : low < 0x10000 := by
    simp only [isLowUnit, Bool.and_eq_true, decide_eq_true_eq] at hlow
    omega
  obtain ⟨a, b, c, d, hfirst, hhighUnit⟩ := hexDigits_four hh
  obtain ⟨e, f, g, h, hsecond, hlowUnit⟩ := hexDigits_four hl
  unfold unitEscape
  rw [hfirst, hsecond]
  show readText opening read ('\\' :: 'u' :: a :: b :: c :: d ::
    '\\' :: 'u' :: e :: f :: g :: h :: rest) = _
  have hmore : rest.isEmpty = false := by simpa using hrest
  rw [readText, hhighUnit]
  simp [hhigh, hmore, hlowUnit, hlow]

theorem readText_low {c : Char} (hc : c.toNat < 0x10000) (hrest : rest ≠ []) :
    readText opening read (unitEscape c.toNat ++ rest) = readText opening (c :: read) rest := by
  have hvalid := toNat_valid c
  have hhigh : isHighUnit c.toNat = false := by
    simp only [isHighUnit, Bool.and_eq_false_iff, decide_eq_false_iff_not]
    omega
  rw [readText_unit hc hhigh hrest, unitChar_toNat]

theorem readText_high {c : Char} (hc : 0x10000 ≤ c.toNat) (hrest : rest ≠ []) :
    readText opening read (unitEscape (0xD800 + (c.toNat - 0x10000) / 0x400) ++
      unitEscape (0xDC00 + (c.toNat - 0x10000) % 0x400) ++ rest) =
      readText opening (c :: read) rest := by
  have hvalid := toNat_valid c
  rw [readText_pair _ _ hrest, joinUnits_split hc]
  · simp only [isHighUnit, Bool.and_eq_true, decide_eq_true_eq]
    omega
  · simp only [isLowUnit, Bool.and_eq_true, decide_eq_true_eq]
    omega

/-- Reading an escaped character. A text always goes on after it, at least with its last quote. -/
theorem readText_escapeChar (c : Char) (hrest : rest ≠ []) :
    readText opening read (escapeChar c ++ rest) = readText opening (c :: read) rest := by
  have hnat : ∀ n, c.toNat = n → Char.ofNat n = c := fun n hn => hn ▸ Char.ofNat_toNat c
  unfold escapeChar
  split
  · rename_i hmark
    simp only [Bool.or_eq_true, beq_iff_eq] at hmark
    rcases hmark with rfl | rfl
    · exact readText_short rfl
    · exact readText_short rfl
  rename_i hmark
  simp only [Bool.or_eq_true, beq_iff_eq, not_or] at hmark
  split
  · rename_i heq
    obtain rfl : c = '\n' := by simpa using heq
    exact readText_short rfl
  split
  · rename_i heq
    obtain rfl : c = '\r' := by simpa using heq
    exact readText_short rfl
  split
  · rename_i heq
    obtain rfl : c = '\t' := by simpa using heq
    exact readText_short rfl
  split
  · rename_i heq
    rw [← hnat 8 (by simpa using heq)]
    exact readText_short rfl
  split
  · rename_i heq
    rw [← hnat 12 (by simpa using heq)]
    exact readText_short rfl
  split
  · rename_i hplain
    simp only [Bool.and_eq_true, decide_eq_true_eq] at hplain
    exact readText_plain hmark.1 hmark.2 hplain.1
  split
  · rename_i hlow
    exact readText_low hlow hrest
  · rename_i hlow
    exact readText_high (by omega) hrest

/-! ## Whole texts -/

theorem readText_escaped (opening read rest s : List Char) :
    readText opening read (s.flatMap escapeChar ++ '"' :: rest) =
      .ok (String.ofList (read.reverse ++ s), rest) := by
  induction s generalizing read with
  | nil =>
    rw [List.flatMap_nil, List.nil_append, List.append_nil, readText]
  | cons c s ih =>
    rw [List.flatMap_cons, List.append_assoc, readText_escapeChar c (by simp), ih]
    simp

/-- A written text is read up to its last quote and comes back unchanged. -/
theorem readText_writeText (opening rest : List Char) (s : String) :
    ∃ body, writeText s = '"' :: body ∧ readText opening [] (body ++ rest) = .ok (s, rest) := by
  refine ⟨_, rfl, ?_⟩
  rw [List.append_assoc]
  show readText opening [] (s.toList.flatMap escapeChar ++ '"' :: rest) = _
  rw [readText_escaped]
  simp

end CodeAtlas.Json
