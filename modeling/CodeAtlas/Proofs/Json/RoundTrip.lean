import CodeAtlas.Proofs.Config.Entries
import CodeAtlas.Proofs.Json.Scalars
import CodeAtlas.Proofs.Json.Texts

/-!
# Values are read back

Reading undoes writing, for every indentation. The induction follows the written value: a value is
read back in front of anything that can follow it, so that in a list or an object the reader comes
to rest exactly before the next separator or the closing bracket. The text of a value is at least as
long as the fuel its reading takes.
-/

namespace CodeAtlas

namespace Json

variable {indent : Option Nat} {v : Value} {rest : List Char}

/-! ## Blanks -/

theorem skipBlanks_append {gap : List Char} (h : ∀ c ∈ gap, isBlank c) :
    skipBlanks (gap ++ rest) = skipBlanks rest :=
  List.dropWhile_append_of_pos h

theorem skipBlanks_cons {c : Char} (h : isBlank c = false) :
    skipBlanks (c :: rest) = c :: rest := by
  simp [skipBlanks, h]

theorem isBlank_of_mem_lineStart (indent : Option Nat) (depth : Nat) :
    ∀ c ∈ lineStart indent depth, isBlank c := by
  cases indent with
  | none => exact fun c hc => nomatch hc
  | some width =>
    intro c hc
    rcases List.mem_cons.mp hc with rfl | hc
    · rfl
    · rw [List.eq_of_mem_replicate hc]
      rfl

theorem skipBlanks_lineStart {c : Char} (depth : Nat) (h : isBlank c = false) :
    skipBlanks (lineStart indent depth ++ c :: rest) = c :: rest := by
  rw [skipBlanks_append (isBlank_of_mem_lineStart indent depth), skipBlanks_cons h]

/-- A separator is a comma and blanks. -/
theorem separator_eq_cons (indent : Option Nat) (depth : Nat) :
    ∃ gap, separator indent depth = ',' :: gap ∧ ∀ c ∈ gap, isBlank c := by
  cases indent with
  | none => exact ⟨[' '], rfl, List.forall_mem_singleton.mpr rfl⟩
  | some width => exact ⟨_, rfl, isBlank_of_mem_lineStart (some width) depth⟩

/-- A closing bracket, on a line of its own or not, can follow a value. -/
theorem ends_lineStart {c : Char} (depth : Nat) (h : c ∈ delimiters) :
    Ends (lineStart indent depth ++ c :: rest) := by
  cases indent with
  | none => exact ends_cons h
  | some width => exact ends_cons (by decide)

/-- What is read as a value starts with neither a blank, a closing bracket nor a byte order mark. -/
theorem start_of_readValue {fuel : Nat} {text : List Char} {r : Value × List Char}
    (h : readValue fuel text = .ok r) :
    ∃ c tail, text = c :: tail ∧ isBlank c = false ∧ c ≠ ']' ∧ c ≠ '\uFEFF' := by
  cases fuel with
  | zero => cases h
  | succ fuel =>
    cases text with
    | nil => cases h
    | cons c tail =>
      have hno : ¬(c = ' ' ∨ c = '\t' ∨ c = '\n' ∨ c = '\r' ∨ c = ']' ∨ c = '\uFEFF') := by
        rintro (rfl | rfl | rfl | rfl | rfl | rfl) <;>
        · rw [readValue_scalar fuel (by decide)] at h
          cases h
      simp only [not_or] at hno
      obtain ⟨h1, h2, h3, h4, h5, h6⟩ := hno
      exact ⟨c, tail, rfl, by simp [isBlank, h1, h2, h3, h4], h5, h6⟩

/-! ## Lists and objects -/

/-- At any depth, and in front of anything that can follow it, the value is read back from its
text. -/
def ReadsBack (indent : Option Nat) (v : Value) : Prop :=
  ∀ depth fuel rest, (writeValue indent depth v).length ≤ fuel → Ends rest →
    readValue fuel (writeValue indent depth v ++ rest) = .ok (v, rest)

theorem Spells.readsBack {text : List Char} (h : Spells text v)
    (hwrite : ∀ depth, writeValue indent depth v = text) : ReadsBack indent v := by
  intro depth fuel rest hfuel hends
  rw [hwrite] at hfuel ⊢
  cases fuel with
  | zero =>
    obtain rfl : text = [] := List.eq_nil_of_length_eq_zero (by omega)
    cases h
  | succ fuel => exact h.readValue fuel hends

theorem ReadsBack.start (h : ReadsBack indent v) (depth : Nat) :
    ∃ c tail, writeValue indent depth v = c :: tail ∧ isBlank c = false ∧ c ≠ ']' ∧
      c ≠ '\uFEFF' := by
  have hread := h depth _ [] (Nat.le_refl _) ends_nil
  rw [List.append_nil] at hread
  exact start_of_readValue hread

theorem ReadsBack.skipBlanks_eq (h : ReadsBack indent v) (depth : Nat) :
    skipBlanks (writeValue indent depth v ++ rest) = writeValue indent depth v ++ rest := by
  obtain ⟨c, tail, htext, hblank, -⟩ := h.start depth
  rw [htext]
  exact skipBlanks_cons hblank

/-- The items of a list are read up to its bracket. -/
theorem readItems_writeItems {items : List Value} {depth fuel : Nat} (read : List Value)
    (outer : Nat) (hv : ReadsBack indent v) (hitems : ∀ w ∈ items, ReadsBack indent w)
    (hfuel : (writeValue indent depth v).length + (writeItems indent depth items).length < fuel) :
    readItems fuel read (writeValue indent depth v ++ (writeItems indent depth items ++
      (lineStart indent outer ++ ']' :: rest))) =
        .ok (.list (read.reverse ++ v :: items), rest) := by
  induction items generalizing v read fuel with
  | nil =>
    obtain ⟨fuel, rfl⟩ : ∃ k, fuel = k + 1 := ⟨fuel - 1, by omega⟩
    have hread := hv depth fuel (lineStart indent outer ++ ']' :: rest) (by omega)
      (ends_lineStart outer (by decide))
    unfold writeItems readItems
    rw [List.nil_append, hread]
    simp only [skipBlanks_lineStart outer (show isBlank ']' = false from rfl), List.reverse_cons]
  | cons w items ih =>
    obtain ⟨hw, hitems⟩ := List.forall_mem_cons.mp hitems
    obtain ⟨gap, hsep, hgap⟩ := separator_eq_cons indent depth
    obtain ⟨fuel, rfl⟩ : ∃ k, fuel = k + 1 := ⟨fuel - 1, by omega⟩
    unfold writeItems at hfuel ⊢
    rw [hsep] at hfuel ⊢
    simp only [List.length_append, List.length_cons] at hfuel
    simp only [List.append_assoc, List.cons_append]
    unfold readItems
    rw [hv depth fuel _ (by omega) (ends_cons (by decide))]
    simp only [skipBlanks_cons (show isBlank ',' = false from rfl), skipBlanks_append hgap,
      hw.skipBlanks_eq]
    rw [ih (v :: read) hw hitems (by omega)]
    simp

/-- One field: its name, the colon and the value. A brace ends the object, a comma leads to the next
field. -/
theorem readFields_field {k : String} {depth fuel : Nat} {tail : List Char}
    (read : List (String × Value)) (hv : ReadsBack indent v)
    (hfuel : (writeValue indent depth v).length ≤ fuel) (hends : Ends tail) :
    (∀ rest, skipBlanks tail = '\x7d' :: rest →
      readFields (fuel + 1) read
        (writeText k ++ ':' :: ' ' :: (writeValue indent depth v ++ tail)) =
        .ok (.object (Assoc.ofEntries ((k, v) :: read).reverse), rest)) ∧
    ∀ rest, skipBlanks tail = ',' :: rest →
      readFields (fuel + 1) read
        (writeText k ++ ':' :: ' ' :: (writeValue indent depth v ++ tail)) =
        readFields fuel ((k, v) :: read) (skipBlanks rest) := by
  obtain ⟨body, hbody, hkey⟩ := readText_writeText
    (writeText k ++ ':' :: ' ' :: (writeValue indent depth v ++ tail))
    (':' :: ' ' :: (writeValue indent depth v ++ tail)) k
  have hcolon : skipBlanks (':' :: ' ' :: (writeValue indent depth v ++ tail)) =
      ':' :: ' ' :: (writeValue indent depth v ++ tail) := skipBlanks_cons rfl
  have hspace : skipBlanks (' ' :: (writeValue indent depth v ++ tail)) =
      writeValue indent depth v ++ tail := hv.skipBlanks_eq depth
  have hread := hv depth fuel tail hfuel hends
  rw [hbody, List.cons_append] at hkey ⊢
  rw [readFields, hkey]
  constructor
  · intro rest htail
    simp only [hcolon, hspace, hread, htail]
  · intro rest htail
    simp only [hcolon, hspace, hread, htail]

/-- The fields of an object are read up to its brace. -/
theorem readFields_writeFields {fields : Fields} {k : String} {depth fuel : Nat}
    (read : List (String × Value)) (outer : Nat) (hv : ReadsBack indent v)
    (hfields : ∀ p ∈ fields, ReadsBack indent p.2)
    (hfuel : (writeValue indent depth v).length + (writeFields indent depth fields).length < fuel) :
    readFields fuel read (writeText k ++ ':' :: ' ' :: (writeValue indent depth v ++
      (writeFields indent depth fields ++ (lineStart indent outer ++ '\x7d' :: rest)))) =
      .ok (.object (Assoc.ofEntries (read.reverse ++ (k, v) :: fields)), rest) := by
  induction fields generalizing k v read fuel with
  | nil =>
    obtain ⟨fuel, rfl⟩ : ∃ k, fuel = k + 1 := ⟨fuel - 1, by omega⟩
    unfold writeFields
    have hends : Ends (lineStart indent outer ++ '\x7d' :: rest) := ends_lineStart outer (by decide)
    rw [List.nil_append, (readFields_field read hv (by omega) hends).1 rest
      (skipBlanks_lineStart outer rfl), List.reverse_cons]
  | cons p fields ih =>
    obtain ⟨name, w⟩ := p
    obtain ⟨hw, hfields⟩ := List.forall_mem_cons.mp hfields
    replace hw : ReadsBack indent w := hw
    obtain ⟨gap, hsep, hgap⟩ := separator_eq_cons indent depth
    obtain ⟨fuel, rfl⟩ : ∃ k, fuel = k + 1 := ⟨fuel - 1, by omega⟩
    have hname : ∀ tail, skipBlanks (writeText name ++ tail) = writeText name ++ tail :=
      fun tail => skipBlanks_cons rfl
    unfold writeFields at hfuel ⊢
    rw [hsep] at hfuel ⊢
    simp only [List.length_append, List.length_cons] at hfuel
    simp only [List.append_assoc, List.cons_append, List.nil_append]
    rw [(readFields_field read hv (by omega) (ends_cons (by decide))).2 _ (skipBlanks_cons rfl),
      skipBlanks_append hgap, hname, ih ((k, v) :: read) hw hfields (by omega)]
    simp

/-! ## Values -/

/-- Data that a text can carry: no object repeats a key, and each float is read back from its own
text. -/
inductive Portable : Value → Prop
  | null : Portable .null
  | bool (b : Bool) : Portable (.bool b)
  | int (i : Int) : Portable (.int i)
  | float {x : Float} : Spells (floatText.write x) (.float x) → Portable (.float x)
  | str (s : String) : Portable (.str s)
  | list {items : List Value} : (∀ v ∈ items, Portable v) → Portable (.list items)
  | object {fields : Fields} :
      fields.keys.Nodup → (∀ p ∈ fields, Portable p.2) → Portable (.object fields)

theorem spells_words :
    Spells "null".toList .null ∧ Spells "true".toList (.bool true) ∧
      Spells "false".toList (.bool false) := ⟨rfl, rfl, rfl⟩

theorem readsBack_str (s : String) : ReadsBack indent (.str s) := by
  intro depth fuel rest hfuel hends
  obtain ⟨body, hbody, hread⟩ := readText_writeText (writeText s ++ rest) rest s
  rw [writeValue, hbody] at hfuel ⊢
  obtain ⟨fuel, rfl⟩ : ∃ k, fuel = k + 1 := ⟨fuel - 1, by simp at hfuel; omega⟩
  rw [hbody, List.cons_append] at hread
  rw [List.cons_append, readValue, hread]
  rfl

theorem readsBack_list {items : List Value} (h : ∀ v ∈ items, ReadsBack indent v) :
    ReadsBack indent (.list items) := by
  intro depth fuel rest hfuel hends
  cases items with
  | nil =>
    rw [writeValue] at hfuel ⊢
    obtain ⟨fuel, rfl⟩ : ∃ k, fuel = k + 1 := ⟨fuel - 1, by simp at hfuel; omega⟩
    rw [List.cons_append, readValue]
    rfl
  | cons v items =>
    obtain ⟨hv, hitems⟩ := List.forall_mem_cons.mp h
    obtain ⟨c, tail, htext, -, hclose, -⟩ := hv.start (depth + 1)
    rw [writeValue] at hfuel ⊢
    simp only [List.length_cons, List.length_append] at hfuel
    obtain ⟨fuel, rfl⟩ : ∃ k, fuel = k + 1 := ⟨fuel - 1, by omega⟩
    have hread : readItems fuel [] (writeValue indent (depth + 1) v ++
        (writeItems indent (depth + 1) items ++ (lineStart indent depth ++ ']' :: rest))) =
        .ok (.list (v :: items), rest) :=
      readItems_writeItems [] depth hv hitems (by omega)
    simp only [List.append_assoc, List.cons_append, List.nil_append]
    rw [readValue, skipBlanks_append (isBlank_of_mem_lineStart indent (depth + 1)),
      hv.skipBlanks_eq]
    rw [htext, List.cons_append] at hread ⊢
    simp [hclose, hread]

theorem readsBack_object {fields : Fields} (hkeys : fields.keys.Nodup)
    (h : ∀ p ∈ fields, ReadsBack indent p.2) : ReadsBack indent (.object fields) := by
  intro depth fuel rest hfuel hends
  cases fields with
  | nil =>
    rw [writeValue] at hfuel ⊢
    obtain ⟨fuel, rfl⟩ : ∃ k, fuel = k + 1 := ⟨fuel - 1, by simp at hfuel; omega⟩
    rw [List.cons_append, readValue]
    rfl
  | cons p fields =>
    obtain ⟨k, v⟩ := p
    obtain ⟨hv, hfields⟩ := List.forall_mem_cons.mp h
    replace hv : ReadsBack indent v := hv
    rw [writeValue] at hfuel ⊢
    simp only [List.length_cons, List.length_append] at hfuel
    obtain ⟨fuel, rfl⟩ : ∃ k, fuel = k + 1 := ⟨fuel - 1, by omega⟩
    have hread : readFields fuel [] (writeText k ++ ':' :: ' ' ::
        (writeValue indent (depth + 1) v ++ (writeFields indent (depth + 1) fields ++
          (lineStart indent depth ++ '\x7d' :: rest)))) =
        .ok (.object (Assoc.ofEntries ((k, v) :: fields)), rest) :=
      readFields_writeFields [] depth hv hfields (by omega)
    simp only [List.append_assoc, List.cons_append, List.nil_append]
    rw [readValue, skipBlanks_append (isBlank_of_mem_lineStart indent (depth + 1))]
    rw [Assoc.ofEntries_eq_self hkeys] at hread
    exact hread

/-- Portable data is read back from its text. -/
theorem Portable.readsBack (hv : Portable v) : ReadsBack indent v := by
  induction hv with
  | null => exact spells_words.1.readsBack fun _ => by rw [writeValue]
  | bool b =>
    cases b with
    | true => exact spells_words.2.1.readsBack fun _ => by rw [writeValue]
    | false => exact spells_words.2.2.readsBack fun _ => by rw [writeValue]
  | int i => exact (spells_writeInt i).readsBack fun _ => by rw [writeValue]
  | float hx => exact hx.readsBack fun _ => by rw [writeValue]
  | str s => exact readsBack_str s
  | list _ ih => exact readsBack_list ih
  | object hkeys _ ih => exact readsBack_object hkeys ih

/-- **Reading undoes writing.** Whatever the indentation, the text of portable data is read as that
data. -/
theorem parse_render (indent : Option Int) (hv : Portable v) :
    parse (render indent v) = .ok v := by
  have hback : ReadsBack (indent.map Int.toNat) v := hv.readsBack
  obtain ⟨c, tail, htext, hblank, -, hmark⟩ := hback.start 0
  have hread := hback 0 (2 * (c :: tail).length + 2) [] (by rw [htext]; omega) ends_nil
  rw [List.append_nil, htext] at hread
  have hwhole : readWhole (c :: tail) = .ok v := by
    unfold readWhole
    rw [skipBlanks_cons hblank, hread]
    split
    · rename_i heq
      exact absurd (List.cons.inj heq).1 hmark
    · rfl
  unfold parse render
  simp only [htext, String.toList_ofList, hwhole]

end Json

end CodeAtlas
