import CodeAtlas.Check
import Mathlib.Algebra.Order.Field.Rat
import Mathlib.Data.List.TakeWhile
import Mathlib.Tactic.FieldSimp
import Mathlib.Tactic.Positivity

/-!
# What single values are taken for

The values that are taken as texts, ids, words, objects and whole numbers, said without the checks:
above all, a float has to be equal to a whole number of fewer than 64 bits, and a text has to spell
one. The checks accept just these, and find one thing wrong with any other value.
-/

namespace CodeAtlas

/-! ## Floats -/

namespace Dyadic

/-- The number that a mantissa and an exponent stand for. -/
def value (d : Dyadic) : ℚ :=
  (if d.negative then -1 else 1) * d.mantissa * 2 ^ d.exponent

theorem signed_eq_iff {negative : Bool} {n : Nat} {i : Int} :
    (if negative then -(n : Int) else n) = i ↔ (if negative then -1 else 1) * (n : ℚ) = i := by
  cases negative
  · simp only [Bool.false_eq_true, if_false, one_mul]
    exact_mod_cast Iff.rfl
  · simp only [if_true, neg_mul, one_mul]
    constructor <;> intro h <;> exact_mod_cast h

theorem toInt?_eq_some_iff {d : Dyadic} {i : Int} : d.toInt? = some i ↔ d.value = i := by
  obtain ⟨negative, mantissa, exponent⟩ := d
  unfold toInt? value
  cases exponent with
  | ofNat e =>
    simp only [Option.some.injEq, signed_eq_iff, Int.ofNat_eq_natCast, zpow_natCast, Nat.pow_eq]
    push_cast
    rw [mul_assoc]
  | negSucc e =>
    simp only [Nat.pow_eq, zpow_negSucc]
    have hunit : ((2 ^ (e + 1) : Nat) : ℚ) ≠ 0 := by positivity
    have hcast : (2 : ℚ) ^ (e + 1) = ((2 ^ (e + 1) : Nat) : ℚ) := by push_cast; rfl
    rw [hcast]
    generalize 2 ^ (e + 1) = unit at hunit
    by_cases hmod : mantissa % unit = 0
    · obtain ⟨quotient, rfl⟩ := Nat.dvd_of_mod_eq_zero hmod
      have hpos : 0 < unit := Nat.pos_of_ne_zero (by exact_mod_cast hunit)
      rw [if_pos (by simp), Option.some.injEq, Nat.mul_div_cancel_left _ hpos, signed_eq_iff,
        Nat.cast_mul]
      field_simp
    · rw [if_neg (by simpa using hmod)]
      refine iff_of_false (by simp) fun hvalue => hmod ?_
      have hwhole : (if negative then -(mantissa : Int) else mantissa) = i * unit := by
        rw [signed_eq_iff]
        push_cast
        rw [← hvalue]
        field_simp
      have habs := congrArg Int.natAbs hwhole
      rw [Int.natAbs_mul, Int.natAbs_natCast] at habs
      have hmantissa : mantissa = i.natAbs * unit := by
        rw [← habs]
        cases negative <;> simp
      rw [hmantissa, Nat.mul_mod_left]

end Dyadic

/-! ## Texts -/

namespace Check

/-- Digits, with single underscores between some of them. -/
inductive Grouped : List Char → Prop
  | digit {c : Char} : c.isDigit = true → Grouped [c]
  | next {c : Char} {rest : List Char} : c.isDigit = true → Grouped rest → Grouped (c :: rest)
  | group {c : Char} {rest : List Char} :
    c.isDigit = true → Grouped rest → Grouped (c :: '_' :: rest)

/-- A fraction that does not count: none, or a point with nothing but zeros behind it. -/
def IsZeroFraction (fraction : List Char) : Prop :=
  fraction = [] ∨ ∃ zeros, zeros ≠ [] ∧ (∀ c ∈ zeros, c = '0') ∧ fraction = '.' :: zeros

/-- Grouped digits, and behind them a fraction that does not count. -/
def IsMagnitude (cs : List Char) : Prop :=
  ∃ digits fraction, Grouped digits ∧ IsZeroFraction fraction ∧ cs = digits ++ fraction

/-- Between blanks, the text is a magnitude with one sign in front or none. -/
def SpellsInt (s : String) : Prop :=
  ∃ sign magnitude, sign ∈ [[], ['+'], ['-']] ∧ IsMagnitude magnitude ∧
    Text.strip s.toList = sign ++ magnitude

variable {c : Char} {cs rest whole zeros : List Char} {n : Nat}

theorem Grouped.exists_cons (h : Grouped cs) : ∃ c rest, c.isDigit = true ∧ cs = c :: rest := by
  cases h with
  | digit hc => exact ⟨_, _, hc, rfl⟩
  | next hc _ => exact ⟨_, _, hc, rfl⟩
  | group hc _ => exact ⟨_, _, hc, rfl⟩

theorem Grouped.point_not_mem (h : Grouped cs) : '.' ∉ cs := by
  have hne : ∀ {c : Char}, c.isDigit = true → '.' ≠ c := by
    rintro c hc rfl
    cases hc
  induction h with
  | digit hc => simp [hne hc]
  | next hc _ ih => simp [hne hc, ih]
  | group hc _ ih => simp [hne hc, ih]

theorem grouped_cons_iff : Grouped (c :: rest) ↔
    c.isDigit = true ∧ (rest = [] ∨ Grouped rest ∨ ∃ more, rest = '_' :: more ∧ Grouped more) := by
  constructor
  · intro h
    cases h with
    | digit hc => exact ⟨hc, Or.inl rfl⟩
    | next hc hrest => exact ⟨hc, Or.inr (Or.inl hrest)⟩
    | group hc hrest => exact ⟨hc, Or.inr (Or.inr ⟨_, rfl, hrest⟩)⟩
  · rintro ⟨hc, rfl | hrest | ⟨more, rfl, hmore⟩⟩
    · exact .digit hc
    · exact .next hc hrest
    · exact .group hc hmore

/-- Where a digit has to follow, grouped digits are read; behind a digit, the rest of such may also be
empty or start with an underscore. -/
theorem readDigits?_isSome (cs : List Char) :
    (∀ n, (readDigits? true n cs).isSome = true ↔ Grouped cs) ∧
    ∀ n, (readDigits? false n cs).isSome = true ↔
      cs = [] ∨ Grouped cs ∨ ∃ more, cs = '_' :: more ∧ Grouped more := by
  induction cs with
  | nil =>
    refine ⟨fun n => iff_of_false (by simp [readDigits?]) ?_, fun n => by simp [readDigits?]⟩
    rintro ⟨⟩
  | cons c rest ih =>
    obtain ⟨hfresh, hbehind⟩ := ih
    by_cases hc : c.isDigit = true
    · have hunderscore : c ≠ '_' := by
        rintro rfl
        cases hc
      constructor
      · intro n
        rw [readDigits?, if_pos hc, hbehind, grouped_cons_iff]
        simp [hc]
      · intro n
        rw [readDigits?, if_pos hc, hbehind, grouped_cons_iff]
        simp [hc, hunderscore]
    · constructor
      · intro n
        rw [readDigits?, if_neg hc, if_neg (by simp), grouped_cons_iff]
        simp [hc]
      · intro n
        rw [readDigits?, if_neg hc, grouped_cons_iff]
        by_cases hunderscore : c = '_'
        · rw [if_pos (by simp [hunderscore]), hfresh]
          simp [hunderscore]
        · rw [if_neg (by simp [hunderscore])]
          simp [hc, hunderscore]

theorem dropZeroFraction_of_not_mem (h : '.' ∉ cs) : dropZeroFraction cs = cs := by
  have hall : ∀ c ∈ cs, (c != '.') = true := fun c hc => bne_iff_ne.mpr fun heq => h (heq ▸ hc)
  unfold dropZeroFraction
  rw [List.span_eq_takeWhile_dropWhile, List.dropWhile_eq_nil_iff.mpr hall]

theorem dropZeroFraction_append (h : '.' ∉ whole) (zeros : List Char) :
    dropZeroFraction (whole ++ '.' :: zeros) =
      if !zeros.isEmpty && zeros.all (· == '0') then whole else whole ++ '.' :: zeros := by
  have hall : ∀ c ∈ whole, (c != '.') = true :=
    fun c hc => bne_iff_ne.mpr fun heq => h (heq ▸ hc)
  unfold dropZeroFraction
  rw [List.span_eq_takeWhile_dropWhile, List.takeWhile_append_of_pos hall,
    List.dropWhile_append_of_pos hall]
  simp

theorem readMagnitude?_isSome : (readMagnitude? cs).isSome = true ↔ IsMagnitude cs := by
  have hread : ∀ cs, (readDigits? true 0 cs).isSome = true ↔ Grouped cs :=
    fun cs => (readDigits?_isSome cs).1 0
  unfold readMagnitude? IsMagnitude
  rw [hread]
  constructor
  · intro h
    by_cases hpoint : '.' ∈ cs
    · obtain ⟨whole, zeros, rfl, hwhole⟩ := List.eq_append_cons_of_mem hpoint
      rw [dropZeroFraction_append hwhole] at h
      split at h
      · rename_i hbool
        have hzeros : zeros ≠ [] ∧ ∀ c ∈ zeros, c = '0' := by simpa using hbool
        exact ⟨whole, '.' :: zeros, h, Or.inr ⟨zeros, hzeros.1, hzeros.2, rfl⟩, rfl⟩
      · exact absurd hpoint h.point_not_mem
    · rw [dropZeroFraction_of_not_mem hpoint] at h
      exact ⟨cs, [], h, Or.inl rfl, (List.append_nil cs).symm⟩
  · rintro ⟨digits, fraction, hdigits, rfl | ⟨zeros, hne, hzeros, rfl⟩, rfl⟩
    · rwa [List.append_nil, dropZeroFraction_of_not_mem hdigits.point_not_mem]
    · rwa [dropZeroFraction_append hdigits.point_not_mem, if_pos (by simpa using ⟨hne, hzeros⟩)]

theorem IsMagnitude.isDigit_head (h : IsMagnitude (c :: rest)) : c.isDigit = true := by
  obtain ⟨digits, fraction, hdigits, -, heq⟩ := h
  obtain ⟨d, more, hd, rfl⟩ := hdigits.exists_cons
  rwa [(List.cons.inj heq).1]

theorem readInt?_isSome {s : String} : (readInt? s).isSome = true ↔ SpellsInt s := by
  have hcast : ∀ cs, (do let n ← readMagnitude? cs; pure (n : Int)).isSome = true ↔
      IsMagnitude cs := by
    intro cs
    rw [← readMagnitude?_isSome]
    cases readMagnitude? cs <;> rfl
  unfold readInt? SpellsInt
  generalize Text.strip s.toList = cs
  simp only [List.mem_cons, List.not_mem_nil, or_false]
  -- the sign that is read is the only one that can be meant, as no magnitude starts with a sign
  split
  · rename_i rest
    rw [Option.isSome_map, hcast]
    constructor
    · exact fun h => ⟨['-'], rest, by simp, h, rfl⟩
    · rintro ⟨sign, magnitude, rfl | rfl | rfl, h, heq⟩
      · obtain rfl : '-' :: rest = magnitude := heq
        exact absurd h.isDigit_head (by decide)
      · cases heq
      · rwa [(List.cons.inj heq).2]
  · rename_i rest
    rw [Option.isSome_map, hcast]
    constructor
    · exact fun h => ⟨['+'], rest, by simp, h, rfl⟩
    · rintro ⟨sign, magnitude, rfl | rfl | rfl, h, heq⟩
      · obtain rfl : '+' :: rest = magnitude := heq
        exact absurd h.isDigit_head (by decide)
      · rwa [(List.cons.inj heq).2]
      · cases heq
  · rename_i hminus hplus
    rw [Option.isSome_map, hcast]
    constructor
    · exact fun h => ⟨[], cs, by simp, h, rfl⟩
    · rintro ⟨sign, magnitude, rfl | rfl | rfl, h, rfl⟩
      · exact h
      · exact absurd rfl (hplus magnitude)
      · exact absurd rfl (hminus magnitude)

/-! ## Whole numbers -/

/-- A value is either accepted by a check, and then it fits and has no reason against it, or refused at
its own place for the only reason against it. -/
def Decides {α : Type} (check : Value → Checked α) (fits : Value → Prop)
    (unfit : Value → IssueKind → Prop) (v : Value) : Prop :=
  (∃ a, check v = .accepted a ∧ fits v ∧ ∀ kind, ¬unfit v kind) ∨
    ∃ kind, check v = .fail kind ∧ ¬fits v ∧ ∀ k, unfit v k ↔ k = kind

/-- The value is taken as a whole number. -/
def IsWhole : Value → Prop
  | .int _ | .bool _ => True
  | .float x => ∃ d, Dyadic.classify x = .finite d ∧ ∃ i : Int, d.value = i ∧ i.natAbs < 2 ^ 63
  | .str s => SpellsInt s
  | _ => False

/-- The value is not taken as a whole number, for this reason. -/
def NotWhole : Value → IssueKind → Prop
  | .float x, .unboundedInt => ∀ d, Dyadic.classify x ≠ .finite d
  | .float x, .fractionalInt => ∃ d, Dyadic.classify x = .finite d ∧ ∀ i : Int, d.value ≠ i
  | .float x, .oversizedInt =>
    ∃ d, Dyadic.classify x = .finite d ∧ ∃ i : Int, d.value = i ∧ 2 ^ 63 ≤ i.natAbs
  | .str s, .unreadableInt => ¬SpellsInt s
  | .null, .notInt | .list _, .notInt | .object _, .notInt => True
  | _, _ => False

theorem int_decides_float (x : Float) : Decides int IsWhole NotWhole (.float x) := by
  have hint : int (.float x) = floatInt x := rfl
  unfold floatInt at hint
  cases hclass : Dyadic.classify x with
  | nan | infinite =>
    rw [hclass] at hint
    refine Or.inr ⟨.unboundedInt, hint, by simp [IsWhole, hclass], fun k => ?_⟩
    cases k <;> simp [NotWhole, hclass]
  | finite d =>
    simp only [hclass] at hint
    cases hwhole : d.toInt? with
    | none =>
      have hvalue : ∀ i : Int, d.value ≠ i := by
        intro i hi
        rw [Dyadic.toInt?_eq_some_iff.mpr hi] at hwhole
        cases hwhole
      simp only [hwhole] at hint
      refine Or.inr ⟨.fractionalInt, hint, by simp [IsWhole, hclass, hvalue], fun k => ?_⟩
      cases k <;> simp [NotWhole, hclass, hvalue]
    | some i =>
      have hvalue : ∀ j : Int, d.value = j ↔ j = i := by
        intro j
        rw [Dyadic.toInt?_eq_some_iff.mp hwhole, Int.cast_inj, eq_comm]
      simp only [hwhole] at hint
      by_cases hlarge : 0x8000000000000000 ≤ i.natAbs
      · rw [if_pos hlarge] at hint
        refine Or.inr ⟨.oversizedInt, hint, by simp [IsWhole, hclass, hvalue, hlarge], fun k => ?_⟩
        cases k <;> simp [NotWhole, hclass, hvalue, hlarge]
      · rw [if_neg hlarge] at hint
        refine Or.inl ⟨i, hint, by simpa [IsWhole, hclass, hvalue] using hlarge, fun k => ?_⟩
        cases k <;> simp [NotWhole, hclass, hvalue, hlarge]

theorem int_decides_text (s : String) : Decides int IsWhole NotWhole (.str s) := by
  have hspells := readInt?_isSome (s := s)
  cases hread : readInt? s with
  | none =>
    rw [hread] at hspells
    have hnot : ¬SpellsInt s := fun h => by cases hspells.mpr h
    refine Or.inr ⟨.unreadableInt, by simp [int, hread], hnot, fun k => ?_⟩
    cases k <;> simp [NotWhole, hnot]
  | some i =>
    rw [hread] at hspells
    have hyes : SpellsInt s := hspells.mp rfl
    refine Or.inl ⟨i, by simp [int, hread], hyes, fun k => ?_⟩
    cases k <;> simp [NotWhole, hyes]

/-- Whole numbers are taken as they are described, and all else is refused for the reason given. -/
theorem int_decides (v : Value) : Decides int IsWhole NotWhole v := by
  cases v with
  | null | list | object =>
    refine Or.inr ⟨.notInt, rfl, not_false, fun k => ?_⟩
    cases k <;> simp [NotWhole]
  | bool | int =>
    refine Or.inl ⟨_, rfl, trivial, fun k => ?_⟩
    cases k <;> exact not_false
  | float x => exact int_decides_float x
  | str s => exact int_decides_text s

/-! ## Texts, words and objects -/

def IsText (v : Value) : Prop :=
  ∃ s, v = .str s

def IsIdent (v : Value) : Prop :=
  ∃ s, v = .str s ∧ s ≠ ""

def IsWord (α : Type) [Spelled α] (v : Value) : Prop :=
  ∃ a : α, v = .str (Spelled.text a)

def IsObject (v : Value) : Prop :=
  ∃ fields : Fields, v = .object fields

def IsList (v : Value) : Prop :=
  ∃ items, v = .list items

section

variable {α : Type} {check : Value → Checked α} {fits : Value → Prop} {kind : IssueKind} {v : Value}

theorem decides_of_accepted {a : α} (hcheck : check v = .accepted a) (hfits : fits v) :
    Decides check fits (fun v k => ¬fits v ∧ k = kind) v :=
  Or.inl ⟨a, hcheck, hfits, fun _ h => h.1 hfits⟩

theorem decides_of_fail (hcheck : check v = .fail kind) (hfits : ¬fits v) :
    Decides check fits (fun v k => ¬fits v ∧ k = kind) v :=
  Or.inr ⟨kind, hcheck, hfits, fun _ => and_iff_right hfits⟩

theorem text_decides (v : Value) :
    Decides text IsText (fun v kind => ¬IsText v ∧ kind = .notText) v := by
  cases v with
  | str s => exact decides_of_accepted rfl ⟨s, rfl⟩
  | _ => exact decides_of_fail rfl fun ⟨s, hs⟩ => nomatch hs

theorem object_decides (v : Value) :
    Decides object IsObject (fun v kind => ¬IsObject v ∧ kind = .notObject) v := by
  cases v with
  | object fields => exact decides_of_accepted rfl ⟨fields, rfl⟩
  | _ => exact decides_of_fail rfl fun ⟨s, hs⟩ => nomatch hs

theorem word_decides [Spelled α] (issue : IssueKind) (v : Value) :
    Decides (word α issue) (IsWord α) (fun v kind => ¬IsWord α v ∧ kind = issue) v := by
  cases v with
  | str s =>
    cases hs : (Spelled.ofText? s : Option α) with
    | some a =>
      refine decides_of_accepted (by simp only [word, hs]; rfl) ⟨a, ?_⟩
      rw [Spelled.text_of_ofText? hs]
    | none =>
      refine decides_of_fail (by simp only [word, hs]) ?_
      rintro ⟨a, ha⟩
      rw [Value.str.inj ha, Spelled.ofText?_text] at hs
      cases hs
  | _ => exact decides_of_fail rfl fun ⟨a, ha⟩ => nomatch ha

/-- An empty text is refused for another reason than a value that is no text. -/
theorem nonemptyText_decides (v : Value) :
    Decides nonemptyText IsIdent
      (fun v kind => ¬IsText v ∧ kind = .notText ∨ v = .str "" ∧ kind = .tooShort) v := by
  cases v with
  | str s =>
    have htext : IsText (.str s) := ⟨s, rfl⟩
    by_cases hs : s = ""
    · subst hs
      refine Or.inr ⟨.tooShort, rfl, ?_, fun kind => ?_⟩
      · rintro ⟨t, ht, hne⟩
        exact hne (Value.str.inj ht).symm
      · simp [htext]
    · refine Or.inl ⟨s, ?_, ⟨s, rfl, hs⟩, fun kind => ?_⟩
      · simp [nonemptyText, text, Checked.andThen, hs]
      · simp [htext, hs]
  | _ =>
    refine Or.inr ⟨.notText, rfl, (fun ⟨s, hs, _⟩ => nomatch hs), fun kind => ?_⟩
    simp [IsText]

end

end Check

end CodeAtlas
