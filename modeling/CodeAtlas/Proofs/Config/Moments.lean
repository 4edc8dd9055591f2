import CodeAtlas.Config.Files
import CodeAtlas.Proofs.Config.Settings
import CodeAtlas.Proofs.Json.Texts
import Mathlib.Algebra.GroupWithZero.Nat

/-!
# Dates and times in settings files

A date or a time in its written form is read back as what it is, and a date that the calendar does
not have is a fault. No setting takes either, nor a list, so nothing is lost when moments stand among
the values as lists. Bytes are taken for the text that they spell.
-/

namespace CodeAtlas

/-! ## Numbers of fixed length -/

/-- A number in `count` decimal digits, with zeros in front. -/
def fixedDigits : Nat → Nat → List Char
  | 0, _ => []
  | count + 1, n => fixedDigits count (n / 10) ++ [(n % 10).digitChar]

theorem length_fixedDigits (count n : Nat) : (fixedDigits count n).length = count := by
  induction count generalizing n with
  | zero => rfl
  | succ count ih => rw [fixedDigits, List.length_append, ih, List.length_singleton]

theorem isDigit_of_mem_fixedDigits {count n : Nat} {c : Char} (h : c ∈ fixedDigits count n) :
    c.isDigit = true := by
  induction count generalizing n with
  | zero => cases h
  | succ count ih =>
    rcases List.mem_append.mp h with h | h
    · exact ih h
    · have hdigit : ∀ d < 10, (Nat.digitChar d).isDigit = true := by decide
      rw [List.mem_singleton.mp h]
      exact hdigit _ (Nat.mod_lt n (by decide))

namespace Toml

theorem inBase_fixedDigits {count n : Nat} (h : n < 10 ^ count) :
    inBase 10 (fixedDigits count n) = n := by
  induction count generalizing n with
  | zero => exact (Nat.lt_one_iff.mp h).symm
  | succ count ih =>
    have hfront : inBase 10 (fixedDigits count (n / 10)) = n / 10 := ih (by omega)
    have hlast : Json.hexValue? (n % 10).digitChar = some (n % 10) :=
      Json.hexValue?_digitChar (by omega)
    unfold inBase at hfront ⊢
    rw [fixedDigits, List.foldl_append, hfront, List.foldl_cons, List.foldl_nil, hlast]
    simp only [Option.getD_some]
    omega

variable {rest : List Char}

theorem readFixed_fixedDigits {count n : Nat} (h : n < 10 ^ count) :
    readFixed count (fixedDigits count n ++ rest) = some (n, rest) := by
  have htake : (fixedDigits count n ++ rest).take count = fixedDigits count n :=
    List.take_left' (length_fixedDigits count n)
  have hdrop : (fixedDigits count n ++ rest).drop count = rest :=
    List.drop_left' (length_fixedDigits count n)
  have hdigits : (fixedDigits count n).all Char.isDigit = true :=
    List.all_eq_true.mpr fun c hc => isDigit_of_mem_fixedDigits hc
  simp [readFixed, htake, hdrop, hdigits, length_fixedDigits, inBase_fixedDigits h]

theorem readMarked_fixedDigits {n : Nat} (mark : Char) (h : n < 100) :
    readMarked mark (mark :: (fixedDigits 2 n ++ rest)) = some (n, rest) := by
  have hfixed : readFixed 2 (fixedDigits 2 n ++ rest) = some (n, rest) := readFixed_fixedDigits h
  simp [readMarked, hfixed]

end Toml

/-! ## Written moments -/

def Date.write (d : Date) : List Char :=
  fixedDigits 4 d.year ++ '-' :: (fixedDigits 2 d.month ++ '-' :: fixedDigits 2 d.day)

def TimeOfDay.write (t : TimeOfDay) : List Char :=
  fixedDigits 2 t.hour ++ ':' :: (fixedDigits 2 t.minute ++ ':' :: (fixedDigits 2 t.second ++
    '.' :: fixedDigits 6 t.micro))

def ClockOffset.write (o : ClockOffset) : List Char :=
  (if o.minutes < 0 then '-' else '+') :: (fixedDigits 2 (o.minutes.natAbs / 60) ++
    ':' :: fixedDigits 2 (o.minutes.natAbs % 60))

def Moment.write : Moment → List Char
  | .date d => d.write
  | .time t => t.write
  | .dateTime d t offset => d.write ++ 'T' :: (t.write ++ (offset.map ClockOffset.write).getD [])

theorem Date.ofNumbers?_self (d : Date) : ofNumbers? d.year d.month d.day = some d :=
  dif_pos ⟨d.year_mem, d.month_mem, d.day_mem⟩

theorem TimeOfDay.ofNumbers?_self (t : TimeOfDay) :
    ofNumbers? t.hour t.minute t.second t.micro = some t :=
  dif_pos ⟨t.hour_lt, t.minute_lt, t.second_lt, t.micro_lt⟩

theorem ClockOffset.ofMinutes?_self (o : ClockOffset) : ofMinutes? o.minutes = some o :=
  dif_pos o.natAbs_lt

theorem Date.two_digits (d : Date) : d.year < 10 ^ 4 ∧ d.month < 100 ∧ d.day < 100 := by
  have hyear := d.year_mem
  have hmonth := d.month_mem
  have hday := d.day_mem
  have hlength : daysInMonth d.year d.month ≤ 31 := by
    unfold daysInMonth
    split_ifs <;> omega
  omega

namespace Toml

variable {rest : List Char}

theorem readNumbers_append {year month day : Nat} (hyear : year < 10 ^ 4) (hmonth : month < 100)
    (hday : day < 100) :
    readNumbers (fixedDigits 4 year ++ '-' :: (fixedDigits 2 month ++ '-' ::
      (fixedDigits 2 day ++ rest))) = some ((year, month, day), rest) := by
  simp [readNumbers, readFixed_fixedDigits hyear, readMarked_fixedDigits '-' hmonth,
    readMarked_fixedDigits '-' hday]

theorem span_isDigit_append {ds : List Char} (hds : ∀ c ∈ ds, c.isDigit = true)
    (hrest : ∀ c ∈ rest.head?, c.isDigit = false) :
    (ds ++ rest).span Char.isDigit = (ds, rest) := by
  rw [List.span_eq_takeWhile_dropWhile, List.takeWhile_append_of_pos hds,
    List.dropWhile_append_of_pos hds]
  cases rest with
  | nil => simp
  | cons c rest => simp [hrest c rfl]

theorem readMicros_append {micro : Nat} (h : micro < 10 ^ 6)
    (hrest : ∀ c ∈ rest.head?, c.isDigit = false) :
    readMicros ('.' :: (fixedDigits 6 micro ++ rest)) = (micro, rest) := by
  have hspan : (fixedDigits 6 micro ++ rest).span Char.isDigit = (fixedDigits 6 micro, rest) :=
    span_isDigit_append (fun c hc => isDigit_of_mem_fixedDigits hc) hrest
  have hsix : (fixedDigits 6 micro ++ List.replicate 6 '0').take 6 = fixedDigits 6 micro :=
    List.take_left' (length_fixedDigits 6 micro)
  unfold readMicros
  simp only [hspan]
  split
  · rename_i hnone
    have hlength := length_fixedDigits 6 micro
    rw [(Prod.mk.inj hnone).1] at hlength
    cases hlength
  · rename_i hsome
    obtain ⟨rfl, rfl⟩ := Prod.mk.inj hsome
    rw [hsix, inBase_fixedDigits h]

theorem readTime_append (t : TimeOfDay) (hrest : ∀ c ∈ rest.head?, c.isDigit = false) :
    readTime (t.write ++ rest) = some (t, rest) := by
  have hhour : t.hour < 10 ^ 2 := t.hour_lt.trans (by decide)
  have hminute : t.minute < 100 := t.minute_lt.trans (by decide)
  have hsecond : t.second < 100 := t.second_lt.trans (by decide)
  simp [TimeOfDay.write, readTime, readFixed_fixedDigits hhour, readMarked_fixedDigits ':' hminute,
    readMarked_fixedDigits ':' hsecond, readMicros_append t.micro_lt hrest, t.ofNumbers?_self]

theorem readOffset?_append (o : ClockOffset) : readOffset? (o.write ++ rest) = some (o, rest) := by
  have habs := o.natAbs_lt
  have hhours : o.minutes.natAbs / 60 < 10 ^ 2 := by omega
  have hminutes : o.minutes.natAbs % 60 < 60 := by omega
  have hsplit : ((o.minutes.natAbs / 60 : Nat) : Int) * 60 + (o.minutes.natAbs % 60 : Nat) =
      if o.minutes < 0 then -o.minutes else o.minutes := by split <;> omega
  unfold ClockOffset.write
  generalize o.minutes.natAbs / 60 = hours at *
  generalize o.minutes.natAbs % 60 = minutes at *
  have hmarked : readMarked ':' (':' :: (fixedDigits 2 minutes ++ rest)) = some (minutes, rest) :=
    readMarked_fixedDigits ':' (hminutes.trans (by decide))
  split at hsplit
  · rename_i hneg
    have hoffset : ClockOffset.ofMinutes? (-((hours : Int) * 60 + minutes)) = some o := by
      rw [hsplit, Int.neg_neg, o.ofMinutes?_self]
    -- the negated sum stays as it stands, so that `hoffset` applies
    simp only [readOffset?, hneg, ↓reduceIte, List.cons_append, List.append_assoc, Char.reduceBEq,
      Bool.or_self, Bool.false_eq_true, BEq.rfl, Bool.or_true, readFixed_fixedDigits hhours,
      Option.bind_eq_bind, Option.bind_some, hmarked, hoffset, hminutes]
  · rename_i hneg
    have hoffset : ClockOffset.ofMinutes? ((hours : Int) * 60 + minutes) = some o := by
      rw [hsplit, o.ofMinutes?_self]
    simp [readOffset?, hneg, readFixed_fixedDigits hhours, hmarked, hoffset, hminutes]

/-- The text does not go on with what could still belong to a moment. -/
def EndsMoment (rest : List Char) : Prop :=
  ∀ c ∈ rest.head?, c.isDigit = false ∧ c ∉ ['T', 't', ' ', 'Z', 'z', '+', '-']

theorem readDayTime_of_ends (d : Date) (hrest : EndsMoment rest) :
    readDayTime d rest = (.date d, rest) := by
  cases rest with
  | nil => rfl
  | cons c rest =>
    obtain ⟨-, hmark⟩ := hrest c rfl
    simp only [List.mem_cons, not_or] at hmark
    simp [readDayTime, hmark]

theorem readOffset?_of_ends (hrest : EndsMoment rest) : readOffset? rest = none := by
  cases rest with
  | nil => rfl
  | cons c rest =>
    obtain ⟨-, hsign⟩ := hrest c rfl
    simp only [List.mem_cons, not_or] at hsign
    simp [readOffset?, hsign]

theorem readDayTime_append (d : Date) (t : TimeOfDay) (offset : Option ClockOffset)
    (hrest : EndsMoment rest) :
    readDayTime d ('T' :: (t.write ++ (offset.map ClockOffset.write).getD [] ++ rest)) =
      (.dateTime d t offset, rest) := by
  rw [List.append_assoc]
  cases offset with
  | none =>
    have htime := readTime_append t fun c hc => (hrest c hc).1
    simp [readDayTime, htime, readOffset?_of_ends hrest]
  | some o =>
    have hsign : ∀ c ∈ (o.write ++ rest).head?, c.isDigit = false := by
      intro c hc
      obtain rfl : (if o.minutes < 0 then '-' else '+') = c := Option.some.inj hc
      split <;> rfl
    simp [readDayTime, readTime_append t hsign, readOffset?_append]

/-- A number of four digits is not read over a colon. -/
theorem readNumbers_time (t : TimeOfDay) : readNumbers (t.write ++ rest) = none := by
  have hfour : readFixed 4 (t.write ++ rest) = none := by
    simp [TimeOfDay.write, readFixed, fixedDigits]
  simp [readNumbers, hfour]

/-- Every moment is read back from its written form. -/
theorem readMoment?_write (m : Moment) (hrest : EndsMoment rest) :
    readMoment? (m.write ++ rest) = some (some (m, rest)) := by
  unfold readMoment?
  cases m with
  | date d =>
    obtain ⟨hyear, hmonth, hday⟩ := d.two_digits
    simp [Moment.write, Date.write, readNumbers_append hyear hmonth hday, d.ofNumbers?_self,
      readDayTime_of_ends d hrest]
  | time t =>
    have htime := readTime_append t fun c hc => (hrest c hc).1
    simp [Moment.write, readNumbers_time, htime]
  | dateTime d t offset =>
    obtain ⟨hyear, hmonth, hday⟩ := d.two_digits
    have hboth := readDayTime_append d t offset hrest
    simp only [List.append_assoc] at hboth
    simp [Moment.write, Date.write, readNumbers_append hyear hmonth hday, d.ofNumbers?_self, hboth]

/-- What looks like a date and is none of the calendar is a fault. -/
theorem readMoment?_eq_some_none {year month day : Nat} (hyear : year < 10 ^ 4)
    (hmonth : month < 100) (hday : day < 100) (hnone : Date.ofNumbers? year month day = none) :
    readMoment? (fixedDigits 4 year ++ '-' :: (fixedDigits 2 month ++ '-' ::
      (fixedDigits 2 day ++ rest))) = some none := by
  simp [readMoment?, readNumbers_append hyear hmonth hday, hnone]

end Toml

/-! ## What settings take -/

namespace Setting

/-- No setting takes a list. -/
theorem check_list (s : Setting) (items : List Value) (a : s.Range) :
    s.check (.list items) ≠ .accepted a := by
  cases s <;> exact fun h => nomatch h

theorem check_moment (s : Setting) (m : Moment) (a : s.Range) :
    s.check m.toValue ≠ .accepted a := by
  cases m <;> exact s.check_list _ a

/-- Bytes are taken for the text that they spell, but are none of a few words. -/
theorem check_binary (s : Setting) (text : String) :
    s.check (Config.scalarValue s.name (.binary (some text))) =
      if s.name ∈ Config.choiceNames then .fail .notAChoice else s.check (.str text) := by
  have hlower : ∀ s : Setting, Text.lower s.name = s.name := fun s =>
    Text.lower_eq_self (by cases s <;> decide +kernel)
  unfold Config.scalarValue
  rw [hlower]
  cases s <;> rfl

end Setting

end CodeAtlas
