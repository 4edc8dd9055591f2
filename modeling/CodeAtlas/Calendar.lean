import CodeAtlas.Value
/-!
# Dates and times

Settings files may hold dates and times, which no setting takes. A reader still has to tell a date
of the calendar from numbers that are none.
-/

namespace CodeAtlas

def isLeapYear (year : Nat) : Bool :=
  year % 4 == 0 && (year % 100 != 0 || year % 400 == 0)

def daysInMonth (year month : Nat) : Nat :=
  if month == 2 then if isLeapYear year then 29 else 28
  else if [4, 6, 9, 11].contains month then 30
  else 31

/-- A day of the calendar, in a year of up to four digits. -/
structure Date where
  year : Nat
  month : Nat
  day : Nat
  year_mem : 1 ≤ year ∧ year ≤ 9999
  month_mem : 1 ≤ month ∧ month ≤ 12
  day_mem : 1 ≤ day ∧ day ≤ daysInMonth year month
  deriving DecidableEq

def Date.ofNumbers? (year month day : Nat) : Option Date :=
  if h : (1 ≤ year ∧ year ≤ 9999) ∧ (1 ≤ month ∧ month ≤ 12) ∧
      1 ≤ day ∧ day ≤ daysInMonth year month then
    some ⟨year, month, day, h.1, h.2.1, h.2.2⟩
  else none

/-- A time of day, exact to the millionth of a second. There are no leap seconds. -/
structure TimeOfDay where
  hour : Nat
  minute : Nat
  second : Nat
  micro : Nat
  hour_lt : hour < 24
  minute_lt : minute < 60
  second_lt : second < 60
  micro_lt : micro < 1000000
  deriving DecidableEq

def TimeOfDay.ofNumbers? (hour minute second micro : Nat) : Option TimeOfDay :=
  if h : hour < 24 ∧ minute < 60 ∧ second < 60 ∧ micro < 1000000 then
    some ⟨hour, minute, second, micro, h.1, h.2.1, h.2.2.1, h.2.2.2⟩
  else none

/-- How many minutes a clock is ahead of the common one, by less than a day. -/
structure ClockOffset where
  minutes : Int
  natAbs_lt : minutes.natAbs < 1440
  deriving DecidableEq

def ClockOffset.ofMinutes? (minutes : Int) : Option ClockOffset :=
  if h : minutes.natAbs < 1440 then some ⟨minutes, h⟩ else none

inductive Moment where
  | date (d : Date)
  | time (t : TimeOfDay)
  | dateTime (d : Date) (t : TimeOfDay) (offset : Option ClockOffset)
  deriving DecidableEq

def Date.numbers (d : Date) : List Value :=
  [.int d.year, .int d.month, .int d.day]

def TimeOfDay.numbers (t : TimeOfDay) : List Value :=
  [.int t.hour, .int t.minute, .int t.second, .int t.micro]

/-- A moment among the values is a list of its numbers: a list, like a moment, is neither a number
nor a text nor an object. -/
def Moment.toValue : Moment → Value
  | .date d => .list d.numbers
  | .time t => .list t.numbers
  | .dateTime d t offset =>
    .list (d.numbers ++ t.numbers ++ [(offset.map fun o => Value.int o.minutes).getD .null])

end CodeAtlas
