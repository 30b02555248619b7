import WellLog.Word

/-!
# Dates and times

A record gives a time in eight bytes: the year since 1900, a zone, the month, and so on down to the
milliseconds. `Dtime.timestamp?` accepts exactly the dates of the Gregorian calendar with a time of
day on the clock (`Dtime.timestamp?_eq_some_iff`); a leap second is written as second 59 with a
thousand milliseconds or more.
-/

namespace WellLog

/-- The parts of a time as a record gives them. -/
structure Dtime where
  /-- Years since 1900. -/
  year : Nat
  zone : Nat
  month : Nat
  day : Nat
  hour : Nat
  minute : Nat
  second : Nat
  millisecond : Nat
  deriving DecidableEq, Repr

inductive TimeZone where
  | localStandard
  | localDaylight
  | greenwich
  | unknown (n : Nat)
  deriving DecidableEq, Repr

/-- A date of the calendar and a time of day. A leap second has 59 as its second, and a thousand
million nanoseconds or more. -/
structure Timestamp where
  year : Nat
  month : Nat
  day : Nat
  hour : Nat
  minute : Nat
  second : Nat
  nanosecond : Nat
  deriving DecidableEq, Repr

def isLeapYear (year : Nat) : Bool :=
  year % 4 == 0 && (year % 100 != 0 || year % 400 == 0)

/-- The days of a month, none if the year has no such month. -/
def daysInMonth (year month : Nat) : Nat :=
  if month = 2 then if isLeapYear year then 29 else 28
  else if month ∈ [4, 6, 9, 11] then 30
  else if month ∈ [1, 3, 5, 7, 8, 10, 12] then 31
  else 0

def calendarYear (sinceOrigin : Nat) : Nat := 1900 + sinceOrigin

def microseconds (milliseconds : Nat) : Nat := 1000 * milliseconds

namespace Dtime

/-- The month shares a byte with the zone, which is above it. -/
def ofBytes (bytes : List UInt8) : Dtime :=
  let part (i : Nat) := (bytes.getD i 0).toNat
  { year := part 0
    zone := part 1 / 16
    month := part 1 % 16
    day := part 2
    hour := part 3
    minute := part 4
    second := part 5
    millisecond := 256 * part 6 + part 7 }

def timeZone (t : Dtime) : TimeZone :=
  match t.zone with
  | 0 => .localStandard
  | 1 => .localDaylight
  | 2 => .greenwich
  | n => .unknown n

def IsDate (t : Dtime) : Prop :=
  1 ≤ t.day ∧ t.day ≤ daysInMonth (calendarYear t.year) t.month

/-- The time is on the clock, second 59 having room for a leap second. -/
def IsTimeOfDay (t : Dtime) : Prop :=
  t.hour < 24 ∧ t.minute < 60 ∧ t.second < 60
    ∧ (t.millisecond < 1000 ∨ t.second = 59 ∧ t.millisecond < 2000)

instance (t : Dtime) : Decidable t.IsDate := inferInstanceAs (Decidable (_ ∧ _))

instance (t : Dtime) : Decidable t.IsTimeOfDay := inferInstanceAs (Decidable (_ ∧ _))

def timestamp? (t : Dtime) : Option Timestamp :=
  if t.IsDate ∧ t.IsTimeOfDay then
    some
      { year := calendarYear t.year
        month := t.month
        day := t.day
        hour := t.hour
        minute := t.minute
        second := t.second
        nanosecond := 1000 * microseconds t.millisecond }
  else none

theorem timestamp?_eq_some_iff {t : Dtime} {s : Timestamp} :
    t.timestamp? = some s ↔ (t.IsDate ∧ t.IsTimeOfDay)
      ∧ s = ⟨1900 + t.year, t.month, t.day, t.hour, t.minute, t.second,
          1000000 * t.millisecond⟩ := by
  have hn : 1000 * (1000 * t.millisecond) = 1000000 * t.millisecond := by omega
  simp only [timestamp?, calendarYear, microseconds, hn]
  split
  · simp_all [eq_comm]
  · simp_all

theorem timestamp?_eq_none_iff {t : Dtime} :
    t.timestamp? = none ↔ ¬(t.IsDate ∧ t.IsTimeOfDay) := by
  simp [timestamp?]

end Dtime

def padded (width n : Nat) : String :=
  let digits := toString n
  String.ofList (List.replicate (width - digits.length) '0') ++ digits

namespace Timestamp

/-- Date and time with the milliseconds behind a point, if there are any; a leap second is shown as
second 60. -/
def text (t : Timestamp) : String :=
  let leap := 1000000000 ≤ t.nanosecond
  let second := if leap then t.second + 1 else t.second
  let fraction := if leap then t.nanosecond - 1000000000 else t.nanosecond
  padded 4 t.year ++ "-" ++ padded 2 t.month ++ "-" ++ padded 2 t.day ++ " " ++
    padded 2 t.hour ++ ":" ++ padded 2 t.minute ++ ":" ++ padded 2 second ++
    if fraction = 0 then "" else "." ++ padded 3 (fraction / 1000000)

end Timestamp

end WellLog
