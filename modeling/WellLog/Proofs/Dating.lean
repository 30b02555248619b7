import Mathlib.Tactic.DeprecateTo
import Mathlib.Tactic.IntervalCases
import WellLog.Cursor.Lemmas
import WellLog.Field

/-!
# Dates of the calendar

The eight bytes of a time are accepted if their day is one of the Gregorian calendar and their time
of day is on the clock, and then they are the time that they say (`TimeImage.read_bytes`). The zone
makes no difference, and nothing else can be changed without changing the time
(`TimeImage.agreesButZone_of_timestamp_eq`).

Records leave it to a calendar which dates and times there are. Whichever calendar it is, what is
read is the same, as long as its dates are the Gregorian ones (`Calendar.IsGregorian.time?_eq`); the
calendar of the standard library is one (`Calendar.isGregorian_standard`).
-/

namespace WellLog

/-! ## The Gregorian calendar -/

/-- Every fourth year is a leap year, but of the full centuries only every fourth one. -/
def IsLeap (year : Int) : Prop := 4 ∣ year ∧ (100 ∣ year → 400 ∣ year)

instance (year : Int) : Decidable (IsLeap year) := inferInstanceAs (Decidable (_ ∧ _))

def monthLengths (year : Int) : List Nat :=
  [31, if IsLeap year then 29 else 28, 31, 30, 31, 30, 31, 31, 30, 31, 30, 31]

/-- The year has a month of the number, and the month has the day. -/
def IsGregorianDay (year : Int) (month day : Nat) : Prop :=
  (1 ≤ month ∧ month ≤ 12) ∧ 1 ≤ day ∧ day ≤ (monthLengths year).getD (month - 1) 0

instance (year : Int) (month day : Nat) : Decidable (IsGregorianDay year month day) :=
  inferInstanceAs (Decidable (_ ∧ _))

theorem isLeapYear_iff {year : Nat} : isLeapYear year = true ↔ IsLeap year := by
  simp only [isLeapYear, IsLeap, Bool.and_eq_true, Bool.or_eq_true, beq_iff_eq, bne_iff_ne]
  omega

/-- Of the years that a byte can say, all fourth ones are leap years but the first and the last of
the full centuries. -/
theorem isLeap_byte_iff {n : Nat} (h : n < 256) :
    IsLeap (1900 + n) ↔ 4 ∣ n ∧ n ≠ 0 ∧ n ≠ 200 := by
  unfold IsLeap
  omega

example : ¬IsLeap 1900 ∧ IsLeap 2000 ∧ ¬IsLeap 2100 := by decide

theorem daysInMonth_eq {year month : Nat} (h : 1 ≤ month ∧ month ≤ 12) :
    daysInMonth year month = (monthLengths year).getD (month - 1) 0 := by
  obtain ⟨hlow, hhigh⟩ := h
  interval_cases month <;> simp [daysInMonth, monthLengths, isLeapYear_iff]

theorem daysInMonth_of_not {year month : Nat} (h : ¬(1 ≤ month ∧ month ≤ 12)) :
    daysInMonth year month = 0 := by
  unfold daysInMonth
  rw [if_neg (by omega), if_neg, if_neg]
  all_goals
    simp only [List.mem_cons, List.not_mem_nil, or_false]
    omega

theorem Dtime.isDate_iff {t : Dtime} :
    t.IsDate ↔ IsGregorianDay (1900 + t.year) t.month t.day := by
  unfold IsDate IsGregorianDay calendarYear
  by_cases h : 1 ≤ t.month ∧ t.month ≤ 12
  · simp only [h, and_self, true_and, daysInMonth_eq h, Nat.cast_add, Nat.cast_ofNat]
  · simp only [h, false_and, daysInMonth_of_not h, iff_false]
    omega

/-! ## Eight bytes -/

structure TimeImage where
  year : UInt8
  zoneAndMonth : UInt8
  day : UInt8
  hour : UInt8
  minute : UInt8
  second : UInt8
  millisecondHigh : UInt8
  millisecondLow : UInt8

namespace TimeImage

def bytes (t : TimeImage) : List UInt8 :=
  [t.year, t.zoneAndMonth, t.day, t.hour, t.minute, t.second, t.millisecondHigh, t.millisecondLow]

/-- The zone is above the month. -/
def month (t : TimeImage) : UInt8 := t.zoneAndMonth &&& 0x0f

def millisecond (t : TimeImage) : UInt16 :=
  UInt16.ofNat (ofBigEndian [t.millisecondHigh, t.millisecondLow])

/-- The times are the same but for their zones. -/
structure AgreesButZone (t u : TimeImage) : Prop where
  year : t.year = u.year
  month : t.month = u.month
  day : t.day = u.day
  hour : t.hour = u.hour
  minute : t.minute = u.minute
  second : t.second = u.second
  millisecondHigh : t.millisecondHigh = u.millisecondHigh
  millisecondLow : t.millisecondLow = u.millisecondLow

/-- The day is one of the calendar, and the time of day is on the clock. A leap second goes on as
second 59. -/
def IsMoment (t : TimeImage) : Prop :=
  IsGregorianDay (1900 + t.year.toNat) t.month.toNat t.day.toNat
    ∧ t.hour < 24 ∧ t.minute < 60 ∧ t.second < 60
    ∧ (t.millisecond < 1000 ∨ t.second = 59 ∧ t.millisecond < 2000)

instance (t : TimeImage) : Decidable t.IsMoment := inferInstanceAs (Decidable (_ ∧ _))

def timestamp (t : TimeImage) : Timestamp where
  year := 1900 + t.year.toNat
  month := t.month.toNat
  day := t.day.toNat
  hour := t.hour.toNat
  minute := t.minute.toNat
  second := t.second.toNat
  nanosecond := t.millisecond.toNat * 1000000

variable {t u : TimeImage}

theorem toNat_month : t.month.toNat = t.zoneAndMonth.toNat % 16 :=
  (UInt8.toNat_and ..).trans (Nat.and_two_pow_sub_one_eq_mod _ 4)

theorem toNat_millisecond :
    t.millisecond.toNat = 256 * t.millisecondHigh.toNat + t.millisecondLow.toNat := by
  have hh := t.millisecondHigh.toNat_lt
  have hl := t.millisecondLow.toNat_lt
  have hword : ofBigEndian [t.millisecondHigh, t.millisecondLow]
      = 256 * t.millisecondHigh.toNat + t.millisecondLow.toNat := by
    simp [ofBigEndian]
  have hlt : 256 * t.millisecondHigh.toNat + t.millisecondLow.toNat < 65536 := by omega
  rw [millisecond, hword, UInt16.toNat_ofNat_of_lt' hlt]

theorem isMoment_iff : t.IsMoment
    ↔ (Dtime.ofBytes t.bytes).IsDate ∧ (Dtime.ofBytes t.bytes).IsTimeOfDay := by
  have hms : (Dtime.ofBytes t.bytes).millisecond = t.millisecond.toNat := toNat_millisecond.symm
  have hmonth : (Dtime.ofBytes t.bytes).month = t.month.toNat := toNat_month.symm
  rw [Dtime.isDate_iff, Dtime.IsTimeOfDay, hms, hmonth]
  simp only [IsMoment, UInt8.lt_iff_toNat_lt, UInt16.lt_iff_toNat_lt, ← UInt8.toNat_inj]
  rfl

theorem timestamp?_bytes : (Dtime.ofBytes t.bytes).timestamp?
    = if t.IsMoment then some t.timestamp else none := by
  have hms : (Dtime.ofBytes t.bytes).millisecond = t.millisecond.toNat := toNat_millisecond.symm
  have hmonth : (Dtime.ofBytes t.bytes).month = t.month.toNat := toNat_month.symm
  split
  · next h =>
    rw [Dtime.timestamp?_eq_some_iff, hms, hmonth, Nat.mul_comm]
    exact ⟨isMoment_iff.mp h, rfl⟩
  · next h => exact Dtime.timestamp?_eq_none_iff.mpr (mt isMoment_iff.mpr h)

theorem read_bytes (t : TimeImage) (identCapacity position : Nat) (rest : List UInt8) :
    Field.read identCapacity .dtime ⟨position, t.bytes ++ rest⟩
      = .ok (if t.IsMoment then .ok (.object (.time t.timestamp)) else .error .notATime,
          ⟨position + 8, rest⟩) := by
  have htake := Cursor.take_append position rest (show t.bytes.length = 8 from rfl)
  have htime : Field.ofTime t.bytes
      = if t.IsMoment then .ok (.object (.time t.timestamp)) else .error .notATime := by
    rw [Field.ofTime, timestamp?_bytes]
    by_cases h : t.IsMoment
    · rw [if_pos h, if_pos h]
    · rw [if_neg h, if_neg h]
  rw [← htime, Field.read, htake]
  rfl

theorem read_bytes_eq_ok_iff {t : TimeImage} {identCapacity position : Nat} {rest : List UInt8}
    {value : Field} {behind : Cursor} :
    Field.read identCapacity .dtime ⟨position, t.bytes ++ rest⟩ = .ok (.ok value, behind)
      ↔ t.IsMoment ∧ value = .object (.time t.timestamp) ∧ behind = ⟨position + 8, rest⟩ := by
  rw [read_bytes]
  by_cases h : t.IsMoment
  · simp only [h, if_true, Except.ok.injEq, Prod.mk.injEq, true_and, eq_comm]
  · simp only [h, if_false, Except.ok.injEq, Prod.mk.injEq, reduceCtorEq, false_and]

/-! ## Zones -/

theorem AgreesButZone.timestamp_eq (h : t.AgreesButZone u) : t.timestamp = u.timestamp := by
  simp only [timestamp, millisecond, h.year, h.month, h.day, h.hour, h.minute, h.second,
    h.millisecondHigh, h.millisecondLow]

theorem AgreesButZone.isMoment_iff (h : t.AgreesButZone u) : t.IsMoment ↔ u.IsMoment := by
  simp only [IsMoment, millisecond, h.year, h.month, h.day, h.hour, h.minute, h.second,
    h.millisecondHigh, h.millisecondLow]

/-- A timestamp has all that the bytes say but the zone. -/
theorem agreesButZone_of_timestamp_eq (h : t.timestamp = u.timestamp) : t.AgreesButZone u := by
  simp only [timestamp, Timestamp.mk.injEq, UInt8.toNat_inj] at h
  obtain ⟨hyear, hmonth, hday, hhour, hminute, hsecond, hnanosecond⟩ := h
  rw [toNat_millisecond, toNat_millisecond] at hnanosecond
  have ht := t.millisecondLow.toNat_lt
  have hu := u.millisecondLow.toNat_lt
  exact ⟨UInt8.toNat_inj.mp (by omega), hmonth, hday, hhour, hminute, hsecond,
    UInt8.toNat_inj.mp (by omega), UInt8.toNat_inj.mp (by omega)⟩

end TimeImage

/-! ## Calendars -/

/-- The time is on the clock, where a leap second goes on as second 59. -/
def IsClockTime (hour minute second nanosecond : Nat) : Prop :=
  hour < 24 ∧ minute < 60 ∧ second < 60
    ∧ (nanosecond < 1000000000 ∨ second = 59 ∧ nanosecond < 2000000000)

instance (hour minute second nanosecond : Nat) :
    Decidable (IsClockTime hour minute second nanosecond) := inferInstanceAs (Decidable (_ ∧ _))

theorem IsClockTime.nanosecond_lt {hour minute second nanosecond : Nat}
    (h : IsClockTime hour minute second nanosecond) : nanosecond < 4294967296 := by
  obtain ⟨-, -, -, hshort | ⟨-, hlong⟩⟩ := h <;> omega

/-- What knows the dates that there are, and the times of day. -/
structure Calendar where
  Date : Type
  date? (year : Int32) (month day : UInt32) : Option Date
  at? (date : Date) (hour minute second microsecond : UInt32) : Option Timestamp

namespace Calendar

/-- The dates, as far as a year has four digits, are those of the Gregorian calendar. The
nanoseconds of a time must be a word. -/
structure IsGregorian (calendar : Calendar) : Prop where
  isSome_date? : ∀ (year : Int32) (month day : UInt32), 0 ≤ year.toInt → year.toInt < 10000 →
    ((calendar.date? year month day).isSome
      ↔ IsGregorianDay year.toInt month.toNat day.toNat)
  at?_eq : ∀ {year : Int32} {month day : UInt32} {date : calendar.Date}, 0 ≤ year.toInt →
    year.toInt < 10000 → calendar.date? year month day = some date →
    ∀ hour minute second microsecond : UInt32,
      calendar.at? date hour minute second microsecond
        = if microsecond.toNat * 1000 < 4294967296
              ∧ IsClockTime hour.toNat minute.toNat second.toNat (microsecond.toNat * 1000)
          then some ⟨year.toInt.toNat, month.toNat, day.toNat, hour.toNat, minute.toNat,
            second.toNat, microsecond.toNat * 1000⟩
          else none

/-- The time that the bytes say, by the calendar. -/
def time? (calendar : Calendar) (t : TimeImage) : Option Timestamp := do
  let date ← calendar.date? (Int32.ofNat t.year.toNat + 1900) t.month.toUInt32 t.day.toUInt32
  calendar.at? date t.hour.toUInt32 t.minute.toUInt32 t.second.toUInt32
    (t.millisecond.toUInt32 * 1000)

/-- No year of a byte is too long for the calendar. -/
theorem toInt_year (t : TimeImage) :
    (Int32.ofNat t.year.toNat + 1900).toInt = 1900 + t.year.toNat := by
  have hlt := t.year.toNat_lt
  rw [Int32.toInt_add, Int32.toInt_ofNat_of_lt (by omega)]
  simp only [Int32.reduceToInt]
  rw [Int.bmod_eq_of_le (by omega) (by omega)]
  omega

/-- The milliseconds are few enough that no multiple is too long for a word. -/
theorem toNat_microsecond (t : TimeImage) :
    (t.millisecond.toUInt32 * 1000).toNat = t.millisecond.toNat * 1000 := by
  have hlt := t.millisecond.toNat_lt
  rw [UInt32.toNat_mul, UInt16.toNat_toUInt32]
  exact Nat.mod_eq_of_lt (by simp only [UInt32.reduceToNat]; omega)

theorem isMoment_iff_isClockTime {t : TimeImage} :
    t.IsMoment ↔ IsGregorianDay (1900 + t.year.toNat) t.month.toNat t.day.toNat
      ∧ IsClockTime t.hour.toNat t.minute.toNat t.second.toNat
        (t.millisecond.toNat * 1000000) := by
  unfold TimeImage.IsMoment IsClockTime
  simp only [UInt8.lt_iff_toNat_lt, UInt16.lt_iff_toNat_lt, ← UInt8.toNat_inj, UInt8.reduceToNat,
    UInt16.reduceToNat]
  refine and_congr_right fun _ => ?_
  omega

theorem IsGregorian.time?_eq {calendar : Calendar} (h : calendar.IsGregorian) (t : TimeImage) :
    calendar.time? t = if t.IsMoment then some t.timestamp else none := by
  have hyear := toInt_year t
  have hlt := t.year.toNat_lt
  have hday := h.isSome_date? (Int32.ofNat t.year.toNat + 1900) t.month.toUInt32 t.day.toUInt32
    (by omega) (by omega)
  rw [hyear, UInt8.toNat_toUInt32, UInt8.toNat_toUInt32] at hday
  unfold time?
  rcases hdate : calendar.date? (Int32.ofNat t.year.toNat + 1900) t.month.toUInt32
      t.day.toUInt32 with _ | date
  · rw [hdate] at hday
    rw [if_neg fun hmoment => Bool.false_ne_true (hday.mpr (isMoment_iff_isClockTime.mp hmoment).1)]
    rfl
  · rw [hdate] at hday
    simp only [Option.bind_eq_bind, Option.bind_some]
    rw [h.at?_eq (by omega) (by omega) hdate, toNat_microsecond, hyear]
    simp only [UInt8.toNat_toUInt32, Nat.mul_assoc, Nat.reduceMul, isMoment_iff_isClockTime,
      hday.mp rfl, true_and, and_iff_right_of_imp IsClockTime.nanosecond_lt]
    rfl

/-! ## The calendar of the library -/

open Std.Time

/-- The dates of the library, with the times of the clock. -/
def standard : Calendar where
  Date := PlainDate
  date? year month day :=
    if h : (1 ≤ month.toNat ∧ month.toNat ≤ 12) ∧ 1 ≤ day.toNat ∧ day.toNat ≤ 31 then
      PlainDate.ofYearMonthDay? (.ofInt year.toInt) (.ofNat month.toNat h.1) (.ofNat day.toNat h.2)
    else none
  at? date hour minute second microsecond :=
    if microsecond.toNat * 1000 < 4294967296
        ∧ IsClockTime hour.toNat minute.toNat second.toNat (microsecond.toNat * 1000)
    then some ⟨date.year.toInt.toNat, date.month.toNat, date.day.toNat, hour.toNat, minute.toNat,
      second.toNat, microsecond.toNat * 1000⟩
    else none

theorem isLeap_iff_tmod {year : Int} :
    IsLeap year ↔ year.tmod 4 = 0 ∧ (year.tmod 100 ≠ 0 ∨ year.tmod 400 = 0) := by
  rw [IsLeap, Int.dvd_iff_tmod_eq_zero, Int.dvd_iff_tmod_eq_zero, Int.dvd_iff_tmod_eq_zero,
    imp_iff_not_or]

theorem isLeap_ofInt (year : Int) : (Year.Offset.ofInt year).isLeap = decide (IsLeap year) :=
  decide_eq_decide.mpr isLeap_iff_tmod.symm

theorem toInt_days {year : Int} {month : Nat} (h : 1 ≤ month ∧ month ≤ 12) :
    (Month.Ordinal.days (Year.Offset.ofInt year).isLeap (.ofNat month h)).val
      = (monthLengths year).getD (month - 1) 0 := by
  rw [isLeap_ofInt, monthLengths]
  obtain ⟨hlow, hhigh⟩ := h
  by_cases hleap : IsLeap year
  all_goals
    simp only [hleap]
    interval_cases month
    all_goals rfl

theorem valid_iff {year : Int} {month day : Nat} (hmonth : 1 ≤ month ∧ month ≤ 12)
    (hday : 1 ≤ day ∧ day ≤ 31) :
    (Year.Offset.ofInt year).Valid (.ofNat month hmonth) (.ofNat day hday)
      ↔ IsGregorianDay year month day := by
  change (day : Int) ≤ (Month.Ordinal.days _ _).val ↔ _
  rw [toInt_days hmonth, Int.ofNat_le]
  exact ⟨fun h => ⟨hmonth, hday.1, h⟩, fun h => h.2.2⟩

theorem monthLengths_le (year : Int) (index : Nat) : (monthLengths year).getD index 0 ≤ 31 := by
  rw [List.getD_eq_getElem?_getD]
  rcases hlength : (monthLengths year)[index]? with _ | length
  · exact Nat.zero_le 31
  · have hmem := List.mem_of_getElem? hlength
    simp only [monthLengths, List.mem_cons, List.not_mem_nil, or_false] at hmem
    rw [Option.getD_some]
    split at hmem <;> omega

theorem date?_standard {year : Int32} {month day : UInt32} {date : standard.Date}
    (h : standard.date? year month day = some date) :
    date.year.toInt = year.toInt ∧ date.month.toNat = month.toNat ∧ date.day.toNat = day.toNat := by
  simp only [standard, PlainDate.ofYearMonthDay?] at h
  split at h
  · split at h
    · obtain rfl := Option.some.inj h
      exact ⟨rfl, rfl, rfl⟩
    · cases h
  · cases h

theorem isGregorian_standard : standard.IsGregorian where
  isSome_date? := by
    intro year month day _ _
    simp only [standard]
    split
    · next h =>
      rw [← valid_iff h.1 h.2, PlainDate.ofYearMonthDay?]
      split
      · next hvalid => exact iff_of_true rfl hvalid
      · next hvalid => exact iff_of_false Bool.false_ne_true hvalid
    · next h =>
      refine iff_of_false Bool.false_ne_true fun ⟨hmonth, hlow, hhigh⟩ => h ⟨hmonth, hlow, ?_⟩
      exact hhigh.trans (monthLengths_le ..)
  at?_eq := by
    intro year month day date _ _ hdate hour minute second microsecond
    obtain ⟨hyear, hmonth, hday⟩ := date?_standard hdate
    rw [← hyear, ← hmonth, ← hday]
    rfl

end Calendar

namespace TimeImage

/-- By any Gregorian calendar the bytes are a time exactly if day and time of day are, and then it
is the time that they say, up to the zone no other. -/
theorem reads_moments {calendar : Calendar} (h : calendar.IsGregorian) (t : TimeImage)
    (identCapacity position : Nat) (rest : List UInt8) :
    (Field.read identCapacity .dtime ⟨position, t.bytes ++ rest⟩
        = .ok (if t.IsMoment then .ok (.object (.time t.timestamp)) else .error .notATime,
            ⟨position + 8, rest⟩)
      ∧ calendar.time? t = if t.IsMoment then some t.timestamp else none)
    ∧ (∀ n : Nat, n < 256 → (IsLeap (1900 + n) ↔ 4 ∣ n ∧ n ≠ 0 ∧ n ≠ 200))
    ∧ (∀ u : TimeImage, t.AgreesButZone u →
        Field.read identCapacity .dtime ⟨position, t.bytes ++ rest⟩
          = Field.read identCapacity .dtime ⟨position, u.bytes ++ rest⟩)
    ∧ ∀ (u : TimeImage) (value : Field) (behind behind' : Cursor),
        Field.read identCapacity .dtime ⟨position, t.bytes ++ rest⟩ = .ok (.ok value, behind) →
        Field.read identCapacity .dtime ⟨position, u.bytes ++ rest⟩ = .ok (.ok value, behind') →
        t.AgreesButZone u := by
  have hread := t.read_bytes identCapacity position rest
  refine ⟨⟨hread, h.time?_eq t⟩, fun n => isLeap_byte_iff, ?_, ?_⟩
  · intro u hagrees
    rw [hread, read_bytes, hagrees.timestamp_eq]
    simp only [hagrees.isMoment_iff]
  · intro u value behind behind' ht hu
    obtain ⟨-, rfl, -⟩ := read_bytes_eq_ok_iff.mp ht
    obtain ⟨-, hvalue, -⟩ := read_bytes_eq_ok_iff.mp hu
    simp only [Field.object.injEq, Object.time.injEq] at hvalue
    exact agreesButZone_of_timestamp_eq hvalue

/-- The leap second at the end of a leap day, once in each of two zones. -/
theorem reads_moments_leap_second :
    Calendar.standard.IsGregorian
      ∧ Field.read 12 .dtime ⟨0, [100, 0x22, 29, 23, 59, 59, 0x07, 0xcf]⟩
        = .ok (.ok (.object (.time ⟨2000, 2, 29, 23, 59, 59, 1999000000⟩)), ⟨8, []⟩)
      ∧ Field.read 12 .dtime ⟨0, [100, 0x12, 29, 23, 59, 59, 0x07, 0xcf]⟩
        = .ok (.ok (.object (.time ⟨2000, 2, 29, 23, 59, 59, 1999000000⟩)), ⟨8, []⟩)
      ∧ Calendar.standard.time? ⟨100, 0x22, 29, 23, 59, 59, 0x07, 0xcf⟩
        = some ⟨2000, 2, 29, 23, 59, 59, 1999000000⟩ := by
  have hmoment : (⟨100, 0x22, 29, 23, 59, 59, 0x07, 0xcf⟩ : TimeImage).IsMoment := by decide
  have hagrees : AgreesButZone ⟨100, 0x22, 29, 23, 59, 59, 0x07, 0xcf⟩
      ⟨100, 0x12, 29, 23, 59, 59, 0x07, 0xcf⟩ := ⟨rfl, rfl, rfl, rfl, rfl, rfl, rfl, rfl⟩
  obtain ⟨⟨hread, htime⟩, -, hzone, -⟩ := reads_moments Calendar.isGregorian_standard
    ⟨100, 0x22, 29, 23, 59, 59, 0x07, 0xcf⟩ 12 0 []
  rw [if_pos hmoment] at hread htime
  exact ⟨Calendar.isGregorian_standard, hread, (hzone _ hagrees).symm.trans hread, htime⟩

end TimeImage

end WellLog
