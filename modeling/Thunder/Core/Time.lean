import Thunder.Library.Calendar
import Mathlib.Data.UInt

/-! `Core::Time` on POSIX: seconds and nanoseconds since the first of January 1970.  The constructor
from a calendar date counts the days in closed form with the division of C, which cuts towards
zero. -/

namespace Thunder.Core

open Calendar

/-- `IsLeapYear`. -/
def isLeapYear (year : Nat) : Bool := year % 4 = 0 ∧ (year % 100 ≠ 0 ∨ year % 400 = 0)

/-- `tm`, in UTC. -/
structure Tm where
  sec : Int
  min : Int
  hour : Int
  mday : Int
  mon : Nat
  year : Int
  deriving DecidableEq, Repr

/-- `monoff`. -/
def monoff : List Int := [0, 31, 59, 90, 120, 151, 181, 212, 243, 273, 304, 334]

/-- `leap_days`. -/
def leapDays (y1 y2 : Int) : Int :=
  let y1 := y1 - 1
  let y2 := y2 - 1
  (y2.tdiv 4 - y1.tdiv 4) - (y2.tdiv 100 - y1.tdiv 100) + (y2.tdiv 400 - y1.tdiv 400)

def mktimegm (tm : Tm) : Int :=
  let year := 1900 + tm.year
  let days := 365 * (year - 1970) + leapDays 1970 year
  let days := days + monoff.getD tm.mon 0
  let days := if 1 < tm.mon ∧ isLeapYear (year % 65536).toNat then days + 1 else days
  let days := days + (tm.mday - 1)
  let hours := days * 24 + tm.hour
  let minutes := hours * 60 + tm.min
  minutes * 60 + tm.sec

/-- The number of the first of January 1970. -/
def epoch : Int := 719528

/-- `gmtime_r`. -/
def gmtime (time : Int) : Tm :=
  let date := ofDays (time / 86400 + epoch)
  let rest := time % 86400
  ⟨rest % 60, rest / 60 % 60, rest / 3600, date.day, date.month, date.year - 1900⟩

/-- The nanoseconds are those of a second. -/
structure Time where
  sec : Int
  nsec : Nat
  normal : nsec < 1000000000
  deriving DecidableEq, Repr

namespace Time

/-- `IsValidDate`. -/
def isValidDate (year : UInt16) (month day : UInt8) : Bool :=
  let totalDays :=
    if month ∈ [1, 3, 5, 7, 8, 10, 12] then 31
    else if month = 2 then if isLeapYear year.toNat then 29 else 28
    else if month ∈ [4, 6, 9, 11] then 30
    else 0
  0 < day.toNat ∧ day.toNat ≤ totalDays

/-- `IsValidDateTime`. -/
def isValidDateTime (year : UInt16) (month day hour minute second : UInt8) (millisecond : UInt16) :
    Bool :=
  isValidDate year month day ∧ hour.toNat < 24 ∧ minute.toNat < 60 ∧ second.toNat < 60 ∧
    millisecond.toNat < 1000

/-- The constructor from a date in UTC. -/
def ofDate (year : UInt16) (month day hour minute second : UInt8) (millisecond : UInt16) : Time :=
  if h : isValidDateTime year month day hour minute second millisecond then
    ⟨mktimegm ⟨second.toNat, minute.toNat, hour.toNat, day.toNat, month.toNat - 1,
      year.toNat - 1900⟩, millisecond.toNat * 1000000, by
        simp only [isValidDateTime, decide_eq_true_eq] at h
        omega⟩
  else ⟨0, 0, by decide⟩

/-- `Ticks`: microseconds, as a `uint64_t`. -/
def ticks (t : Time) : Nat := ((t.sec * 1000000 + (t.nsec / 1000 : Nat)) % 2 ^ 64).toNat

/-- The constructor from microseconds. -/
def ofTicks (time : Nat) : Time := ⟨time / 1000000, time % 1000000 * 1000, by omega⟩

/-- What the accessors report. -/
structure Fields where
  year : Int
  month : Int
  day : Int
  hours : Int
  minutes : Int
  seconds : Int
  milliSeconds : Nat
  deriving DecidableEq, Repr

/-- `Year`, `Month`, `Day`, `Hours`, `Minutes`, `Seconds` and `MilliSeconds`, in their types. -/
def fields (t : Time) : Fields :=
  let tm := gmtime t.sec
  ⟨(tm.year + 1900) % 2 ^ 32, ((tm.mon : Int) + 1) % 256, tm.mday % 256, tm.hour % 256,
    tm.min % 256, tm.sec % 256, t.nsec / 1000000 % 1000⟩

/-! ### The calendar -/

/-- The seconds from the epoch to a time of a day in the Gregorian calendar. -/
def secondsSinceEpoch (year : UInt16) (month day hour minute second : UInt8) : Int :=
  ((Date.days ⟨year.toNat, month.toNat - 1, day.toNat⟩ - epoch) * 24 + hour.toNat) * 3600 +
    minute.toNat * 60 + second.toNat

theorem isLeapYear_eq (year : Nat) : isLeapYear year = isLeap year := by
  unfold isLeapYear isLeap
  apply decide_eq_decide.mpr
  omega

/-- The closed form counts the days of the calendar from the year 1 on. -/
theorem leapDays_eq {year : Int} (h : 0 < year) :
    365 * (year - 1970) + leapDays 1970 year = daysToYear year - epoch := by
  have h4 : (1970 - 1 : Int).tdiv 4 = 492 := rfl
  have h100 : (1970 - 1 : Int).tdiv 100 = 19 := rfl
  have h400 : (1970 - 1 : Int).tdiv 400 = 4 := rfl
  have hnonneg : 0 ≤ year - 1 := by omega
  simp only [leapDays, daysToYear, epoch, h4, h100, h400, Int.tdiv_eq_ediv_of_nonneg hnonneg]
  omega

/-- In the year 0 it is one day ahead. -/
theorem leapDays_zero : 365 * (0 - 1970) + leapDays 1970 0 = daysToYear 0 - epoch + 1 := rfl

theorem monoff_eq (leap : Bool) : ∀ month < 12,
    monoff.getD month 0 + (if 1 < month ∧ leap then 1 else 0) = daysToMonth leap month := by
  cases leap <;> decide

section Valid

variable {year : UInt16} {month day hour minute second : UInt8} {millisecond : UInt16}

/-- What a valid date is in the calendar. -/
theorem valid_of_isValidDate (h : isValidDate year month day = true) :
    1 ≤ month.toNat ∧ Date.Valid ⟨year.toNat, month.toNat - 1, day.toNat⟩ := by
  simp only [isValidDate, isLeapYear_eq, List.mem_cons, List.not_mem_nil, or_false,
    decide_eq_true_eq] at h
  obtain ⟨hday, hlength⟩ := h
  have hvalid : ∀ m < 12, day.toNat ≤ monthLength (isLeap year.toNat) m →
      Date.Valid ⟨year.toNat, m, day.toNat⟩ := fun m hm hle => ⟨hm, hday, hle⟩
  split_ifs at hlength with hlong hfeb hleap hshort
  · rcases hlong with rfl | rfl | rfl | rfl | rfl | rfl | rfl <;>
      exact ⟨by decide, hvalid _ (by decide) hlength⟩
  · subst hfeb
    exact ⟨by decide, hvalid _ (by decide) (by rw [hleap]; exact hlength)⟩
  · subst hfeb
    rw [Bool.not_eq_true] at hleap
    exact ⟨by decide, hvalid _ (by decide) (by rw [hleap]; exact hlength)⟩
  · rcases hshort with rfl | rfl | rfl | rfl <;>
      exact ⟨by decide, hvalid _ (by decide) hlength⟩
  · omega

theorem mktimegm_eq (h : isValidDate year month day = true) :
    mktimegm ⟨second.toNat, minute.toNat, hour.toNat, day.toNat, month.toNat - 1,
      year.toNat - 1900⟩ =
      secondsSinceEpoch year month day hour minute second + if year = 0 then 86400 else 0 := by
  obtain ⟨hfirst, hmonth, hday, -⟩ := valid_of_isValidDate h
  have hyear : ((1900 + ((year.toNat : Int) - 1900)) % 65536).toNat = year.toNat := by
    have := year.toNat_lt
    omega
  have hoff := monoff_eq (isLeap year.toNat) (month.toNat - 1) hmonth
  simp only [mktimegm, secondsSinceEpoch, Date.days, hyear, isLeapYear_eq]
  simp only at hday
  by_cases hzero : year = 0
  · subst hzero
    have hdays := leapDays_zero
    have hnone : ((0 : UInt16).toNat : Int) = 0 := rfl
    rw [hnone] at hoff ⊢
    rw [if_pos rfl, show (1900 + ((0 : Int) - 1900)) = 0 from rfl]
    split_ifs at hoff ⊢ <;> omega
  · have hpos : 0 < year.toNat := Nat.pos_of_ne_zero fun h0 => hzero (UInt16.toNat_inj.mp h0)
    have hdays : 365 * ((year.toNat : Int) - 1970) + leapDays 1970 year.toNat =
        daysToYear year.toNat - epoch := leapDays_eq (by omega)
    rw [if_neg hzero, show (1900 + ((year.toNat : Int) - 1900)) = year.toNat by omega]
    split_ifs at hoff ⊢ <;> omega

/-- The time of a valid date, which is a day late in the year 0. -/
theorem ofDate_sec
    (h : isValidDateTime year month day hour minute second millisecond = true) :
    (ofDate year month day hour minute second millisecond).sec =
      secondsSinceEpoch year month day hour minute second + if year = 0 then 86400 else 0 := by
  rw [ofDate, dif_pos h]
  have hdate : isValidDate year month day = true := by
    simp only [isValidDateTime, decide_eq_true_eq] at h
    exact h.1
  exact mktimegm_eq hdate

/-- What a time of a day in the calendar reports. -/
theorem gmtime_eq {date : Date} (hdate : date.Valid) {hour minute second : Nat} (hhour : hour < 24)
    (hminute : minute < 60) (hsecond : second < 60) :
    gmtime (((date.days - epoch) * 24 + hour) * 3600 + minute * 60 + second) =
      ⟨second, minute, hour, date.day, date.month, date.year - 1900⟩ := by
  have hday : (((date.days - epoch) * 24 + hour) * 3600 + minute * 60 + second) / 86400 + epoch =
      date.days := by omega
  simp only [gmtime, hday, ofDays_days hdate, Tm.mk.injEq, and_true]
  omega

/-- The fields that were given. -/
def given (year : UInt16) (month day hour minute second : UInt8) (millisecond : UInt16) : Fields :=
  ⟨year.toNat, month.toNat, day.toNat, hour.toNat, minute.toNat, second.toNat, millisecond.toNat⟩

theorem fields_eq {t : Time} {date : Date} (hdate : date.Valid) {hour minute second : Nat}
    (hhour : hour < 24) (hminute : minute < 60) (hsecond : second < 60)
    (hsec : t.sec = ((date.days - epoch) * 24 + hour) * 3600 + minute * 60 + second) :
    t.fields = ⟨date.year % 2 ^ 32, date.month + 1, date.day, hour, minute, second,
      t.nsec / 1000000⟩ := by
  obtain ⟨hmonth, -, hday⟩ := id hdate
  have hnormal := t.normal
  have hlength := monthLength_le (isLeap date.year) date.month
  simp only [fields, hsec, gmtime_eq hdate hhour hminute hsecond, Fields.mk.injEq,
    Int.sub_add_cancel, true_and]
  omega

/-- The fields are those that were given, but for the year 0. -/
theorem fields_ofDate_iff
    (h : isValidDateTime year month day hour minute second millisecond = true) :
    (ofDate year month day hour minute second millisecond).fields =
      given year month day hour minute second millisecond ↔ year ≠ 0 := by
  have hsec := ofDate_sec h
  have hnsec : (ofDate year month day hour minute second millisecond).nsec =
      millisecond.toNat * 1000000 := by
    rw [ofDate, dif_pos h]
  simp only [isValidDateTime, decide_eq_true_eq] at h
  obtain ⟨hdate, hhour, hminute, hsecond, -⟩ := h
  obtain ⟨hfirst, hvalid⟩ := valid_of_isValidDate hdate
  have hyear := year.toNat_lt
  constructor
  · rintro hfields rfl
    -- the day behind the one that was given
    let date : Date := ⟨0, month.toNat - 1, day.toNat⟩
    obtain ⟨hnext, hdays⟩ := ofDays_spec (date.days + 1)
    have hlate : (ofDate 0 month day hour minute second millisecond).sec =
        (((ofDays (date.days + 1)).days - epoch) * 24 + hour.toNat) * 3600 +
          minute.toNat * 60 + second.toNat := by
      rw [hsec, if_pos rfl, hdays]
      change ((date.days - epoch) * 24 + hour.toNat) * 3600 + _ + _ + _ = _
      omega
    rw [fields_eq hnext hhour hminute hsecond hlate, given, Fields.mk.injEq] at hfields
    obtain ⟨hy, hm, hd, -⟩ := hfields
    have hbetween := hvalid.days_between
    have hbetween' := hnext.days_between
    rw [hdays] at hbetween'
    have hlow := (daysToYear_bounds (ofDays (date.days + 1)).year).1
    have hhigh := (daysToYear_bounds ((ofDays (date.days + 1)).year + 1)).2
    have hyear' : (ofDays (date.days + 1)).year = 0 := by
      have hone : daysToYear (0 + 1) = 366 := rfl
      have hnone : ((0 : UInt16).toNat : Int) = 0 := rfl
      rw [hnone] at hy
      change daysToYear 0 ≤ date.days ∧ date.days < daysToYear (0 + 1) at hbetween
      rw [hone, daysToYear_zero] at hbetween
      omega
    have hsame : ofDays (date.days + 1) = date := by
      rw [Date.ext_iff]
      refine ⟨hyear', ?_, ?_⟩
      · change _ = month.toNat - 1
        omega
      · change _ = day.toNat
        omega
    rw [hsame] at hdays
    omega
  · intro hzero
    rw [if_neg hzero, Int.add_zero, secondsSinceEpoch] at hsec
    rw [fields_eq hvalid hhour hminute hsecond hsec, hnsec, given, Fields.mk.injEq]
    refine ⟨?_, ?_, rfl, rfl, rfl, rfl, ?_⟩
    · simp only
      omega
    · simp only
      omega
    · exact Nat.mul_div_cancel _ (by decide)

end Valid

/-- A time is the one of its ticks when it is not before the epoch, and the ticks do not wrap. -/
theorem ofTicks_ticks_iff (t : Time) :
    (ofTicks t.ticks).sec = t.sec ∧ (ofTicks t.ticks).nsec / 1000 = t.nsec / 1000 ↔
      0 ≤ t.sec ∧ t.sec * 1000000 + (t.nsec / 1000 : Nat) < 2 ^ 64 := by
  have hmicro : t.nsec / 1000 < 1000000 := by
    have hnormal := t.normal
    omega
  have hticks : (t.ticks : Int) = (t.sec * 1000000 + (t.nsec / 1000 : Nat)) % 2 ^ 64 :=
    Int.toNat_of_nonneg (Int.emod_nonneg _ (by decide))
  have hnsec : (ofTicks t.ticks).nsec / 1000 = t.ticks % 1000000 :=
    Nat.mul_div_cancel _ (by decide)
  have hsec : (ofTicks t.ticks).sec = t.ticks / 1000000 := rfl
  rw [hnsec, hsec]
  constructor
  · rintro ⟨hs, hn⟩
    omega
  · rintro ⟨hpos, hlt⟩
    rw [Int.emod_eq_of_lt (by omega) hlt] at hticks
    omega

/-- By `operator==`, which compares the ticks, it always is. -/
theorem ticks_ofTicks_ticks (t : Time) : (ofTicks t.ticks).ticks = t.ticks := by
  have hlt : t.ticks < 2 ^ 64 := by
    have hmod := Int.emod_lt_of_pos (t.sec * 1000000 + (t.nsec / 1000 : Nat))
      (show (0 : Int) < 2 ^ 64 by decide)
    have hpos := Int.emod_nonneg (t.sec * 1000000 + (t.nsec / 1000 : Nat))
      (show (2 ^ 64 : Int) ≠ 0 by decide)
    unfold ticks
    omega
  generalize t.ticks = n at hlt
  have hnsec : (ofTicks n).nsec / 1000 = n % 1000000 := Nat.mul_div_cancel _ (by decide)
  have hsec : (ofTicks n).sec = (n / 1000000 : Nat) := rfl
  have hsum : ((n / 1000000 : Nat) : Int) * 1000000 + (n % 1000000 : Nat) = n := by omega
  rw [ticks, hnsec, hsec, hsum, Int.emod_eq_of_lt (by omega) (by omega), Int.toNat_natCast]

/-- The constructor gives the seconds of the calendar, and the fields that were given, exactly where
the year is not 0; a time is the one of its ticks exactly where it is not before the epoch and the
ticks do not wrap. -/
theorem exact_iff (year : UInt16) (month day hour minute second : UInt8) (millisecond : UInt16)
    (t : Time) :
    (isValidDateTime year month day hour minute second millisecond = true →
      ((ofDate year month day hour minute second millisecond).sec =
          secondsSinceEpoch year month day hour minute second ∧
        (ofDate year month day hour minute second millisecond).fields =
          given year month day hour minute second millisecond ↔ year ≠ 0)) ∧
    (ofTicks t.ticks).ticks = t.ticks ∧
      ((ofTicks t.ticks).sec = t.sec ∧ (ofTicks t.ticks).nsec / 1000 = t.nsec / 1000 ↔
        0 ≤ t.sec ∧ t.sec * 1000000 + (t.nsec / 1000 : Nat) < 2 ^ 64) := by
  refine ⟨fun h => ?_, t.ticks_ofTicks_ticks, t.ofTicks_ticks_iff⟩
  rw [fields_ofDate_iff h, ofDate_sec h]
  constructor
  · exact fun hexact => hexact.2
  · intro hyear
    rw [if_neg hyear, Int.add_zero]
    exact ⟨rfl, hyear⟩

/-- The last day of a leap year that is a full century. -/
theorem exact_last : (ofDate 2000 12 31 23 59 59 999).fields = given 2000 12 31 23 59 59 999 :=
  (((exact_iff 2000 12 31 23 59 59 999 (ofTicks 0)).1 (by decide)).mpr (by decide)).2

/-- The first day of the year 0 is taken for the second one, and a time before the epoch does not
come back from its ticks. -/
theorem not_exact : isValidDateTime 0 1 1 0 0 0 0 = true ∧
    (ofDate 0 1 1 0 0 0 0).fields = given 0 1 2 0 0 0 0 ∧
    (ofDate 0 1 1 0 0 0 0).sec ≠ secondsSinceEpoch 0 1 1 0 0 0 ∧
    (ofDate 1969 12 31 23 59 59 0).sec = -1 ∧
    (ofTicks (ofDate 1969 12 31 23 59 59 0).ticks).sec = 18446744073708 := by
  decide +kernel

end Time

end Thunder.Core
