import Mathlib.Algebra.BigOperators.Group.List.Basic
import Mathlib.Data.Int.Basic
import Mathlib.Tactic.SplitIfs
import Mathlib.Algebra.GroupWithZero.Nat

/-! The Gregorian calendar, in both directions from its introduction.  A day has a number, which is
0 for the first day of the year 0; the months of a year go from 0 to 11, the days of a month from
1. -/

namespace Thunder.Calendar

/-- Every fourth year, but of the full centuries every fourth one. -/
def isLeap (year : Int) : Bool := year % 4 = 0 ∧ (year % 100 ≠ 0 ∨ year % 400 = 0)

def yearLength (year : Int) : Int := if isLeap year then 366 else 365

def monthLength (leap : Bool) : Nat → Nat
  | 1 => if leap then 29 else 28
  | 3 => 30
  | 5 => 30
  | 8 => 30
  | 10 => 30
  | _ => 31

/-- The days of the years from 0 on, and minus those of the years down to 0. -/
def daysToYear (year : Int) : Int :=
  365 * year + (year + 3) / 4 - (year + 99) / 100 + (year + 399) / 400

/-- The days of the months before this one. -/
def daysToMonth (leap : Bool) (month : Nat) : Nat := ((List.range month).map (monthLength leap)).sum

@[ext] structure Date where
  year : Int
  month : Nat
  day : Nat
  deriving DecidableEq, Repr

namespace Date

def Valid (date : Date) : Prop :=
  date.month < 12 ∧ 0 < date.day ∧ date.day ≤ monthLength (isLeap date.year) date.month

instance (date : Date) : Decidable date.Valid := inferInstanceAs (Decidable (_ ∧ _))

def days (date : Date) : Int :=
  daysToYear date.year + (daysToMonth (isLeap date.year) date.month + date.day - 1 : Nat)

end Date

/-- The year of a day.  The quotient is off by one at most. -/
def yearOf (days : Int) : Int :=
  let year := days * 400 / 146097
  if days < daysToYear year then year - 1
  else if daysToYear (year + 1) ≤ days then year + 1
  else year

/-- The month of a day of a year, and the days before it in the month: these months are left. -/
def monthOf (leap : Bool) : List Nat → Nat → Nat × Nat
  | [], days => (12, days)
  | month :: months, days =>
    if days < monthLength leap month then (month, days)
    else monthOf leap months (days - monthLength leap month)

/-- The date of a day. -/
def ofDays (days : Int) : Date :=
  let year := yearOf days
  let (month, day) := monthOf (isLeap year) (List.range 12) (days - daysToYear year).toNat
  ⟨year, month, day + 1⟩

theorem monthLength_le (leap : Bool) (month : Nat) : monthLength leap month ≤ 31 := by
  unfold monthLength
  split <;> cases leap <;> decide

theorem daysToYear_zero : daysToYear 0 = 0 := by decide

/-- The years follow one another. -/
theorem daysToYear_succ (year : Int) :
    daysToYear (year + 1) = daysToYear year + yearLength year := by
  have h4 : (year + 1 + 3) / 4 = (year + 3) / 4 + if year % 4 = 0 then 1 else 0 := by
    split_ifs <;> omega
  have h100 : (year + 1 + 99) / 100 = (year + 99) / 100 + if year % 100 = 0 then 1 else 0 := by
    split_ifs <;> omega
  have h400 : (year + 1 + 399) / 400 = (year + 399) / 400 + if year % 400 = 0 then 1 else 0 := by
    split_ifs <;> omega
  have hlength : yearLength year = 365 + (if year % 4 = 0 then 1 else 0) -
      (if year % 100 = 0 then 1 else 0) + if year % 400 = 0 then 1 else 0 := by
    have h25 : year % 100 = 0 → year % 4 = 0 := by omega
    have h16 : year % 400 = 0 → year % 100 = 0 := by omega
    unfold yearLength isLeap
    grind
  rw [daysToYear, daysToYear, h4, h100, h400, hlength]
  omega

theorem daysToYear_strictMono {year year' : Int} (h : year < year') :
    daysToYear year < daysToYear year' := by
  unfold daysToYear
  omega

theorem daysToYear_bounds (year : Int) :
    146097 * year - 396 ≤ 400 * daysToYear year ∧ 400 * daysToYear year ≤ 146097 * year + 699 := by
  unfold daysToYear
  omega

/-- A day between the first one of a year and that of the next is in that year. -/
theorem yearOf_eq {year days : Int} (hfirst : daysToYear year ≤ days)
    (hlast : days < daysToYear (year + 1)) : yearOf days = year := by
  have hlow := (daysToYear_bounds year).1
  have hhigh := (daysToYear_bounds (year + 1)).2
  have hnear : days * 400 / 146097 = year - 1 ∨ days * 400 / 146097 = year ∨
      days * 400 / 146097 = year + 1 := by omega
  unfold yearOf
  rcases hnear with h | h | h
  · have hafter : ¬ days < daysToYear (year - 1) := by
      have := daysToYear_strictMono (show year - 1 < year by omega)
      omega
    simp only [h]
    rw [if_neg hafter, if_pos (by rw [Int.sub_add_cancel]; exact hfirst), Int.sub_add_cancel]
  · simp only [h]
    rw [if_neg (by omega), if_neg (by omega)]
  · simp only [h]
    rw [if_pos hlast, Int.add_sub_cancel]

theorem daysToMonth_succ (leap : Bool) (month : Nat) :
    daysToMonth leap (month + 1) = daysToMonth leap month + monthLength leap month := by
  simp [daysToMonth, List.range_succ]

theorem daysToMonth_mono (leap : Bool) {month month' : Nat} (h : month ≤ month') :
    daysToMonth leap month ≤ daysToMonth leap month' := by
  induction h with
  | refl => exact Nat.le_refl _
  | step _ ih => exact Nat.le_trans ih (by rw [daysToMonth_succ]; exact Nat.le_add_right _ _)

theorem daysToMonth_twelve (leap : Bool) :
    daysToMonth leap 12 = if leap then 366 else 365 := by
  cases leap <;> rfl

theorem daysToMonth_lt (leap : Bool) : ∀ month < 12, ∀ day < monthLength leap month,
    daysToMonth leap month + day < if leap then 366 else 365 := by
  intro month hmonth day hday
  have hnext := daysToMonth_mono leap (Nat.succ_le_of_lt hmonth)
  rw [daysToMonth_succ, daysToMonth_twelve] at hnext
  omega

theorem monthOf_append (leap : Bool) (past months : List Nat) (days : Nat) :
    monthOf leap (past ++ months) ((past.map (monthLength leap)).sum + days) =
      monthOf leap months days := by
  induction past with
  | nil => simp
  | cons month past ih =>
    rw [List.map_cons, List.sum_cons, List.cons_append, monthOf, if_neg (by omega), ← ih]
    congr 1
    omega

theorem monthOf_eq (leap : Bool) : ∀ month < 12, ∀ day < monthLength leap month,
    monthOf leap (List.range 12) (daysToMonth leap month + day) = (month, day) := by
  intro month hmonth day hday
  have hmonths : List.range 12 = List.range month ++ List.range' month (12 - month) := by
    have happend := List.range'_append_1 (s := 0) (m := month) (n := 12 - month)
    rw [Nat.zero_add, Nat.add_sub_cancel' (Nat.le_of_lt hmonth)] at happend
    rw [List.range_eq_range', List.range_eq_range', happend]
  have hfirst : List.range' month (12 - month) = month :: List.range' (month + 1) (11 - month) := by
    rw [← List.range'_succ]
    congr 1
    omega
  rw [hmonths, daysToMonth, monthOf_append, hfirst, monthOf, if_pos hday]

/-- The days of a date within its year. -/
theorem Date.Valid.days_between {date : Date} (h : date.Valid) :
    daysToYear date.year ≤ date.days ∧ date.days < daysToYear (date.year + 1) := by
  obtain ⟨hmonth, hpos, hday⟩ := h
  have hlt := daysToMonth_lt (isLeap date.year) date.month hmonth (date.day - 1) (by omega)
  rw [daysToYear_succ, Date.days, yearLength]
  constructor
  · omega
  · split_ifs at hlt ⊢ <;> omega

theorem exists_month (leap : Bool) {n day : Nat} (h : day < daysToMonth leap n) :
    ∃ month < n, ∃ rest < monthLength leap month, daysToMonth leap month + rest = day := by
  induction n with
  | zero => exact absurd h (Nat.not_lt_zero day)
  | succ n ih =>
    by_cases hday : day < daysToMonth leap n
    · obtain ⟨month, hmonth, hrest⟩ := ih hday
      exact ⟨month, Nat.lt_succ_of_lt hmonth, hrest⟩
    · rw [daysToMonth_succ] at h
      exact ⟨n, Nat.lt_succ_self n, day - daysToMonth leap n, by omega, by omega⟩

theorem valid_monthOf (leap : Bool) : ∀ day < if leap then 366 else 365,
    (monthOf leap (List.range 12) day).1 < 12 ∧
      (monthOf leap (List.range 12) day).2 <
        monthLength leap (monthOf leap (List.range 12) day).1 ∧
      daysToMonth leap (monthOf leap (List.range 12) day).1 +
        (monthOf leap (List.range 12) day).2 = day := by
  intro day hday
  rw [← daysToMonth_twelve] at hday
  obtain ⟨month, hmonth, rest, hrest, rfl⟩ := exists_month leap hday
  rw [monthOf_eq leap month hmonth rest hrest]
  exact ⟨hmonth, hrest, rfl⟩

/-- A day is in its year. -/
theorem yearOf_spec (days : Int) :
    daysToYear (yearOf days) ≤ days ∧ days < daysToYear (yearOf days + 1) := by
  have hbefore := (daysToYear_bounds (days * 400 / 146097 - 1)).2
  have hbehind := (daysToYear_bounds (days * 400 / 146097 + 1 + 1)).1
  unfold yearOf
  simp only
  split_ifs with hlow hhigh
  · rw [Int.sub_add_cancel]
    omega
  · omega
  · omega

theorem ofDays_spec (days : Int) : (ofDays days).Valid ∧ (ofDays days).days = days := by
  obtain ⟨hfirst, hlast⟩ := yearOf_spec days
  rw [daysToYear_succ, yearLength] at hlast
  have hday : (days - daysToYear (yearOf days)).toNat <
      if isLeap (yearOf days) then 366 else 365 := by
    split_ifs at hlast ⊢ <;> omega
  obtain ⟨hmonth, hlength, hsum⟩ := valid_monthOf (isLeap (yearOf days)) _ hday
  refine ⟨⟨hmonth, Nat.succ_pos _, hlength⟩, ?_⟩
  simp only [ofDays, Date.days]
  omega

/-- The days give the date back. -/
theorem ofDays_days {date : Date} (h : date.Valid) : ofDays date.days = date := by
  have hyear : yearOf date.days = date.year := yearOf_eq h.days_between.1 h.days_between.2
  obtain ⟨hmonth, hpos, hday⟩ := h
  have hrest : (date.days - daysToYear date.year).toNat =
      daysToMonth (isLeap date.year) date.month + (date.day - 1) := by
    unfold Date.days
    omega
  simp only [ofDays, hyear, hrest, monthOf_eq (isLeap date.year) date.month hmonth (date.day - 1)
    (by omega)]
  congr 1
  omega

end Thunder.Calendar
