import Thunder.Core.TimeISO8601
import Thunder.Core.Words

/-! What `FromISO8601` makes of the texts of its notation, and of those of `ToISO8601`. -/

namespace Thunder.Core

open Calendar Decimal

/-- A digit is neither a blank nor a sign. -/
theorem digit_start {c : UInt8} (h : isDigit c = true) :
    isSpace c = false ∧ c ≠ 0x2D ∧ c ≠ 0x2B ∧ c ≠ 0 := by
  simp only [isDigit, isSpace, UInt8.le_iff_toNat_le, ← UInt8.toNat_inj, UInt8.reduceToNat,
    decide_eq_true_eq, decide_eq_false_iff_not, ne_eq] at h ⊢
  omega

theorem strtol_pad {width n : Nat} {rest : Text} (hwidth : 0 < width) (hn : n < 10 ^ width)
    (hsmall : n < 2 ^ 31) (hrest : isDigit (first rest) = false) :
    strtol (pad width n ++ rest) = ((n : Int), rest) := by
  have hread : Decimal.read (pad width n ++ rest) = (n, rest) := read_pad hn hrest
  obtain ⟨c, digits, hpad⟩ := List.exists_cons_of_length_pos
    (show 0 < (pad width n).length by rwa [length_pad])
  have hmem : c ∈ pad width n := by
    rw [hpad]
    exact List.mem_cons_self
  have hdigit := isDigit_of_mem_pad hmem
  obtain ⟨hspace, hminus, hplus, -⟩ := digit_start hdigit
  rw [hpad, List.cons_append] at hread ⊢
  have htrim : (c :: (digits ++ rest)).dropWhile isSpace = c :: (digits ++ rest) :=
    List.dropWhile_cons_of_neg (by rw [hspace]; decide)
  have hfirst : first (c :: (digits ++ rest)) = c := rfl
  rw [strtol, htrim, hfirst]
  simp only [hminus, hplus, or_self, if_false, hfirst, hdigit, if_true, hread, decide_false,
    Bool.false_eq_true]
  rw [min_eq_left (by omega), Int.bmod_eq_of_le (by omega) (by omega)]

namespace Time

/-- The time zone of a notation: none, `Z`, or hours with or without minutes. -/
inductive Zone
  | none
  | utc
  | offset (west : Bool) (hours : Nat) (minutes : Option Nat)

namespace Zone

def text : Zone → Text
  | none => []
  | utc => [0x5A]
  | offset west hours minutes =>
    (if west then 0x2D else 0x2B) :: (pad 2 hours ++ minutes.elim [] (0x3A :: pad 2 ·))

/-- The minutes that the zone is ahead of UTC. -/
def ahead : Zone → Int
  | none => 0
  | utc => 0
  | offset west hours minutes =>
    let offset : Nat := hours * 60 + minutes.getD 0
    if west then -offset else offset

def Valid : Zone → Prop
  | none => True
  | utc => True
  | offset _ hours minutes => hours < 24 ∧ minutes.getD 0 < 60

end Zone

/-- A date, a time of a day with the digits of a fraction of a second, and a zone. -/
structure Notation8601 where
  date : Date
  hour : Nat
  minute : Nat
  second : Nat
  fraction : List (Fin 10)
  zone : Zone

namespace Notation8601

def digits (fraction : List (Fin 10)) : Text := fraction.map fun d => digit d

def fractionText (fraction : List (Fin 10)) : Text :=
  if fraction = [] then [] else 0x2E :: digits fraction

/-- The text; the months of a date go from 0 on. -/
def text (f : Notation8601) : Text :=
  pad 4 f.date.year.toNat ++ 0x2D :: (pad 2 (f.date.month + 1) ++ 0x2D :: (pad 2 f.date.day ++
    0x54 :: (pad 2 f.hour ++ 0x3A :: (pad 2 f.minute ++ 0x3A :: (pad 2 f.second ++
      (fractionText f.fraction ++ f.zone.text))))))

structure Valid (f : Notation8601) : Prop where
  year : 0 ≤ f.date.year ∧ f.date.year < 10000
  date : f.date.Valid
  hour : f.hour < 24
  minute : f.minute < 60
  second : f.second < 60
  zone : f.zone.Valid

/-- The local date and time, as `mktime` gets them. -/
def tm (f : Notation8601) : Tm :=
  ⟨f.second, f.minute, f.hour, f.date.day, f.date.month, f.date.year - 1900⟩

/-- The seconds from the epoch to the second of the notation. -/
def seconds (mktime : Tm → Int) (f : Notation8601) : Int :=
  match f.zone with
  | .none => mktime f.tm
  | zone => ((f.date.days - epoch) * 24 + f.hour) * 3600 + f.minute * 60 + f.second -
      zone.ahead * 60

/-- The number that so many digits of the fraction make. -/
def scaled (fraction : List (Fin 10)) (count : Nat) : Nat :=
  ((fraction ++ List.replicate count 0).take count).foldl (fun n (d : Fin 10) => n * 10 + d.1) 0

/-- The time is the one of the notation, with milliseconds that are cut or rounded. -/
def Denotes (mktime : Tm → Int) (f : Notation8601) (t : Time) : Prop :=
  let milliSeconds := t.sec * 1000 + (t.nsec / 1000000 : Nat)
  milliSeconds = f.seconds mktime * 1000 + scaled f.fraction 3 ∨
    milliSeconds = f.seconds mktime * 1000 + ((scaled f.fraction 4 + 5) / 10 : Nat)

end Notation8601

namespace Zone

/-- What `FromISO8601` keeps of a zone. -/
def kept : Zone → ZoneRead
  | none => ⟨0, false, true⟩
  | utc => ⟨0, false, false⟩
  | offset west hours minutes => ⟨hours * 60 + (minutes.getD 0 : Nat), west, false⟩

theorem first_text (zone : Zone) : isDigit (first zone.text) = false ∧ first zone.text ≠ 0x2E := by
  cases zone with
  | none => exact ⟨rfl, by decide⟩
  | utc => exact ⟨rfl, by decide⟩
  | offset west hours minutes =>
    cases west
    · exact ⟨rfl, (by decide : (0x2B : UInt8) ≠ 0x2E)⟩
    · exact ⟨rfl, (by decide : (0x2D : UInt8) ≠ 0x2E)⟩

theorem zoneRead_text {zone : Zone} (h : zone.Valid) : zoneRead zone.text = some zone.kept := by
  cases zone with
  | none => rfl
  | utc => rfl
  | offset west hours minutes =>
    obtain ⟨hhours, hminutes⟩ := h
    have hsign : first (text (offset west hours minutes)) = if west then 0x2D else 0x2B := rfl
    have hdrop : (text (offset west hours minutes)).drop 1 =
      pad 2 hours ++ minutes.elim [] (0x3A :: pad 2 ·) := rfl
    have hlength : 3 ≤ (text (offset west hours minutes)).length := by
      rw [text, List.length_cons, List.length_append, length_pad]
      omega
    rw [zoneRead, hsign, if_neg (by rw [endsText, hsign]; cases west <;> decide),
      if_pos (by cases west <;> decide), if_pos hlength, hdrop]
    have hmin : timezoneMin (minutes.elim [] (0x3A :: pad 2 ·)) =
        some (((minutes.getD 0 : Nat) : Int), []) := by
      cases minutes with
      | none => rfl
      | some minutes =>
        have hminute : strtol (pad 2 minutes ++ []) = ((minutes : Int), []) :=
          strtol_pad (Nat.succ_pos 1) (Nat.lt_trans hminutes (by decide))
            (Nat.lt_trans hminutes (by decide)) rfl
        rw [List.append_nil] at hminute
        have hcolon : first (0x3A :: pad 2 minutes) = 0x3A := rfl
        rw [Option.elim_some, timezoneMin, if_pos hcolon, if_pos (by simp), List.drop_one,
          List.tail_cons, hminute]
        rfl
    have hrest : isDigit (first (minutes.elim [] (0x3A :: pad 2 ·))) = false := by
      cases minutes <;> rfl
    rw [strtol_pad (Nat.succ_pos 1) (by omega) (by omega) hrest]
    simp only [hmin, Option.bind_some]
    rw [if_pos ⟨rfl, by omega, by omega, by omega, by omega⟩, kept]
    cases west <;> rfl

end Zone

/-- A number of three digits is put down as these. -/
theorem fillBuffer_three {value : Nat} (hlow : 100 ≤ value) (hhigh : value < 1000) (rest : Text) :
    NumberType.fillBuffer 35 value rest = pad 3 value ++ rest := by
  rw [NumberType.fillBuffer_succ, if_pos ⟨by omega, by decide⟩, NumberType.fillBuffer_succ,
    if_pos ⟨by omega, by decide⟩, NumberType.fillBuffer_succ, if_neg fun h => h.1 (by omega)]
  rfl

/-- A number ends before a time zone. -/
theorem convertFrom_zone {value : Nat} (hvalue : value ≠ 0) (zone : Zone) :
    NumberType.convertFrom (2 ^ 32 - 1) zone.text value .decimal = value := by
  have hstop (c : UInt8) (rest : Text) (hc : c ≠ 0 ∧ NumberType.digit c .decimal = none) :
      NumberType.convertFrom (2 ^ 32 - 1) (c :: rest) value .decimal = value := by
    rw [NumberType.convertFrom, if_neg hc.1, if_neg fun h => hvalue h.1, if_neg fun h => hvalue h.1,
      if_neg fun h => hvalue h.1]
    simp only [reduceCtorEq, if_false, hc.2]
  cases zone with
  | none => rfl
  | utc => exact hstop _ _ (by decide)
  | offset west hours minutes => cases west <;> exact hstop _ _ (by decide)

theorem fraction_three {value : Nat} (hlow : 100 ≤ value) (hhigh : value < 1000) (zone : Zone) :
    fraction (0x2E :: (pad 3 value ++ zone.text)) = some (value, zone.text) := by
  have hconvert : NumberType.convert (2 ^ 32 - 1) (pad 3 value ++ zone.text) = value := by
    rw [← fillBuffer_three hlow hhigh, NumberType.convert,
      NumberType.convertFrom_fillBuffer _ (by omega) (by omega)
        (Nat.lt_trans hhigh (by decide)), convertFrom_zone (by omega)]
  have htext : NumberType.text value = pad 3 value := by
    rw [NumberType.text, fillBuffer_three hlow hhigh, List.append_nil]
  have hdot : first (0x2E :: (pad 3 value ++ zone.text)) = 0x2E := rfl
  rw [fraction, if_pos hdot, List.drop_one, List.tail_cons, hconvert]
  simp only [htext, List.length_append, length_pad]
  rw [if_neg (by omega), List.drop_left' (length_pad 3 value)]

theorem fraction_none (zone : Zone) : fraction zone.text = some (0, zone.text) :=
  if_neg zone.first_text.2

namespace Notation8601

/-- A fraction that `FromISO8601` takes for the milliseconds that it is: none, or three digits of
which the first one is not 0. -/
def Plain (fraction : List (Fin 10)) : Prop :=
  fraction = [] ∨ ∃ a b c, a ≠ 0 ∧ fraction = [a, b, c]

theorem digit_eq {m n : Nat} (h : m % 10 = n % 10) : digit m = digit n := by
  rw [digit, digit, h]

theorem fraction_plain {fraction : List (Fin 10)} (h : Plain fraction) (zone : Zone) :
    Time.fraction (fractionText fraction ++ zone.text) = some (scaled fraction 3, zone.text) := by
  obtain rfl | ⟨a, b, c, ha, rfl⟩ := h
  · exact fraction_none zone
  · have hvalue : scaled [a, b, c] 3 = (a.1 * 10 + b.1) * 10 + c.1 := by
      simp [scaled]
    have ha : a.1 ≠ 0 := fun h => ha (Fin.ext h)
    have hfirst : digit a = digit (scaled [a, b, c] 3 / 10 / 10) := digit_eq (by omega)
    have hsecond : digit b = digit (scaled [a, b, c] 3 / 10) := digit_eq (by omega)
    have hthird : digit c = digit (scaled [a, b, c] 3) := digit_eq (by omega)
    have hdigits : fractionText [a, b, c] = 0x2E :: pad 3 (scaled [a, b, c] 3) := by
      show 0x2E :: [digit a, digit b, digit c] = 0x2E :: [_, _, _]
      rw [hfirst, hsecond, hthird]
    rw [hdigits]
    exact fraction_three (by omega) (by omega) zone

/-- A field and the byte behind it. -/
theorem drop_pad (width n : Nat) (c : UInt8) (rest : Text) :
    (pad width n ++ c :: rest).drop (width + 1) = rest := by
  rw [List.drop_append, length_pad, List.drop_eq_nil_of_le (by rw [length_pad]; omega),
    Nat.add_sub_cancel_left]
  rfl

theorem strtol_field {width n : Nat} {c : UInt8} (rest : Text) (hwidth : 0 < width)
    (hn : n < 10 ^ width) (hsmall : n < 2 ^ 31) (hc : isDigit c = false) :
    strtol (pad width n ++ c :: rest) = ((n : Int), c :: rest) := strtol_pad hwidth hn hsmall hc

/-- Behind the seconds there is no digit. -/
theorem first_tail (fraction : List (Fin 10)) (zone : Zone) :
    isDigit (first (fractionText fraction ++ zone.text)) = false := by
  rw [fractionText]
  split
  · exact zone.first_text.1
  · rfl

/-- The texts of the notation are taken, field by field. -/
theorem fromISO8601_text (mktime : Tm → Int) {f : Notation8601} (hf : f.Valid)
    (hyear : 1582 ≤ f.date.year) (hplain : Plain f.fraction) :
    fromISO8601 mktime f.text = .read (shifted (ofDateTime mktime f.zone.kept.localTime
      (.ofNat f.date.year.toNat) (.ofNat (f.date.month + 1)) (.ofNat f.date.day) (.ofNat f.hour)
      (.ofNat f.minute) (.ofNat f.second) (.ofNat (scaled f.fraction 3))) f.zone.kept) := by
  obtain ⟨hfour, ⟨hmonth, hday, hlength⟩, hhour, hminute, hsecond, hzone⟩ := hf
  have hday' : f.date.day ≤ 31 := Nat.le_trans hlength (monthLength_le _ _)
  -- What is left at each field.
  set tail := fractionText f.fraction ++ f.zone.text
  set seconds := pad 2 f.second ++ tail
  set minutes := pad 2 f.minute ++ 0x3A :: seconds
  set hours := pad 2 f.hour ++ 0x3A :: minutes
  set day := pad 2 f.date.day ++ 0x54 :: hours
  set month := pad 2 (f.date.month + 1) ++ 0x2D :: day
  have hmonth' : f.text.drop 5 = month := drop_pad 4 _ _ _
  have hdrop (width : Nat) {n : Nat} {rest rest' : Text} (h : f.text.drop n = rest)
      (h' : rest.drop width = rest') : f.text.drop (n + width) = rest' := by
    rw [← List.drop_drop, h, h']
  have hday'' : f.text.drop 8 = day := hdrop 3 hmonth' (drop_pad 2 _ _ _)
  have hhours : f.text.drop 11 = hours := hdrop 3 hday'' (drop_pad 2 _ _ _)
  have hminutes : f.text.drop 14 = minutes := hdrop 3 hhours (drop_pad 2 _ _ _)
  have hseconds : f.text.drop 17 = seconds := hdrop 3 hminutes (drop_pad 2 _ _ _)
  have hdigit : isDigit (first f.text) = true := by
    obtain ⟨c, digits, hpad⟩ := List.exists_cons_of_length_pos
      (show 0 < (pad 4 f.date.year.toNat).length by rw [length_pad]; decide)
    have hmem : c ∈ pad 4 f.date.year.toNat := by
      rw [hpad]
      exact List.mem_cons_self
    rw [text, hpad]
    exact isDigit_of_mem_pad hmem
  have hlong : 19 ≤ f.text.length := by
    simp only [text, List.length_append, List.length_cons, length_pad]
    omega
  have hreadYear : strtol f.text = ((f.date.year.toNat : Int), 0x2D :: month) :=
    strtol_field month (Nat.succ_pos 3) (by omega) (by omega) rfl
  have hreadMonth : strtol month = (((f.date.month + 1 : Nat) : Int), 0x2D :: day) :=
    strtol_field day (Nat.succ_pos 1) (by omega) (by omega) rfl
  have hreadDay : strtol day = ((f.date.day : Int), 0x54 :: hours) :=
    strtol_field hours (Nat.succ_pos 1) (by omega) (by omega) rfl
  have hreadHours : strtol hours = ((f.hour : Int), 0x3A :: minutes) :=
    strtol_field minutes (Nat.succ_pos 1) (by omega) (by omega) rfl
  have hreadMinutes : strtol minutes = ((f.minute : Int), 0x3A :: seconds) :=
    strtol_field seconds (Nat.succ_pos 1) (by omega) (by omega) rfl
  have hreadSeconds : strtol seconds = ((f.second : Int), tail) :=
    strtol_pad (Nat.succ_pos 1) (by omega) (by omega) (first_tail _ _)
  rw [fromISO8601, hmonth', hday'', hhours, hminutes, hseconds, hreadYear, hreadMonth, hreadDay,
    hreadHours, hreadMinutes, hreadSeconds]
  simp only [Int.toNat_natCast]
  rw [if_pos ⟨hlong, hdigit, ⟨by omega, by omega, rfl⟩, ⟨by omega, by omega, rfl⟩,
    ⟨by omega, by omega, rfl⟩, ⟨by omega, by omega, rfl⟩, ⟨by omega, by omega, rfl⟩, by omega,
    by omega⟩, fraction_plain hplain]
  simp only [Zone.zoneRead_text hzone]

/-- A valid date is one for the constructor. -/
theorem isValidDate_of_valid {date : Date} (h : date.Valid)
    (hyear : 0 ≤ date.year ∧ date.year < 10000) :
    isValidDate (.ofNat date.year.toNat) (.ofNat (date.month + 1)) (.ofNat date.day) = true := by
  obtain ⟨year, month, day⟩ := date
  obtain ⟨hmonth, hpos, hlength⟩ := h
  simp only at hmonth hpos hlength hyear ⊢
  have hday : day ≤ 31 := Nat.le_trans hlength (monthLength_le _ _)
  have hday' : (UInt8.ofNat day).toNat = day := by
    rw [UInt8.toNat_ofNat', Nat.mod_eq_of_lt (by omega)]
  have hyear' : ((UInt16.ofNat year.toNat).toNat : Int) = year := by
    rw [UInt16.toNat_ofNat', Nat.mod_eq_of_lt (by omega)]
    omega
  have hdays : ∀ leap : Bool, ∀ month < 12,
      (if UInt8.ofNat (month + 1) ∈ [1, 3, 5, 7, 8, 10, 12] then 31
        else if UInt8.ofNat (month + 1) = 2 then if leap then 29 else 28
        else if UInt8.ofNat (month + 1) ∈ [4, 6, 9, 11] then 30
        else 0) = monthLength leap month := by decide
  rw [isValidDate, isLeapYear_eq, hyear', hday', hdays _ _ hmonth]
  exact decide_eq_true ⟨hpos, hlength⟩

/-- The constructor from a valid date. -/
theorem ofDateTime_spec (mktime : Tm → Int) (localTime : Bool) {date : Date} (hdate : date.Valid)
    (hyear : 0 < date.year ∧ date.year < 10000) {hour minute second milliseconds : Nat}
    (hhour : hour < 24) (hminute : minute < 60) (hsecond : second < 60)
    (hmilliseconds : milliseconds < 1000) :
    let t := ofDateTime mktime localTime (.ofNat date.year.toNat) (.ofNat (date.month + 1))
      (.ofNat date.day) (.ofNat hour) (.ofNat minute) (.ofNat second) (.ofNat milliseconds)
    t.sec = (if localTime then mktime ⟨second, minute, hour, date.day, date.month, date.year - 1900⟩
      else ((date.days - epoch) * 24 + hour) * 3600 + minute * 60 + second) ∧
    t.nsec = milliseconds * 1000000 := by
  have hvalidDate := isValidDate_of_valid hdate ⟨by omega, hyear.2⟩
  have hday := Nat.le_trans hdate.2.2 (monthLength_le _ _)
  have hmonth := hdate.1
  have h16 {n : Nat} (h : n < 65536) : (UInt16.ofNat n).toNat = n := by
    rw [UInt16.toNat_ofNat', Nat.mod_eq_of_lt h]
  have h8 {n : Nat} (h : n < 256) : (UInt8.ofNat n).toNat = n := by
    rw [UInt8.toNat_ofNat', Nat.mod_eq_of_lt h]
  have hvalid : isValidDateTime (.ofNat date.year.toNat) (.ofNat (date.month + 1))
      (.ofNat date.day) (.ofNat hour) (.ofNat minute) (.ofNat second)
      (.ofNat milliseconds) = true := by
    rw [isValidDateTime, hvalidDate, h8 (by omega), h8 (by omega), h8 (by omega), h16 (by omega)]
    exact decide_eq_true ⟨rfl, hhour, hminute, hsecond, hmilliseconds⟩
  have hyear' : ((UInt16.ofNat date.year.toNat).toNat : Int) = date.year := by
    rw [h16 (by omega), Int.toNat_of_nonneg (by omega)]
  have htm : (⟨(UInt8.ofNat second).toNat, (UInt8.ofNat minute).toNat, (UInt8.ofNat hour).toNat,
      (UInt8.ofNat date.day).toNat, (UInt8.ofNat (date.month + 1)).toNat - 1,
      (UInt16.ofNat date.year.toNat).toNat - 1900⟩ : Tm) =
      ⟨second, minute, hour, date.day, date.month, date.year - 1900⟩ := by
    rw [h8 (by omega), h8 (by omega), h8 (by omega), h8 (by omega), h8 (by omega), hyear']
    rfl
  -- The seconds of the date in UTC.
  have hgm : mktimegm ⟨second, minute, hour, date.day, date.month, date.year - 1900⟩ =
      ((date.days - epoch) * 24 + hour) * 3600 + minute * 60 + second := by
    have hsec : mktimegm _ = secondsSinceEpoch _ _ _ (.ofNat hour) (.ofNat minute)
        (.ofNat second) + _ := mktimegm_eq hvalidDate
    have hzero : UInt16.ofNat date.year.toNat ≠ 0 := by
      intro h
      rw [h] at hyear'
      have hnone : ((0 : UInt16).toNat : Int) = 0 := rfl
      omega
    rw [htm, if_neg hzero, Int.add_zero, secondsSinceEpoch, hyear', h8 (by omega), h8 (by omega),
      h8 (by omega), h8 (by omega), h8 (by omega), Nat.add_sub_cancel] at hsec
    exact hsec
  intro t
  constructor
  · simp only [t, ofDateTime, dif_pos hvalid, htm, hgm]
  · simp only [t, ofDateTime, dif_pos hvalid, h16 (show milliseconds < 65536 by omega)]

theorem scaled_lt {fraction : List (Fin 10)} (h : Plain fraction) : scaled fraction 3 < 1000 := by
  obtain rfl | ⟨a, b, c, -, rfl⟩ := h
  · decide
  · simp only [scaled, List.cons_append, List.nil_append, List.take_succ_cons, List.take_zero,
      List.foldl_cons, List.foldl_nil]
    omega

/-- The time of the constructor is that of the notation without its zone. -/
theorem ofDateTime_denotes (mktime : Tm → Int) {f : Notation8601} (hf : f.Valid)
    (hyear : 1582 ≤ f.date.year) (hplain : Plain f.fraction) (hzone : f.zone.ahead = 0) :
    f.Denotes mktime (ofDateTime mktime f.zone.kept.localTime (.ofNat f.date.year.toNat)
      (.ofNat (f.date.month + 1)) (.ofNat f.date.day) (.ofNat f.hour) (.ofNat f.minute)
      (.ofNat f.second) (.ofNat (scaled f.fraction 3))) := by
  have hspec := ofDateTime_spec mktime f.zone.kept.localTime hf.date ⟨by omega, hf.year.2⟩ hf.hour
    hf.minute hf.second (scaled_lt hplain)
  dsimp only at hspec
  obtain ⟨hsec, hnsec⟩ := hspec
  left
  rw [hsec, hnsec, Nat.mul_div_cancel _ (by decide), seconds]
  cases hzoned : f.zone with
  | none => rfl
  | utc =>
    simp only [Zone.kept, Bool.false_eq_true, if_false, Zone.ahead]
    omega
  | offset west hours minutes =>
    rw [hzoned] at hzone
    simp only [Zone.kept, Bool.false_eq_true, if_false, hzone]
    omega

/-- A text of the notation is read; and as what it says, if its offset is nothing. -/
theorem fromISO8601_denotes (mktime : Tm → Int) {f : Notation8601} (hf : f.Valid)
    (hyear : 1582 ≤ f.date.year) (hplain : Plain f.fraction) :
    ∃ t, fromISO8601 mktime f.text = .read t ∧ (f.zone.ahead = 0 → f.Denotes mktime t) := by
  refine ⟨_, fromISO8601_text mktime hf hyear hplain, fun hzone => ?_⟩
  have hoffset : f.zone.kept.offset = 0 := by
    cases hzoned : f.zone with
    | none => rfl
    | utc => rfl
    | offset west hours minutes =>
      rw [hzoned, Zone.ahead] at hzone
      rw [Zone.kept]
      split at hzone <;> push_cast at hzone ⊢ <;> omega
  rw [shifted, if_pos hoffset]
  exact ofDateTime_denotes mktime hf hyear hplain hzone

end Notation8601

/-! ### The way back -/

/-- The year of a time in UTC. -/
def year (t : Time) : Int := (gmtime t.sec).year + 1900

/-- What `ToISO8601` writes down, in UTC. -/
def notation8601Of (t : Time) : Notation8601 :=
  ⟨ofDays (t.sec / 86400 + epoch), (t.sec % 86400 / 3600).toNat, (t.sec % 86400 / 60 % 60).toNat,
    (t.sec % 86400 % 60).toNat, [], .utc⟩

theorem year_eq (t : Time) : t.year = t.notation8601Of.date.year := Int.sub_add_cancel _ _

theorem padded_eq {width : Nat} {n : Int} (hwidth : 0 < width) (hlow : 0 ≤ n)
    (hhigh : n < 10 ^ width) : padded width n = pad width n.toNat := by
  have hlength : (Nat.toDigits 10 n.natAbs).length ≤ width := by
    rw [Nat.length_toDigits_le_iff (by decide) hwidth]
    rw [← Int.natAbs_of_nonneg hlow] at hhigh
    exact_mod_cast hhigh
  rw [padded, if_neg (by omega), max_eq_left hlength]
  congr 1
  omega

theorem padded_two {n : Nat} (hn : n < 100) : padded 2 ((n : Int) % 256) = pad 2 n := by
  rw [padded_eq (by decide) (by omega) (by omega)]
  congr 1
  omega

theorem padded_year {year : Int} (hyear : 0 ≤ year ∧ year < 10000) :
    padded 4 ((year - 1900 + 1900).bmod (2 ^ 32)) = pad 4 year.toNat := by
  rw [Int.sub_add_cancel, Int.bmod_eq_of_le (by omega) (by omega),
    padded_eq (by decide) (by omega) (by omega)]

theorem notation8601Of_valid {t : Time} (hyear : 1582 ≤ t.year ∧ t.year ≤ 9999) :
    t.notation8601Of.Valid := by
  rw [year_eq] at hyear
  have hlow := Int.emod_nonneg t.sec (show (86400 : Int) ≠ 0 by decide)
  have hhigh := Int.emod_lt_of_pos t.sec (show (0 : Int) < 86400 by decide)
  refine ⟨by omega, (ofDays_spec _).1, ?_, ?_, ?_, trivial⟩
  · show (t.sec % 86400 / 3600).toNat < 24
    omega
  · show (t.sec % 86400 / 60 % 60).toNat < 60
    omega
  · show (t.sec % 86400 % 60).toNat < 60
    omega

theorem notation8601Of_seconds (mktime : Tm → Int) (t : Time) :
    t.notation8601Of.seconds mktime = t.sec := by
  have hdays : t.notation8601Of.date.days = t.sec / 86400 + epoch := (ofDays_spec _).2
  have hlow := Int.emod_nonneg t.sec (show (86400 : Int) ≠ 0 by decide)
  show ((t.notation8601Of.date.days - epoch) * 24 + ((t.sec % 86400 / 3600).toNat : Int)) * 3600 +
    ((t.sec % 86400 / 60 % 60).toNat : Int) * 60 + ((t.sec % 86400 % 60).toNat : Int) -
      0 * 60 = t.sec
  rw [hdays]
  omega

theorem toISO8601_text (localtime : Int → Tm) {t : Time} (hsec : t.sec ≠ 0)
    (hyear : 1582 ≤ t.year ∧ t.year ≤ 9999) :
    t.toISO8601 localtime false = t.notation8601Of.text := by
  have hyear' := hyear
  rw [year_eq] at hyear'
  obtain ⟨-, ⟨hmonth, hday, hlength⟩, hhour, hminute, hsecond, -⟩ := notation8601Of_valid hyear
  have hday' := Nat.le_trans hlength (monthLength_le _ _)
  set f := t.notation8601Of with hf
  have htm : gmtime t.sec = ⟨f.second, f.minute, f.hour, f.date.day, f.date.month,
      f.date.year - 1900⟩ := by
    have hlow := Int.emod_nonneg t.sec (show (86400 : Int) ≠ 0 by decide)
    rw [hf, gmtime, notation8601Of]
    simp only [Tm.mk.injEq, and_true]
    omega
  have hpadYear := padded_year (show 0 ≤ f.date.year ∧ f.date.year < 10000 by omega)
  have hmonth' : ((f.date.month : Int) + 1) % 256 = ((f.date.month + 1 : Nat) : Int) % 256 := by
    rw [Int.natCast_add, Int.natCast_one]
  have hvalid : t.isValid = true := decide_eq_true hsec
  rw [toISO8601, if_pos hvalid, if_neg Bool.false_ne_true, htm, notation8601]
  simp only [hpadYear, hmonth']
  rw [padded_two (by omega), padded_two (by omega), padded_two (by omega), padded_two (by omega),
    padded_two (by omega), List.take_of_length_le]
  · simp only [Notation8601.text, List.append_assoc, List.singleton_append]
    rfl
  · simp only [List.length_append, length_pad, List.length_singleton]
    decide

theorem fromISO8601_toISO8601 (mktime : Tm → Int) (localtime : Int → Tm) {t : Time}
    (hsec : t.sec ≠ 0) (hyear : 1582 ≤ t.year ∧ t.year ≤ 9999) :
    ∃ t', fromISO8601 mktime (t.toISO8601 localtime false) = .read t' ∧ t'.sec = t.sec := by
  have hyear' := hyear
  rw [year_eq] at hyear'
  obtain ⟨t', hread, hdenotes⟩ := Notation8601.fromISO8601_denotes mktime
    (notation8601Of_valid hyear) hyear'.1 (.inl rfl)
  rw [toISO8601_text localtime hsec hyear]
  refine ⟨t', hread, ?_⟩
  have hsame := hdenotes rfl
  rw [Notation8601.Denotes, notation8601Of_seconds] at hsame
  have hnone : Notation8601.scaled t.notation8601Of.fraction 3 = 0 := rfl
  have hnone' : (Notation8601.scaled t.notation8601Of.fraction 4 + 5) / 10 = 0 := by
    show (Notation8601.scaled [] 4 + 5) / 10 = 0
    decide
  rw [hnone, hnone'] at hsame
  have hnormal := t'.normal
  omega

/-- From the year 1582 on, the texts of the notation with no fraction or three digits are read, and
as what they say where there is no offset; a valid time up to the year 9999 is written down to the
second. -/
theorem iso8601_exact :
    (∀ (mktime : Tm → Int) (f : Notation8601), f.Valid → 1582 ≤ f.date.year →
      Notation8601.Plain f.fraction → ∃ t, fromISO8601 mktime f.text = .read t ∧
        (f.zone.ahead = 0 → f.Denotes mktime t)) ∧
    ∀ (mktime : Tm → Int) (localtime : Int → Tm) (t : Time), t.isValid →
      1582 ≤ t.year ∧ t.year ≤ 9999 →
      ∃ t', fromISO8601 mktime (t.toISO8601 localtime false) = .read t' ∧ t'.sec = t.sec :=
  ⟨fun mktime _ hf hyear hplain => Notation8601.fromISO8601_denotes mktime hf hyear hplain,
    fun mktime localtime _ hsec hyear =>
      fromISO8601_toISO8601 mktime localtime (of_decide_eq_true hsec) hyear⟩

/-- 1994-11-06T08:49:37.123Z, and its second. -/
theorem iso8601_exact_1994 :
    (∃ t, fromISO8601 mktimegm
        (Notation8601.text ⟨⟨1994, 10, 6⟩, 8, 49, 37, [1, 2, 3], .utc⟩) = .read t ∧
      Notation8601.Denotes mktimegm ⟨⟨1994, 10, 6⟩, 8, 49, 37, [1, 2, 3], .utc⟩ t) ∧
    ∃ t', fromISO8601 mktimegm (toISO8601 gmtime false ⟨784111777, 0, by decide⟩) = .read t' ∧
      t'.sec = 784111777 := by
  constructor
  · obtain ⟨t, hread, hdenotes⟩ := iso8601_exact.1 mktimegm
      ⟨⟨1994, 10, 6⟩, 8, 49, 37, [1, 2, 3], .utc⟩
      ⟨by decide, by decide, by decide, by decide, by decide, trivial⟩ (by decide)
      (.inr ⟨1, 2, 3, by decide, rfl⟩)
    exact ⟨t, hread, hdenotes rfl⟩
  · exact iso8601_exact.2 mktimegm gmtime ⟨784111777, 0, by decide⟩ rfl (by decide +kernel)

/-- The last second of 1581 is refused, and the epoch is not written down. -/
theorem not_iso8601_exact :
    (¬∀ (mktime : Tm → Int) (f : Notation8601), f.Valid →
      ∃ t, fromISO8601 mktime f.text = .read t ∧ f.Denotes mktime t) ∧
    ¬∀ (mktime : Tm → Int) (localtime : Int → Tm) (t : Time),
      ∃ t', fromISO8601 mktime (t.toISO8601 localtime false) = .read t' ∧ t'.sec = t.sec := by
  constructor
  · intro h
    obtain ⟨t, hread, -⟩ := h mktimegm ⟨⟨1581, 11, 31⟩, 23, 59, 59, [], .utc⟩
      ⟨by decide, by decide, by decide, by decide, by decide, trivial⟩
    have hrefused : fromISO8601 mktimegm
        (Notation8601.text ⟨⟨1581, 11, 31⟩, 23, 59, 59, [], .utc⟩) = .refused := by
      decide +kernel
    exact Parsed.noConfusion (hrefused.symm.trans hread)
  · intro h
    obtain ⟨t', hread, -⟩ := h mktimegm gmtime ⟨0, 0, by decide⟩
    have hrefused : fromISO8601 mktimegm (toISO8601 gmtime false ⟨0, 0, by decide⟩) = .refused := by
      decide +kernel
    exact Parsed.noConfusion (hrefused.symm.trans hread)

end Time

end Thunder.Core
