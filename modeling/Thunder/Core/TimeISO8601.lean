import Thunder.Core.Number
import Thunder.Core.Time
import Thunder.Library.Decimal

/-! `Time::FromISO8601` and `Time::ToISO8601`: the extended notation of ISO 8601.  A text ends where
it ends or at its first zero byte; what `mktime` makes of a local time is a parameter. -/

namespace Thunder.Core

open Calendar Decimal

/-- The byte that a pointer into a text is at. -/
def first (rest : Text) : UInt8 := rest.headD 0

def isSpace (c : UInt8) : Bool := c = 0x20 ∨ (0x09 ≤ c ∧ c ≤ 0x0D)

/-- `std::strtol` in decimals, which gives a `long`, as an `int`; and what is behind the number. -/
def strtol (text : Text) : Int × Text :=
  let trimmed := text.dropWhile isSpace
  let negative : Bool := first trimmed = 0x2D
  let digits := if first trimmed = 0x2D ∨ first trimmed = 0x2B then trimmed.drop 1 else trimmed
  if isDigit (first digits) then
    let number := read digits
    let long : Int :=
      if negative then max (-number.1) (-2 ^ 63) else min number.1 (2 ^ 63 - 1)
    (long.bmod (2 ^ 32), number.2)
  else (0, text)

namespace Time

theorem nsec_zero : 0 < 1000000000 := by decide

theorem nsec_lt {year : UInt16} {month day hour minute second : UInt8} {millisecond : UInt16}
    (h : isValidDateTime year month day hour minute second millisecond = true) :
    millisecond.toNat * 1000000 < 1000000000 := by
  simp only [isValidDateTime, decide_eq_true_eq] at h
  omega

/-- The constructor from a date, in local time or in UTC. -/
def ofDateTime (mktime : Tm → Int) (localTime : Bool) (year : UInt16)
    (month day hour minute second : UInt8) (millisecond : UInt16) : Time :=
  if h : isValidDateTime year month day hour minute second millisecond then
    let tm : Tm := ⟨second.toNat, minute.toNat, hour.toNat, day.toNat, month.toNat - 1,
      year.toNat - 1900⟩
    ⟨if localTime then mktime tm else mktimegm tm, millisecond.toNat * 1000000, nsec_lt h⟩
  else ⟨0, 0, nsec_zero⟩

/-- `Add`. -/
def add (t : Time) (timeInMilliseconds : UInt32) : Time :=
  ofTicks ((t.ticks + timeInMilliseconds.toNat * 1000) % 2 ^ 64)

/-- `Sub`. -/
def sub (t : Time) (timeInMilliseconds : UInt32) : Time :=
  ofTicks (((t.ticks : Int) - timeInMilliseconds.toNat * 1000) % 2 ^ 64).toNat

/-! ### `FromISO8601` -/

/-- How `FromISO8601` ends; or it reads behind the text. -/
inductive Parsed
  | refused
  | outside
  | read (t : Time)
  deriving DecidableEq

/-- The fraction of a second, as milliseconds, and what is behind it; nothing if that is behind the
end of the text. -/
def fraction (rest : Text) : Option (Nat × Text) :=
  if first rest = 0x2E then
    let miliseconds := NumberType.convert (2 ^ 32 - 1) (rest.drop 1)
    let length := (NumberType.text miliseconds).length
    if (rest.drop 1).length < length then none
    else some (miliseconds, (rest.drop 1).drop length)
  else some (0, rest)

/-- What is said about the time zone. -/
structure ZoneRead where
  offset : Int
  offsetNegative : Bool
  localTime : Bool

/-- Nothing more is expected than a blank or the end. -/
def endsText (rest : Text) : Bool := first rest = 0x20 ∨ first rest = 0

/-- The minutes of an offset, if there are any, and what is behind them. -/
def timezoneMin (rest : Text) : Option (Int × Text) :=
  if first rest = 0x3A then
    if 3 ≤ rest.length then some (strtol (rest.drop 1)) else none
  else some (0, rest)

/-- The time zone, if there is nothing else. -/
def zoneRead (rest : Text) : Option ZoneRead :=
  if endsText rest then some ⟨0, false, true⟩
  else if first rest = 0x2B ∨ first rest = 0x2D then
    if 3 ≤ rest.length then
      let timezoneHr := strtol (rest.drop 1)
      (timezoneMin timezoneHr.2).bind fun minutes =>
        if endsText minutes.2 ∧ -23 ≤ timezoneHr.1 ∧ timezoneHr.1 ≤ 23 ∧
            0 ≤ minutes.1 ∧ minutes.1 ≤ 59 then
          some ⟨timezoneHr.1 * 60 + minutes.1, first rest = 0x2D, false⟩
        else none
    else none
  else if first rest = 0x5A then some ⟨0, false, false⟩
  else none

/-- The time with its offset. -/
def shifted (t : Time) (zone : ZoneRead) : Time :=
  if zone.offset = 0 then t
  else
    let timeInMilliseconds : UInt32 := .ofNat (zone.offset * 60 * 1000 % 2 ^ 32).toNat
    if zone.offsetNegative then t.sub timeInMilliseconds else t.add timeInMilliseconds

def fromISO8601 (mktime : Tm → Int) (buffer : Text) : Parsed :=
  let year := strtol buffer
  let month := strtol (buffer.drop 5)
  let day := strtol (buffer.drop 8)
  let hours := strtol (buffer.drop 11)
  let minutes := strtol (buffer.drop 14)
  let seconds := strtol (buffer.drop 17)
  if 19 ≤ buffer.length ∧ isDigit (first buffer) ∧
      (1582 ≤ year.1 ∧ year.1 ≤ 9999 ∧ first year.2 = 0x2D) ∧
      (1 ≤ month.1 ∧ month.1 ≤ 12 ∧ first month.2 = 0x2D) ∧
      (1 ≤ day.1 ∧ day.1 ≤ 31 ∧ first day.2 = 0x54) ∧
      (0 ≤ hours.1 ∧ hours.1 ≤ 23 ∧ first hours.2 = 0x3A) ∧
      (0 ≤ minutes.1 ∧ minutes.1 ≤ 59 ∧ first minutes.2 = 0x3A) ∧
      0 ≤ seconds.1 ∧ seconds.1 ≤ 59 then
    match fraction seconds.2 with
    | none => .outside
    | some (miliseconds, rest) =>
      match zoneRead rest with
      | none => .refused
      | some zone =>
        .read (shifted (ofDateTime mktime zone.localTime (.ofNat year.1.toNat)
          (.ofNat month.1.toNat) (.ofNat day.1.toNat) (.ofNat hours.1.toNat)
          (.ofNat minutes.1.toNat) (.ofNat seconds.1.toNat) (.ofNat miliseconds)) zone)
  else .refused

/-! ### `ToISO8601` -/

/-- `%0*d` of `snprintf`. -/
def padded (width : Nat) (n : Int) : Text :=
  let digits := Nat.toDigits 10 n.natAbs
  if n < 0 then 0x2D :: pad (max (width - 1) digits.length) n.natAbs
  else pad (max width digits.length) n.natAbs

/-- The date and the time of a day in a notation of 31 characters at most. -/
def notation8601 (tm : Tm) (zone : Text) : Text :=
  (padded 4 ((tm.year + 1900).bmod (2 ^ 32)) ++ [0x2D] ++ padded 2 (((tm.mon : Int) + 1) % 256) ++
    [0x2D] ++ padded 2 (tm.mday % 256) ++ [0x54] ++ padded 2 (tm.hour % 256) ++ [0x3A] ++
    padded 2 (tm.min % 256) ++ [0x3A] ++ padded 2 (tm.sec % 256) ++ zone).take 31

def isValid (t : Time) : Bool := t.sec ≠ 0

def toISO8601 (localtime : Int → Tm) (localTime : Bool) (t : Time) : Text :=
  if t.isValid then
    if localTime then notation8601 (localtime t.sec) [] else notation8601 (gmtime t.sec) [0x5A]
  else []

end Time

end Thunder.Core
