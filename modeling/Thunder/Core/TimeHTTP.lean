import Thunder.Core.MessageStore
import Thunder.Core.TimeISO8601

/-! `Time::FromString` and `Time::ToRFC1123`: the dates of HTTP.  The scanners take the number of
bytes that they may look at as a `uint8_t`.  A place in a text is what is left of the text there. -/

namespace Thunder.Core

open Calendar Decimal

namespace Time

/-- `SkipLeadingSpaces`, with what is left of `maxLength`. -/
def skipLeadingSpaces : Nat → Text → Nat × Text
  | maxLength + 1, c :: rest =>
    if isSpace c then skipLeadingSpaces maxLength rest else (maxLength + 1, c :: rest)
  | maxLength, rest => (maxLength, rest)

def weekDayNames : List Text :=
  ["Sunday", "Monday", "Tuesday", "Wednesday", "Thursday", "Friday", "Saturday"].map text

def weekDayAbbreviations : List Text := ["Sun", "Mon", "Tue", "Wed", "Thu", "Fri", "Sat"].map text

def monthNames : List Text :=
  ["Jan", "Feb", "Mar", "Apr", "May", "Jun", "Jul", "Aug", "Sep", "Oct", "Nov", "Dec"].map text

/-- The number of a name in a table that begins with the number `start`; 255 for no name. -/
def numberOf (names : List Text) (start : Nat) (name : Text) : UInt8 :=
  if name ∈ names then .ofNat (start + names.idxOf name) else 0xFF

/-- `WeekFromName`; `strcmp` ends at a zero byte. -/
def weekFromName (entry : Text) : UInt8 := numberOf weekDayNames 0 (entry.takeWhile (· ≠ 0))

/-- `WeekFromAbbrevation`. -/
def weekFromAbbrevation (entry : Text) : UInt8 := numberOf weekDayAbbreviations 0 (entry.take 3)

/-- `WeekFromString`; it takes the position of the delimiter for the length of the name. -/
def weekFromString (buffer : Text) (delimeter : UInt8) (fromName : Bool) : UInt8 × Text :=
  let rest := (skipLeadingSpaces (buffer.length % 256) buffer).2
  let index := buffer.length - rest.length
  let weekDayName :=
    if delimeter ∈ rest then rest.take (index + rest.idxOf delimeter) else rest
  if weekDayName = [] then (0xFF, rest)
  else
    (if fromName then weekFromName weekDayName
      else if weekDayName.length = 3 then weekFromAbbrevation weekDayName
      else 0xFF,
      rest.drop (weekDayName.length + 1))

/-- `MonthFromString`. -/
def monthFromString (entry : Text) : UInt8 × Text :=
  let (maxLength, rest) := skipLeadingSpaces (entry.length % 256) entry
  if 3 < maxLength then (numberOf monthNames 1 (rest.take 3), rest.drop 3) else (0xFF, rest)

def digitAt (rest : Text) (index : Nat) : Bool := isDigit (first (rest.drop index))

def valueAt (rest : Text) (index : Nat) : Nat := (first (rest.drop index)).toNat - 0x30

/-- `YearFromString`: of four digits, or of two with a turn at 70. -/
def yearFromString (entry : Text) : UInt16 × Text :=
  let (maxLength, rest) := skipLeadingSpaces (entry.length % 256) entry
  if 1 < maxLength ∧ digitAt rest 0 ∧ digitAt rest 1 then
    if 3 < maxLength ∧ digitAt rest 2 ∧ digitAt rest 3 then
      (.ofNat (valueAt rest 0 * 1000 + valueAt rest 1 * 100 + valueAt rest 2 * 10 +
        valueAt rest 3), rest.drop 4)
    else
      let year := valueAt rest 0 * 10 + valueAt rest 1
      (.ofNat (if year < 70 then year + 2000 else year + 1900), rest.drop 2)
  else (0xFFFF, rest)

/-- A number of one digit, or of two if a digit follows; the first one is not looked at. -/
def shortNumber (rest : Text) : UInt8 × Text :=
  let value := first rest - 0x30
  if digitAt rest 1 then (value * 10 + (first (rest.drop 1) - 0x30), rest.drop 2)
  else (value, rest.drop 1)

/-- What `TimeFromString` finds, and where it stops. -/
structure Clock where
  hours : UInt8
  minutes : UInt8
  seconds : UInt8
  rest : Text
  deriving DecidableEq

/-- The seconds, behind their colon. -/
def secondsFrom (maxLength : Nat) (rest : Text) : UInt8 × Text :=
  if 1 < maxLength ∧ digitAt rest 1 then
    let seconds := first (rest.drop 1) - 0x30
    if 2 < maxLength ∧ digitAt rest 2 then
      (seconds * 10 + (first (rest.drop 2) - 0x30), rest.drop 3)
    else (seconds, rest.drop 2)
  else (0xFF, rest)

/-- `TimeFromString`. -/
def timeFromString (entry : Text) : Clock :=
  let (maxLength, start) := skipLeadingSpaces (entry.length % 256) entry
  if 5 ≤ maxLength ∧ digitAt start 0 then
    let (hours, rest) := shortNumber start
    if first rest = 0x3A ∧ digitAt rest 1 then
      let (minutes, rest) := shortNumber (rest.drop 1)
      if first rest = 0x3A then
        let (seconds, rest) := secondsFrom (maxLength - (start.length - rest.length)) rest
        ⟨hours, minutes, seconds, rest⟩
      else ⟨hours, minutes, 0xFF, rest⟩
    else ⟨hours, 0xFF, 0xFF, rest⟩
  else ⟨0xFF, 0xFF, 0xFF, start⟩

/-- Spaces at a place of a buffer are skipped. -/
def skipIn (buffer rest : Text) : Text :=
  (skipLeadingSpaces (buffer.length % 256 - (buffer.length - rest.length)) rest).2

/-- `FromANSI`. -/
def fromANSI (mktime : Tm → Int) (localTime : Bool) (buffer : Text) : Parsed :=
  let (wday, rest) := weekFromString buffer 0x20 false
  if wday ≠ 0xFF ∧ 3 < rest.length then
    let (month, rest) := monthFromString rest
    if month ≠ 0xFF then
      let rest := skipIn buffer rest
      if 7 < rest.length ∧ digitAt rest 0 then
        let (day, rest) := shortNumber rest
        let clock := timeFromString rest
        let (year, _) := yearFromString clock.rest
        if day ≠ 0 ∧ clock.seconds ≠ 0xFF ∧ year ≠ 0xFFFF then
          .read (ofDateTime mktime localTime year month day clock.hours clock.minutes
            clock.seconds 0)
        else .refused
      else .refused
    else .refused
  else .refused

/-- Neither GMT nor UTC is said. -/
def zoneIsLocal (rest : Text) : Bool :=
  if 2 < rest.length then rest.take 3 ≠ text "GMT" ∧ rest.take 3 ≠ text "UTC" else true

/-- How `FromRFC1123` and `FromRFC1036` go on behind the month; a year is compared with the 255 of
a `uint8_t`. -/
def fromYear (mktime : Tm → Int) (buffer : Text) (day month : UInt8) (rest : Text) : Parsed :=
  if 7 < rest.length then
    let (year, rest) := yearFromString rest
    let clock := timeFromString rest
    if day ≠ 0 ∧ clock.seconds ≠ 0xFF ∧ year ≠ 0xFF then
      .read (ofDateTime mktime (zoneIsLocal (skipIn buffer clock.rest)) year month day clock.hours
        clock.minutes clock.seconds 0)
    else .refused
  else .refused

/-- `FromRFC1123`. -/
def fromRFC1123 (mktime : Tm → Int) (buffer : Text) : Parsed :=
  let (wday, rest) := weekFromString buffer 0x2C false
  if wday ≠ 0xFF then
    let rest := skipIn buffer rest
    if 14 < rest.length then
      let (day, rest) := shortNumber rest
      if 11 < rest.length then
        let (month, rest) := monthFromString rest
        if month ≠ 0xFF then fromYear mktime buffer day month rest else .refused
      else .refused
    else .refused
  else .refused

/-- `FromRFC1036`. -/
def fromRFC1036 (mktime : Tm → Int) (buffer : Text) : Parsed :=
  let (wday, rest) := weekFromString buffer 0x2C true
  if wday ≠ 0xFF then
    let rest := skipIn buffer rest
    if 14 ≤ rest.length then
      let (day, rest) := shortNumber rest
      if first rest = 0x2D then
        let (month, rest) := monthFromString (rest.drop 1)
        if month ≠ 0xFF ∧ first rest = 0x2D then
          fromYear mktime buffer day month (rest.drop 1)
        else .refused
      else .refused
    else .refused
  else .refused

/-- The reader that `FromString` chooses. -/
def choose (mktime : Tm → Int) (localTime : Bool) (buffer : Text) : Parsed :=
  if 18 ≤ buffer.length then
    if first (buffer.drop 10) = 0x54 then fromISO8601 mktime buffer
    else if isSpace (first (buffer.drop 3)) then fromANSI mktime localTime buffer
    else if first (buffer.drop 3) = 0x2C then fromRFC1123 mktime buffer
    else fromRFC1036 mktime buffer
  else .refused

/-- `FromString`: the result, and the object afterwards; nothing if it reads behind the text. -/
def fromString (mktime : Tm → Int) (localTime : Bool) (buffer : Text) (object : Time) :
    Option (Bool × Time) :=
  match choose mktime localTime buffer with
  | .refused => some (false, object)
  | .outside => none
  | .read t => some (true, t)

/-! ### `ToRFC1123` -/

/-- `tm_wday`: the day of the week of the date. -/
def weekDay (tm : Tm) : Nat :=
  ((Date.days ⟨tm.year + 1900, tm.mon, tm.mday.toNat⟩ - epoch + 4) % 7).toNat

/-- `WeekDayName`. -/
def weekDayName (tm : Tm) : Text := weekDayAbbreviations.getD (weekDay tm) (text "???")

/-- `MonthName`. -/
def monthName (tm : Tm) : Text := monthNames.getD tm.mon (text "???")

/-- The notation, of 31 characters at most. -/
def notation1123 (tm : Tm) (zone : Text) : Text :=
  (weekDayName tm ++ [0x2C, 0x20] ++ padded 2 (tm.mday % 256) ++ [0x20] ++ monthName tm ++ [0x20] ++
    padded 4 ((tm.year + 1900).bmod (2 ^ 32)) ++ [0x20] ++ padded 2 (tm.hour % 256) ++ [0x3A] ++
    padded 2 (tm.min % 256) ++ [0x3A] ++ padded 2 (tm.sec % 256) ++ zone).take 31

def toRFC1123 (localtime : Int → Tm) (localTime : Bool) (t : Time) : Text :=
  if t.isValid then
    if localTime then notation1123 (localtime t.sec) []
    else notation1123 (gmtime t.sec) (text " GMT")
  else []

end Time

end Thunder.Core
