import Mathlib.Data.List.GetD
import Mathlib.Data.List.TakeWhile
import Thunder.Core.TimeHTTP
import Thunder.Core.TimeISO8601Text

/-! What `FromString` makes of the dates of HTTP: of those that are built from a time, and of any
text, which is read only if it has the names, a day and a time of a day in it. -/

namespace Thunder.Core

open Calendar Decimal

namespace Time

/-- Nothing but white space. -/
def Blank (blanks : Text) : Prop := ∀ c ∈ blanks, isSpace c = true

/-- A number of one digit, or of two with a zero in front. -/
def shortText (zero : Bool) (n : Nat) : Text := if zero ∨ 10 ≤ n then pad 2 n else [digit n]

/-! ### The scanners -/

section

variable {blanks rest : Text} {c : UInt8} {maxLength n : Nat} {zero : Bool}

theorem skipLeadingSpaces_blank (hblanks : Blank blanks) (hc : isSpace c = false)
    (hlength : blanks.length < maxLength) :
    skipLeadingSpaces maxLength (blanks ++ c :: rest) =
      (maxLength - blanks.length, c :: rest) := by
  induction blanks generalizing maxLength with
  | nil =>
    obtain ⟨m, rfl⟩ : ∃ m, maxLength = m + 1 := ⟨maxLength - 1, by simp at hlength; omega⟩
    rw [List.nil_append, skipLeadingSpaces, hc]
    rfl
  | cons b blanks ih =>
    obtain ⟨hb, hrest⟩ := List.forall_mem_cons.mp hblanks
    rw [List.length_cons] at hlength ⊢
    obtain ⟨m, rfl⟩ : ∃ m, maxLength = m + 1 := ⟨maxLength - 1, by omega⟩
    rw [List.cons_append, skipLeadingSpaces, hb, if_pos rfl, ih hrest (by omega),
      Nat.add_sub_add_right]

/-- In a text that is not too long the white space is skipped. -/
theorem skipLeadingSpaces_text (hblanks : Blank blanks) (hc : isSpace c = false)
    (hlength : (blanks ++ c :: rest).length < 256) :
    skipLeadingSpaces ((blanks ++ c :: rest).length % 256) (blanks ++ c :: rest) =
      ((c :: rest).length, c :: rest) := by
  rw [Nat.mod_eq_of_lt hlength, skipLeadingSpaces_blank hblanks hc (by simp), List.length_append,
    Nat.add_sub_cancel_left]

theorem isSpace_digit (n : Nat) : isSpace (digit n) = false := (digit_start (digit_spec n).1).1

theorem digitAt_digit (n : Nat) : digitAt (digit n :: rest) 0 = true := (digit_spec n).1

theorem valueAt_digit (n : Nat) : valueAt (digit n :: rest) 0 = n % 10 := (digit_spec n).2

theorem digitAt_succ (index : Nat) : digitAt (c :: rest) (index + 1) = digitAt rest index := rfl

theorem valueAt_succ (index : Nat) : valueAt (c :: rest) (index + 1) = valueAt rest index := rfl

/-- The byte of a digit, as a number. -/
theorem digit_value (n : Nat) : digit n - 0x30 = .ofNat (n % 10) := by
  have hall : ∀ d < 10, UInt8.ofNat (0x30 + d) - 0x30 = UInt8.ofNat d := by decide
  exact hall _ (Nat.mod_lt _ (by decide))

/-- Two digits make a number of a byte. -/
theorem two_digits (n : Nat) (h : n < 100) :
    UInt8.ofNat (n / 10 % 10) * 10 + UInt8.ofNat (n % 10) = UInt8.ofNat n := by
  have hall : ∀ n < 100, UInt8.ofNat (n / 10 % 10) * 10 + UInt8.ofNat (n % 10) = UInt8.ofNat n := by
    decide
  exact hall n h

theorem shortText_cases (zero : Bool) (hn : n < 100) :
    shortText zero n = [digit (n / 10), digit n] ∨ n < 10 ∧ shortText zero n = [digit n] := by
  rw [shortText]
  split_ifs with hzero
  · exact .inl rfl
  · exact .inr ⟨by omega, rfl⟩

theorem shortNumber_text (hn : n < 100) (hrest : digitAt rest 0 = false) :
    shortNumber (shortText zero n ++ rest) = (.ofNat n, rest) := by
  rcases shortText_cases zero hn with htext | ⟨hten, htext⟩
  · rw [htext, List.cons_append, List.singleton_append, shortNumber, digitAt_succ, digitAt_digit]
    simp only [if_true, first, List.headD_cons, List.drop_succ_cons, List.drop_zero, digit_value,
      two_digits n hn]
  · rw [htext, List.singleton_append, shortNumber, digitAt_succ, hrest]
    simp only [Bool.false_eq_true, if_false, first, List.headD_cons, List.drop_succ_cons,
      List.drop_zero, digit_value, Nat.mod_eq_of_lt hten]

theorem secondsFrom_text (hn : n < 100) (hrest : digitAt rest 0 = false)
    (hlength : (shortText zero n ++ rest).length < maxLength) :
    secondsFrom maxLength (0x3A :: (shortText zero n ++ rest)) = (.ofNat n, rest) := by
  rcases shortText_cases zero hn with htext | ⟨hten, htext⟩
  · rw [htext] at hlength ⊢
    simp only [List.cons_append, List.nil_append, List.length_cons] at hlength ⊢
    rw [secondsFrom, digitAt_succ, digitAt_digit, digitAt_succ, digitAt_succ, digitAt_digit,
      if_pos ⟨by omega, rfl⟩]
    dsimp only
    rw [if_pos ⟨by omega, rfl⟩]
    simp only [first, List.drop_succ_cons, List.drop_zero, List.headD_cons, digit_value,
      two_digits n hn]
  · rw [htext] at hlength ⊢
    simp only [List.cons_append, List.nil_append, List.length_cons] at hlength ⊢
    rw [secondsFrom, digitAt_succ, digitAt_digit, digitAt_succ, digitAt_succ, hrest,
      if_pos ⟨by omega, rfl⟩]
    simp only [Bool.false_eq_true, and_false, if_false, first, List.drop_succ_cons, List.drop_zero,
      List.headD_cons, digit_value, Nat.mod_eq_of_lt hten]

/-- A time of a day. -/
def clockText (hourZero minuteZero secondZero : Bool) (hour minute second : Nat) : Text :=
  shortText hourZero hour ++ 0x3A :: (shortText minuteZero minute ++
    0x3A :: shortText secondZero second)

theorem shortText_head (zero : Bool) (hn : n < 100) :
    ∃ m digits, shortText zero n = digit m :: digits ∧ digits.length ≤ 1 := by
  rcases shortText_cases zero hn with htext | ⟨-, htext⟩
  · exact ⟨_, _, htext, le_rfl⟩
  · exact ⟨_, _, htext, Nat.zero_le _⟩

theorem timeFromString_text (hblanks : Blank blanks) {hour minute second : Nat}
    (hourZero minuteZero secondZero : Bool) (hhour : hour < 100) (hminute : minute < 100)
    (hsecond : second < 100) (hrest : digitAt rest 0 = false)
    (hlength : (blanks ++ (clockText hourZero minuteZero secondZero hour minute second ++
      rest)).length < 256) :
    timeFromString (blanks ++ (clockText hourZero minuteZero secondZero hour minute second ++
      rest)) = ⟨.ofNat hour, .ofNat minute, .ofNat second, rest⟩ := by
  have hcolon : ∀ tail : Text, digitAt (0x3A :: tail) 0 = false := fun _ => rfl
  obtain ⟨h, hours, htext, hh⟩ := shortText_head hourZero hhour
  obtain ⟨m, minutes, htext', hm⟩ := shortText_head minuteZero hminute
  obtain ⟨s, seconds, htext'', hs⟩ := shortText_head secondZero hsecond
  have hclock : clockText hourZero minuteZero secondZero hour minute second ++ rest =
      shortText hourZero hour ++ (0x3A :: (shortText minuteZero minute ++
        (0x3A :: (shortText secondZero second ++ rest)))) := by
    simp [clockText]
  rw [hclock] at hlength ⊢
  rw [htext, List.cons_append] at hlength
  have hskip := skipLeadingSpaces_text hblanks (isSpace_digit h) hlength
  have hminutes : digitAt (0x3A :: (shortText minuteZero minute ++
      (0x3A :: (shortText secondZero second ++ rest)))) 1 = true := by
    rw [htext']
    exact digitAt_digit m
  have hfive : 5 ≤ (digit h :: (hours ++ (0x3A :: (shortText minuteZero minute ++
      (0x3A :: (shortText secondZero second ++ rest)))))).length := by
    rw [htext', htext'']
    simp only [List.length_cons, List.length_append]
    omega
  rw [timeFromString]
  rw [← List.cons_append, ← htext] at hskip hfive
  rw [hskip]
  dsimp only
  rw [if_pos ⟨hfive, by rw [htext]; exact digitAt_digit h⟩, shortNumber_text hhour (hcolon _)]
  dsimp only
  rw [if_pos ⟨rfl, hminutes⟩, List.drop_succ_cons, List.drop_zero,
    shortNumber_text hminute (hcolon _)]
  dsimp only
  have hcolon' : first (0x3A :: (shortText secondZero second ++ rest)) = 0x3A := rfl
  rw [if_pos hcolon', secondsFrom_text hsecond hrest]
  simp only [List.length_append, List.length_cons]
  omega

theorem yearFromString_four (hblanks : Blank blanks) {year : Nat} (hyear : year < 10000)
    (hlength : (blanks ++ (pad 4 year ++ rest)).length < 256) :
    yearFromString (blanks ++ (pad 4 year ++ rest)) = (.ofNat year, rest) := by
  have hpad : pad 4 year ++ rest = digit (year / 10 / 10 / 10) :: digit (year / 10 / 10) ::
      digit (year / 10) :: digit year :: rest := by
    simp [pad]
  rw [hpad] at hlength ⊢
  rw [yearFromString, skipLeadingSpaces_text hblanks (isSpace_digit _) hlength]
  simp only [List.length_cons, digitAt_succ, digitAt_digit, valueAt_succ, valueAt_digit, and_true,
    List.drop_succ_cons, List.drop_zero]
  rw [if_pos (by omega), if_pos (by omega), Prod.mk.injEq]
  refine ⟨congrArg UInt16.ofNat ?_, rfl⟩
  omega

/-- The year that two digits stand for. -/
def turned (year : Nat) : Nat := if year < 70 then year + 2000 else year + 1900

theorem yearFromString_two (hblanks : Blank blanks) {year : Nat} (hyear : year < 100)
    (hrest : digitAt rest 0 = false) (hlength : (blanks ++ (pad 2 year ++ rest)).length < 256) :
    yearFromString (blanks ++ (pad 2 year ++ rest)) = (.ofNat (turned year), rest) := by
  have hpad : pad 2 year ++ rest = digit (year / 10) :: digit year :: rest := by
    simp [pad]
  have hvalue : year / 10 % 10 * 10 + year % 10 = year := by omega
  rw [hpad] at hlength ⊢
  rw [yearFromString, skipLeadingSpaces_text hblanks (isSpace_digit _) hlength]
  simp only [List.length_cons, digitAt_succ, digitAt_digit, valueAt_succ, valueAt_digit, hrest,
    Bool.false_eq_true, false_and, and_false, if_false, and_true, hvalue, List.drop_succ_cons,
    List.drop_zero]
  rw [if_pos (by omega), turned]

/-- The names of the months have three letters, of which none begins white space or is a `T`. -/
theorem monthNames_spec : ∀ name ∈ monthNames, ∃ a b c, name = [a, b, c] ∧ isSpace a = false ∧
    a ≠ 0x54 ∧ c ≠ 0x54 := by
  intro name hname
  simp only [monthNames, text, List.map_cons, List.map_nil, List.mem_cons, List.not_mem_nil,
    or_false] at hname
  rcases hname with rfl | rfl | rfl | rfl | rfl | rfl | rfl | rfl | rfl | rfl | rfl | rfl <;>
    exact ⟨_, _, _, rfl, by decide, by decide, by decide⟩

theorem monthFromString_text (hblanks : Blank blanks) {name : Text} (hname : name ∈ monthNames)
    (hrest : rest ≠ []) (hlength : (blanks ++ (name ++ rest)).length < 256) :
    monthFromString (blanks ++ (name ++ rest)) =
      (.ofNat (1 + monthNames.idxOf name), rest) := by
  obtain ⟨a, b, c, hletters, hspace, -⟩ := monthNames_spec name hname
  have hpos := List.length_pos_of_ne_nil hrest
  rw [hletters, List.cons_append] at hlength
  have hnumber : numberOf monthNames 1 [a, b, c] = .ofNat (1 + monthNames.idxOf [a, b, c]) := by
    rw [numberOf, if_pos (hletters ▸ hname)]
  rw [monthFromString, hletters, List.cons_append,
    skipLeadingSpaces_text hblanks hspace hlength]
  simp only [List.cons_append, List.nil_append, List.length_cons, List.take_succ_cons,
    List.take_zero, List.drop_succ_cons, List.drop_zero, hnumber]
  rw [if_pos (by omega)]

/-- The names of the days of the week begin with no white space, and have no comma, no blank and no
zero. -/
theorem weekDays_spec : ∀ names ∈ [weekDayNames, weekDayAbbreviations], ∀ name ∈ names,
    ∃ a letters, name = a :: letters ∧ isSpace a = false ∧ 0x2C ∉ name ∧ 0x20 ∉ name ∧
      0 ∉ name := by
  intro names hnames name hname
  simp only [List.mem_cons, List.not_mem_nil, or_false] at hnames
  rcases hnames with rfl | rfl <;>
    simp only [weekDayNames, weekDayAbbreviations, text, List.map_cons, List.map_nil, List.mem_cons,
      List.not_mem_nil, or_false] at hname <;>
    rcases hname with rfl | rfl | rfl | rfl | rfl | rfl | rfl <;>
    exact ⟨_, _, rfl, by decide, by decide, by decide, by decide⟩

theorem ofNat_ne_last (hn : n < 255) : UInt8.ofNat n ≠ 0xFF := by
  intro h
  have hnat := congrArg UInt8.toNat h
  have hlast : (0xFF : UInt8).toNat = 255 := rfl
  rw [UInt8.toNat_ofNat', Nat.mod_eq_of_lt (by omega)] at hnat
  omega

theorem numberOf_ne {names : List Text} {start : Nat} {name : Text} (hname : name ∈ names)
    (hlength : start + names.length ≤ 255) : numberOf names start name ≠ 0xFF := by
  have hlt := List.idxOf_lt_length_of_mem hname
  rw [numberOf, if_pos hname]
  exact ofNat_ne_last (by omega)

theorem weekFromString_text (delimeter : UInt8) (fromName : Bool)
    (hdelimeter : delimeter = 0x2C ∨ delimeter = 0x20) {name : Text}
    (hname : name ∈ if fromName then weekDayNames else weekDayAbbreviations) {buffer : Text}
    (hbuffer : buffer = name ++ delimeter :: rest) (hlength : buffer.length < 256) :
    ∃ wday, wday ≠ 0xFF ∧ weekFromString buffer delimeter fromName = (wday, rest) := by
  have hnames : (if fromName then weekDayNames else weekDayAbbreviations) ∈
      [weekDayNames, weekDayAbbreviations] := by
    cases fromName <;> simp
  obtain ⟨a, letters, hletters, hspace, hcomma, hblank, hzero⟩ :=
    weekDays_spec _ hnames name hname
  have hmem : delimeter ∉ name := by
    rcases hdelimeter with rfl | rfl
    · exact hcomma
    · exact hblank
  have hskip : skipLeadingSpaces (buffer.length % 256) buffer = (buffer.length, buffer) := by
    have hnone : Blank [] := fun _ h => absurd h List.not_mem_nil
    rw [hbuffer, hletters] at hlength ⊢
    exact skipLeadingSpaces_text hnone hspace hlength
  have hindex : buffer.idxOf delimeter = name.length := by
    rw [hbuffer, List.idxOf_append_of_notMem hmem, List.idxOf_cons_self, Nat.add_zero]
  have hfound : delimeter ∈ buffer := by simp [hbuffer]
  have htake : buffer.take name.length = name := by rw [hbuffer, List.take_left]
  have hdrop : buffer.drop (name.length + 1) = rest := by
    rw [hbuffer, ← List.drop_drop, List.drop_left, List.drop_succ_cons, List.drop_zero]
  have hne : name ≠ [] := by
    rw [hletters]
    exact List.cons_ne_nil _ _
  have hcstring : name.takeWhile (· ≠ 0) = name := by
    apply List.takeWhile_eq_self_iff.mpr
    intro b hb
    have hne : b ≠ 0 := fun h => hzero (h ▸ hb)
    simpa using hne
  have hthree : fromName = false → name.length = 3 := by
    intro hfalse
    rw [hfalse, if_neg Bool.false_ne_true] at hname
    have hall : ∀ name ∈ weekDayAbbreviations, name.length = 3 := by decide
    exact hall name hname
  rw [weekFromString, hskip]
  dsimp only
  rw [if_pos hfound, Nat.sub_self, Nat.zero_add, hindex, htake, if_neg hne, hdrop]
  refine ⟨_, ?_, rfl⟩
  cases fromName
  · rw [if_neg Bool.false_ne_true, if_pos (hthree rfl), weekFromAbbrevation,
      List.take_of_length_le (hthree rfl).le]
    exact numberOf_ne hname (by decide)
  · rw [if_pos rfl, weekFromName, hcstring]
    exact numberOf_ne hname (by decide)

/-- White space at a place in a text that is not too long is skipped. -/
theorem skipIn_text {buffer : Text} (hbuffer : buffer.length < 256) (hblanks : Blank blanks)
    (hc : isSpace c = false) (hlength : (blanks ++ c :: rest).length ≤ buffer.length) :
    skipIn buffer (blanks ++ c :: rest) = c :: rest := by
  have hroom : buffer.length % 256 - (buffer.length - (blanks ++ c :: rest).length) =
      (blanks ++ c :: rest).length := by
    rw [Nat.mod_eq_of_lt hbuffer]
    omega
  rw [skipIn, hroom, skipLeadingSpaces_blank hblanks hc (by simp)]

theorem skipIn_short {buffer : Text} (hbuffer : buffer.length < 256) (hblanks : Blank blanks)
    (zero : Bool) (hn : n < 100)
    (hlength : (blanks ++ (shortText zero n ++ rest)).length ≤ buffer.length) :
    skipIn buffer (blanks ++ (shortText zero n ++ rest)) = shortText zero n ++ rest := by
  obtain ⟨m, digits, htext, -⟩ := shortText_head zero hn
  rw [htext] at hlength ⊢
  exact skipIn_text hbuffer hblanks (isSpace_digit m) hlength

theorem skipIn_nil (buffer : Text) : skipIn buffer [] = [] := by
  rw [skipIn]
  cases buffer.length % 256 - (buffer.length - ([] : Text).length) <;> rfl

theorem blank_one : Blank [0x20] := by
  intro c hc
  rw [List.mem_singleton.mp hc]
  rfl

/-- What may stand behind a date: nothing, for local time, or one of two zones. -/
def IsZone (zone : Text) : Prop := zone = [] ∨ zone = text " GMT" ∨ zone = text " UTC"

theorem IsZone.digitAt {zone : Text} (h : IsZone zone) : digitAt zone 0 = false := by
  rcases h with rfl | rfl | rfl <;> rfl

theorem IsZone.length_le {zone : Text} (h : IsZone zone) : zone.length ≤ 4 := by
  rcases h with rfl | rfl | rfl <;> decide

theorem zoneIsLocal_text {buffer zone : Text} (hbuffer : buffer.length < 256)
    (hlength : zone.length ≤ buffer.length) (hzone : IsZone zone) :
    zoneIsLocal (skipIn buffer zone) = decide (zone = []) := by
  rcases hzone with rfl | rfl | rfl
  · rw [skipIn_nil]
    rfl
  · have hskip : skipIn buffer ([0x20] ++ 0x47 :: text "MT") = 0x47 :: text "MT" :=
      skipIn_text hbuffer blank_one (by decide) hlength
    change zoneIsLocal (skipIn buffer ([0x20] ++ 0x47 :: text "MT")) = _
    rw [hskip]
    decide
  · have hskip : skipIn buffer ([0x20] ++ 0x55 :: text "TC") = 0x55 :: text "TC" :=
      skipIn_text hbuffer blank_one (by decide) hlength
    change zoneIsLocal (skipIn buffer ([0x20] ++ 0x55 :: text "TC")) = _
    rw [hskip]
    decide

theorem length_shortText (zero : Bool) (hn : n < 100) :
    1 ≤ (shortText zero n).length ∧ (shortText zero n).length ≤ 2 := by
  obtain ⟨m, digits, htext, hle⟩ := shortText_head zero hn
  rw [htext, List.length_cons]
  omega

end

/-! ### The dates -/

/-- A date with a day of the week, and a time of the day. -/
structure HTTPDate where
  weekDay : Nat
  date : Date
  hour : Nat
  minute : Nat
  second : Nat

/-- Which numbers of one digit have a zero in front. -/
structure Zeros where
  day : Bool
  hour : Bool
  minute : Bool
  second : Bool

namespace HTTPDate

structure Valid (d : HTTPDate) : Prop where
  weekDay : d.weekDay < 7
  date : d.date.Valid
  hour : d.hour < 24
  minute : d.minute < 60
  second : d.second < 60

def clock (zeros : Zeros) (d : HTTPDate) : Text :=
  clockText zeros.hour zeros.minute zeros.second d.hour d.minute d.second

def month (d : HTTPDate) : Text := monthNames.getD d.date.month []

/-- `Sun, 06 Nov 1994 08:49:37 GMT`. -/
def rfc1123 (zeros : Zeros) (zone : Text) (d : HTTPDate) : Text :=
  weekDayAbbreviations.getD d.weekDay [] ++ 0x2C :: 0x20 :: (shortText zeros.day d.date.day ++
    0x20 :: (d.month ++ 0x20 :: (pad 4 d.date.year.toNat ++ 0x20 :: (d.clock zeros ++ zone))))

/-- `Sunday, 06-Nov-94 08:49:37 GMT`. -/
def rfc1036 (zeros : Zeros) (zone : Text) (d : HTTPDate) : Text :=
  weekDayNames.getD d.weekDay [] ++ 0x2C :: 0x20 :: (shortText zeros.day d.date.day ++
    0x2D :: (d.month ++ 0x2D :: (pad 2 (d.date.year.toNat % 100) ++
      0x20 :: (d.clock zeros ++ zone))))

/-- `Sun Nov  6 08:49:37 1994`; another blank may be in front of the day. -/
def ansi (zeros : Zeros) (blank : Bool) (d : HTTPDate) : Text :=
  weekDayAbbreviations.getD d.weekDay [] ++ 0x20 :: (d.month ++ 0x20 ::
    ((if blank then [0x20] else []) ++ (shortText zeros.day d.date.day ++
      0x20 :: (d.clock zeros ++ 0x20 :: pad 4 d.date.year.toNat))))

/-- The time that is made of the date, in local time or in UTC. -/
def read (mktime : Tm → Int) (localTime : Bool) (year : Nat) (d : HTTPDate) : Parsed :=
  .read (ofDateTime mktime localTime (.ofNat year) (.ofNat (1 + d.date.month)) (.ofNat d.date.day)
    (.ofNat d.hour) (.ofNat d.minute) (.ofNat d.second) 0)

section

variable {d : HTTPDate} {zone : Text}

theorem Valid.day_lt (h : d.Valid) : 0 < d.date.day ∧ d.date.day < 100 := by
  have hle := Nat.le_trans h.date.2.2 (monthLength_le _ _)
  have hpos := h.date.2.1
  omega

theorem Valid.month_mem (h : d.Valid) : d.month ∈ monthNames := by
  have hlt : d.date.month < monthNames.length := h.date.1
  rw [month, List.getD_eq_getElem _ _ hlt]
  exact List.getElem_mem hlt

theorem Valid.idxOf_month (h : d.Valid) : monthNames.idxOf d.month = d.date.month := by
  have hall : ∀ m < 12, monthNames.idxOf (monthNames.getD m []) = m := by decide +kernel
  exact hall _ h.date.1

theorem Valid.weekDay_mem (h : d.Valid) {names : List Text} (hlength : names.length = 7) :
    names.getD d.weekDay [] ∈ names := by
  have hlt : d.weekDay < names.length := by
    rw [hlength]
    exact h.weekDay
  rw [List.getD_eq_getElem _ _ hlt]
  exact List.getElem_mem hlt

theorem Valid.day_ne (h : d.Valid) : UInt8.ofNat d.date.day ≠ 0 := by
  intro hzero
  have hnat := congrArg UInt8.toNat hzero
  rw [UInt8.toNat_ofNat', Nat.mod_eq_of_lt (by have := h.day_lt; omega)] at hnat
  exact h.day_lt.1.ne' hnat

theorem Valid.month_ne (h : d.Valid) : UInt8.ofNat (1 + monthNames.idxOf d.month) ≠ 0xFF := by
  have hlt := h.date.1
  rw [h.idxOf_month]
  exact ofNat_ne_last (by omega)

theorem Valid.second_ne (h : d.Valid) : UInt8.ofNat d.second ≠ 0xFF := by
  have hlt := h.second
  exact ofNat_ne_last (by omega)

/-- The time of a day is read behind a blank. -/
theorem Valid.clock_read (h : d.Valid) (zeros : Zeros) {rest : Text}
    (hrest : digitAt rest 0 = false) (hlength : (0x20 :: (d.clock zeros ++ rest)).length < 256) :
    timeFromString (0x20 :: (d.clock zeros ++ rest)) =
      ⟨.ofNat d.hour, .ofNat d.minute, .ofNat d.second, rest⟩ :=
  timeFromString_text blank_one _ _ _ (by have := h.hour; omega) (by have := h.minute; omega)
    (by have := h.second; omega) hrest hlength

theorem Valid.clock_length (h : d.Valid) (zeros : Zeros) :
    5 ≤ (d.clock zeros).length ∧ (d.clock zeros).length ≤ 8 := by
  have hhour := length_shortText zeros.hour (show d.hour < 100 by have := h.hour; omega)
  have hminute := length_shortText zeros.minute (show d.minute < 100 by have := h.minute; omega)
  have hsecond := length_shortText zeros.second (show d.second < 100 by have := h.second; omega)
  rw [clock, clockText]
  simp only [List.length_append, List.length_cons]
  omega

/-- The year, the time of the day and the zone are read behind the month. -/
theorem Valid.fromYear_read (h : d.Valid) (mktime : Tm → Int) (zeros : Zeros) (hzone : IsZone zone)
    {buffer entry : Text} (hbuffer : buffer.length < 256) (hentry : entry.length ≤ buffer.length)
    {year : Nat} (hyear : yearFromString entry = (.ofNat year, 0x20 :: (d.clock zeros ++ zone)))
    (hlong : (0x20 :: (d.clock zeros ++ zone)).length + 2 ≤ entry.length)
    (hne : UInt16.ofNat year ≠ 0xFF) :
    fromYear mktime buffer (.ofNat d.date.day) (.ofNat (1 + d.date.month)) entry =
      d.read mktime (decide (zone = [])) year := by
  have hclock := h.clock_length zeros
  have hlength : (0x20 :: (d.clock zeros ++ zone)).length =
      (d.clock zeros).length + zone.length + 1 := by
    rw [List.length_cons, List.length_append]
  rw [fromYear, if_pos (by omega), hyear]
  dsimp only
  rw [h.clock_read zeros hzone.digitAt (by omega)]
  dsimp only
  rw [if_pos ⟨h.day_ne, h.second_ne, hne⟩, zoneIsLocal_text hbuffer (by omega) hzone, read]

/-- The numbers of letters and digits. -/
theorem Valid.lengths (h : d.Valid) (zeros : Zeros) :
    (weekDayAbbreviations.getD d.weekDay []).length = 3 ∧
      6 ≤ (weekDayNames.getD d.weekDay []).length ∧ (weekDayNames.getD d.weekDay []).length ≤ 9 ∧
      d.month.length = 3 ∧ 1 ≤ (shortText zeros.day d.date.day).length ∧
      (shortText zeros.day d.date.day).length ≤ 2 := by
  have hshort : ∀ name ∈ weekDayAbbreviations, name.length = 3 := by decide
  have hlong : ∀ name ∈ weekDayNames, 6 ≤ name.length ∧ name.length ≤ 9 := by decide
  have hmonth : ∀ name ∈ monthNames, name.length = 3 := by decide
  obtain ⟨hsix, hnine⟩ := hlong _ (h.weekDay_mem rfl)
  exact ⟨hshort _ (h.weekDay_mem rfl), hsix, hnine, hmonth _ h.month_mem,
    length_shortText zeros.day h.day_lt.2⟩

theorem Valid.fromRFC1123_read (h : d.Valid) (mktime : Tm → Int) (zeros : Zeros)
    (hzone : IsZone zone) (hyear : d.date.year.toNat < 10000)
    (hne : UInt16.ofNat d.date.year.toNat ≠ 0xFF) :
    fromRFC1123 mktime (d.rfc1123 zeros zone) =
      d.read mktime (decide (zone = [])) d.date.year.toNat := by
  obtain ⟨hweek, -, -, hmonth, hday, hday'⟩ := h.lengths zeros
  obtain ⟨hclock, hclock'⟩ := h.clock_length zeros
  have hzone' := hzone.length_le
  have hpad := length_pad 4 d.date.year.toNat
  have hlength : (d.rfc1123 zeros zone).length = 15 + (shortText zeros.day d.date.day).length +
      (d.clock zeros).length + zone.length := by
    simp only [rfc1123, List.length_append, List.length_cons, hweek, hmonth, hpad]
    omega
  have hshort : (d.rfc1123 zeros zone).length < 256 := by omega
  have hmem : weekDayAbbreviations.getD d.weekDay [] ∈ weekDayAbbreviations := h.weekDay_mem rfl
  obtain ⟨wday, hwday, hread⟩ := weekFromString_text 0x2C false (.inl rfl) hmem
    (show d.rfc1123 zeros zone = _ from rfl) hshort
  let afterMonth := 0x20 :: (pad 4 d.date.year.toNat ++ 0x20 :: (d.clock zeros ++ zone))
  have hafterMonth : afterMonth.length = 6 + (d.clock zeros).length + zone.length := by
    simp only [afterMonth, List.length_append, List.length_cons, hpad]
    omega
  have hskip : skipIn (d.rfc1123 zeros zone)
      (0x20 :: (shortText zeros.day d.date.day ++ 0x20 :: (d.month ++ afterMonth))) =
        shortText zeros.day d.date.day ++ 0x20 :: (d.month ++ afterMonth) := by
    apply skipIn_short hshort blank_one zeros.day h.day_lt.2
    simp only [List.length_append, List.length_cons, List.length_nil, hmonth, hlength]
    omega
  have hmonthRead : monthFromString (0x20 :: (d.month ++ afterMonth)) =
      (.ofNat (1 + monthNames.idxOf d.month), afterMonth) := by
    apply monthFromString_text blank_one h.month_mem (List.cons_ne_nil _ _)
    simp only [List.length_append, List.length_cons, List.length_nil, hmonth]
    omega
  have hyearRead : yearFromString afterMonth =
      (.ofNat d.date.year.toNat, 0x20 :: (d.clock zeros ++ zone)) :=
    yearFromString_four blank_one hyear (show afterMonth.length < 256 by omega)
  rw [fromRFC1123, hread]
  dsimp only
  have hrest : 14 < (shortText zeros.day d.date.day ++ 0x20 :: (d.month ++ afterMonth)).length := by
    simp only [List.length_append, List.length_cons, hmonth, hafterMonth]
    omega
  have hrest' : 11 < (0x20 :: (d.month ++ afterMonth)).length := by
    simp only [List.length_append, List.length_cons, hmonth, hafterMonth]
    omega
  rw [if_pos hwday, hskip, if_pos hrest, shortNumber_text h.day_lt.2 rfl]
  dsimp only
  rw [if_pos hrest', hmonthRead]
  dsimp only
  rw [if_pos h.month_ne, h.idxOf_month]
  apply h.fromYear_read mktime zeros hzone hshort (by omega) hyearRead ?_ hne
  rw [hafterMonth, List.length_cons, List.length_append]
  omega

theorem Valid.fromRFC1036_read (h : d.Valid) (mktime : Tm → Int) (zeros : Zeros)
    (hzone : IsZone zone) :
    fromRFC1036 mktime (d.rfc1036 zeros zone) =
      d.read mktime (decide (zone = [])) (turned (d.date.year.toNat % 100)) := by
  obtain ⟨-, hweek, hweek', hmonth, hday, hday'⟩ := h.lengths zeros
  obtain ⟨hclock, hclock'⟩ := h.clock_length zeros
  have hzone' := hzone.length_le
  have hpad := length_pad 2 (d.date.year.toNat % 100)
  have hlength : (d.rfc1036 zeros zone).length = (weekDayNames.getD d.weekDay []).length + 10 +
      (shortText zeros.day d.date.day).length + (d.clock zeros).length + zone.length := by
    simp only [rfc1036, List.length_append, List.length_cons, hmonth, hpad]
    omega
  have hshort : (d.rfc1036 zeros zone).length < 256 := by omega
  have hmem : weekDayNames.getD d.weekDay [] ∈ weekDayNames := h.weekDay_mem rfl
  obtain ⟨wday, hwday, hread⟩ := weekFromString_text 0x2C true (.inl rfl) hmem
    (show d.rfc1036 zeros zone = _ from rfl) hshort
  let afterMonth := pad 2 (d.date.year.toNat % 100) ++ 0x20 :: (d.clock zeros ++ zone)
  have hafterMonth : afterMonth.length = 3 + (d.clock zeros).length + zone.length := by
    simp only [afterMonth, List.length_append, List.length_cons, hpad]
    omega
  have hskip : skipIn (d.rfc1036 zeros zone)
      (0x20 :: (shortText zeros.day d.date.day ++ 0x2D :: (d.month ++ 0x2D :: afterMonth))) =
        shortText zeros.day d.date.day ++ 0x2D :: (d.month ++ 0x2D :: afterMonth) := by
    apply skipIn_short hshort blank_one zeros.day h.day_lt.2
    simp only [List.length_append, List.length_cons, List.length_nil, hmonth, hlength]
    omega
  have hnone : Blank [] := fun _ h => absurd h List.not_mem_nil
  have hmonthRead : monthFromString (d.month ++ 0x2D :: afterMonth) =
      (.ofNat (1 + monthNames.idxOf d.month), 0x2D :: afterMonth) := by
    apply monthFromString_text hnone h.month_mem (List.cons_ne_nil _ _)
    simp only [List.nil_append, List.length_append, List.length_cons, hmonth]
    omega
  have hyearRead : yearFromString afterMonth =
      (.ofNat (turned (d.date.year.toNat % 100)), 0x20 :: (d.clock zeros ++ zone)) :=
    yearFromString_two hnone (Nat.mod_lt _ (by decide)) rfl (show afterMonth.length < 256 by omega)
  have hne : UInt16.ofNat (turned (d.date.year.toNat % 100)) ≠ 0xFF := by
    have hall : ∀ year < 100, UInt16.ofNat (turned year) ≠ 0xFF := by decide
    exact hall _ (Nat.mod_lt _ (by decide))
  have hrest : 14 ≤ (shortText zeros.day d.date.day ++
      0x2D :: (d.month ++ 0x2D :: afterMonth)).length := by
    simp only [List.length_append, List.length_cons, hmonth, hafterMonth]
    omega
  have hminus : ∀ rest : Text, first (0x2D :: rest) = 0x2D := fun _ => rfl
  rw [fromRFC1036, hread]
  dsimp only
  rw [if_pos hwday, hskip, if_pos hrest, shortNumber_text h.day_lt.2 rfl]
  dsimp only
  rw [if_pos (hminus _), List.drop_succ_cons, List.drop_zero, hmonthRead]
  dsimp only
  rw [if_pos ⟨h.month_ne, hminus _⟩, h.idxOf_month, List.drop_succ_cons, List.drop_zero]
  apply h.fromYear_read mktime zeros hzone hshort (by omega) hyearRead ?_ hne
  rw [hafterMonth, List.length_cons, List.length_append]
  omega

theorem Valid.fromANSI_read (h : d.Valid) (mktime : Tm → Int) (localTime : Bool) (zeros : Zeros)
    (blank : Bool) (hyear : d.date.year.toNat < 10000) :
    fromANSI mktime localTime (d.ansi zeros blank) =
      d.read mktime localTime d.date.year.toNat := by
  obtain ⟨hweek, -, -, hmonth, hday, hday'⟩ := h.lengths zeros
  obtain ⟨hclock, hclock'⟩ := h.clock_length zeros
  have hpad := length_pad 4 d.date.year.toNat
  obtain ⟨lead, hlead, hlead', hblanks⟩ : ∃ lead : Text, (if blank then [0x20] else []) = lead ∧
      lead.length ≤ 1 ∧ Blank (0x20 :: lead) := by
    refine ⟨_, rfl, ?_, ?_⟩
    · cases blank <;> decide
    · cases blank <;> unfold Blank <;> decide +kernel
  let afterDay := 0x20 :: (d.clock zeros ++ 0x20 :: pad 4 d.date.year.toNat)
  have hafterDay : afterDay.length = 6 + (d.clock zeros).length := by
    simp only [afterDay, List.length_append, List.length_cons, hpad]
    omega
  let afterMonth := (0x20 :: lead) ++ (shortText zeros.day d.date.day ++ afterDay)
  have hafterMonth : afterMonth.length =
      1 + lead.length + (shortText zeros.day d.date.day).length + afterDay.length := by
    simp only [afterMonth, List.length_append, List.length_cons]
    omega
  have htext : d.ansi zeros blank =
      weekDayAbbreviations.getD d.weekDay [] ++ 0x20 :: (d.month ++ afterMonth) := by
    rw [ansi, hlead]
    rfl
  have hlength : (d.ansi zeros blank).length = 7 + afterMonth.length := by
    rw [htext, List.length_append, List.length_cons, List.length_append, hweek, hmonth]
    omega
  have hshort : (d.ansi zeros blank).length < 256 := by omega
  have hmem : weekDayAbbreviations.getD d.weekDay [] ∈ weekDayAbbreviations := h.weekDay_mem rfl
  obtain ⟨wday, hwday, hread⟩ := weekFromString_text 0x20 false (.inr rfl) hmem htext hshort
  have hnone : Blank [] := fun _ h => absurd h List.not_mem_nil
  have hmonthRead : monthFromString (d.month ++ afterMonth) =
      (.ofNat (1 + monthNames.idxOf d.month), afterMonth) := by
    apply monthFromString_text hnone h.month_mem (List.cons_ne_nil _ _)
    change (d.month ++ afterMonth).length < 256
    rw [List.length_append, hmonth]
    omega
  have hskip : skipIn (d.ansi zeros blank) afterMonth =
      shortText zeros.day d.date.day ++ afterDay := by
    apply skipIn_short hshort hblanks zeros.day h.day_lt.2
    change afterMonth.length ≤ _
    omega
  have hclockRead : timeFromString afterDay = ⟨.ofNat d.hour, .ofNat d.minute, .ofNat d.second,
      0x20 :: pad 4 d.date.year.toNat⟩ :=
    h.clock_read zeros rfl (show afterDay.length < 256 by omega)
  have hyearRead : yearFromString (0x20 :: pad 4 d.date.year.toNat) =
      (.ofNat d.date.year.toNat, []) := by
    rw [← List.append_nil (pad 4 d.date.year.toNat)]
    exact yearFromString_four blank_one hyear (by simp)
  have hne : UInt16.ofNat d.date.year.toNat ≠ 0xFFFF := by
    intro hlast
    have hnat := congrArg UInt16.toNat hlast
    have hvalue : (0xFFFF : UInt16).toNat = 65535 := rfl
    rw [UInt16.toNat_ofNat', Nat.mod_eq_of_lt (by omega)] at hnat
    omega
  have hrest : 3 < (d.month ++ afterMonth).length := by
    rw [List.length_append, hmonth]
    omega
  have hdigit : digitAt (shortText zeros.day d.date.day ++ afterDay) 0 = true := by
    obtain ⟨m, digits, htext, -⟩ := shortText_head zeros.day h.day_lt.2
    rw [htext]
    exact digitAt_digit m
  have hrest' : 7 < (shortText zeros.day d.date.day ++ afterDay).length := by
    rw [List.length_append]
    omega
  rw [fromANSI, hread]
  dsimp only
  rw [if_pos ⟨hwday, hrest⟩, hmonthRead]
  dsimp only
  rw [if_pos h.month_ne, hskip, if_pos ⟨hrest', hdigit⟩, shortNumber_text h.day_lt.2 rfl]
  dsimp only
  rw [hclockRead]
  dsimp only
  rw [hyearRead]
  dsimp only
  rw [if_pos ⟨h.day_ne, h.second_ne, hne⟩, h.idxOf_month, read]

/-! ### The choice of a reader -/

theorem first_append {front : Text} (h : 0 < front.length) (rest : Text) :
    first (front ++ rest) = first front := by
  obtain ⟨c, letters, rfl⟩ := List.exists_cons_of_length_pos h
  rfl

theorem digit_ne (n : Nat) : digit n ≠ 0x54 := by
  have hall : ∀ d < 10, UInt8.ofNat (0x30 + d) ≠ 0x54 := by decide
  exact hall _ (Nat.mod_lt _ (by decide))

theorem Valid.choose_rfc1123 (h : d.Valid) (mktime : Tm → Int) (localTime : Bool) (zeros : Zeros) :
    choose mktime localTime (d.rfc1123 zeros zone) = fromRFC1123 mktime (d.rfc1123 zeros zone) := by
  obtain ⟨hweek, -, -, hmonth, hday, hday'⟩ := h.lengths zeros
  obtain ⟨hclock, hclock'⟩ := h.clock_length zeros
  have hlong : 18 ≤ (d.rfc1123 zeros zone).length := by
    simp only [rfc1123, List.length_append, List.length_cons, hweek, hmonth, length_pad]
    omega
  obtain ⟨x, y, z, hname⟩ := List.length_eq_three.mp hweek
  obtain ⟨a, b, c, hletters, -, -, hc⟩ := monthNames_spec _ h.month_mem
  have hten : first ((d.rfc1123 zeros zone).drop 10) ≠ 0x54 := by
    rw [rfc1123, hname, hletters]
    rcases shortText_cases zeros.day h.day_lt.2 with htext | ⟨-, htext⟩
    · rw [htext]
      exact hc
    · rw [htext]
      exact show (0x20 : UInt8) ≠ 0x54 by decide
  have hthree : first ((d.rfc1123 zeros zone).drop 3) = 0x2C := by
    rw [rfc1123, hname]
    rfl
  rw [choose, if_pos hlong, if_neg hten, hthree, if_neg (by decide), if_pos rfl]

theorem Valid.choose_rfc1036 (h : d.Valid) (mktime : Tm → Int) (localTime : Bool) (zeros : Zeros) :
    choose mktime localTime (d.rfc1036 zeros zone) = fromRFC1036 mktime (d.rfc1036 zeros zone) := by
  obtain ⟨-, hweek, hweek', hmonth, hday, hday'⟩ := h.lengths zeros
  obtain ⟨hclock, hclock'⟩ := h.clock_length zeros
  have hlong : 18 ≤ (d.rfc1036 zeros zone).length := by
    simp only [rfc1036, List.length_append, List.length_cons, hmonth, length_pad]
    omega
  obtain ⟨a, b, c, hletters, -, ha, -⟩ := monthNames_spec _ h.month_mem
  have hname := h.weekDay_mem (show weekDayNames.length = 7 from rfl)
  have hten : first ((d.rfc1036 zeros zone).drop 10) ≠ 0x54 := by
    have hblank : (0x20 : UInt8) ≠ 0x54 := by decide
    have hminus : (0x2D : UInt8) ≠ 0x54 := by decide
    rw [rfc1036, hletters]
    generalize weekDayNames.getD d.weekDay [] = name at hname
    simp only [weekDayNames, text, List.map_cons, List.map_nil, List.mem_cons, List.not_mem_nil,
      or_false] at hname
    -- the blank before the day, a digit of it, or the minus or the letter behind it
    rcases shortText_cases zeros.day h.day_lt.2 with htext | ⟨-, htext⟩ <;> rw [htext] <;>
      rcases hname with rfl | rfl | rfl | rfl | rfl | rfl | rfl <;>
      first | exact ha | exact digit_ne _ | exact hblank | exact hminus
  obtain ⟨hspace, hcomma⟩ : isSpace (first ((d.rfc1036 zeros zone).drop 3)) = false ∧
      first ((d.rfc1036 zeros zone).drop 3) ≠ 0x2C := by
    have hfourth : ∀ name ∈ weekDayNames, isSpace (first (name.drop 3)) = false ∧
        first (name.drop 3) ≠ 0x2C ∧ 3 < name.length := by decide
    obtain ⟨hspace, hcomma, hlt⟩ := hfourth _ hname
    have hfirst : first ((d.rfc1036 zeros zone).drop 3) =
        first ((weekDayNames.getD d.weekDay []).drop 3) := by
      rw [rfc1036, List.drop_append_of_le_length (by omega)]
      exact first_append (by rw [List.length_drop]; omega) _
    rw [hfirst]
    exact ⟨hspace, hcomma⟩
  rw [choose, if_pos hlong, if_neg hten, hspace, if_neg Bool.false_ne_true, if_neg hcomma]

theorem Valid.choose_ansi (h : d.Valid) (mktime : Tm → Int) (localTime : Bool) (zeros : Zeros)
    (blank : Bool) :
    choose mktime localTime (d.ansi zeros blank) =
      fromANSI mktime localTime (d.ansi zeros blank) := by
  obtain ⟨hweek, -, -, hmonth, hday, hday'⟩ := h.lengths zeros
  obtain ⟨hclock, hclock'⟩ := h.clock_length zeros
  have hlong : 18 ≤ (d.ansi zeros blank).length := by
    simp only [ansi, List.length_append, List.length_cons, hweek, hmonth, length_pad]
    omega
  obtain ⟨x, y, z, hname⟩ := List.length_eq_three.mp hweek
  obtain ⟨a, b, c, hletters, -⟩ := monthNames_spec _ h.month_mem
  obtain ⟨m, digits, hhour, -⟩ := shortText_head zeros.hour (show d.hour < 100 by
    have := h.hour
    omega)
  have hten : first ((d.ansi zeros blank).drop 10) ≠ 0x54 := by
    rw [ansi, clock, clockText, hname, hletters, hhour]
    have hblank : (0x20 : UInt8) ≠ 0x54 := by decide
    rcases shortText_cases zeros.day h.day_lt.2 with htext | ⟨-, htext⟩ <;> rw [htext] <;>
      cases blank <;>
      first | exact digit_ne _ | exact hblank
  have hthree : first ((d.ansi zeros blank).drop 3) = 0x20 := by
    rw [ansi, hname]
    rfl
  rw [choose, if_pos hlong, if_neg hten, hthree, if_pos (by decide)]

end

end HTTPDate

theorem eq_of_fields {t t' : Time} (hsec : t.sec = t'.sec) (hnsec : t.nsec = t'.nsec) : t = t' := by
  cases t
  cases t'
  simp only at hsec hnsec
  subst hsec hnsec
  rfl

namespace HTTPDate

/-! ### The dates of a time -/

/-- The date as `mktime` gets it. -/
def tm (d : HTTPDate) : Tm :=
  ⟨d.second, d.minute, d.hour, d.date.day, d.date.month, d.date.year - 1900⟩

/-- The date is that of the time, in local time or in UTC; the time has no fraction of a second. -/
def Denotes (mktime : Tm → Int) (localTime : Bool) (d : HTTPDate) (t : Time) : Prop :=
  t.nsec = 0 ∧ t.sec = if localTime then mktime d.tm
    else ((d.date.days - epoch) * 24 + d.hour) * 3600 + d.minute * 60 + d.second

theorem Valid.read_eq {d : HTTPDate} (h : d.Valid) {mktime : Tm → Int} {localTime : Bool}
    (hyear : 1 ≤ d.date.year ∧ d.date.year ≤ 9999) {t : Time}
    (hdenotes : d.Denotes mktime localTime t) :
    d.read mktime localTime d.date.year.toNat = .read t := by
  obtain ⟨hnsec, hsec⟩ := hdenotes
  have hspec := Notation8601.ofDateTime_spec mktime localTime h.date (by omega) h.hour h.minute
    h.second (show 0 < 1000 by decide)
  dsimp only at hspec
  obtain ⟨hsec', hnsec'⟩ := hspec
  rw [read, Nat.add_comm 1]
  apply congrArg Parsed.read
  apply eq_of_fields
  · exact hsec'.trans hsec.symm
  · rw [hnsec]
    exact hnsec'

/-- The notation of a valid date. -/
theorem Valid.notation1123_eq {d : HTTPDate} (h : d.Valid)
    (hweekDay : d.weekDay = Time.weekDay d.tm) (hyear : 0 ≤ d.date.year ∧ d.date.year < 10000)
    {zone : Text} (hzone : IsZone zone) :
    notation1123 d.tm zone = d.rfc1123 ⟨true, true, true, true⟩ zone := by
  obtain ⟨hweek, -, -, hmonth, -⟩ := h.lengths ⟨true, true, true, true⟩
  have hzone' := hzone.length_le
  have hhour := h.hour
  have hminute := h.minute
  have hsecond := h.second
  have hname : weekDayName d.tm = weekDayAbbreviations.getD d.weekDay [] := by
    have hlt : d.weekDay < weekDayAbbreviations.length := h.weekDay
    rw [weekDayName, ← hweekDay, List.getD_eq_getElem _ _ hlt, List.getD_eq_getElem _ _ hlt]
  have hmonthName : monthName d.tm = d.month := by
    have hlt : d.date.month < monthNames.length := h.date.1
    exact (List.getD_eq_getElem _ _ hlt).trans (List.getD_eq_getElem _ _ hlt).symm
  have hpadYear : padded 4 ((d.tm.year + 1900).bmod (2 ^ 32)) = pad 4 d.date.year.toNat :=
    padded_year hyear
  have hday : padded 2 (d.tm.mday % 256) = pad 2 d.date.day := padded_two h.day_lt.2
  have hhour' : padded 2 (d.tm.hour % 256) = pad 2 d.hour := padded_two (by omega)
  have hminute' : padded 2 (d.tm.min % 256) = pad 2 d.minute := padded_two (by omega)
  have hsecond' : padded 2 (d.tm.sec % 256) = pad 2 d.second := padded_two (by omega)
  rw [notation1123, hname, hmonthName, hpadYear, hday, hhour', hminute', hsecond',
    List.take_of_length_le]
  · simp [rfc1123, clock, clockText, shortText]
  · simp only [List.length_append, List.length_cons, List.length_nil, length_pad, hweek, hmonth]
    omega

end HTTPDate

/-- The date of a time in UTC, with any day of the week. -/
def httpDate (weekDay : Nat) (t : Time) : HTTPDate :=
  ⟨weekDay, ofDays (t.sec / 86400 + epoch), (t.sec % 86400 / 3600).toNat,
    (t.sec % 86400 / 60 % 60).toNat, (t.sec % 86400 % 60).toNat⟩

theorem httpDate_valid {weekDay : Nat} (hweekDay : weekDay < 7) (t : Time) :
    (t.httpDate weekDay).Valid := by
  have hlow := Int.emod_nonneg t.sec (show (86400 : Int) ≠ 0 by decide)
  have hhigh := Int.emod_lt_of_pos t.sec (show (0 : Int) < 86400 by decide)
  refine ⟨hweekDay, (ofDays_spec _).1, ?_, ?_, ?_⟩
  · show (t.sec % 86400 / 3600).toNat < 24
    omega
  · show (t.sec % 86400 / 60 % 60).toNat < 60
    omega
  · show (t.sec % 86400 % 60).toNat < 60
    omega

theorem httpDate_year (weekDay : Nat) (t : Time) : (t.httpDate weekDay).date.year = t.year :=
  (Int.sub_add_cancel _ _).symm

/-- It is the date of the time. -/
theorem httpDate_denotes (mktime : Tm → Int) (weekDay : Nat) {t : Time} (hnsec : t.nsec = 0) :
    (t.httpDate weekDay).Denotes mktime false t := by
  have hdays : (t.httpDate weekDay).date.days = t.sec / 86400 + epoch := (ofDays_spec _).2
  have hlow := Int.emod_nonneg t.sec (show (86400 : Int) ≠ 0 by decide)
  refine ⟨hnsec, ?_⟩
  rw [if_neg Bool.false_ne_true, hdays]
  show t.sec = ((t.sec / 86400 + epoch - epoch) * 24 +
    ((t.sec % 86400 / 3600).toNat : Int)) * 3600 +
    ((t.sec % 86400 / 60 % 60).toNat : Int) * 60 + ((t.sec % 86400 % 60).toNat : Int)
  omega

theorem httpDate_tm (weekDay : Nat) (t : Time) : (t.httpDate weekDay).tm = gmtime t.sec := by
  have hlow := Int.emod_nonneg t.sec (show (86400 : Int) ≠ 0 by decide)
  rw [httpDate, HTTPDate.tm, gmtime]
  simp only [Tm.mk.injEq, and_true]
  omega

/-! ### Reading the dates of a time -/

theorem turned_eq {year : Int} (h : 1970 ≤ year ∧ year ≤ 2069) :
    turned (year.toNat % 100) = year.toNat := by
  rw [turned]
  split_ifs <;> omega

theorem year_ne {year : Int} (h : 1 ≤ year ∧ year ≤ 9999) (hne : year ≠ 255) :
    UInt16.ofNat year.toNat ≠ 0xFF := by
  intro heq
  have hnat := congrArg UInt16.toNat heq
  have hvalue : (0xFF : UInt16).toNat = 255 := rfl
  rw [UInt16.toNat_ofNat', Nat.mod_eq_of_lt (by omega)] at hnat
  omega

theorem weekDay_lt (tm : Tm) : weekDay tm < 7 := by
  rw [weekDay]
  omega

section

variable {mktime : Tm → Int} {d : HTTPDate} {t : Time} {zone : Text}

theorem fromString_rfc1123 (hd : d.Valid) (hdenotes : d.Denotes mktime (decide (zone = [])) t)
    (hyear : 1 ≤ d.date.year ∧ d.date.year ≤ 9999) (hne : d.date.year ≠ 255) (hzone : IsZone zone)
    (localTime : Bool) (object : Time) (zeros : Zeros) :
    fromString mktime localTime (d.rfc1123 zeros zone) object = some (true, t) := by
  rw [fromString, hd.choose_rfc1123, hd.fromRFC1123_read mktime zeros hzone (by omega)
    (year_ne hyear hne), hd.read_eq hyear hdenotes]

theorem fromString_rfc1036 (hd : d.Valid) (hdenotes : d.Denotes mktime (decide (zone = [])) t)
    (hyear : 1970 ≤ d.date.year ∧ d.date.year ≤ 2069) (hzone : IsZone zone) (localTime : Bool)
    (object : Time) (zeros : Zeros) :
    fromString mktime localTime (d.rfc1036 zeros zone) object = some (true, t) := by
  rw [fromString, hd.choose_rfc1036, hd.fromRFC1036_read mktime zeros hzone, turned_eq hyear,
    hd.read_eq (by omega) hdenotes]

theorem fromString_ansi {localTime : Bool} (hd : d.Valid)
    (hdenotes : d.Denotes mktime localTime t) (hyear : 1 ≤ d.date.year ∧ d.date.year ≤ 9999)
    (object : Time) (zeros : Zeros) (blank : Bool) :
    fromString mktime localTime (d.ansi zeros blank) object = some (true, t) := by
  rw [fromString, hd.choose_ansi, hd.fromANSI_read mktime localTime zeros blank (by omega),
    hd.read_eq hyear hdenotes]

/-- What `ToRFC1123` writes in UTC is the date of the time. -/
theorem toRFC1123_utc (localtime : Int → Tm) (hsec : t.sec ≠ 0)
    (hyear : 1 ≤ t.year ∧ t.year ≤ 9999) :
    t.toRFC1123 localtime false =
      (t.httpDate (weekDay (gmtime t.sec))).rfc1123 ⟨true, true, true, true⟩ (text " GMT") := by
  have hyear' := httpDate_year (weekDay (gmtime t.sec)) t
  have htm := httpDate_tm (weekDay (gmtime t.sec)) t
  have hisValid : t.isValid = true := decide_eq_true hsec
  have hnotation := (httpDate_valid (weekDay_lt (gmtime t.sec)) t).notation1123_eq
    (by rw [htm]; rfl) (by omega) (.inr (.inl rfl))
  rw [htm] at hnotation
  rw [toRFC1123, if_pos hisValid, if_neg Bool.false_ne_true, hnotation]

/-- In local time it is the local date, with its day of the week. -/
theorem toRFC1123_local {localtime : Int → Tm} (hd : d.Valid) (hsec : t.sec ≠ 0)
    (hyear : 1 ≤ d.date.year ∧ d.date.year ≤ 9999) (htm : localtime t.sec = d.tm) :
    t.toRFC1123 localtime true =
      HTTPDate.rfc1123 ⟨true, true, true, true⟩ [] { d with weekDay := weekDay d.tm } := by
  have hd' : HTTPDate.Valid { d with weekDay := weekDay d.tm } :=
    ⟨weekDay_lt d.tm, hd.date, hd.hour, hd.minute, hd.second⟩
  have hisValid : t.isValid = true := decide_eq_true hsec
  have hyear' : 0 ≤ d.date.year ∧ d.date.year < 10000 := by omega
  rw [toRFC1123, if_pos hisValid, if_pos rfl, htm]
  exact hd'.notation1123_eq rfl hyear' (.inl rfl)

end

end Time

end Thunder.Core
