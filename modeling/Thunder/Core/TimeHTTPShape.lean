import Thunder.Core.TimeHTTPText

/-! What a text must have in it for `FromString` to read it as a date of HTTP: the name of a day of
the week and of a month, a day, and a time of a day, each at its place.  The numbers may be out of
range, and the year may be missing. -/

namespace Thunder.Core

open Calendar Decimal

namespace Time

/-! ### The parts -/

/-- One digit or two. -/
def Digits (number : Text) : Prop :=
  (number.length = 1 ∨ number.length = 2) ∧ ∀ c ∈ number, isDigit c = true

/-- One byte or two, of which the second is a digit; and it is not zero. -/
def DayText (day : Text) : Prop :=
  (day.length = 1 ∨ day.length = 2) ∧ (∀ c ∈ day.drop 1, isDigit c = true) ∧
    (shortNumber day).1 ≠ 0

/-- Hours, minutes and seconds, with colons between them. -/
def ClockText (clock : Text) : Prop :=
  ∃ hours minutes seconds, clock = hours ++ 0x3A :: (minutes ++ 0x3A :: seconds) ∧
    Digits hours ∧ Digits minutes ∧ Digits seconds

/-- White space and digits. -/
def YearText (year : Text) : Prop := ∀ c ∈ year, isSpace c = true ∨ isDigit c = true

/-- The texts of the three notations, whatever is behind them. -/
inductive Shaped : Text → Prop
  | rfc1123 {weekDay blanks day blanks' month year clock : Text} (rest : Text)
    (hweekDay : weekDay ∈ weekDayAbbreviations) (hblanks : Blank blanks) (hday : DayText day)
    (hblanks' : Blank blanks') (hmonth : month ∈ monthNames) (hyear : YearText year)
    (hclock : ClockText clock) :
    Shaped (weekDay ++ 0x2C :: (blanks ++ (day ++ (blanks' ++ (month ++ (year ++
      (clock ++ rest)))))))
  | rfc1036 {weekDay blanks day blanks' month year clock : Text} (rest : Text)
    (hweekDay : weekDay ∈ weekDayNames) (hblanks : Blank blanks) (hday : DayText day)
    (hblanks' : Blank blanks') (hmonth : month ∈ monthNames) (hyear : YearText year)
    (hclock : ClockText clock) :
    Shaped (weekDay ++ 0x2C :: (blanks ++ (day ++ 0x2D :: (blanks' ++ (month ++ 0x2D ::
      (year ++ (clock ++ rest)))))))
  | ansi {weekDay blanks month blanks' day blanks'' clock : Text} (rest : Text)
    (hweekDay : weekDay ∈ weekDayAbbreviations) (hblanks : Blank blanks)
    (hmonth : month ∈ monthNames) (hblanks' : Blank blanks') (hday : DayText day)
    (hdigits : Digits day) (hblanks'' : Blank blanks'') (hclock : ClockText clock) :
    Shaped (weekDay ++ 0x20 :: (blanks ++ (month ++ (blanks' ++ (day ++ (blanks'' ++
      (clock ++ rest)))))))

/-! ### The scanners -/

theorem skipLeadingSpaces_spec (maxLength : Nat) (rest : Text) :
    ∃ blanks, Blank blanks ∧ rest = blanks ++ (skipLeadingSpaces maxLength rest).2 ∧
      (skipLeadingSpaces maxLength rest).1 + blanks.length = maxLength := by
  induction maxLength generalizing rest with
  | zero => exact ⟨[], fun _ h => absurd h List.not_mem_nil, rfl, rfl⟩
  | succ maxLength ih =>
    cases rest with
    | nil => exact ⟨[], fun _ h => absurd h List.not_mem_nil, rfl, rfl⟩
    | cons c rest =>
      rw [skipLeadingSpaces]
      split_ifs with hspace
      · obtain ⟨blanks, hblanks, hrest, hlength⟩ := ih rest
        refine ⟨c :: blanks, List.forall_mem_cons.mpr ⟨hspace, hblanks⟩, ?_, ?_⟩
        · rw [List.cons_append, ← hrest]
        · rw [List.length_cons]
          omega
      · exact ⟨[], fun _ h => absurd h List.not_mem_nil, rfl, rfl⟩

theorem mem_of_numberOf_ne {names : List Text} {start : Nat} {name : Text}
    (h : numberOf names start name ≠ 0xFF) : name ∈ names := by
  by_contra hmem
  rw [numberOf, if_neg hmem] at h
  exact h rfl

theorem skipIn_spec (buffer rest : Text) :
    ∃ blanks, Blank blanks ∧ rest = blanks ++ skipIn buffer rest := by
  obtain ⟨blanks, hblanks, hrest, -⟩ := skipLeadingSpaces_spec
    (buffer.length % 256 - (buffer.length - rest.length)) rest
  exact ⟨blanks, hblanks, hrest⟩

theorem monthFromString_spec {entry : Text} (h : (monthFromString entry).1 ≠ 0xFF) :
    ∃ blanks month, Blank blanks ∧ month ∈ monthNames ∧
      entry = blanks ++ (month ++ (monthFromString entry).2) := by
  obtain ⟨blanks, hblanks, hrest, -⟩ := skipLeadingSpaces_spec (entry.length % 256) entry
  rw [monthFromString] at h ⊢
  generalize skipLeadingSpaces (entry.length % 256) entry = skipped at h hrest ⊢
  obtain ⟨maxLength, rest⟩ := skipped
  dsimp only at h hrest ⊢
  split_ifs at h ⊢ with hlong
  · refine ⟨blanks, rest.take 3, hblanks, mem_of_numberOf_ne h, ?_⟩
    rw [List.take_append_drop, hrest]
  · exact absurd rfl h

/-- What a number takes from the text. -/
theorem shortNumber_spec {rest : Text} (h : rest ≠ []) :
    ∃ number, rest = number ++ (shortNumber rest).2 ∧
      (number.length = 1 ∨ number.length = 2) ∧ (∀ c ∈ number.drop 1, isDigit c = true) ∧
      (shortNumber number).1 = (shortNumber rest).1 ∧
      (digitAt rest 0 = true → Digits number) := by
  obtain ⟨c, tail, rfl⟩ := List.exists_cons_of_ne_nil h
  rw [shortNumber]
  split_ifs with hdigit
  · obtain ⟨d, rest, rfl⟩ : ∃ d rest, tail = d :: rest := by
      cases tail with
      | nil =>
        have hnone : digitAt [c] 1 = false := rfl
        rw [hnone] at hdigit
        contradiction
      | cons d rest => exact ⟨d, rest, rfl⟩
    have hd : isDigit d = true := hdigit
    refine ⟨[c, d], rfl, .inr rfl, ?_, ?_, ?_⟩
    · intro x hx
      rw [List.mem_singleton.mp hx]
      exact hd
    · have hdigit' : digitAt [c, d] 1 = true := hd
      rw [shortNumber, if_pos hdigit']
      rfl
    · intro hc
      refine ⟨.inr rfl, ?_⟩
      intro x hx
      rcases List.mem_cons.mp hx with rfl | hx
      · exact hc
      · rw [List.mem_singleton.mp hx]
        exact hd
  · refine ⟨[c], rfl, .inl rfl, fun x hx => absurd hx List.not_mem_nil, rfl, ?_⟩
    intro hc
    refine ⟨.inl rfl, ?_⟩
    intro x hx
    rw [List.mem_singleton.mp hx]
    exact hc

/-- A digit at a place is the byte there. -/
theorem exists_of_digitAt {rest : Text} (h : digitAt rest 0 = true) :
    ∃ c tail, rest = c :: tail ∧ isDigit c = true := by
  cases rest with
  | nil => exact absurd h (by decide)
  | cons c tail => exact ⟨c, tail, rfl, h⟩

theorem yearFromString_spec (entry : Text) :
    ∃ year, YearText year ∧ entry = year ++ (yearFromString entry).2 := by
  obtain ⟨blanks, hblanks, hrest, -⟩ := skipLeadingSpaces_spec (entry.length % 256) entry
  rw [yearFromString]
  generalize skipLeadingSpaces (entry.length % 256) entry = skipped at hrest ⊢
  obtain ⟨maxLength, rest⟩ := skipped
  dsimp only at hrest ⊢
  have hyear : ∀ digits : Text, (∀ c ∈ digits, isDigit c = true) → YearText (blanks ++ digits) := by
    intro digits hdigits c hc
    rcases List.mem_append.mp hc with hblank | hdigit
    · exact .inl (hblanks c hblank)
    · exact .inr (hdigits c hdigit)
  by_cases htwo : 1 < maxLength ∧ digitAt rest 0 = true ∧ digitAt rest 1 = true
  · rw [if_pos htwo]
    obtain ⟨-, hzero, hone⟩ := htwo
    obtain ⟨a, rest, rfl, ha⟩ := exists_of_digitAt hzero
    obtain ⟨b, rest, rfl, hb⟩ := exists_of_digitAt (hone : digitAt rest 0 = true)
    split_ifs with hfour
    · obtain ⟨-, htwo, hthree⟩ := hfour
      obtain ⟨c, rest, rfl, hc⟩ := exists_of_digitAt (htwo : digitAt rest 0 = true)
      obtain ⟨d, rest, rfl, hd⟩ := exists_of_digitAt (hthree : digitAt rest 0 = true)
      refine ⟨blanks ++ [a, b, c, d], hyear _ (by simp [ha, hb, hc, hd]), ?_⟩
      rw [hrest, List.append_assoc]
      rfl
    all_goals
      refine ⟨blanks ++ [a, b], hyear _ (by simp [ha, hb]), ?_⟩
      rw [hrest, List.append_assoc]
      rfl
  · rw [if_neg htwo]
    refine ⟨blanks, ?_, hrest⟩
    intro c hc
    exact .inl (hblanks c hc)

theorem exists_of_first {rest : Text} {c : UInt8} (h : first rest = c) (hc : c ≠ 0) :
    ∃ tail, rest = c :: tail := by
  cases rest with
  | nil => exact absurd h.symm hc
  | cons b tail => exact ⟨tail, congrArg (· :: tail) h⟩

theorem secondsFrom_spec {maxLength : Nat} {tail : Text}
    (h : (secondsFrom maxLength (0x3A :: tail)).1 ≠ 0xFF) :
    ∃ seconds, Digits seconds ∧ tail = seconds ++ (secondsFrom maxLength (0x3A :: tail)).2 := by
  rw [secondsFrom] at h ⊢
  by_cases hone : 1 < maxLength ∧ digitAt (0x3A :: tail) 1 = true
  · rw [if_pos hone]
    obtain ⟨a, rest, rfl, ha⟩ := exists_of_digitAt (hone.2 : digitAt tail 0 = true)
    dsimp only
    split_ifs with htwo
    · obtain ⟨b, rest, rfl, hb⟩ := exists_of_digitAt (htwo.2 : digitAt rest 0 = true)
      exact ⟨[a, b], ⟨.inr rfl, by simp [ha, hb]⟩, rfl⟩
    · exact ⟨[a], ⟨.inl rfl, by simp [ha]⟩, rfl⟩
  · rw [if_neg hone] at h
    exact absurd rfl h

theorem timeFromString_spec {entry : Text} (h : (timeFromString entry).seconds ≠ 0xFF) :
    ∃ blanks clock, Blank blanks ∧ ClockText clock ∧
      entry = blanks ++ (clock ++ (timeFromString entry).rest) := by
  obtain ⟨blanks, hblanks, hrest, -⟩ := skipLeadingSpaces_spec (entry.length % 256) entry
  rw [timeFromString] at h ⊢
  generalize skipLeadingSpaces (entry.length % 256) entry = skipped at h hrest ⊢
  obtain ⟨maxLength, start⟩ := skipped
  dsimp only at h hrest ⊢
  by_cases hfive : 5 ≤ maxLength ∧ digitAt start 0 = true
  swap
  · rw [if_neg hfive] at h
    exact absurd rfl h
  rw [if_pos hfive] at h ⊢
  obtain ⟨c, tail, rfl, -⟩ := exists_of_digitAt hfive.2
  obtain ⟨hours, hhours, -, -, -, hdigits⟩ := shortNumber_spec (List.cons_ne_nil c tail)
  have hhoursDigits := hdigits hfive.2
  generalize shortNumber (c :: tail) = read at h hhours ⊢
  obtain ⟨hour, afterHours⟩ := read
  dsimp only at h hhours ⊢
  by_cases hcolon : first afterHours = 0x3A ∧ digitAt afterHours 1 = true
  swap
  · rw [if_neg hcolon] at h
    exact absurd rfl h
  rw [if_pos hcolon] at h ⊢
  obtain ⟨afterColon, rfl⟩ := exists_of_first hcolon.1 (by decide)
  obtain ⟨m, tail', rfl, -⟩ := exists_of_digitAt (hcolon.2 : digitAt afterColon 0 = true)
  rw [List.drop_succ_cons, List.drop_zero] at h ⊢
  obtain ⟨minutes, hminutes, -, -, -, hdigits'⟩ := shortNumber_spec (List.cons_ne_nil m tail')
  have hminutesDigits := hdigits' hcolon.2
  generalize shortNumber (m :: tail') = read at h hminutes ⊢
  obtain ⟨minute, afterMinutes⟩ := read
  dsimp only at h hminutes ⊢
  by_cases hcolon' : first afterMinutes = 0x3A
  swap
  · rw [if_neg hcolon'] at h
    exact absurd rfl h
  rw [if_pos hcolon'] at h ⊢
  obtain ⟨afterColon, rfl⟩ := exists_of_first hcolon' (by decide)
  obtain ⟨seconds, hseconds, htail⟩ := secondsFrom_spec h
  refine ⟨blanks, hours ++ 0x3A :: (minutes ++ 0x3A :: seconds), hblanks,
    ⟨hours, minutes, seconds, rfl, hhoursDigits, hminutesDigits, hseconds⟩, ?_⟩
  calc entry
      = blanks ++ (hours ++ 0x3A :: (minutes ++ 0x3A :: afterColon)) := by
        rw [hrest, hhours, hminutes]
    _ = _ := by
        simp only [List.append_assoc, List.cons_append]
        rw [← htail]

/-- A name of a day of the week stands at the start, with the delimiter behind it, if anything is
left. -/
theorem weekFromString_spec {buffer : Text} (hzero : 0 ∉ buffer) {delimeter : UInt8}
    (hdelimeter : delimeter = 0x2C ∨ delimeter = 0x20) {fromName : Bool}
    (h : (weekFromString buffer delimeter fromName).1 ≠ 0xFF)
    (hrest : (weekFromString buffer delimeter fromName).2 ≠ []) :
    ∃ name ∈ if fromName then weekDayNames else weekDayAbbreviations,
      buffer = name ++ delimeter :: (weekFromString buffer delimeter fromName).2 := by
  obtain ⟨blanks, hblanks, hbuffer, -⟩ := skipLeadingSpaces_spec (buffer.length % 256) buffer
  rw [weekFromString] at h hrest ⊢
  generalize (skipLeadingSpaces (buffer.length % 256) buffer).2 = rest at h hrest hbuffer ⊢
  have hindex : buffer.length - rest.length = blanks.length := by
    rw [hbuffer, List.length_append]
    omega
  rw [hindex] at h hrest ⊢
  by_cases hfound : delimeter ∈ rest
  swap
  · -- without a delimiter the name is everything, and nothing is left
    rw [if_neg hfound] at hrest
    by_cases hempty : rest = []
    · rw [if_pos hempty] at hrest
      exact absurd hempty hrest
    · rw [if_neg hempty] at hrest
      exact absurd (List.drop_eq_nil_of_le (by omega)) hrest
  rw [if_pos hfound] at h hrest ⊢
  obtain ⟨front, tail, rfl, hfront⟩ := List.eq_append_cons_of_mem hfound
  have hidx : (front ++ delimeter :: tail).idxOf delimeter = front.length := by
    rw [List.idxOf_append_of_notMem hfront, List.idxOf_cons_self, Nat.add_zero]
  rw [hidx] at h hrest ⊢
  generalize hname : (front ++ delimeter :: tail).take (blanks.length + front.length) = name
    at h hrest ⊢
  by_cases hempty : name = []
  · rw [if_pos hempty] at h
    exact absurd rfl h
  rw [if_neg hempty] at h hrest ⊢
  dsimp only at h hrest ⊢
  have hnameZero : 0 ∉ name := by
    intro hmem
    rw [← hname] at hmem
    apply hzero
    rw [hbuffer]
    exact List.mem_append_right _ (List.mem_of_mem_take hmem)
  have hcstring : name.takeWhile (· ≠ 0) = name := by
    apply List.takeWhile_eq_self_iff.mpr
    intro b hb
    have hne : b ≠ 0 := fun h => hnameZero (h ▸ hb)
    simpa using hne
  have hmem : name ∈ if fromName then weekDayNames else weekDayAbbreviations := by
    cases fromName
    · rw [if_neg Bool.false_ne_true] at h ⊢
      split_ifs at h with hthree
      · rw [weekFromAbbrevation, List.take_of_length_le hthree.le] at h
        exact mem_of_numberOf_ne h
      · exact absurd rfl h
    · rw [if_pos rfl] at h ⊢
      rw [weekFromName, hcstring] at h
      exact mem_of_numberOf_ne h
  have hnames : (if fromName then weekDayNames else weekDayAbbreviations) ∈
      [weekDayNames, weekDayAbbreviations] := by
    cases fromName <;> simp
  obtain ⟨-, -, -, -, hcomma, hblank, -⟩ := weekDays_spec _ hnames name hmem
  have hno : delimeter ∉ name := by
    rcases hdelimeter with rfl | rfl
    · exact hcomma
    · exact hblank
  -- with white space in front the delimiter would be taken for a part of the name
  have hnone : blanks = [] := by
    by_contra hsome
    have hpos := List.length_pos_of_ne_nil hsome
    apply hno
    rw [← hname, List.take_append, Nat.add_sub_cancel]
    apply List.mem_append_right
    obtain ⟨n, hn⟩ : ∃ n, blanks.length = n + 1 := ⟨blanks.length - 1, by omega⟩
    rw [hn, List.take_succ_cons]
    exact List.mem_cons_self
  rw [hnone, List.length_nil, Nat.zero_add, List.take_left] at hname
  refine ⟨name, hmem, ?_⟩
  rw [hbuffer, hnone, List.nil_append, ← hname, ← List.drop_drop, List.drop_left,
    List.drop_succ_cons, List.drop_zero]

/-! ### The readers -/

/-- What is read has passed the test. -/
theorem read_of_ite {P : Prop} [Decidable P] {parsed : Parsed} {t : Time}
    (h : (if P then parsed else .refused) = .read t) : P ∧ parsed = .read t := by
  split_ifs at h with hP
  exact ⟨hP, h⟩

theorem dayText_of_shortNumber {rest : Text} (hrest : rest ≠ []) (h : (shortNumber rest).1 ≠ 0) :
    ∃ day, DayText day ∧ rest = day ++ (shortNumber rest).2 ∧
      (digitAt rest 0 = true → Digits day) := by
  obtain ⟨day, hsplit, hlength, hdigit, hvalue, hdigits⟩ := shortNumber_spec hrest
  exact ⟨day, ⟨hlength, hdigit, hvalue ▸ h⟩, hsplit, hdigits⟩

/-- What stands behind the month, where a date is read. -/
theorem fromYear_spec {mktime : Tm → Int} {buffer : Text} {day month : UInt8} {entry : Text}
    {t : Time} (h : fromYear mktime buffer day month entry = .read t) :
    day ≠ 0 ∧ ∃ year clock rest, YearText year ∧ ClockText clock ∧
      entry = year ++ (clock ++ rest) := by
  rw [fromYear] at h
  obtain ⟨-, h⟩ := read_of_ite h
  obtain ⟨year, hyear, hentry⟩ := yearFromString_spec entry
  generalize yearFromString entry = read at h hentry
  obtain ⟨number, afterYear⟩ := read
  dsimp only at h hentry
  obtain ⟨⟨hday, hseconds, -⟩, -⟩ := read_of_ite h
  obtain ⟨blanks, clock, hblanks, hclock, hafterYear⟩ := timeFromString_spec hseconds
  refine ⟨hday, year ++ blanks, clock, (timeFromString afterYear).rest, ?_, hclock, ?_⟩
  · intro c hc
    rcases List.mem_append.mp hc with hmem | hmem
    · exact hyear c hmem
    · exact .inl (hblanks c hmem)
  · rw [List.append_assoc, ← hafterYear]
    exact hentry

theorem fromRFC1123_shaped {mktime : Tm → Int} {buffer : Text} (hzero : 0 ∉ buffer) {t : Time}
    (h : fromRFC1123 mktime buffer = .read t) : Shaped buffer := by
  have hweek := @weekFromString_spec buffer hzero 0x2C (.inl rfl) false
  rw [fromRFC1123] at h
  generalize weekFromString buffer 0x2C false = read at h hweek
  obtain ⟨wday, afterWeek⟩ := read
  dsimp only at h hweek
  obtain ⟨hwday, h⟩ := read_of_ite h
  obtain ⟨blanks, hblanks, hafterWeek⟩ := skipIn_spec buffer afterWeek
  generalize skipIn buffer afterWeek = rest at h hafterWeek
  obtain ⟨hlong, h⟩ := read_of_ite h
  have hsome : afterWeek ≠ [] := by
    rw [hafterWeek]
    apply List.ne_nil_of_length_pos
    rw [List.length_append]
    omega
  obtain ⟨weekDay, hweekDay, hbuffer⟩ := hweek hwday hsome
  have hday := @dayText_of_shortNumber rest (List.ne_nil_of_length_pos (by omega))
  generalize shortNumber rest = read at h hday
  obtain ⟨number, afterDay⟩ := read
  dsimp only at h hday
  obtain ⟨-, h⟩ := read_of_ite h
  have hmonth := @monthFromString_spec afterDay
  generalize monthFromString afterDay = read at h hmonth
  obtain ⟨month, afterMonth⟩ := read
  dsimp only at h hmonth
  obtain ⟨hmonthNe, h⟩ := read_of_ite h
  obtain ⟨blanks', name, hblanks', hname, hafterDay⟩ := hmonth hmonthNe
  obtain ⟨hdayNe, year, clock, tail, hyear, hclock, hafterMonth⟩ := fromYear_spec h
  obtain ⟨day, hdayText, hrest, -⟩ := hday hdayNe
  rw [hbuffer, hafterWeek, hrest, hafterDay, hafterMonth]
  exact .rfc1123 tail hweekDay hblanks hdayText hblanks' hname hyear hclock

theorem fromRFC1036_shaped {mktime : Tm → Int} {buffer : Text} (hzero : 0 ∉ buffer) {t : Time}
    (h : fromRFC1036 mktime buffer = .read t) : Shaped buffer := by
  have hweek := @weekFromString_spec buffer hzero 0x2C (.inl rfl) true
  rw [fromRFC1036] at h
  generalize weekFromString buffer 0x2C true = read at h hweek
  obtain ⟨wday, afterWeek⟩ := read
  dsimp only at h hweek
  obtain ⟨hwday, h⟩ := read_of_ite h
  obtain ⟨blanks, hblanks, hafterWeek⟩ := skipIn_spec buffer afterWeek
  generalize skipIn buffer afterWeek = rest at h hafterWeek
  obtain ⟨hlong, h⟩ := read_of_ite h
  have hsome : afterWeek ≠ [] := by
    rw [hafterWeek]
    apply List.ne_nil_of_length_pos
    rw [List.length_append]
    omega
  obtain ⟨weekDay, hweekDay, hbuffer⟩ := hweek hwday hsome
  have hday := @dayText_of_shortNumber rest (List.ne_nil_of_length_pos (by omega))
  generalize shortNumber rest = read at h hday
  obtain ⟨number, afterDay⟩ := read
  dsimp only at h hday
  obtain ⟨hminus, h⟩ := read_of_ite h
  obtain ⟨afterMinus, rfl⟩ := exists_of_first hminus (by decide)
  rw [List.drop_succ_cons, List.drop_zero] at h
  have hmonth := @monthFromString_spec afterMinus
  generalize monthFromString afterMinus = read at h hmonth
  obtain ⟨month, afterMonth⟩ := read
  dsimp only at h hmonth
  obtain ⟨⟨hmonthNe, hminus'⟩, h⟩ := read_of_ite h
  obtain ⟨beforeYear, rfl⟩ := exists_of_first hminus' (by decide)
  rw [List.drop_succ_cons, List.drop_zero] at h
  obtain ⟨blanks', name, hblanks', hname, hafterMinus⟩ := hmonth hmonthNe
  obtain ⟨hdayNe, year, clock, tail, hyear, hclock, hbeforeYear⟩ := fromYear_spec h
  obtain ⟨day, hdayText, hrest, -⟩ := hday hdayNe
  rw [hbuffer, hafterWeek, hrest, hafterMinus, hbeforeYear]
  exact .rfc1036 tail hweekDay hblanks hdayText hblanks' hname hyear hclock

theorem fromANSI_shaped {mktime : Tm → Int} {localTime : Bool} {buffer : Text}
    (hzero : 0 ∉ buffer) {t : Time} (h : fromANSI mktime localTime buffer = .read t) :
    Shaped buffer := by
  have hweek := @weekFromString_spec buffer hzero 0x20 (.inr rfl) false
  rw [fromANSI] at h
  generalize weekFromString buffer 0x20 false = read at h hweek
  obtain ⟨wday, afterWeek⟩ := read
  dsimp only at h hweek
  obtain ⟨⟨hwday, hlong⟩, h⟩ := read_of_ite h
  obtain ⟨weekDay, hweekDay, hbuffer⟩ := hweek hwday (List.ne_nil_of_length_pos (by omega))
  have hmonth := @monthFromString_spec afterWeek
  generalize monthFromString afterWeek = read at h hmonth
  obtain ⟨month, afterMonth⟩ := read
  dsimp only at h hmonth
  obtain ⟨hmonthNe, h⟩ := read_of_ite h
  obtain ⟨blanks, name, hblanks, hname, hafterWeek⟩ := hmonth hmonthNe
  obtain ⟨blanks', hblanks', hafterMonth⟩ := skipIn_spec buffer afterMonth
  generalize skipIn buffer afterMonth = rest at h hafterMonth
  obtain ⟨⟨hlong', hdigit⟩, h⟩ := read_of_ite h
  have hday := @dayText_of_shortNumber rest (List.ne_nil_of_length_pos (by omega))
  generalize shortNumber rest = read at h hday
  obtain ⟨number, afterDay⟩ := read
  dsimp only at h hday
  obtain ⟨⟨hdayNe, hseconds, -⟩, -⟩ := read_of_ite h
  obtain ⟨blanks'', clock, hblanks'', hclock, hafterDay⟩ := timeFromString_spec hseconds
  obtain ⟨day, hdayText, hrest, hdigits⟩ := hday hdayNe
  rw [hbuffer, hafterWeek, hafterMonth, hrest, hafterDay]
  exact .ansi _ hweekDay hblanks hname hblanks' hdayText (hdigits hdigit) hblanks'' hclock

/-- These readers stay inside of a text. -/
theorem ne_outside_of_ite {P : Prop} [Decidable P] {parsed : Parsed}
    (h : P → parsed ≠ .outside) : (if P then parsed else .refused) ≠ .outside := by
  split_ifs with hP
  · exact h hP
  · exact Parsed.noConfusion

theorem fromYear_ne (mktime : Tm → Int) (buffer : Text) (day month : UInt8) (entry : Text) :
    fromYear mktime buffer day month entry ≠ .outside := by
  apply ne_outside_of_ite
  intro _
  apply ne_outside_of_ite
  intro _
  exact Parsed.noConfusion

theorem fromRFC1123_ne (mktime : Tm → Int) (buffer : Text) :
    fromRFC1123 mktime buffer ≠ .outside := by
  apply ne_outside_of_ite
  intro _
  apply ne_outside_of_ite
  intro _
  apply ne_outside_of_ite
  intro _
  apply ne_outside_of_ite
  intro _
  exact fromYear_ne _ _ _ _ _

theorem fromRFC1036_ne (mktime : Tm → Int) (buffer : Text) :
    fromRFC1036 mktime buffer ≠ .outside := by
  apply ne_outside_of_ite
  intro _
  apply ne_outside_of_ite
  intro _
  apply ne_outside_of_ite
  intro _
  apply ne_outside_of_ite
  intro _
  exact fromYear_ne _ _ _ _ _

theorem fromANSI_ne (mktime : Tm → Int) (localTime : Bool) (buffer : Text) :
    fromANSI mktime localTime buffer ≠ .outside := by
  apply ne_outside_of_ite
  intro _
  apply ne_outside_of_ite
  intro _
  apply ne_outside_of_ite
  intro _
  apply ne_outside_of_ite
  intro _
  exact Parsed.noConfusion

/-- A text that is not for `FromISO8601` is refused, and then the object stays as it is, unless it
has the names, the day and the time of a day. -/
theorem fromString_shaped (mktime : Tm → Int) (localTime : Bool) {buffer : Text}
    (hzero : 0 ∉ buffer) (hten : first (buffer.drop 10) ≠ 0x54) (object : Time) :
    fromString mktime localTime buffer object = some (false, object) ∨
      ∃ t, fromString mktime localTime buffer object = some (true, t) ∧ Shaped buffer := by
  obtain ⟨hinside, hshaped⟩ : choose mktime localTime buffer ≠ .outside ∧
      ∀ t, choose mktime localTime buffer = .read t → Shaped buffer := by
    rw [choose, if_neg hten]
    split_ifs
    · exact ⟨fromANSI_ne _ _ _, fun t => fromANSI_shaped hzero⟩
    · exact ⟨fromRFC1123_ne _ _, fun t => fromRFC1123_shaped hzero⟩
    · exact ⟨fromRFC1036_ne _ _, fun t => fromRFC1036_shaped hzero⟩
    · exact ⟨Parsed.noConfusion, (by rintro _ ⟨⟩)⟩
  rw [fromString]
  cases hchoose : choose mktime localTime buffer with
  | refused => exact .inl rfl
  | outside => exact absurd hchoose hinside
  | read t => exact .inr ⟨t, rfl, hshaped t hchoose⟩

/-! ### The dates of HTTP -/

/-- A date is read as the time that it is of, in each notation, over the years that it has; every
whole second has such dates, and the class writes them; and a text is refused unless it has its
parts. -/
theorem http_date_exact :
    (∀ (mktime : Tm → Int) (localTime : Bool) (object t : Time) (d : HTTPDate) (zeros : Zeros),
      d.Valid →
      (∀ zone, IsZone zone → d.Denotes mktime (decide (zone = [])) t →
        (1 ≤ d.date.year ∧ d.date.year ≤ 9999 → d.date.year ≠ 255 →
          fromString mktime localTime (d.rfc1123 zeros zone) object = some (true, t)) ∧
        (1970 ≤ d.date.year ∧ d.date.year ≤ 2069 →
          fromString mktime localTime (d.rfc1036 zeros zone) object = some (true, t))) ∧
      ∀ blank, d.Denotes mktime localTime t → 1 ≤ d.date.year ∧ d.date.year ≤ 9999 →
        fromString mktime localTime (d.ansi zeros blank) object = some (true, t)) ∧
    (∀ (mktime : Tm → Int) (weekDay : Nat) (t : Time), weekDay < 7 → t.nsec = 0 →
      (t.httpDate weekDay).Valid ∧ (t.httpDate weekDay).date.year = t.year ∧
        (t.httpDate weekDay).Denotes mktime false t) ∧
    (∀ (mktime : Tm → Int) (localtime : Int → Tm) (localTime : Bool) (object t : Time),
      t.nsec = 0 → t.sec ≠ 0 →
      (1 ≤ t.year ∧ t.year ≤ 9999 → t.year ≠ 255 →
        fromString mktime localTime (t.toRFC1123 localtime false) object = some (true, t)) ∧
      ∀ d : HTTPDate, d.Valid → 1 ≤ d.date.year ∧ d.date.year ≤ 9999 → d.date.year ≠ 255 →
        localtime t.sec = d.tm → mktime d.tm = t.sec →
        fromString mktime localTime (t.toRFC1123 localtime true) object = some (true, t)) ∧
    ∀ (mktime : Tm → Int) (localTime : Bool) (buffer : Text) (object : Time), 0 ∉ buffer →
      first (buffer.drop 10) ≠ 0x54 →
      fromString mktime localTime buffer object = some (false, object) ∨
        ∃ t, fromString mktime localTime buffer object = some (true, t) ∧ Shaped buffer := by
  refine ⟨?_, ?_, ?_, ?_⟩
  · intro mktime localTime object t d zeros hd
    constructor
    · intro zone hzone hdenotes
      constructor
      · intro hyear hne
        exact fromString_rfc1123 hd hdenotes hyear hne hzone localTime object zeros
      · intro hyear
        exact fromString_rfc1036 hd hdenotes hyear hzone localTime object zeros
    · intro blank hdenotes hyear
      exact fromString_ansi hd hdenotes hyear object zeros blank
  · intro mktime weekDay t hweekDay hnsec
    exact ⟨httpDate_valid hweekDay t, httpDate_year weekDay t,
      httpDate_denotes mktime weekDay hnsec⟩
  · intro mktime localtime localTime object t hnsec hsec
    constructor
    · intro hyear hne
      rw [toRFC1123_utc localtime hsec hyear]
      exact fromString_rfc1123 (httpDate_valid (weekDay_lt _) t) (httpDate_denotes mktime _ hnsec)
        (by rwa [httpDate_year]) (by rwa [httpDate_year]) (.inr (.inl rfl)) localTime object _
    · intro d hd hyear hne htm hback
      have hd' : HTTPDate.Valid { d with weekDay := weekDay d.tm } :=
        ⟨weekDay_lt d.tm, hd.date, hd.hour, hd.minute, hd.second⟩
      have hdenotes : HTTPDate.Denotes mktime (decide (([] : Text) = []))
          { d with weekDay := weekDay d.tm } t := ⟨hnsec, hback.symm⟩
      rw [toRFC1123_local hd hsec hyear htm]
      exact fromString_rfc1123 hd' hdenotes hyear hne (.inl rfl) localTime object _
  · intro mktime localTime buffer object hzero hten
    exact fromString_shaped mktime localTime hzero hten object

/-- 1994-11-06T08:49:37Z in each notation and as the class writes it, and a text with no month. -/
theorem http_date_exact_1994 :
    (fromString mktimegm true (HTTPDate.rfc1123 ⟨true, true, true, true⟩ (text " GMT")
        ⟨0, ⟨1994, 10, 6⟩, 8, 49, 37⟩) ⟨7, 0, by decide⟩ =
      some (true, ⟨784111777, 0, by decide⟩) ∧
    fromString mktimegm true (HTTPDate.rfc1036 ⟨true, true, true, true⟩ (text " GMT")
        ⟨0, ⟨1994, 10, 6⟩, 8, 49, 37⟩) ⟨7, 0, by decide⟩ =
      some (true, ⟨784111777, 0, by decide⟩) ∧
    fromString mktimegm false (HTTPDate.ansi ⟨false, true, true, true⟩ true
        ⟨0, ⟨1994, 10, 6⟩, 8, 49, 37⟩) ⟨7, 0, by decide⟩ =
      some (true, ⟨784111777, 0, by decide⟩)) ∧
    (HTTPDate.Valid (httpDate 0 ⟨784111777, 0, by decide⟩)) ∧
    fromString mktimegm true (toRFC1123 gmtime false ⟨784111777, 0, by decide⟩)
      ⟨7, 0, by decide⟩ = some (true, ⟨784111777, 0, by decide⟩) ∧
    fromString mktimegm true (text "Sun, 06 Nob 1994 08:49:37 GMT") ⟨7, 0, by decide⟩ =
      some (false, ⟨7, 0, by decide⟩) := by
  have hd : HTTPDate.Valid ⟨0, ⟨1994, 10, 6⟩, 8, 49, 37⟩ :=
    ⟨by decide, by decide, by decide, by decide, by decide⟩
  obtain ⟨hdates, hevery, hwrites, hshaped⟩ := http_date_exact
  have hdenotes : HTTPDate.Denotes mktimegm false ⟨0, ⟨1994, 10, 6⟩, 8, 49, 37⟩
      ⟨784111777, 0, by decide⟩ := ⟨rfl, by decide +kernel⟩
  have hyear : Time.year ⟨784111777, 0, by decide⟩ = 1994 := by decide +kernel
  have hrefused : (fromString mktimegm true (text "Sun, 06 Nob 1994 08:49:37 GMT")
      ⟨7, 0, by decide⟩).map Prod.fst = some false ∧
      (text "Sun, 06 Nob 1994 08:49:37 GMT").contains 0 = false := by
    decide +kernel
  refine ⟨⟨?_, ?_, ?_⟩, ?_, ?_, ?_⟩
  · exact ((hdates mktimegm true ⟨7, 0, by decide⟩ ⟨784111777, 0, by decide⟩ _ _ hd).1
      (text " GMT") (.inr (.inl rfl)) hdenotes).1 (by decide) (by decide)
  · exact ((hdates mktimegm true ⟨7, 0, by decide⟩ ⟨784111777, 0, by decide⟩ _ _ hd).1
      (text " GMT") (.inr (.inl rfl)) hdenotes).2 (by decide)
  · exact (hdates mktimegm false ⟨7, 0, by decide⟩ ⟨784111777, 0, by decide⟩ _ _ hd).2 true
      hdenotes (by decide)
  · exact (hevery mktimegm 0 ⟨784111777, 0, by decide⟩ (by decide) rfl).1
  · exact (hwrites mktimegm gmtime true ⟨7, 0, by decide⟩ ⟨784111777, 0, by decide⟩ rfl
      (by decide)).1 (by rw [hyear]; decide) (by rw [hyear]; decide)
  · rcases hshaped mktimegm true (text "Sun, 06 Nob 1994 08:49:37 GMT") ⟨7, 0, by decide⟩
      (by simpa using hrefused.2) (by decide) with hsame | ⟨t, hread, -⟩
    · exact hsame
    · rw [hread] at hrefused
      exact absurd hrefused.1 (by simp)

/-- The first second of 2070 has no date with two digits for the year. -/
theorem not_http_date_exact :
    ¬ ∀ (mktime : Tm → Int) (localTime : Bool) (object t : Time) (weekDay : Nat), weekDay < 7 →
      t.nsec = 0 → fromString mktime localTime ((t.httpDate weekDay).rfc1036
        ⟨true, true, true, true⟩ (text " GMT")) object = some (true, t) := by
  intro h
  have hread := h mktimegm true ⟨7, 0, by decide⟩ ⟨3155760000, 0, by decide⟩ 3 (by decide) rfl
  have hepoch : fromString mktimegm true ((httpDate 3 ⟨3155760000, 0, by decide⟩).rfc1036
      ⟨true, true, true, true⟩ (text " GMT")) ⟨7, 0, by decide⟩ =
        some (true, ⟨0, 0, by decide⟩) := by
    decide +kernel
  rw [hepoch] at hread
  exact absurd hread (by decide)

end Time

end Thunder.Core
