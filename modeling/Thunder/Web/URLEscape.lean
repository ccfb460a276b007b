import Thunder.Core.JSONString
import Thunder.Core.Words

/-! `URL::Encode` and `URL::Decode`.  A blank is written as a plus (0x2B) and read back from it, and
what is not a letter, a digit or one of four marks as an escape: a percent sign (0x25) and two
hexadecimal digits. -/

namespace Thunder.Core.URL

open JSON (isdigit isxdigit hexValue)
open JSON.String (hexDigit)

/-- `isalnum`; no character from 0x80 on is one in the locale of the program. -/
def isalnum (c : UInt8) : Bool := isdigit c ∨ (0x41 ≤ c ∧ c ≤ 0x5A) ∨ (0x61 ≤ c ∧ c ≤ 0x7A)

/-- The characters that `Encode` keeps: also the minus, the underscore, the dot and the tilde. -/
def kept (c : UInt8) : Bool := isalnum c ∨ c = 0x2D ∨ c = 0x5F ∨ c = 0x2E ∨ c = 0x7E

/-- What one of the loops writes, how many characters of the source that is for, and how many
characters behind the begin of the source it looks at. -/
structure Coded where
  written : Text
  taken : Nat
  reads : Nat
  deriving DecidableEq, Repr

/-- The loop goes on behind `n` characters, for which it has written `text`. -/
def Coded.behind (text : Text) (n : Nat) (coded : Coded) : Coded :=
  ⟨text ++ coded.written, n + coded.taken, n + coded.reads⟩

/-- `Encode` of the `sourceLength` characters at `source`, with room for `destinationLength`. -/
def encode : Text → Nat → Coded
  | [], _ => ⟨[], 0, 1⟩
  | current :: source, dstLength =>
    if current = 0 ∨ dstLength = 0 then ⟨[], 0, 1⟩
    else if kept current then (encode source (dstLength - 1)).behind [current] 1
    else if current = 0x20 then (encode source (dstLength - 1)).behind [0x2B] 1
    else if dstLength < 3 then ⟨[], 0, 1⟩
    else
      (encode source (dstLength - 3)).behind
        [0x25, hexDigit (current.toNat / 16), hexDigit (current.toNat % 16)] 1

/-- `Decode`. -/
def decode : Text → Nat → Coded
  | [], _ => ⟨[], 0, 1⟩
  | current :: source, dstLength =>
    if current = 0 ∨ dstLength = 0 then ⟨[], 0, 1⟩
    else if current = 0x25 then
      match source with
      | high :: low :: source =>
        if isxdigit high = false then ⟨[], 0, 2⟩
        else if isxdigit low = false then ⟨[], 0, 3⟩
        else
          (decode source (dstLength - 1)).behind [UInt8.ofNat (hexValue high * 16 + hexValue low)] 3
      | _ => ⟨[], 0, 1⟩
    else if current = 0x2B then (decode source (dstLength - 1)).behind [0x20] 1
    else (decode source (dstLength - 1)).behind [current] 1

/-- The destination after a loop: a zero behind the text, where there is room for it. -/
def terminated (written : Text) (destinationLength : Nat) : Text :=
  if written.length < destinationLength then written ++ [0] else written

/-! ### What the characters stand for -/

/-- The text of one character. -/
def escape (c : UInt8) : Text :=
  if kept c then [c] else if c = 0x20 then [0x2B]
  else [0x25, hexDigit (c.toNat / 16), hexDigit (c.toNat % 16)]

/-- A text of whole units, and the characters they stand for. -/
inductive Stands : Text → Text → Prop
  | nil : Stands [] []
  | plain (c : UInt8) {text bytes : Text} (hc : c ≠ 0 ∧ c ≠ 0x25 ∧ c ≠ 0x2B)
      (rest : Stands text bytes) : Stands (c :: text) (c :: bytes)
  | plus {text bytes : Text} (rest : Stands text bytes) : Stands (0x2B :: text) (0x20 :: bytes)
  | escaped (high low : UInt8) {text bytes : Text} (hhigh : isxdigit high = true)
      (hlow : isxdigit low = true) (rest : Stands text bytes) :
      Stands (0x25 :: high :: low :: text)
        (UInt8.ofNat (hexValue high * 16 + hexValue low) :: bytes)

/-- The two characters behind a percent sign are not two hexadecimal digits. -/
def Malformed (behind : Text) : Prop :=
  ¬ ∃ high low text, behind = high :: low :: text ∧ isxdigit high = true ∧ isxdigit low = true

/-- Nothing more is to be read: the text ends, at its end or with a zero, or an escape is
malformed. -/
def Stops (rest : Text) : Prop :=
  rest = [] ∨ rest.head? = some 0 ∨ ∃ behind, rest = 0x25 :: behind ∧ Malformed behind

/-- `Encode` gives whole texts of characters, of as many as there is room for, and never writes
behind the room; `Decode` gives these characters back. -/
def EncodesRight (source : Text) (room : Nat) : Prop :=
  (encode source room).written = (source.take (encode source room).taken).flatMap escape ∧
  (terminated (encode source room).written room).length ≤ room ∧
  ((encode source room).taken = source.length ∨
    room < ((source.take ((encode source room).taken + 1)).flatMap escape).length) ∧
  ∀ capacity, (decode (encode source room).written capacity).written =
    (source.take (encode source room).taken).take capacity

/-- `Decode` gives what the units in front of the first malformed escape stand for, as far as there
is room, and looks at no character behind the source. -/
def DecodesRight (text : Text) (room : Nat) : Prop :=
  (∃ before rest bytes, text = before ++ rest ∧ Stands before bytes ∧ Stops rest ∧
    (decode text room).written = bytes.take room) ∧
  (decode text room).reads ≤ text.length

variable {text source before rest bytes : Text} {room : Nat} {c : UInt8}

theorem Coded.behind_behind (text : Text) (m n : Nat) (coded : Coded) :
    (coded.behind text m).behind [c] n = coded.behind (c :: text) (m + n) := by
  simp [Coded.behind, Nat.add_comm m n, Nat.add_assoc]

theorem Coded.behind_nil (coded : Coded) : coded.behind [] 0 = coded := by
  simp [Coded.behind]

/-! ### `Encode` -/

theorem kept_spec (h : kept c = true) : c ≠ 0 ∧ c ≠ 0x25 ∧ c ≠ 0x2B := by
  refine ⟨?_, ?_, ?_⟩ <;> rintro rfl <;> exact absurd h (by decide)

theorem escape_digits (c : UInt8) :
    isxdigit (hexDigit (c.toNat / 16)) = true ∧ isxdigit (hexDigit (c.toNat % 16)) = true ∧
      UInt8.ofNat (hexValue (hexDigit (c.toNat / 16)) * 16 +
        hexValue (hexDigit (c.toNat % 16))) = c := by
  have hdigit : ∀ n < 16, isxdigit (hexDigit n) = true ∧ hexValue (hexDigit n) = n := by decide
  have hlt : c.toNat < 256 := c.toNat_lt
  obtain ⟨hhigh, hhigh'⟩ := hdigit (c.toNat / 16) (by omega)
  obtain ⟨hlow, hlow'⟩ := hdigit (c.toNat % 16) (by omega)
  refine ⟨hhigh, hlow, ?_⟩
  rw [hhigh', hlow', Nat.div_add_mod', UInt8.ofNat_toNat]

theorem escape_length_pos (c : UInt8) : 0 < (escape c).length := by
  unfold escape
  split_ifs <;> exact Nat.zero_lt_succ _

/-- One turn of `Encode`: the text of the character is written if there is room for it. -/
theorem encode_cons (hc : c ≠ 0) (source : Text) (room : Nat) :
    encode (c :: source) room =
      if (escape c).length ≤ room then
        (encode source (room - (escape c).length)).behind (escape c) 1
      else ⟨[], 0, 1⟩ := by
  rw [encode]
  by_cases hroom : room = 0
  · have hpos := escape_length_pos c
    rw [if_pos (.inr hroom), if_neg (by omega)]
  · rw [if_neg (not_or.mpr ⟨hc, hroom⟩), escape]
    split_ifs <;> first | rfl | (simp only [List.length_cons, List.length_nil] at *; omega)

theorem stands_escape (c : UInt8) (rest : Stands text bytes) :
    Stands (escape c ++ text) (c :: bytes) := by
  unfold escape
  split_ifs with hkept hblank
  · exact .plain c (kept_spec hkept) rest
  · rw [hblank]
    exact .plus rest
  · obtain ⟨hhigh, hlow, hvalue⟩ := escape_digits c
    have hunit := Stands.escaped _ _ hhigh hlow rest
    rwa [hvalue] at hunit

theorem stands_flatMap (source : Text) : Stands (source.flatMap escape) source := by
  induction source with
  | nil => exact .nil
  | cons c source ih =>
    rw [List.flatMap_cons]
    exact stands_escape c ih

theorem encode_written (source : Text) (room : Nat) :
    (encode source room).written = (source.take (encode source room).taken).flatMap escape := by
  induction source generalizing room with
  | nil => rfl
  | cons c source ih =>
    by_cases hc : c = 0
    · rw [encode, if_pos (.inl hc)]
      rfl
    · rw [encode_cons hc]
      split_ifs with hroom
      · simp only [Coded.behind, Nat.add_comm 1, List.take_succ_cons, List.flatMap_cons]
        rw [ih]
      · rfl

theorem encode_length_le (source : Text) (room : Nat) :
    (encode source room).written.length ≤ room := by
  induction source generalizing room with
  | nil => exact Nat.zero_le room
  | cons c source ih =>
    by_cases hc : c = 0
    · rw [encode, if_pos (.inl hc)]
      exact Nat.zero_le room
    · rw [encode_cons hc]
      split_ifs with hroom
      · have hrest := ih (room - (escape c).length)
        simp only [Coded.behind, List.length_append]
        omega
      · exact Nat.zero_le room

theorem length_terminated (h : text.length ≤ room) : (terminated text room).length ≤ room := by
  unfold terminated
  split_ifs with hlt
  · rw [List.length_append]
    exact hlt
  · exact h

/-- It ends in front of a character only if there is no room for its text. -/
theorem encode_taken (hsource : 0 ∉ source) (room : Nat) :
    (encode source room).taken = source.length ∨
      room < ((source.take ((encode source room).taken + 1)).flatMap escape).length := by
  induction source generalizing room with
  | nil => exact .inl rfl
  | cons c source ih =>
    obtain ⟨hc, hrest⟩ := not_or.mp (fun hor => hsource (List.mem_cons.mpr hor))
    rw [encode_cons (Ne.symm hc)]
    split_ifs with hroom
    · simp only [Coded.behind, Nat.add_comm 1, List.length_cons, List.take_succ_cons,
        List.flatMap_cons, List.length_append]
      rcases ih hrest (room - (escape c).length) with hall | hfull
      · exact .inl (congrArg _ hall)
      · apply Or.inr
        omega
    · apply Or.inr
      simp only [Nat.zero_add, List.take_succ_cons, List.take_zero, List.flatMap_cons,
        List.flatMap_nil, List.append_nil]
      omega

/-! ### `Decode` -/

/-- A turn of the loop. -/
theorem decode_cons (c : UInt8) (source : Text) (room : Nat) : decode (c :: source) room =
    if c = 0 ∨ room = 0 then ⟨[], 0, 1⟩
    else if c = 0x25 then
      match source with
      | high :: low :: source =>
        if isxdigit high = false then ⟨[], 0, 2⟩
        else if isxdigit low = false then ⟨[], 0, 3⟩
        else (decode source (room - 1)).behind [UInt8.ofNat (hexValue high * 16 + hexValue low)] 3
      | _ => ⟨[], 0, 1⟩
    else if c = 0x2B then (decode source (room - 1)).behind [0x20] 1
    else (decode source (room - 1)).behind [c] 1 := by
  conv_lhs => unfold decode
  rfl

theorem decode_full (text : Text) : decode text 0 = ⟨[], 0, 1⟩ := by
  cases text with
  | nil => rfl
  | cons c text =>
    rw [decode_cons]
    exact if_pos (.inr rfl)

theorem decode_plain (h : c ≠ 0 ∧ c ≠ 0x25 ∧ c ≠ 0x2B) (text : Text) (room : Nat) :
    decode (c :: text) (room + 1) = (decode text room).behind [c] 1 := by
  rw [decode_cons, if_neg (not_or.mpr ⟨h.1, nofun⟩), if_neg h.2.1, if_neg h.2.2]
  rfl

theorem decode_plus (text : Text) (room : Nat) :
    decode (0x2B :: text) (room + 1) = (decode text room).behind [0x20] 1 := by
  rw [decode_cons]
  rfl

theorem decode_escaped {high low : UInt8} (hhigh : isxdigit high = true)
    (hlow : isxdigit low = true) (text : Text) (room : Nat) :
    decode (0x25 :: high :: low :: text) (room + 1) =
      (decode text room).behind [UInt8.ofNat (hexValue high * 16 + hexValue low)] 3 := by
  rw [decode_cons, if_neg (not_or.mpr ⟨by decide, nofun⟩), if_pos rfl]
  simp only [hhigh, hlow, if_false, Bool.true_eq_false, Nat.add_one_sub_one]

/-- Units that there is room for are decoded, and what is behind them with the room that is left. -/
theorem decode_append (h : Stands before bytes) (rest : Text) (room : Nat) :
    decode (before ++ rest) (room + bytes.length) =
      (decode rest room).behind bytes before.length := by
  induction h with
  | nil => exact (Coded.behind_nil _).symm
  | plain c hc _ ih =>
    rw [List.cons_append, List.length_cons, ← Nat.add_assoc, decode_plain hc, ih,
      Coded.behind_behind]
    rfl
  | plus _ ih =>
    rw [List.cons_append, List.length_cons, ← Nat.add_assoc, decode_plus, ih, Coded.behind_behind]
    rfl
  | escaped high low hhigh hlow _ ih =>
    simp only [List.cons_append]
    rw [List.length_cons, ← Nat.add_assoc, decode_escaped hhigh hlow, ih, Coded.behind_behind]
    rfl

/-- A loop that has to end among the characters of `bytes`, with `n` characters of the source. -/
def Coded.Within (coded : Coded) (bytes : Text) (room n : Nat) : Prop :=
  coded.written = bytes.take room ∧ coded.reads ≤ n

theorem Coded.Within.behind {coded : Coded} {n : Nat} (h : coded.Within bytes room n) (byte : UInt8)
    (m : Nat) : (coded.behind [byte] m).Within (byte :: bytes) (room + 1) (n + m) := by
  refine ⟨congrArg _ h.1, ?_⟩
  rw [Nat.add_comm n]
  exact Nat.add_le_add_left h.2 m

/-- Where there is no room for all of them, it ends among the units. -/
theorem decode_append_of_lt (h : Stands before bytes) (rest : Text) (hroom : room < bytes.length) :
    (decode (before ++ rest) room).Within bytes room before.length := by
  induction h generalizing room with
  | nil => exact absurd hroom (Nat.not_lt_zero room)
  | plain c hc _ ih =>
    cases room with
    | zero =>
      rw [decode_full]
      exact ⟨rfl, Nat.succ_pos _⟩
    | succ room =>
      rw [List.cons_append, decode_plain hc]
      exact (ih (Nat.lt_of_succ_lt_succ hroom)).behind c 1
  | plus _ ih =>
    cases room with
    | zero =>
      rw [decode_full]
      exact ⟨rfl, Nat.succ_pos _⟩
    | succ room =>
      rw [List.cons_append, decode_plus]
      exact (ih (Nat.lt_of_succ_lt_succ hroom)).behind 0x20 1
  | escaped high low hhigh hlow _ ih =>
    cases room with
    | zero =>
      rw [decode_full]
      exact ⟨rfl, Nat.succ_pos _⟩
    | succ room =>
      simp only [List.cons_append]
      rw [decode_escaped hhigh hlow]
      exact (ih (Nat.lt_of_succ_lt_succ hroom)).behind _ 3

/-- The two characters behind a percent sign are looked at one by one. -/
theorem decode_malformed (h : Malformed rest) (room : Nat) :
    (decode (0x25 :: rest) room).Within [] room (rest.length + 1) := by
  cases room with
  | zero =>
    rw [decode_full]
    exact ⟨rfl, Nat.succ_pos _⟩
  | succ room =>
    rw [decode_cons, if_neg (not_or.mpr ⟨by decide, nofun⟩), if_pos rfl]
    match rest, h with
    | [], _ => exact ⟨rfl, Nat.succ_pos _⟩
    | [_], _ => exact ⟨rfl, Nat.succ_pos _⟩
    | high :: low :: rest, h =>
      simp only [List.length_cons]
      split_ifs with hhigh hlow
      · exact ⟨rfl, by simp⟩
      · exact ⟨rfl, by simp⟩
      · exact absurd ⟨high, low, rest, rfl, by simpa using hhigh, by simpa using hlow⟩ h

/-- It stops with a look at one character more, which is in the text unless that is at its end. -/
theorem decode_stops (h : Stops rest) (room : Nat) :
    (decode rest room).written = [] ∧ ((decode rest room).reads ≤ rest.length ↔ rest ≠ []) := by
  obtain rfl | hzero | ⟨behind, rfl, hbehind⟩ := h
  · exact ⟨rfl, by simp [decode]⟩
  · obtain ⟨more, rfl⟩ := List.head?_eq_some_iff.mp hzero
    rw [decode_cons, if_pos (.inl rfl)]
    exact ⟨rfl, by simp⟩
  · obtain ⟨hwritten, hreads⟩ := decode_malformed hbehind room
    rw [List.take_nil] at hwritten
    exact ⟨hwritten, iff_of_true hreads nofun⟩

/-- Every text is whole units and a rest at which nothing more is to be read. -/
theorem stands_stops (text : Text) :
    ∃ before rest bytes, text = before ++ rest ∧ Stands before bytes ∧ Stops rest := by
  induction hn : text.length using Nat.strong_induction_on generalizing text with
  | _ n ih =>
    subst hn
    match text with
    | [] => exact ⟨[], [], [], rfl, .nil, .inl rfl⟩
    | c :: text =>
      by_cases hzero : c = 0
      · exact ⟨[], c :: text, [], rfl, .nil, .inr (.inl (congrArg some hzero))⟩
      by_cases hpercent : c = 0x25
      · subst hpercent
        by_cases hmalformed : Malformed text
        · exact ⟨[], 0x25 :: text, [], rfl, .nil, .inr (.inr ⟨text, rfl, hmalformed⟩)⟩
        obtain ⟨high, low, text, rfl, hhigh, hlow⟩ := not_not.mp hmalformed
        obtain ⟨before, rest, bytes, rfl, hstands, hstops⟩ := ih _ (by simp; omega) text rfl
        exact ⟨_, rest, _, rfl, .escaped high low hhigh hlow hstands, hstops⟩
      obtain ⟨before, rest, bytes, rfl, hstands, hstops⟩ := ih _ (by simp) text rfl
      by_cases hplus : c = 0x2B
      · subst hplus
        exact ⟨_, rest, _, rfl, .plus hstands, hstops⟩
      · exact ⟨_, rest, _, rfl, .plain c ⟨hzero, hpercent, hplus⟩ hstands, hstops⟩

/-- If all units fit, the character behind them is looked at. -/
theorem decode_stands (h : Stands text bytes) (hroom : bytes.length ≤ room) :
    decode text room = ⟨bytes, text.length, text.length + 1⟩ := by
  have hdecode := decode_append h [] (room - bytes.length)
  rw [List.append_nil, Nat.sub_add_cancel hroom] at hdecode
  rw [hdecode]
  simp [decode, Coded.behind]

/-- What `Decode` gives, and whether it looks behind the source. -/
theorem decode_spec (text : Text) (room : Nat) :
    (∃ before rest bytes, text = before ++ rest ∧ Stands before bytes ∧ Stops rest ∧
      (decode text room).written = bytes.take room) ∧
    ((decode text room).reads ≤ text.length ↔
      ¬ ∃ bytes, Stands text bytes ∧ bytes.length ≤ room) := by
  have houtside : (decode text room).reads ≤ text.length →
      ¬ ∃ bytes, Stands text bytes ∧ bytes.length ≤ room := by
    rintro hreads ⟨bytes, hstands, hroom⟩
    rw [decode_stands hstands hroom] at hreads
    exact absurd hreads (Nat.not_succ_le_self _)
  obtain ⟨before, rest, bytes, rfl, hstands, hstops⟩ := stands_stops text
  by_cases hroom : room < bytes.length
  · obtain ⟨hwritten, hreads⟩ := decode_append_of_lt hstands rest hroom
    have hinside : (decode (before ++ rest) room).reads ≤ (before ++ rest).length := by
      rw [List.length_append]
      omega
    exact ⟨⟨before, rest, bytes, rfl, hstands, hstops, hwritten⟩, iff_of_true hinside
      (houtside hinside)⟩
  · obtain ⟨more, rfl⟩ := Nat.exists_eq_add_of_le' (Nat.le_of_not_lt hroom)
    obtain ⟨hnone, hreads⟩ := decode_stops hstops more
    have hdecode := decode_append hstands rest more
    refine ⟨⟨before, rest, bytes, rfl, hstands, hstops, ?_⟩, houtside, fun hfit => ?_⟩
    · rw [hdecode, Coded.behind, hnone, List.append_nil, List.take_of_length_le (by omega)]
    · have hrest : rest ≠ [] := by
        rintro rfl
        exact hfit ⟨bytes, by rwa [List.append_nil], Nat.le_add_left _ _⟩
      rw [hdecode, Coded.behind, List.length_append]
      exact Nat.add_le_add_left (hreads.mpr hrest) _

/-! ### Both of them -/

theorem decode_encode (source : Text) (room capacity : Nat) :
    (decode (encode source room).written capacity).written =
      (source.take (encode source room).taken).take capacity := by
  have hstands := stands_flatMap (source.take (encode source room).taken)
  rw [encode_written]
  by_cases hcapacity : capacity < (source.take (encode source room).taken).length
  · have hwithin := decode_append_of_lt hstands [] hcapacity
    rw [List.append_nil] at hwithin
    exact hwithin.1
  · rw [decode_stands hstands (Nat.le_of_not_lt hcapacity),
      List.take_of_length_le (Nat.le_of_not_lt hcapacity)]

/-- What is encoded is decoded again, as far as there is room; `Decode` looks behind the source
exactly when it has decoded all of it. -/
theorem escape_exact (text : Text) (room : Nat) :
    (0 ∉ text → EncodesRight text room) ∧
    (DecodesRight text room ↔ ¬ ∃ bytes, Stands text bytes ∧ bytes.length ≤ room) := by
  constructor
  · intro hsource
    refine ⟨encode_written text room, ?_, encode_taken hsource room, decode_encode text room⟩
    exact length_terminated (encode_length_le text room)
  · obtain ⟨hunits, hreads⟩ := decode_spec text room
    exact (and_iff_right hunits).trans hreads

/-- A letter and a blank; an escape without its last digit. -/
theorem escape_exact_short : EncodesRight [0x61, 0x20] 8 ∧ DecodesRight [0x25, 0x34] 1 := by
  refine ⟨(escape_exact [0x61, 0x20] 8).1 (by decide), (escape_exact [0x25, 0x34] 1).2.mpr ?_⟩
  rintro ⟨bytes, hstands, -⟩
  cases hstands with
  | plain c hc => exact hc.2.1 rfl

/-- One letter, and room for it. -/
theorem not_escape_exact : ¬ ((∀ source : Text, 0 ∉ source → ∀ room, EncodesRight source room) ∧
    ∀ text room, DecodesRight text room) :=
  fun h => absurd (h.2 [0x61] 1).2 (by decide)

end Thunder.Core.URL
