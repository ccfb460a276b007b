import Thunder.Core.JSONLiteral
import Thunder.Core.JSONStringWrite
import Mathlib.Algebra.BigOperators.Group.List.Basic

/-! A quoted String that is written and read again.  What is written is a literal of the same
characters, but for those of which `ToCodePoint` has not read all bytes. -/

namespace Thunder.Core.JSON.String

open Chunks Unicode

/-! ### The written text as a literal -/

theorem neZero_four : NeZero 4 := ⟨by decide⟩

attribute [local instance] neZero_four in
def Item.bytes : Item → Text
  | .raw c _ => String.utf8EncodeChar c
  | .short letter _ _ => [0x5C, letter]
  | .unicode digits _ => [0x5C, 0x75, digits 0, digits 1, digits 2, digits 3]

theorem taken_trace (items : List Item) (storage : Nat) :
    taken (trace items storage) = items.flatMap Item.bytes := by
  induction items generalizing storage with
  | nil => rfl
  | cons item items ih =>
    rw [trace, taken_append, ih, List.flatMap_cons]
    cases item with
    | raw c h =>
      have hbytes (bytes : Text) : taken (bytes.map fun b => (b, [b])) = bytes := by
        rw [taken, List.map_map]
        exact List.map_id _
      exact congrArg (· ++ _) (hbytes (String.utf8EncodeChar c))
    | short letter c h => rfl
    | unicode digits hex => rfl

theorem isxdigit_hexDigit (n : Nat) :
    isxdigit (hexDigit (n % 16)) = true ∧ hexValue (hexDigit (n % 16)) = n % 16 := by
  have : ∀ d < 16, isxdigit (hexDigit d) = true ∧ hexValue (hexDigit d) = d := by decide
  exact this _ (Nat.mod_lt _ (by decide))

/-- The `\u` escape of a unit. -/
def unicodeItem (unit : Nat) : Item :=
  .unicode (fun i => hexDigit (unit / 16 ^ (3 - i.val) % 16)) fun _ => (isxdigit_hexDigit _).1

theorem unitValue_unicodeItem {unit : Nat} (h : unit < 0x10000) :
    unitValue (fun i => hexDigit (unit / 16 ^ (3 - i.val) % 16)) = unit := by
  simp only [unitValue, (isxdigit_hexDigit _).2]
  show ((unit / 4096 % 16 * 16 + unit / 256 % 16) * 16 + unit / 16 % 16) * 16 + unit / 1 % 16 = unit
  omega

theorem unicodeItem_bytes (unit : Nat) : (unicodeItem unit).bytes = [0x5C, 0x75] ++ hex4 unit := by
  show [0x5C, 0x75, hexDigit (unit / 4096 % 16), hexDigit (unit / 256 % 16),
    hexDigit (unit / 16 % 16), hexDigit (unit / 1 % 16)] = _
  rw [Nat.div_one]
  rfl

/-- A character with a first byte that is written as it is or has a letter is ASCII. -/
theorem lead_ascii {c : Char} (h : isPlain (lead c) = true ∨ (shortEscape (lead c)).isSome) :
    c.toNat < 0x80 ∧ (lead c).toNat = c.toNat ∧ continuations c = 0 := by
  have hone := ascii_of_written h
  obtain ⟨hlt, he⟩ | ⟨_, _, he⟩ | ⟨_, _, he⟩ | ⟨_, _, he⟩ := utf8EncodeChar_cases c
  · refine ⟨hlt, ?_, by rw [continuations, he]; rfl⟩
    rw [lead, he]
    exact Nat.mod_eq_of_lt (by omega)
  all_goals
    rw [he] at hone
    exact absurd (congrArg List.length hone) (by simp)

theorem plain_raw {c : Char} (h : isPlain (lead c) = true) :
    0x20 ≤ c.toNat ∧ c.toNat ≠ 0x22 ∧ c.toNat ≠ 0x5C := by
  rw [← (lead_ascii (Or.inl h)).2.1]
  simp only [isPlain, isprint, UInt8.le_iff_toNat_le, ← UInt8.toNat_inj, UInt8.reduceToNat,
    decide_eq_true_eq, ne_eq] at h
  exact ⟨h.1.1, h.2.1, h.2.2.1⟩

theorem shortEscape_unescape {b letter : UInt8} (h : shortEscape b = some letter) :
    unescape letter = some b := by
  unfold shortEscape at h
  split_ifs at h <;> cases h <;> subst b <;> rfl

/-- The items that a character is written as, with so many bytes of the text left. -/
def charItems (c : Char) (length : Nat) : List Item :=
  if h : isPlain (lead c) = true then [.raw c (plain_raw h)]
  else
    match h : shortEscape (lead c) with
    | some letter => [.short letter (lead c) (shortEscape_unescape h)]
    | none => (utf16 (readCode c length)).map unicodeItem

def textItems : List Char → List Item
  | [] => []
  | c :: chars => charItems c (utf8 (c :: chars)).length ++ textItems chars

/-- The text that is read again. -/
def readChars : List Char → List Char
  | [] => []
  | c :: chars => Char.ofNat (readCode c (utf8 (c :: chars)).length) :: readChars chars

/-- Every character starts where the low eight bits of the length of the text that is left count at
least its continuation bytes. -/
def Whole : List Char → Prop
  | [] => True
  | c :: chars => continuations c ≤ (utf8 (c :: chars)).length % 256 ∧ Whole chars

/-! ### Characters -/

theorem readCode_valid (c : Char) (length : Nat) :
    readCode c length < 0xD800 ∨ 0xDFFF < readCode c length ∧ readCode c length < 0x110000 := by
  have hlt := code_lt c
  unfold readCode
  rcases Nat.eq_zero_or_pos (continuations c - length % 256) with h0 | hpos
  · rw [h0, pow_zero, Nat.div_one]
    have := not_surrogate c
    omega
  · left
    calc c.toNat / 64 ^ (continuations c - length % 256) ≤ c.toNat / 64 ^ 1 :=
          Nat.div_le_div_left (Nat.pow_le_pow_right (by decide) hpos) (by decide)
      _ < 0xD800 := by omega

theorem readCode_eq_iff (c : Char) (length : Nat) :
    Char.ofNat (readCode c length) = c ↔ continuations c ≤ length % 256 := by
  refine ⟨fun h => ?_, fun h => ?_⟩
  · by_contra hlt
    have hcode : readCode c length = c.toNat := by
      rw [← toNat_ofNat (readCode_valid c length), h]
    have hpos : c.toNat ≠ 0 := by
      rcases utf8EncodeChar_cases c with ⟨_, he⟩ | ⟨_, _⟩ | ⟨_, _⟩ | ⟨_, _⟩
      · have : continuations c = 0 := by rw [continuations, he]; rfl
        omega
      all_goals omega
    have hpow : 1 < 64 ^ (continuations c - length % 256) :=
      Nat.one_lt_pow (by omega) (by decide)
    have := Nat.div_lt_self (Nat.pos_of_ne_zero hpos) hpow
    exact absurd hcode (Nat.ne_of_lt this)
  · rw [readCode, Nat.sub_eq_zero_of_le h, pow_zero, Nat.div_one, Char.ofNat_toNat]

theorem readChars_eq_iff (chars : List Char) : readChars chars = chars ↔ Whole chars := by
  induction chars with
  | nil => exact iff_of_true rfl trivial
  | cons c chars ih => rw [readChars, List.cons_eq_cons, readCode_eq_iff, ih, Whole]

/-- What is written of a character is the bytes of its items. -/
theorem charItems_bytes (c : Char) (length : Nat) :
    (charItems c length).flatMap Item.bytes = escapeChar c length := by
  unfold charItems escapeChar
  split
  · rw [← ascii_of_written (Or.inl ‹_›)]
    simp [Item.bytes]
  · split
    · simp [Item.bytes, ‹shortEscape (lead c) = _›]
    · simp only [‹shortEscape (lead c) = _›]
      rw [unicodeEscape, List.flatMap_map]
      simp only [unicodeItem_bytes]

theorem decode_high {high : Nat} (hlt : high < 0x10000) (hhigh : high / 0x400 = 0x36)
    (items : List Item) : decode (unicodeItem high :: items) 0 = decode items high := by
  unfold unicodeItem
  rw [decode, if_pos rfl, unitValue_unicodeItem hlt, if_pos hhigh]

theorem decode_low {high low : Nat} (hlt : low < 0x10000) (hlow : low / 0x400 = 0x37)
    (hhigh : high ≠ 0) (items : List Item) : decode (unicodeItem low :: items) high =
      (decode items 0).map
        (Char.ofNat ((high - 0xD800) * 0x400 + (low - 0xDC00) + 0x10000) :: ·) := by
  unfold unicodeItem
  rw [decode, if_neg hhigh, unitValue_unicodeItem hlt, if_pos hlow]

theorem decode_charItems (c : Char) (length : Nat) (items : List Item) :
    decode (charItems c length ++ items) 0 =
      (decode items 0).map (Char.ofNat (readCode c length) :: ·) := by
  have hascii (h : isPlain (lead c) = true ∨ (shortEscape (lead c)).isSome) :
      Char.ofNat (readCode c length) = c :=
    (readCode_eq_iff c length).mpr (by rw [(lead_ascii h).2.2]; exact Nat.zero_le _)
  unfold charItems
  split
  case isTrue h =>
    rw [hascii (Or.inl h)]
    rfl
  case isFalse =>
    split
    case h_1 letter h =>
      have hsome : (shortEscape (lead c)).isSome := by rw [h]; rfl
      rw [hascii (Or.inr hsome)]
      show (decode items 0).map (Char.ofNat (lead c).toNat :: ·) = _
      rw [(lead_ascii (Or.inr hsome)).2.1, Char.ofNat_toNat]
    case h_2 =>
      have hvalid := readCode_valid c length
      generalize readCode c length = code at *
      by_cases hsmall : code < 0x10000
      · rw [utf16, if_pos hsmall]
        show decode (unicodeItem code :: items) 0 = _
        rw [unicodeItem, decode, if_pos rfl, unitValue_unicodeItem hsmall, if_neg (by omega),
          if_neg (by omega)]
      · rw [utf16, if_neg hsmall]
        show decode (unicodeItem _ :: unicodeItem _ :: items) 0 = _
        have hcode : (0xD800 + (code - 0x10000) / 0x400 - 0xD800) * 0x400 +
            (0xDC00 + (code - 0x10000) % 0x400 - 0xDC00) + 0x10000 = code := by omega
        rw [decode_high (by omega) (by omega), decode_low (by omega) (by omega) (by omega), hcode]

theorem textItems_bytes (chars : List Char) :
    (textItems chars).flatMap Item.bytes = escapeText chars := by
  induction chars with
  | nil => rfl
  | cons c chars ih => rw [textItems, List.flatMap_append, charItems_bytes, ih, escapeText]

theorem decode_textItems (chars : List Char) :
    decode (textItems chars) 0 = some (readChars chars) := by
  induction chars with
  | nil => rfl
  | cons c chars ih => rw [textItems, decode_charItems, ih, readChars, Option.map_some]

/-! ### Writing and reading -/

/-- `s`, with the text `chars` assigned, is written through buffers of the sizes `sizes` until the
offset is 0 again, and `x`, cleared, has the same text when it has read that. -/
def RoundTrips (s x : String) (chars : List Char) (sizes : Nat → Nat) (cut : Cut) : Prop :=
  ∃ n, let w := IElement.serializeAll (s.assign (utf8 chars)) ((List.range (n + 1)).map sizes)
    w.2.2 = 0 ∧
      let r := IElement.deserializeAll x.clear (cut.chunks w.1)
      r.error = none ∧ r.offset = 0 ∧ r.loaded = w.1.length ∧ r.element.getValue = utf8 chars ∧
        r.element.set = true ∧ r.element.null = false

theorem holds_assign {s : String} (hs : s.isQuoted = true) {chars : List Char}
    (hnul : ∀ c ∈ chars, c.toNat ≠ 0) (hsmall : (utf8 chars).length + 1 < 2 ^ 32) :
    Holds (s.assign (utf8 chars)) (utf8 chars) where
  value := cString_of_noNul (by
    rw [zero_mem_utf8]
    rintro ⟨c, hmem, h0⟩
    exact hnul c hmem h0)
  set := rfl
  quoted := hs
  small := hsmall

theorem serializeAll_quoted {s : String} {chars : List Char} (h : Holds s (utf8 chars))
    {sizes : List Nat} (hsizes : ∀ size ∈ sizes, 0 < size) (hne : sizes ≠ []) :
    ((IElement.serializeAll s sizes).2.2 = 0 →
      (IElement.serializeAll s sizes).1 = [0x22] ++ escapeText chars ++ [0x22]) ∧
    (([0x22] ++ escapeText chars ++ [0x22]).length < sizes.sum →
      (IElement.serializeAll s sizes).2.2 = 0) := by
  obtain ⟨hout, henough, hall⟩ := (serialize_finishes chars).writeUntil
    (Or.inl ⟨rfl, h, rfl⟩ : Rest chars (s, 0) _) hsizes
  refine ⟨fun hend => ?_, henough⟩
  rw [IElement.serializeAll, hout, List.take_of_length_le ((hall hend).resolve_left hne)]

theorem cString_utf8 (chars : List Char) :
    cString (utf8 chars) = utf8 (chars.takeWhile fun c => c.toNat ≠ 0) := by
  induction chars with
  | nil => rfl
  | cons c chars ih =>
    by_cases h0 : c.toNat = 0
    · have hc : String.utf8EncodeChar c = [0] := by
        obtain ⟨_, he⟩ | ⟨_, _⟩ | ⟨_, _⟩ | ⟨_, _⟩ := utf8EncodeChar_cases c
        · rw [he, h0]
          rfl
        all_goals omega
      rw [utf8_cons, hc, List.takeWhile_cons_of_neg (by simp [h0])]
      rfl
    · have hbytes : ∀ b ∈ String.utf8EncodeChar c, (decide (b ≠ 0)) = true := by
        intro b hb
        have hne : b ≠ 0 := by
          rintro rfl
          exact h0 ((zero_mem_utf8EncodeChar c).mp hb)
        simpa using hne
      rw [utf8_cons, cString, List.takeWhile_append_of_pos hbytes,
        List.takeWhile_cons_of_pos (by simp [h0]), utf8_cons]
      exact congrArg _ ih

theorem length_readChars (chars : List Char) : (readChars chars).length = chars.length := by
  induction chars with
  | nil => rfl
  | cons c chars ih => rw [readChars, List.length_cons, ih, List.length_cons]

/-- A text that is cut at a NUL is shorter. -/
theorem readChars_of_cString {chars : List Char}
    (h : cString (utf8 (readChars chars)) = utf8 chars) : readChars chars = chars := by
  have heq := utf8_injective ((cString_utf8 _).symm.trans h)
  have hlen : ((readChars chars).takeWhile fun c => c.toNat ≠ 0).length =
      (readChars chars).length := by
    rw [heq, length_readChars]
  exact (List.IsPrefix.eq_of_length (List.takeWhile_prefix _) hlen).symm.trans heq

/-- A text survives if and only if it is not `null`, no character of several bytes is cut and the
carried offset does not come to 0. -/
theorem roundTrips_iff {s x : String} (hs : s.isQuoted = true) (hx : x.quotedSerialize = true)
    {chars : List Char} (hnul : ∀ c ∈ chars, c.toNat ≠ 0)
    (hsmall : (utf8 chars).length + 1 < 2 ^ 32) {sizes : Nat → Nat} (hsizes : ∀ i, 0 < sizes i)
    (cut : Cut) :
    RoundTrips s x chars sizes cut ↔ utf8 chars ≠ nullTag ∧ Whole chars ∧
      Carried 1 0 ((0x22, []) :: trace (textItems chars) 0)
        (cut.chunks ([0x22] ++ escapeText chars ++ [0x22])) := by
  have hpos (n : Nat) : ∀ size ∈ (List.range (n + 1)).map sizes, 0 < size := by
    intro size hmem
    obtain ⟨i, -, rfl⟩ := List.mem_map.mp hmem
    exact hsizes i
  have hwrite (n : Nat) := serializeAll_quoted (holds_assign hs hnul hsmall) (hpos n) (by simp)
  have hflat : (cut.chunks ([0x22] ++ escapeText chars ++ [0x22])).flatten =
      0x22 :: taken (trace (textItems chars) 0) ++ 0x22 :: [] := by
    rw [cut.flatten, taken_trace, textItems_bytes]
    rfl
  have hlen : ([0x22] ++ escapeText chars ++ [0x22]).length =
      (trace (textItems chars) 0).length + 2 := by
    rw [← length_taken, taken_trace, textItems_bytes]
    simp
  have hadded : added (trace (textItems chars) 0) = utf8 (readChars chars) :=
    added_trace (Or.inl rfl) (decode_textItems chars)
  obtain ⟨hcarried, hwrapped⟩ := deserializeAll_closed x.clear (textItems chars) hflat
    (cut.nonempty _)
  constructor
  · rintro ⟨n, hend, -, -, hloaded, hvalue, -, hnull⟩
    rw [(hwrite n).1 hend] at hloaded hvalue hnull
    by_cases hc : Carried 1 0 ((0x22, []) :: trace (textItems chars) 0)
        (cut.chunks ([0x22] ++ escapeText chars ++ [0x22]))
    · obtain ⟨t, ht, htext, -, hquoted, hfound, htnull⟩ := hcarried hc
      rw [ht] at hvalue hnull
      have hstatus : t.null = false ∧ t.value ≠ nullTag := by
        simpa [complete] using hnull
      rw [getValue_complete (hquoted.trans hx) hfound, if_pos hstatus, htext, hadded] at hvalue
      have hread := readChars_of_cString hvalue
      rw [htext, hadded, hread] at hstatus
      exact ⟨hstatus.2, (readChars_eq_iff chars).mp hread, hc⟩
    · have := (hwrapped hc).2
      omega
  · rintro ⟨hne, hwhole, hc⟩
    obtain ⟨t, ht, htext, -, hquoted, hfound, htnull⟩ := hcarried hc
    rw [hadded, (readChars_eq_iff chars).mpr hwhole] at htext
    have hroom := List.length_le_sum_of_one_le
      ((List.range (([0x22] ++ escapeText chars ++ [0x22]).length + 1)).map sizes) (hpos _)
    rw [List.length_map, List.length_range] at hroom
    have hend := (hwrite _).2 hroom
    have hstatus : t.null = false ∧ t.value ≠ nullTag := ⟨htnull, htext ▸ hne⟩
    refine ⟨_, hend, ?_⟩
    rw [(hwrite _).1 hend, ht]
    refine ⟨rfl, rfl, hlen.symm, ?_, rfl, ?_⟩
    · rw [getValue_complete (hquoted.trans hx) hfound, if_pos hstatus, htext]
      exact (holds_assign hs hnul hsmall).value
    · simp [complete, hstatus]

/-- `a`, through buffers of one byte and in one chunk. -/
theorem roundTrips_letter :
    RoundTrips (new true) (new true) ['a'] (fun _ => 1) Cut.whole := by
  refine (roundTrips_iff rfl rfl (by simp) (by decide) (fun _ => Nat.one_pos) Cut.whole).mpr
    ⟨by decide, ⟨by decide, trivial⟩, Or.inl (by decide)⟩

/-- `null`, through buffers of 1024 bytes and in one chunk, is read as a null. -/
theorem not_roundTrips_null :
    ¬RoundTrips (new true) (new true) ['n', 'u', 'l', 'l'] (fun _ => 1024) Cut.whole := by
  rintro ⟨n, hend, -, -, -, -, -, hnull⟩
  have hsizes : ∀ size ∈ (List.range (n + 1)).map fun _ => 1024, 0 < size := by simp
  have hholds : Holds ((new true).assign (utf8 ['n', 'u', 'l', 'l'])) (utf8 ['n', 'u', 'l', 'l']) :=
    holds_assign rfl (by simp) (by decide)
  rw [(serializeAll_quoted hholds hsizes (by simp)).1 hend] at hnull
  exact absurd hnull (by decide)

end Thunder.Core.JSON.String
