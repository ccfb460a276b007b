import Thunder.Core.JSONString

/-! What `String::Serialize` writes: the escaped text between quotes, through buffers of any size.
`ToCodePoint` gets the length of the text that is left in eight bits, so a character of several
bytes loses its last bits where that number is too small. -/

namespace Thunder.Core.JSON.String

open Chunks Unicode

/-! ### The escaped text -/

def hex4 (unit : Nat) : Text :=
  [hexDigit (unit / 0x1000 % 16), hexDigit (unit / 0x100 % 16), hexDigit (unit / 0x10 % 16),
    hexDigit (unit % 16)]

/-- The `\u` escapes of a code point. -/
def unicodeEscape (code : Nat) : Text := (utf16 code).flatMap fun unit => [0x5C, 0x75] ++ hex4 unit

/-- What is read of a character with so many bytes of the text left. -/
def readCode (c : Char) (length : Nat) : Nat := c.toNat / 64 ^ (continuations c - length % 256)

def lead (c : Char) : UInt8 := (String.utf8EncodeChar c).headD 0

def escapeChar (c : Char) (length : Nat) : Text :=
  if isPlain (lead c) then [lead c]
  else
    match shortEscape (lead c) with
    | some letter => [0x5C, letter]
    | none => unicodeEscape (readCode c length)

def escapeText : List Char → Text
  | [] => []
  | c :: chars => escapeChar c (utf8 (c :: chars)).length ++ escapeText chars

/-! ### The loop -/

/-- The String, the offset and the length that is left. -/
def writeStep (w : String × Nat × Nat) : Option (UInt8 × String × Nat × Nat) :=
  if w.2.2 = 0 then none else some (serializeByte w.1 w.2.1 w.2.2)

theorem serializeLoop_eq (room : Nat) (s : String) (offset length : Nat) :
    serializeLoop room s offset length = generate writeStep room (s, offset, length) := by
  induction room generalizing s offset length with
  | zero => rfl
  | succ room ih =>
    by_cases h : length = 0
    · simp [serializeLoop, generate, writeStep, h]
    · simp only [serializeLoop, generate, writeStep, h, if_false]
      rw [ih]

/-- The text is being written, and the length is what the offset leaves of it. -/
structure Writing (text : Text) (w : String × Nat × Nat) : Prop where
  value : w.1.value = text
  set : w.1.set = true
  quoted : w.1.isQuoted = true
  offset_pos : 1 ≤ w.2.1
  synced : w.2.1 - 1 + w.2.2 = text.length
  small : text.length + 1 < 2 ^ 32

/-! One lemma for each branch of a turn. -/

section Branches

variable {s : String} {offset length : Nat}

theorem serializeByte_plain (hb : isPlain (s.value.getD (offset - 1) 0) = true) :
    serializeByte s offset length =
      (s.value.getD (offset - 1) 0, s, u32 (offset + 1), length - 1) := by
  unfold serializeByte
  dsimp only
  rw [if_pos (Or.inr hb)]

variable (hquoted : s.isQuoted = true) (hb : isPlain (s.value.getD (offset - 1) 0) = false)
include hquoted hb

theorem not_copied : ¬(s.isQuoted = false ∨ isPlain (s.value.getD (offset - 1) 0) = true) := by
  rw [hquoted, hb]
  decide

theorem serializeByte_backslash (hspecial : s.special = false) :
    serializeByte s offset length = (0x5C, { s with special := true }, offset, length) := by
  unfold serializeByte
  dsimp only
  rw [if_neg (not_copied hquoted hb), if_pos hspecial]

theorem serializeByte_short (hspecial : s.special = true) (hcounter : s.counter = 0)
    {letter : UInt8} (hshort : shortEscape (s.value.getD (offset - 1) 0) = some letter) :
    serializeByte s offset length =
      (letter, { s with special := false }, u32 (offset + 1), length - 1) := by
  unfold serializeByte
  dsimp only
  rw [if_neg (not_copied hquoted hb), if_neg (by simp [hspecial]), if_pos (by simp [hcounter]),
    hshort]

theorem serializeByte_unicode (hspecial : s.special = true) (hcounter : s.counter = 0)
    (hshort : shortEscape (s.value.getD (offset - 1) 0) = none) :
    serializeByte s offset length = (0x75, s.startUnicode offset length, offset, length) := by
  unfold serializeByte
  dsimp only
  rw [if_neg (not_copied hquoted hb), if_neg (by simp [hspecial]), if_pos (by simp [hcounter]),
    hshort]

/-- Inside an escape, but for the last digit of a unit. -/
theorem serializeByte_inside (hspecial : s.special = true) (hcounter : s.counter &&& 0xFF ≠ 0)
    (hindex : s.counter + 1 &&& 7 ≠ 6) :
    serializeByte s offset length =
      (s.unicodeByte, { s with counter := s.counter + 1 }, offset, length) := by
  unfold serializeByte
  dsimp only
  rw [if_neg (not_copied hquoted hb), if_neg (by simp [hspecial]), if_neg hcounter, if_neg hindex]

/-- The last digit of the first unit of two. -/
theorem serializeByte_half (hspecial : s.special = true) (hcounter : s.counter &&& 0xFF ≠ 0)
    (hindex : s.counter + 1 &&& 7 = 6) (hstorage : 0xFFFF < s.storage) :
    serializeByte s offset length =
      (s.unicodeByte,
        { s with storage := s.storage &&& 0xFFFF, counter := s.counter + 1 &&& 0xF8 },
        offset, length) := by
  unfold serializeByte
  dsimp only
  rw [if_neg (not_copied hquoted hb), if_neg (by simp [hspecial]), if_neg hcounter, if_pos hindex,
    if_pos hstorage]

/-- The last digit of an escape. -/
theorem serializeByte_last (hspecial : s.special = true) (hcounter : s.counter &&& 0xFF ≠ 0)
    (hindex : s.counter + 1 &&& 7 = 6) (hstorage : s.storage ≤ 0xFFFF) :
    serializeByte s offset length =
      (s.unicodeByte, { s with counter := 0, special := false },
        u32 (offset + ((s.counter + 1) >>> 3 &&& 7)),
        u32 (length + 2 ^ 32 - ((s.counter + 1) >>> 3 &&& 7))) := by
  unfold serializeByte
  dsimp only
  rw [if_neg (not_copied hquoted hb), if_neg (by simp [hspecial]), if_neg hcounter, if_pos hindex,
    if_neg (by omega)]

end Branches

/-- `s` between two characters, or inside an escape. -/
def paused (s : String) (special : Bool) (counter storage : Nat) : String :=
  { s with special := special, counter := counter, storage := storage }

/-- A quoted String that is set and has this value. -/
structure Holds (s : String) (text : Text) : Prop where
  value : s.value = text
  set : s.set = true
  quoted : s.isQuoted = true
  small : text.length + 1 < 2 ^ 32

section Steps

variable {s : String} {pre post : Text} {b : UInt8} {storage : Nat}

theorem Holds.writing (h : Holds s (pre ++ post)) (special : Bool) (counter storage : Nat) :
    Writing (pre ++ post) (paused s special counter storage, pre.length + 1, post.length) where
  value := h.value
  set := h.set
  quoted := h.quoted
  offset_pos := by simp
  synced := by simp
  small := h.small

theorem Holds.writing_end {text : Text} (h : Holds s text) (storage : Nat) :
    Writing text (paused s false 0 storage, text.length + 1, 0) where
  value := h.value
  set := h.set
  quoted := h.quoted
  offset_pos := by simp
  synced := by simp
  small := h.small

theorem Holds.current (h : Holds s (pre ++ b :: post)) (special : Bool) (counter storage : Nat) :
    (paused s special counter storage).value.getD (pre.length + 1 - 1) 0 = b := by
  show s.value.getD (pre.length + 1 - 1) 0 = b
  rw [h.value]
  simp

theorem Holds.isQuoted (h : Holds s (pre ++ b :: post)) (special : Bool) (counter storage : Nat) :
    (paused s special counter storage).isQuoted = true := h.quoted

theorem Holds.not_plain (h : Holds s (pre ++ b :: post)) (hb : isPlain b = false) (special : Bool)
    (counter storage : Nat) :
    isPlain ((paused s special counter storage).value.getD (pre.length + 1 - 1) 0) = false := by
  rw [h.current]
  exact hb

theorem Holds.next_offset (h : Holds s (pre ++ b :: post)) :
    u32 (pre.length + 1 + 1) = (pre ++ [b]).length + 1 := by
  have := h.small
  rw [u32_of_lt (by simp at this; omega)]
  simp

theorem yields_one {w w' : String × Nat × Nat} {text : Text} (h : Writing text w)
    (hlen : w.2.2 ≠ 0) (hstep : serializeByte w.1 w.2.1 w.2.2 = (b, w')) :
    Yields writeStep (Writing text) w [b] w' := by
  refine Yields.cons h ?_ Yields.nil
  rw [writeStep, if_neg hlen, hstep]

theorem yields_plain (h : Holds s (pre ++ b :: post)) (hb : isPlain b = true) :
    Yields writeStep (Writing (pre ++ b :: post))
      (paused s false 0 storage, pre.length + 1, (b :: post).length) [b]
      (paused s false 0 storage, (pre ++ [b]).length + 1, post.length) := by
  apply yields_one (h.writing false 0 storage) (by simp)
  have hcurrent := h.current false 0 storage
  rw [serializeByte_plain (by rw [hcurrent]; exact hb), hcurrent, h.next_offset]
  rfl

theorem yields_backslash (h : Holds s (pre ++ b :: post)) (hb : isPlain b = false) :
    Yields writeStep (Writing (pre ++ b :: post))
      (paused s false 0 storage, pre.length + 1, (b :: post).length) [0x5C]
      (paused s true 0 storage, pre.length + 1, (b :: post).length) := by
  apply yields_one (h.writing false 0 storage) (by simp)
  exact serializeByte_backslash (h.isQuoted false 0 storage) (h.not_plain hb false 0 storage) rfl

theorem yields_short (h : Holds s (pre ++ b :: post)) (hb : isPlain b = false) {letter : UInt8}
    (hshort : shortEscape b = some letter) :
    Yields writeStep (Writing (pre ++ b :: post))
      (paused s false 0 storage, pre.length + 1, (b :: post).length) [0x5C, letter]
      (paused s false 0 storage, (pre ++ [b]).length + 1, post.length) := by
  refine (yields_backslash h hb).append (yields_one (h.writing true 0 storage) (by simp) ?_)
  refine (serializeByte_short (h.isQuoted true 0 storage) (h.not_plain hb true 0 storage) rfl rfl
    (by rw [h.current]; exact hshort)).trans ?_
  rw [h.next_offset]
  rfl

/-! ### Escapes of code points -/

theorem counter_index : ∀ skip < 8, ∀ index < 6, skip * 8 + index &&& 7 = index ∧
    (skip * 8 + index + 1 &&& 7 = 6 ↔ index = 5) ∧
    (0 < skip → skip * 8 + index &&& 0xFF ≠ 0) ∧ skip * 8 + 5 + 1 &&& 0xF8 = skip * 8 ∧
    (skip * 8 + 5 + 1) >>> 3 &&& 7 = skip := by decide

theorem hexDigit_shift (storage k : Nat) :
    hexDigit (storage >>> (k * 4) &&& 0xF) = hexDigit (storage / 16 ^ k % 16) := by
  have hlow : storage >>> (k * 4) &&& 0xF = storage >>> (k * 4) % 16 :=
    Nat.and_two_pow_sub_one_eq_mod _ 4
  rw [hlow, Nat.shiftRight_eq_div_pow, Nat.mul_comm, Nat.pow_mul]

/-- The unit that is being written. -/
def unitOf (storage : Nat) : Nat := if 0xFFFF < storage then storage / 0x10000 else storage

theorem unicodeByte_digit {skip index : Nat} (hskip : skip < 8) (h2 : 2 ≤ index) (hindex : index < 6) :
    (paused s true (skip * 8 + index) storage).unicodeByte =
      hexDigit (unitOf storage / 16 ^ (5 - index) % 16) := by
  have hat : (paused s true (skip * 8 + index) storage).counter &&& 7 = index :=
    (counter_index skip hskip index hindex).1
  unfold unicodeByte
  rw [hat]
  show (if index < 2 then _ else
    hexDigit (storage >>> ((if 0xFFFF < storage then 16 else 0) + (5 - index) * 4) &&& 0xF)) = _
  rw [if_neg (by omega), unitOf]
  by_cases hlarge : 0xFFFF < storage
  · rw [if_pos hlarge, if_pos hlarge, Nat.shiftRight_add, hexDigit_shift, Nat.shiftRight_eq_div_pow]
  · rw [if_neg hlarge, if_neg hlarge, Nat.zero_add, hexDigit_shift]

section Unicode

variable (storage) {skip : Nat} (h : Holds s (pre ++ b :: post)) (hb : isPlain b = false) (hpos : 0 < skip)
  (hskip : skip < 8)
include h hb hpos hskip

theorem yields_inside (index : Nat) (hindex : index < 5) :
    Yields writeStep (Writing (pre ++ b :: post))
      (paused s true (skip * 8 + index) storage, pre.length + 1, (b :: post).length)
      [(paused s true (skip * 8 + index) storage).unicodeByte]
      (paused s true (skip * 8 + (index + 1)) storage, pre.length + 1, (b :: post).length) := by
  obtain ⟨_, hlast, hcounter, _⟩ := counter_index skip hskip index (by omega)
  apply yields_one (h.writing true (skip * 8 + index) storage) (by simp)
  exact serializeByte_inside (h.isQuoted true (skip * 8 + index) storage)
    (h.not_plain hb true (skip * 8 + index) storage) rfl (hcounter hpos)
    (fun h6 => absurd (hlast.mp h6) (by omega))

/-- The first three digits of a unit. -/
theorem yields_digits :
    Yields writeStep (Writing (pre ++ b :: post))
      (paused s true (skip * 8 + 2) storage, pre.length + 1, (b :: post).length)
      ((hex4 (unitOf storage)).take 3)
      (paused s true (skip * 8 + 5) storage, pre.length + 1, (b :: post).length) := by
  have h2 := yields_inside storage h hb hpos hskip 2 (by decide)
  have h3 := yields_inside storage h hb hpos hskip 3 (by decide)
  have h4 := yields_inside storage h hb hpos hskip 4 (by decide)
  rw [unicodeByte_digit hskip (by decide) (by decide)] at h2 h3 h4
  exact (h2.append h3).append h4

/-- The first unit of a pair, and the backslash and the letter of the second one. -/
theorem yields_high (hstorage : 0xFFFF < storage) :
    Yields writeStep (Writing (pre ++ b :: post))
      (paused s true (skip * 8 + 2) storage, pre.length + 1, (b :: post).length)
      (hex4 (storage / 0x10000) ++ [0x5C, 0x75])
      (paused s true (skip * 8 + 2) (storage % 0x10000), pre.length + 1, (b :: post).length) := by
  have hunit : unitOf storage = storage / 0x10000 := if_pos hstorage
  obtain ⟨_, hlast, hcounter, hback, _⟩ := counter_index skip hskip 5 (by decide)
  have hlow : storage &&& 0xFFFF = storage % 0x10000 := Nat.and_two_pow_sub_one_eq_mod storage 16
  have hdigits := yields_digits storage h hb hpos hskip
  have hdigit : Yields writeStep (Writing (pre ++ b :: post))
      (paused s true (skip * 8 + 5) storage, pre.length + 1, (b :: post).length)
      [hexDigit (storage / 0x10000 % 16)]
      (paused s true (skip * 8) (storage % 0x10000), pre.length + 1, (b :: post).length) := by
    apply yields_one (h.writing true (skip * 8 + 5) storage) (by simp)
    refine (serializeByte_half (h.isQuoted true (skip * 8 + 5) storage)
      (h.not_plain hb true (skip * 8 + 5) storage) rfl (hcounter hpos) (hlast.mpr rfl)
      hstorage).trans ?_
    rw [unicodeByte_digit hskip (by decide) (by decide), hunit]
    show (_, paused s true (skip * 8 + 5 + 1 &&& 0xF8) (storage &&& 0xFFFF), _) = _
    rw [hback, hlow]
    simp
  have h0 := yields_inside (storage % 0x10000) h hb hpos hskip 0 (by decide)
  have h1 := yields_inside (storage % 0x10000) h hb hpos hskip 1 (by decide)
  have hbyte0 : (paused s true (skip * 8 + 0) (storage % 0x10000)).unicodeByte = 0x5C := by
    unfold unicodeByte
    rw [show (paused s true (skip * 8 + 0) (storage % 0x10000)).counter &&& 7 = 0 from
      (counter_index skip hskip 0 (by decide)).1]
    rfl
  have hbyte1 : (paused s true (skip * 8 + 1) (storage % 0x10000)).unicodeByte = 0x75 := by
    unfold unicodeByte
    rw [show (paused s true (skip * 8 + 1) (storage % 0x10000)).counter &&& 7 = 1 from
      (counter_index skip hskip 1 (by decide)).1]
    rfl
  rw [hbyte0] at h0
  rw [hbyte1] at h1
  rw [hunit] at hdigits
  exact (hdigits.append hdigit).append (h0.append h1)

/-- The last unit, behind which the text goes on after the bytes of the character. -/
theorem yields_low (hle : skip ≤ (b :: post).length) (hstorage : storage ≤ 0xFFFF) :
    Yields writeStep (Writing (pre ++ b :: post))
      (paused s true (skip * 8 + 2) storage, pre.length + 1, (b :: post).length)
      (hex4 storage)
      (paused s false 0 storage, pre.length + skip + 1, (b :: post).length - skip) := by
  have hunit : unitOf storage = storage := if_neg (by omega)
  obtain ⟨_, hlast, hcounter, _, hback⟩ := counter_index skip hskip 5 (by decide)
  have hdigits := yields_digits storage h hb hpos hskip
  have hsmall := h.small
  rw [List.length_append] at hsmall
  have hoffset : u32 (pre.length + 1 + skip) = pre.length + skip + 1 := by
    rw [u32_of_lt (by omega)]
    omega
  have hlength : u32 ((b :: post).length + 2 ^ 32 - skip) = (b :: post).length - skip := by
    unfold u32
    omega
  rw [hunit] at hdigits
  refine hdigits.append (yields_one (h.writing true (skip * 8 + 5) storage) (by simp) ?_)
  refine (serializeByte_last (h.isQuoted true (skip * 8 + 5) storage)
    (h.not_plain hb true (skip * 8 + 5) storage) rfl (hcounter hpos) (hlast.mpr rfl)
    hstorage).trans ?_
  rw [unicodeByte_digit hskip (by decide) (by decide), hunit]
  show (_, paused s false 0 storage, u32 (pre.length + 1 + ((skip * 8 + 5 + 1) >>> 3 &&& 7)),
    u32 ((b :: post).length + 2 ^ 32 - ((skip * 8 + 5 + 1) >>> 3 &&& 7))) = _
  rw [hback, hoffset, hlength]
  simp

/-- The escapes of the code point that is read at this place. -/
theorem yields_unicode (hle : skip ≤ (b :: post).length) (hshort : shortEscape b = none)
    {code : Nat} (hcode : code < 0x110000)
    (hread : toCodePoint (b :: post) (b :: post).length = ((skip : Int), code)) :
    ∃ storage', Yields writeStep (Writing (pre ++ b :: post))
      (paused s false 0 storage, pre.length + 1, (b :: post).length) (unicodeEscape code)
      (paused s false 0 storage', pre.length + skip + 1, (b :: post).length - skip) := by
  have hcounter : ∀ skip < 8, 0 ||| ((skip &&& 7) <<< 3 ||| 2) = skip * 8 + 2 := by decide
  have hdrop : s.value.drop (pre.length + 1 - 1) = b :: post := by
    rw [h.value]
    simp
  have hstart : (paused s true 0 storage).startUnicode (pre.length + 1) (b :: post).length =
      paused s true (skip * 8 + 2)
        ((codePointToUTF16 code).2.1 <<< 16 ||| (codePointToUTF16 code).1) := by
    unfold startUnicode
    rw [show (paused s true 0 storage).value.drop (pre.length + 1 - 1) = b :: post from hdrop, hread]
    dsimp only
    rw [if_neg (by omega), Int.toNat_natCast]
    show paused s true (0 ||| ((skip &&& 7) <<< 3 ||| 2)) _ = _
    rw [hcounter skip hskip]
  have hstart : Yields writeStep (Writing (pre ++ b :: post))
      (paused s false 0 storage, pre.length + 1, (b :: post).length) [0x5C, 0x75]
      (paused s true (skip * 8 + 2)
        ((codePointToUTF16 code).2.1 <<< 16 ||| (codePointToUTF16 code).1), pre.length + 1,
        (b :: post).length) := by
    refine (yields_backslash h hb).append (yields_one (h.writing true 0 storage) (by simp) ?_)
    refine (serializeByte_unicode (h.isQuoted true 0 storage) (h.not_plain hb true 0 storage) rfl
      rfl (by rw [h.current]; exact hshort)).trans ?_
    rw [hstart]
  by_cases hsmall : code < 0x10000
  · rw [codePointToUTF16_low hsmall] at hstart
    simp only [Nat.zero_shiftLeft, Nat.zero_or] at hstart
    refine ⟨code, ?_⟩
    have hunits : unicodeEscape code = [0x5C, 0x75] ++ hex4 code := by
      simp [unicodeEscape, utf16, hsmall]
    rw [hunits]
    exact hstart.append (yields_low code h hb hpos hskip hle (by omega))
  · have hpair : (0xD800 + (code - 0x10000) / 0x400) <<< 16 ||| (0xDC00 + (code - 0x10000) % 0x400) =
        (0xD800 + (code - 0x10000) / 0x400) * 0x10000 + (0xDC00 + (code - 0x10000) % 0x400) := by
      rw [← Nat.shiftLeft_add_eq_or_of_lt (by omega), Nat.shiftLeft_eq]
    rw [codePointToUTF16_pair (by omega) hcode] at hstart
    dsimp only at hstart
    rw [hpair] at hstart
    refine ⟨0xDC00 + (code - 0x10000) % 0x400, ?_⟩
    have hunits : unicodeEscape code =
        [0x5C, 0x75] ++ (hex4 (0xD800 + (code - 0x10000) / 0x400) ++ [0x5C, 0x75] ++
          hex4 (0xDC00 + (code - 0x10000) % 0x400)) := by
      simp [unicodeEscape, utf16, hsmall]
    have hhigh := yields_high
      ((0xD800 + (code - 0x10000) / 0x400) * 0x10000 + (0xDC00 + (code - 0x10000) % 0x400)) h hb
      hpos hskip (by omega)
    have hdiv : ((0xD800 + (code - 0x10000) / 0x400) * 0x10000 +
        (0xDC00 + (code - 0x10000) % 0x400)) / 0x10000 = 0xD800 + (code - 0x10000) / 0x400 := by
      omega
    have hmod : ((0xD800 + (code - 0x10000) / 0x400) * 0x10000 +
        (0xDC00 + (code - 0x10000) % 0x400)) % 0x10000 = 0xDC00 + (code - 0x10000) % 0x400 := by
      omega
    rw [hdiv, hmod] at hhigh
    rw [hunits]
    exact hstart.append (hhigh.append (yields_low _ h hb hpos hskip hle (by omega)))

end Unicode

/-! ### Characters and texts -/

/-- A character with a first byte that is written as it is or has a letter is that byte. -/
theorem ascii_of_written {c : Char} (h : isPlain (lead c) = true ∨ (shortEscape (lead c)).isSome) :
    String.utf8EncodeChar c = [lead c] := by
  have hhigh (n : Nat) (hn : n < 256) (hge : 0xC0 ≤ n) :
      isPlain (UInt8.ofNat n) = false ∧ (shortEscape (UInt8.ofNat n)).isSome = false := by
    have hne (b : UInt8) (hb : b.toNat < 0xC0) : UInt8.ofNat n ≠ b := by
      rintro rfl
      rw [UInt8.toNat_ofNat', Nat.mod_eq_of_lt hn] at hb
      omega
    constructor
    · simp only [isPlain, isprint, UInt8.le_iff_toNat_le, UInt8.toNat_ofNat', Nat.mod_eq_of_lt hn,
        UInt8.reduceToNat, decide_eq_true_eq, decide_eq_false_iff_not]
      omega
    · unfold shortEscape
      rw [if_neg (hne _ (by decide)), if_neg (hne _ (by decide)), if_neg (hne _ (by decide)),
        if_neg (hne _ (by decide)), if_neg (hne _ (by decide)), if_neg (hne _ (by decide)),
        if_neg (hne _ (by decide)), if_neg (hne _ (by decide))]
      rfl
  have hnot (n : Nat) (h0 : 0xC0 ≤ n) (h1 : n < 256) (hlead : lead c = UInt8.ofNat n) : False := by
    obtain ⟨hp, hs⟩ := hhigh n h1 h0
    rw [hlead, hp, hs] at h
    simp at h
  obtain ⟨_, he⟩ | ⟨h0, h1, he⟩ | ⟨h0, h1, he⟩ | ⟨h0, h1, he⟩ := utf8EncodeChar_cases c
  · simp [lead, he]
  · exact (hnot (c.toNat / 64 + 0xC0) (by omega) (by omega) (by rw [lead, he]; rfl)).elim
  · exact (hnot (c.toNat / 4096 + 0xE0) (by omega) (by omega) (by rw [lead, he]; rfl)).elim
  · exact (hnot (c.toNat / 262144 + 0xF0) (by omega) (by omega) (by rw [lead, he]; rfl)).elim

theorem utf8EncodeChar_lead (c : Char) :
    String.utf8EncodeChar c = lead c :: (String.utf8EncodeChar c).tail ∧
      (String.utf8EncodeChar c).length = continuations c + 1 ∧ continuations c < 4 := by
  obtain ⟨_, he⟩ | ⟨_, _, he⟩ | ⟨_, _, he⟩ | ⟨_, _, he⟩ := utf8EncodeChar_cases c
  all_goals
    rw [lead, continuations, he]
    exact ⟨rfl, rfl, by simp⟩

variable (storage) in
theorem yields_char {c : Char} {rest : Text}
    (h : Holds s (pre ++ (String.utf8EncodeChar c ++ rest))) :
    ∃ storage', Yields writeStep (Writing (pre ++ (String.utf8EncodeChar c ++ rest)))
      (paused s false 0 storage, pre.length + 1, (String.utf8EncodeChar c ++ rest).length)
      (escapeChar c (String.utf8EncodeChar c ++ rest).length)
      (paused s false 0 storage', (pre ++ String.utf8EncodeChar c).length + 1, rest.length) := by
  unfold escapeChar
  by_cases hplain : isPlain (lead c) = true
  · rw [ascii_of_written (Or.inl hplain)] at h ⊢
    rw [if_pos hplain]
    exact ⟨storage, yields_plain h hplain⟩
  have hb : isPlain (lead c) = false := by simpa using hplain
  rw [if_neg hplain]
  cases hshort : shortEscape (lead c) with
  | some letter =>
    rw [ascii_of_written (Or.inr (by simp [hshort]))] at h ⊢
    exact ⟨storage, yields_short h hb hshort⟩
  | none =>
    obtain ⟨hlead, hlen, hsize⟩ := utf8EncodeChar_lead c
    have hread := toCodePoint_char c rest (String.utf8EncodeChar c ++ rest).length
    have hcode : readCode c (String.utf8EncodeChar c ++ rest).length < 0x110000 :=
      lt_of_le_of_lt (Nat.div_le_self _ _) (code_lt c)
    generalize hbytes : String.utf8EncodeChar c ++ rest = bytes at *
    obtain rfl : bytes = lead c :: ((String.utf8EncodeChar c).tail ++ rest) := by
      rw [← hbytes, ← List.cons_append, ← hlead]
    obtain ⟨storage', hyields⟩ := yields_unicode storage h hb (Nat.succ_pos (continuations c))
      (by omega) (by rw [← hbytes, List.length_append]; omega) hshort hcode hread
    refine ⟨storage', ?_⟩
    have hrest : (lead c :: ((String.utf8EncodeChar c).tail ++ rest)).length -
        (continuations c + 1) = rest.length := by
      rw [← hbytes, List.length_append]
      omega
    rw [List.length_append, hlen, ← hrest]
    exact hyields

variable (storage) in
theorem yields_text {chars : List Char} (h : Holds s (pre ++ utf8 chars)) :
    ∃ storage', Yields writeStep (Writing (pre ++ utf8 chars))
      (paused s false 0 storage, pre.length + 1, (utf8 chars).length) (escapeText chars)
      (paused s false 0 storage', (pre ++ utf8 chars).length + 1, 0) := by
  induction chars generalizing pre storage with
  | nil => exact ⟨storage, by simpa [escapeText] using Yields.nil⟩
  | cons c chars ih =>
    rw [utf8_cons] at h ⊢
    obtain ⟨storage₁, hchar⟩ := yields_char storage h
    rw [← List.append_assoc] at h
    obtain ⟨storage₂, hrest⟩ := ih storage₁ h
    rw [List.append_assoc] at hrest
    exact ⟨storage₂, hchar.append hrest⟩

end Steps

/-! ### Calls -/

/-- A quoted String with this text has `bytes` to write: all of it at the offset 0, and then what
the loop and the closing quote still put out. -/
def Rest (chars : List Char) (w : String × Nat) (bytes : Text) : Prop :=
  (w.2 = 0 ∧ Holds w.1 (utf8 chars) ∧ bytes = [0x22] ++ escapeText chars ++ [0x22]) ∨
  ∃ length more t, Writing (utf8 chars) (w.1, w.2, length) ∧
    Yields writeStep (Writing (utf8 chars)) (w.1, w.2, length) more t ∧
    Writing (utf8 chars) t ∧ t.2.2 = 0 ∧ bytes = more ++ [0x22]

/-- What the loop and the closing quote put out behind `opening`. -/
theorem closeText_loop {chars : List Char} {s : String} {offset length : Nat} {more : Text}
    {t : String × Nat × Nat} (hyields : Yields writeStep (Writing (utf8 chars)) (s, offset, length) more t)
    (ht : Writing (utf8 chars) t) (hend : t.2.2 = 0) (opening : Text) {size : Nat}
    (hopening : opening.length ≤ size) {r : Text × String × Nat}
    (hr : r = closeText size
      (opening ++ (serializeLoop (size - opening.length) s offset length).1)
      (serializeLoop (size - opening.length) s offset length).2.1
      (serializeLoop (size - opening.length) s offset length).2.2.1
      (serializeLoop (size - opening.length) s offset length).2.2.2) :
    r.1 = (opening ++ more ++ [0x22]).take size ∧
      (r.2.2 = 0 → (opening ++ more ++ [0x22]).length ≤ size) ∧
      ((opening ++ more ++ [0x22]).length ≤ size → r.2.2 = 0) ∧
      (r.2.2 ≠ 0 → Rest chars (r.2.1, r.2.2) ((opening ++ more ++ [0x22]).drop size)) := by
  rw [serializeLoop_eq] at hr
  by_cases hroom : size - opening.length < more.length
  · obtain ⟨m, hm, hrest⟩ := hyields.generate (Nat.le_of_lt hroom)
    have hinv := hrest.inv_start ht
    have hne : m.2.2 ≠ 0 := by
      cases hdrop : more.drop (size - opening.length) with
      | nil => simp at hdrop; omega
      | cons b bytes =>
        rw [hdrop] at hrest
        cases hrest with
        | cons _ hstep _ =>
          intro h0
          rw [writeStep, if_pos h0] at hstep
          exact absurd hstep (by simp)
    have hpos := hinv.offset_pos
    rw [hm] at hr
    dsimp only at hr
    rw [closeText, if_neg hne] at hr
    subst hr
    have hlen : ¬(opening ++ more ++ [0x22]).length ≤ size := by simp; omega
    refine ⟨?_, fun h0 => absurd h0 (by dsimp only; omega), fun hle => absurd hle hlen, fun _ => ?_⟩
    · rw [List.append_assoc, take_append_of_ge hopening,
        List.take_append_of_le_length (by omega)]
    · refine Or.inr ⟨m.2.2, more.drop (size - opening.length), t, hinv, hrest, ht, hend, ?_⟩
      rw [List.append_assoc, drop_append_of_ge hopening, List.drop_append_of_le_length (by omega)]
  · have hgenerate := hyields.generate_add (size - opening.length - more.length)
    have hstop : writeStep t = none := if_pos hend
    have hnone (n : Nat) : generate writeStep n t = ([], t) := by
      cases n with
      | zero => rfl
      | succ n => rw [generate, hstop]
    rw [hnone, List.append_nil, Nat.add_sub_of_le (by omega)] at hgenerate
    rw [hgenerate] at hr
    dsimp only at hr
    rw [closeText, if_pos hend, if_neg (by simp [ht.quoted])] at hr
    have hpos := ht.offset_pos
    by_cases hfull : (opening ++ more).length < size
    · rw [if_pos hfull] at hr
      subst hr
      have hlen : (opening ++ more ++ [0x22]).length ≤ size := by
        rw [List.length_append]
        exact hfull
      exact ⟨(List.take_of_length_le hlen).symm, fun _ => hlen, fun _ => rfl,
        fun h0 => absurd rfl h0⟩
    · rw [if_neg hfull] at hr
      subst hr
      have heq : (opening ++ more).length = size := by
        rw [List.length_append] at hfull ⊢
        omega
      refine ⟨?_, fun h0 => absurd h0 (by dsimp only; omega), fun hle => ?_, fun _ => ?_⟩
      · rw [← heq, List.take_left]
      · rw [List.length_append, heq] at hle
        exact absurd hle (Nat.not_succ_le_self size)
      · refine Or.inr ⟨0, [], t, ?_, ?_, ht, hend, ?_⟩
        · rw [← hend]
          exact ht
        · rw [← hend]
          exact Yields.nil
        · rw [← heq, List.drop_left]
          rfl

/-- Buffers of any size put out the escaped text between quotes. -/
theorem serialize_finishes (chars : List Char) :
    Finishes IElement.write (fun w => w.2 = 0) (Rest chars) := by
  rintro ⟨s, offset⟩ bytes size hsize hrest
  suffices h : (IElement.write (s, offset) size).1 = bytes.take size ∧
      ((IElement.write (s, offset) size).2.2 = 0 → bytes.length ≤ size) ∧
      (bytes.length ≤ size → (IElement.write (s, offset) size).2.2 = 0) ∧
      ((IElement.write (s, offset) size).2.2 ≠ 0 →
        Rest chars ((IElement.write (s, offset) size).2.1, (IElement.write (s, offset) size).2.2)
          (bytes.drop size)) from
    ⟨h.1, fun hlt => h.2.2.1 (Nat.le_of_lt hlt), h.2.1, h.2.2.2⟩
  rcases hrest with ⟨h0, hs, rfl⟩ | ⟨length, more, t, hw, hyields, ht, hend, rfl⟩
  · obtain rfl : offset = 0 := h0
    have hset := hs.set
    have hsmall := hs.small
    have hstart : Holds { s with quotedArea := false } ([] ++ utf8 chars) :=
      ⟨hs.value, hs.set, hs.quoted, hsmall⟩
    obtain ⟨storage', hyields⟩ := yields_text s.storage hstart
    have hlength : u32 (u32 s.value.length + 2 ^ 32 - (1 - 1)) = (utf8 chars).length := by
      rw [hs.value]
      unfold u32
      omega
    apply closeText_loop hyields (hstart.writing_end storage') rfl [0x22] hsize
    have hquoted := hs.quoted
    show serialize s size 0 = _
    unfold serialize
    rw [if_pos (Or.inl hset)]
    simp only [if_true, hquoted, hlength]
    rfl
  · have hpos : offset ≠ 0 := Nat.pos_iff_ne_zero.mp hw.offset_pos
    have hset : s.set = true := hw.set
    have hsynced : offset - 1 + length = (utf8 chars).length := hw.synced
    have hsmall := hw.small
    have hvalue : s.value = utf8 chars := hw.value
    have hlength : u32 (u32 s.value.length + 2 ^ 32 - (offset - 1)) = length := by
      rw [hvalue]
      unfold u32
      omega
    apply closeText_loop hyields ht hend [] (Nat.zero_le size)
    simp only [IElement.write, IElement.serialize, serialize, hset, true_or, if_true, hpos, if_false, hlength]

end Thunder.Core.JSON.String
