import Thunder.Library.Unicode
import Thunder.Core.Metadata
import Mathlib.Data.Nat.Bitwise

/-! Code points, UTF-16 parts and UTF-8 bytes (`Serialization.cpp`). -/

namespace Thunder.Core

open Unicode

/-- The low part, the high part, and whether there are such parts. -/
def codePointToUTF16 (codePoint : Nat) : Nat × Nat × Bool :=
  if codePoint ≤ 0xFFFF then (codePoint, 0, true)
  else
    let adjustedCodePoint := codePoint - 0x10000
    if 0xFFFFF < adjustedCodePoint then (0x20, 0, false)
    else (adjustedCodePoint &&& 0x3FF ||| 0xDC00, adjustedCodePoint >>> 10 &&& 0x3FF ||| 0xD800, true)

def utf16ToCodePoint (lowPart highPart : Nat) : Nat × Bool :=
  if highPart = 0 then (lowPart, true)
  else if lowPart &&& 0xFC00 = 0xDC00 ∧ highPart &&& 0xFC00 = 0xD800 then
    ((lowPart &&& 0x3FF ||| (highPart &&& 0x3FF) <<< 10) + 0x10000, true)
  else (0x20, false)

/-- The number of bytes after the first one, by the first one. -/
def followingOfHeader (header : Nat) : Nat :=
  if header < 0xC0 then 0 else if header < 0xE0 then 1 else if header < 0xF0 then 2
  else if header < 0xF8 then 3 else if header < 0xFC then 4 else 5

def shiftIn (codePoint : Nat) (b : UInt8) : Nat := codePoint <<< 6 ||| (b.toNat &&& 0x3F)

/-- The size, negative if a byte is no continuation byte, and the code point.  `length` is a
`uint8_t`; the byte behind the text is a zero. -/
def toCodePoint (data : List UInt8) (length : Nat) : Int × Nat :=
  let header := (data.headD 0).toNat
  let following := followingOfHeader header
  if following = 0 then (1, header &&& 0x7F)
  else
    let shifted := (data.tail ++ [0]).take (min following (length % 256))
    let codePoint := shifted.foldl shiftIn (header &&& (1 <<< (7 - following) - 1))
    let invalid := shifted.any fun b => b &&& 0xC0 ≠ 0x80
    (if invalid then -(following + 1) else following + 1, codePoint)

/-- The number of bytes after the first one, by the code point. -/
def followingOfCodePoint (codePoint : Nat) : Nat :=
  if codePoint ≤ 0x7F then 0 else if codePoint ≤ 0x7FF then 1 else if codePoint ≤ 0xFFFF then 2
  else if codePoint ≤ 0x1FFFFF then 3 else if codePoint ≤ 0x3FFFFFF then 4 else 5

def continuationByte (shifter : Nat) : UInt8 := UInt8.ofNat (shifter &&& 0x3F ||| 0x80)

/-- The loop that shifts out the easy bits, the last byte first. -/
def shiftOut : Nat → Nat → List UInt8
  | 0, _ => []
  | following + 1, shifter => shiftOut following (shifter >>> 6) ++ [continuationByte shifter]

/-- The bytes that are written; a buffer of six bytes has room for all of them. -/
def fromCodePoint (codePoint : Nat) : Text :=
  let following := followingOfCodePoint codePoint
  if following = 0 then [UInt8.ofNat (codePoint &&& 0x7F)]
  else
    UInt8.ofNat ((0xFF ^^^ (1 <<< (7 - following) - 1)) |||
      (codePoint >>> (6 * following) &&& 0x3F)) :: shiftOut following codePoint

def toQuotedString (quote : UInt8) (input : Text) : Text :=
  quote :: input.flatMap (fun entry => if entry = quote then [0x5C, entry] else [entry]) ++ [quote]

/-! ### Characters -/

/-- The number of continuation bytes of a character. -/
def continuations (c : Char) : Nat := (String.utf8EncodeChar c).length - 1

theorem and_3F (n : Nat) : n &&& 0x3F = n % 64 := Nat.and_two_pow_sub_one_eq_mod n 6

theorem continuationByte_eq (n : Nat) : continuationByte n = UInt8.ofNat (n % 64 + 0x80) := by
  have h : ∀ x < 64, x ||| 0x80 = x + 0x80 := by decide
  rw [continuationByte, and_3F, h _ (Nat.mod_lt _ (by decide))]

theorem shiftIn_continuation (codePoint : Nat) {x : Nat} (h : x < 64) :
    shiftIn codePoint (UInt8.ofNat (x + 0x80)) = codePoint * 64 + x := by
  have hb : (UInt8.ofNat (x + 0x80)).toNat = x + 0x80 := by
    simp only [UInt8.toNat_ofNat']
    omega
  have hlow : (x + 0x80) % 64 = x := by omega
  rw [shiftIn, hb, and_3F, hlow, ← Nat.shiftLeft_add_eq_or_of_lt (by simpa using h),
    Nat.shiftLeft_eq]

theorem continuation_valid {x : Nat} (h : x < 64) : UInt8.ofNat (x + 0x80) &&& 0xC0 = 0x80 := by
  have : ∀ x < 64, UInt8.ofNat (x + 0x80) &&& 0xC0 = 0x80 := by decide
  exact this x h

theorem fromCodePoint_char (c : Char) : fromCodePoint c.toNat = String.utf8EncodeChar c := by
  have h2 : ∀ x < 32, 0xC0 ||| x = x + 0xC0 := by decide
  have h3 : ∀ x < 16, 0xE0 ||| x = x + 0xE0 := by decide
  have h4 : ∀ x < 8, 0xF0 ||| x = x + 0xF0 := by decide
  obtain ⟨h, he⟩ | ⟨h, h', he⟩ | ⟨h, h', he⟩ | ⟨h, h', he⟩ := utf8EncodeChar_cases c
  · have hf : followingOfCodePoint c.toNat = 0 := if_pos (by omega)
    have hlow : c.toNat &&& 0x7F = c.toNat :=
      (Nat.and_two_pow_sub_one_eq_mod _ 7).trans (Nat.mod_eq_of_lt h)
    simp [fromCodePoint, hf, hlow, he]
  · have hf : followingOfCodePoint c.toNat = 1 := by
      unfold followingOfCodePoint
      rw [if_neg (by omega), if_pos (by omega)]
    have hlead : c.toNat / 64 % 64 = c.toNat / 64 := Nat.mod_eq_of_lt (by omega)
    simp [fromCodePoint, hf, he, shiftOut, continuationByte_eq, Nat.shiftRight_eq_div_pow, and_3F, hlead,
      h2 _ (by omega : c.toNat / 64 < 32)]
  · have hf : followingOfCodePoint c.toNat = 2 := by
      unfold followingOfCodePoint
      rw [if_neg (by omega), if_neg (by omega), if_pos (by omega)]
    have hlead : c.toNat / 4096 % 64 = c.toNat / 4096 := Nat.mod_eq_of_lt (by omega)
    simp [fromCodePoint, hf, he, shiftOut, continuationByte_eq, Nat.shiftRight_eq_div_pow, and_3F, hlead,
      h3 _ (by omega : c.toNat / 4096 < 16)]
  · have hf : followingOfCodePoint c.toNat = 3 := by
      unfold followingOfCodePoint
      rw [if_neg (by omega), if_neg (by omega), if_neg (by omega), if_pos (by omega)]
    have hlead : c.toNat / 262144 % 64 = c.toNat / 262144 := Nat.mod_eq_of_lt (by omega)
    simp [fromCodePoint, hf, he, shiftOut, continuationByte_eq, Nat.shiftRight_eq_div_pow, and_3F, hlead,
      h4 _ (by omega : c.toNat / 262144 < 8), Nat.div_div_eq_div_mul]

/-- Of the continuation bytes only as many are read as the low eight bits of the length allow. -/
theorem toCodePoint_lead {header : UInt8} (bits : List Nat) (hbits : ∀ x ∈ bits, x < 64)
    (hsome : bits ≠ []) (hf : followingOfHeader header.toNat = bits.length) (rest : Text)
    (length : Nat) :
    toCodePoint (header :: bits.map (fun x => UInt8.ofNat (x + 0x80)) ++ rest) length =
      ((bits.length : Int) + 1, (bits.take (length % 256)).foldl (fun code x => code * 64 + x)
        (header.toNat &&& (1 <<< (7 - bits.length) - 1))) := by
  have hfold (l : List Nat) (hl : ∀ x ∈ l, x < 64) (code : Nat) :
      (l.map (fun x => UInt8.ofNat (x + 0x80))).foldl shiftIn code =
        l.foldl (fun code x => code * 64 + x) code := by
    induction l generalizing code with
    | nil => rfl
    | cons x l ih =>
      rw [List.map_cons, List.foldl_cons, List.foldl_cons, shiftIn_continuation _ (hl x (by simp)),
        ih fun y hy => hl y (by simp [hy])]
  have htake : (bits.map (fun x => UInt8.ofNat (x + 0x80)) ++ rest ++ [0]).take
      (min bits.length (length % 256)) =
        (bits.take (length % 256)).map fun x => UInt8.ofNat (x + 0x80) := by
    rw [List.append_assoc, List.take_append_of_le_length (by simpa using Nat.min_le_left ..),
      Nat.min_comm, List.map_take, ← List.take_take]
    congr 1
    exact List.take_of_length_le (by simp)
  have hvalid : ((bits.take (length % 256)).map fun x => UInt8.ofNat (x + 0x80)).any
      (fun b => b &&& 0xC0 ≠ 0x80) = false := by
    rw [List.any_eq_false]
    intro b hb
    obtain ⟨x, hx, rfl⟩ := List.mem_map.mp hb
    rw [continuation_valid (hbits x (List.mem_of_mem_take hx))]
    decide
  have hlen : bits.length ≠ 0 := by simpa using hsome
  unfold toCodePoint
  simp only [List.cons_append, List.headD_cons, List.tail_cons, hf, hlen, if_false, htake, hvalid,
    hfold _ (fun x hx => hbits x (List.mem_of_mem_take hx))]
  rfl

theorem toCodePoint_char (c : Char) (rest : Text) (length : Nat) :
    toCodePoint (String.utf8EncodeChar c ++ rest) length =
      ((continuations c : Int) + 1, c.toNat / 64 ^ (continuations c - length % 256)) := by
  have hlow (n : Nat) : n % 64 < 64 := Nat.mod_lt _ (by decide)
  obtain ⟨h, he⟩ | ⟨h, h', he⟩ | ⟨h, h', he⟩ | ⟨h, h', he⟩ := utf8EncodeChar_cases c
  · have hc : continuations c = 0 := by rw [continuations, he]; rfl
    have hb : (UInt8.ofNat c.toNat).toNat = c.toNat := Nat.mod_eq_of_lt (by omega)
    have hf : followingOfHeader c.toNat = 0 := if_pos (by omega)
    have hmask : c.toNat &&& 0x7F = c.toNat :=
      (Nat.and_two_pow_sub_one_eq_mod _ 7).trans (Nat.mod_eq_of_lt h)
    simp [toCodePoint, he, hc, hb, hf, hmask]
  · have hc : continuations c = 1 := by rw [continuations, he]; rfl
    have hb : (UInt8.ofNat (c.toNat / 64 + 0xC0)).toNat = c.toNat / 64 + 0xC0 :=
      Nat.mod_eq_of_lt (by omega)
    have hf : followingOfHeader (c.toNat / 64 + 0xC0) = 1 := by
      unfold followingOfHeader
      rw [if_neg (by omega), if_pos (by omega)]
    have hmask : (c.toNat / 64 + 0xC0) &&& 0x3F = c.toNat / 64 := by
      rw [and_3F]
      omega
    have hread := toCodePoint_lead [c.toNat % 64] (by simp [hlow]) (by simp)
      (by rw [hb]; exact hf) rest length
    rw [hb] at hread
    rw [he, hc]
    refine hread.trans (Prod.ext rfl ?_)
    obtain hl | hl : length % 256 = 0 ∨ 1 ≤ length % 256 := by omega
    · simp [hl, hmask]
    · rw [List.take_of_length_le hl]
      simp [hl, hmask]
      omega
  · have hc : continuations c = 2 := by rw [continuations, he]; rfl
    have hb : (UInt8.ofNat (c.toNat / 4096 + 0xE0)).toNat = c.toNat / 4096 + 0xE0 :=
      Nat.mod_eq_of_lt (by omega)
    have hf : followingOfHeader (c.toNat / 4096 + 0xE0) = 2 := by
      unfold followingOfHeader
      rw [if_neg (by omega), if_neg (by omega), if_pos (by omega)]
    have hmask : (c.toNat / 4096 + 0xE0) &&& 0x1F = c.toNat / 4096 := by
      refine (Nat.and_two_pow_sub_one_eq_mod _ 5).trans ?_
      omega
    have hread := toCodePoint_lead [c.toNat / 64 % 64, c.toNat % 64] (by simp [hlow])
      (by simp) (by rw [hb]; exact hf) rest length
    rw [hb] at hread
    rw [he, hc]
    refine hread.trans (Prod.ext rfl ?_)
    obtain hl | hl | hl : length % 256 = 0 ∨ length % 256 = 1 ∨ 2 ≤ length % 256 := by omega
    · simp [hl, hmask]
    · simp [hl, hmask]
      omega
    · rw [List.take_of_length_le hl]
      simp [hl, hmask]
      omega
  · have hc : continuations c = 3 := by rw [continuations, he]; rfl
    have hb : (UInt8.ofNat (c.toNat / 262144 + 0xF0)).toNat = c.toNat / 262144 + 0xF0 :=
      Nat.mod_eq_of_lt (by omega)
    have hf : followingOfHeader (c.toNat / 262144 + 0xF0) = 3 := by
      unfold followingOfHeader
      rw [if_neg (by omega), if_neg (by omega), if_neg (by omega), if_pos (by omega)]
    have hmask : (c.toNat / 262144 + 0xF0) &&& 0xF = c.toNat / 262144 := by
      refine (Nat.and_two_pow_sub_one_eq_mod _ 4).trans ?_
      omega
    have hread := toCodePoint_lead
      [c.toNat / 4096 % 64, c.toNat / 64 % 64, c.toNat % 64] (by simp [hlow])
      (by simp) (by rw [hb]; exact hf) rest length
    rw [hb] at hread
    rw [he, hc]
    refine hread.trans (Prod.ext rfl ?_)
    obtain hl | hl | hl | hl :
      length % 256 = 0 ∨ length % 256 = 1 ∨ length % 256 = 2 ∨ 3 ≤ length % 256 := by omega
    · simp [hl, hmask]
    · simp [hl, hmask]
      omega
    · simp [hl, hmask]
      omega
    · rw [List.take_of_length_le hl]
      simp [hl, hmask]
      omega

/-! ### UTF-16 parts -/

theorem or_two_pow_mul {x i : Nat} (h : x < 2 ^ i) (a : Nat) : x ||| 2 ^ i * a = 2 ^ i * a + x := by
  rw [Nat.lor_comm, Nat.two_pow_add_eq_or_of_lt h]

theorem and_3FF (n : Nat) : n &&& 0x3FF = n % 0x400 := Nat.and_two_pow_sub_one_eq_mod n 10

theorem and_FC00 {part : Nat} (h : part < 0x10000) : part &&& 0xFC00 = part / 0x400 * 0x400 := by
  have hhigh : part &&& 2 ^ 10 * 0x3F = 2 ^ 10 * (part >>> 10 &&& 0x3F) := by
    apply Nat.eq_of_testBit_eq
    intro j
    rw [Nat.testBit_and, Nat.testBit_two_pow_mul, Nat.testBit_two_pow_mul, Nat.testBit_and,
      Nat.testBit_shiftRight]
    by_cases hj : 10 ≤ j
    · simp [hj]
    · simp [hj]
  calc part &&& 0xFC00 = 2 ^ 10 * (part >>> 10 &&& 0x3F) := hhigh
    _ = part / 0x400 * 0x400 := by
      rw [and_3F, Nat.shiftRight_eq_div_pow]
      omega

theorem codePointToUTF16_low {codePoint : Nat} (h : codePoint < 0x10000) :
    codePointToUTF16 codePoint = (codePoint, 0, true) := if_pos (by omega)

theorem codePointToUTF16_pair {codePoint : Nat} (h : 0x10000 ≤ codePoint)
    (h' : codePoint < 0x110000) :
    codePointToUTF16 codePoint =
      (0xDC00 + (codePoint - 0x10000) % 0x400, 0xD800 + (codePoint - 0x10000) / 0x400, true) := by
  have hlow := or_two_pow_mul (Nat.mod_lt (codePoint - 0x10000) (by decide : 0 < 2 ^ 10)) 0x37
  have hhigh := or_two_pow_mul (i := 10) (x := (codePoint - 0x10000) / 0x400) (by omega) 0x36
  have hdiv : (codePoint - 0x10000) / 0x400 % 0x400 = (codePoint - 0x10000) / 0x400 :=
    Nat.mod_eq_of_lt (by omega)
  unfold codePointToUTF16
  rw [if_neg (by omega), if_neg (by omega), and_3FF, and_3FF, Nat.shiftRight_eq_div_pow]
  exact Prod.ext hlow (Prod.ext ((congrArg (· ||| 0xD800) hdiv).trans hhigh) rfl)

theorem utf16ToCodePoint_low (lowPart : Nat) : utf16ToCodePoint lowPart 0 = (lowPart, true) := rfl

theorem utf16ToCodePoint_pair {lowPart highPart : Nat} (hlow : lowPart / 0x400 = 0x37)
    (hhigh : highPart / 0x400 = 0x36) :
    utf16ToCodePoint lowPart highPart =
      ((highPart - 0xD800) * 0x400 + (lowPart - 0xDC00) + 0x10000, true) := by
  have h1 : lowPart &&& 0xFC00 = 0xDC00 := by rw [and_FC00 (by omega), hlow]
  have h2 : highPart &&& 0xFC00 = 0xD800 := by rw [and_FC00 (by omega), hhigh]
  have hor : lowPart % 0x400 ||| 2 ^ 10 * (highPart % 0x400) =
      2 ^ 10 * (highPart % 0x400) + lowPart % 0x400 :=
    or_two_pow_mul (Nat.mod_lt lowPart (by decide : 0 < 2 ^ 10)) (highPart % 0x400)
  unfold utf16ToCodePoint
  rw [if_neg (by omega), if_pos ⟨h1, h2⟩, and_3FF, and_3FF, Nat.shiftLeft_eq, Nat.mul_comm, hor]
  refine Prod.ext ?_ rfl
  show 2 ^ 10 * (highPart % 0x400) + lowPart % 0x400 + 0x10000 = _
  omega

end Thunder.Core
