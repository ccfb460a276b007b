import Mathlib.Data.List.Basic

/-! Characters as UTF-8 bytes and as UTF-16 units. -/

namespace Thunder.Unicode

/-- The UTF-8 bytes of a text. -/
def utf8 (chars : List Char) : List UInt8 := chars.flatMap String.utf8EncodeChar

@[simp] theorem utf8_nil : utf8 [] = [] := rfl

@[simp] theorem utf8_cons (c : Char) (chars : List Char) :
    utf8 (c :: chars) = String.utf8EncodeChar c ++ utf8 chars := rfl

/-- Two texts with the same bytes are the same text. -/
theorem utf8_injective {chars chars' : List Char} (h : utf8 chars = utf8 chars') :
    chars = chars' := by
  have hbytes : (String.ofList chars).toByteArray = (String.ofList chars').toByteArray := by
    simpa [utf8, List.utf8Encode] using congrArg List.toByteArray h
  have := congrArg String.toList (String.toByteArray_inj.mp hbytes)
  simpa using this

theorem code_lt (c : Char) : c.toNat < 0x110000 := by
  have := c.valid
  rcases this with h | ⟨_, h⟩
  · have : c.toNat < 0xD800 := h
    omega
  · exact h

theorem not_surrogate (c : Char) : c.toNat < 0xD800 ∨ 0xDFFF < c.toNat := by
  rcases c.valid with h | ⟨h, _⟩
  · exact Or.inl h
  · exact Or.inr h

/-- The four lengths of an encoded character. -/
theorem utf8EncodeChar_cases (c : Char) :
    (c.toNat < 0x80 ∧ String.utf8EncodeChar c = [UInt8.ofNat c.toNat]) ∨
    (0x80 ≤ c.toNat ∧ c.toNat < 0x800 ∧ String.utf8EncodeChar c =
      [UInt8.ofNat (c.toNat / 64 + 0xC0), UInt8.ofNat (c.toNat % 64 + 0x80)]) ∨
    (0x800 ≤ c.toNat ∧ c.toNat < 0x10000 ∧ String.utf8EncodeChar c =
      [UInt8.ofNat (c.toNat / 4096 + 0xE0), UInt8.ofNat (c.toNat / 64 % 64 + 0x80),
        UInt8.ofNat (c.toNat % 64 + 0x80)]) ∨
    (0x10000 ≤ c.toNat ∧ c.toNat < 0x110000 ∧ String.utf8EncodeChar c =
      [UInt8.ofNat (c.toNat / 262144 + 0xF0), UInt8.ofNat (c.toNat / 4096 % 64 + 0x80),
        UInt8.ofNat (c.toNat / 64 % 64 + 0x80), UInt8.ofNat (c.toNat % 64 + 0x80)]) := by
  have hlt := code_lt c
  have hval : c.val.toNat = c.toNat := rfl
  unfold String.utf8EncodeChar
  simp only [hval]
  by_cases h1 : c.toNat ≤ 0x7F
  · exact Or.inl ⟨by omega, by simp [h1]⟩
  by_cases h2 : c.toNat ≤ 0x7FF
  · refine Or.inr (Or.inl ⟨by omega, by omega, ?_⟩)
    rw [if_neg h1, if_pos h2, Nat.mod_eq_of_lt (by omega : c.toNat / 64 < 0x20)]
  by_cases h3 : c.toNat ≤ 0xFFFF
  · refine Or.inr (Or.inr (Or.inl ⟨by omega, by omega, ?_⟩))
    rw [if_neg h1, if_neg h2, if_pos h3, Nat.mod_eq_of_lt (by omega : c.toNat / 4096 < 0x10)]
  · refine Or.inr (Or.inr (Or.inr ⟨by omega, by omega, ?_⟩))
    rw [if_neg h1, if_neg h2, if_neg h3, Nat.mod_eq_of_lt (by omega : c.toNat / 262144 < 0x08)]

/-- Only the bytes of NUL are zero. -/
theorem zero_mem_utf8EncodeChar (c : Char) : 0 ∈ String.utf8EncodeChar c ↔ c.toNat = 0 := by
  have hbyte {n : Nat} (hn : n < 256) (hpos : 0 < n) : (0 : UInt8) ≠ UInt8.ofNat n := by
    intro h
    have := congrArg UInt8.toNat h
    rw [UInt8.toNat_ofNat', Nat.mod_eq_of_lt (by simpa using hn)] at this
    exact absurd this (by simp; omega)
  obtain ⟨h, he⟩ | ⟨h, h', he⟩ | ⟨h, h', he⟩ | ⟨h, h', he⟩ := utf8EncodeChar_cases c
  · rw [he, List.mem_singleton]
    refine ⟨fun h0 => ?_, fun h0 => by rw [h0]; rfl⟩
    by_contra hne
    exact hbyte (by omega) (Nat.pos_of_ne_zero hne) h0
  · rw [he]
    refine ⟨fun h0 => ?_, fun h0 => by omega⟩
    rcases List.mem_cons.mp h0 with h0 | h0
    · exact absurd h0 (hbyte (by omega) (by omega))
    · exact absurd (List.mem_singleton.mp h0) (hbyte (by omega) (by omega))
  · rw [he]
    refine ⟨fun h0 => ?_, fun h0 => by omega⟩
    rcases List.mem_cons.mp h0 with h0 | h0
    · exact absurd h0 (hbyte (by omega) (by omega))
    rcases List.mem_cons.mp h0 with h0 | h0
    · exact absurd h0 (hbyte (by omega) (by omega))
    · exact absurd (List.mem_singleton.mp h0) (hbyte (by omega) (by omega))
  · rw [he]
    refine ⟨fun h0 => ?_, fun h0 => by omega⟩
    rcases List.mem_cons.mp h0 with h0 | h0
    · exact absurd h0 (hbyte (by omega) (by omega))
    rcases List.mem_cons.mp h0 with h0 | h0
    · exact absurd h0 (hbyte (by omega) (by omega))
    rcases List.mem_cons.mp h0 with h0 | h0
    · exact absurd h0 (hbyte (by omega) (by omega))
    · exact absurd (List.mem_singleton.mp h0) (hbyte (by omega) (by omega))

theorem zero_mem_utf8 (chars : List Char) : 0 ∈ utf8 chars ↔ ∃ c ∈ chars, c.toNat = 0 := by
  simp only [utf8, List.mem_flatMap, zero_mem_utf8EncodeChar]

/-- The UTF-16 units of a code point. -/
def utf16 (code : Nat) : List Nat :=
  if code < 0x10000 then [code]
  else [0xD800 + (code - 0x10000) / 0x400, 0xDC00 + (code - 0x10000) % 0x400]

end Thunder.Unicode
