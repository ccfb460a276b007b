import Mathlib.Data.List.Basic
import Thunder.Core.Metadata
import Mathlib.Algebra.Group.Nat.Defs

/-! The text of an unsigned `NumberType` and its way back.  `FillBuffer` puts the digits down from
the last one on; `Convert` takes the base from the first characters, so that a leading zero makes a
number octal, and ends at the first character that is no digit or makes the number too large. -/

namespace Thunder.Core

inductive NumberBase
  | unknown
  | octal
  | decimal
  | hexadecimal
  deriving DecidableEq, Repr

def NumberBase.value : NumberBase → Nat
  | unknown => 0
  | octal => 8
  | decimal => 10
  | hexadecimal => 16

namespace NumberType

/-- The loop of `FillBuffer` in decimals, with `index` characters left in the buffer. -/
def fillBuffer : Nat → Nat → Text → Text
  | 0, _, buffer => buffer
  | index + 1, value, buffer =>
    let buffer := UInt8.ofNat (0x30 + value % 10) :: buffer
    if value / 10 ≠ 0 ∧ 0 < index then fillBuffer index (value / 10) buffer else buffer

/-- `Text`; the buffer has 36 characters, the last of them the closing one. -/
def text (value : Nat) : Text := fillBuffer 35 value []

def isSkipped (c : UInt8) : Bool := c = 0x2B ∨ c = 0x20 ∨ c = 0x09 ∨ c = 0x30

/-- A character as a digit of a base. -/
def digit (c : UInt8) (base : NumberBase) : Option Nat :=
  if 0x30 ≤ c ∧ c ≤ 0x37 then some (c.toNat - 0x30)
  else if 0x38 ≤ c ∧ c ≤ 0x39 ∧ base ≠ .octal then some (c.toNat - 0x30)
  else if 0x41 ≤ c ∧ c ≤ 0x46 ∧ base = .hexadecimal then some (c.toNat - 0x41 + 10)
  else if 0x61 ≤ c ∧ c ≤ 0x66 ∧ base = .hexadecimal then some (c.toNat - 0x61 + 10)
  else none

/-- The loop of `Convert` for an unsigned type with the largest value `max`. -/
def convertFrom (max : Nat) : Text → Nat → NumberBase → Nat
  | [], value, _ => value
  | c :: rest, value, base =>
    if c = 0 then value
    else if value = 0 ∧ c = 0x30 ∧ base = .unknown then convertFrom max rest value .octal
    else if value = 0 ∧ (c = 0x58 ∨ c = 0x78) ∧ (base = .octal ∨ base = .hexadecimal) then
      convertFrom max rest value .hexadecimal
    else if value = 0 ∧ isSkipped c then convertFrom max rest value base
    else
      let base := if base = .unknown then .decimal else base
      match digit c base with
      | none => value
      | some d =>
        if value ≤ max / base.value ∧ d ≤ max - value * base.value then
          convertFrom max rest (value * base.value + d) base
        else value

def convert (max : Nat) (text : Text) : Nat := convertFrom max text 0 .unknown

variable {max value index : Nat}

/-- A decimal digit is taken when the number with it is not too large. -/
theorem convertFrom_digit (rest : Text) {front : Nat} {base : NumberBase} (hvalue : 0 < value)
    (hmax : value ≤ max) (hfront : front = value / 10)
    (hbase : base = if front = 0 then .unknown else .decimal) :
    convertFrom max (UInt8.ofNat (0x30 + value % 10) :: rest) front base =
      convertFrom max rest value .decimal := by
  have hlt : value % 10 < 10 := Nat.mod_lt _ (by decide)
  have hchar : ∀ d < 10, UInt8.ofNat (0x30 + d) ≠ 0 ∧
      (d ≠ 0 → isSkipped (UInt8.ofNat (0x30 + d)) = false ∧ UInt8.ofNat (0x30 + d) ≠ 0x30) ∧
      UInt8.ofNat (0x30 + d) ≠ 0x58 ∧ UInt8.ofNat (0x30 + d) ≠ 0x78 ∧
      digit (UInt8.ofNat (0x30 + d)) .decimal = some d := by decide
  obtain ⟨hnul, hzero, hX, hx, hdigit⟩ := hchar _ hlt
  have hdecimal : (if base = .unknown then NumberBase.decimal else base) = .decimal := by
    rw [hbase]
    split <;> rfl
  have hskip : front = 0 →
      isSkipped (UInt8.ofNat (0x30 + value % 10)) = false ∧
        UInt8.ofNat (0x30 + value % 10) ≠ 0x30 := fun h => hzero (by omega)
  have hfits : front ≤ max / 10 ∧ value % 10 ≤ max - front * 10 := by omega
  have hsum : front * 10 + value % 10 = value := by omega
  rw [convertFrom, if_neg hnul, if_neg fun h => (hskip h.1).2 h.2.1,
    if_neg fun h => h.2.1.elim hX hx,
    if_neg fun h => absurd h.2 (by rw [(hskip h.1).1]; decide)]
  simp only [hdecimal, hdigit, NumberBase.value]
  rw [if_pos hfits, hsum]

theorem fillBuffer_succ (index value : Nat) (buffer : Text) :
    fillBuffer (index + 1) value buffer =
      if value / 10 ≠ 0 ∧ 0 < index then
        fillBuffer index (value / 10) (UInt8.ofNat (0x30 + value % 10) :: buffer)
      else UInt8.ofNat (0x30 + value % 10) :: buffer := rfl

/-- A number that is put down in front of a text is read in front of it. -/
theorem convertFrom_fillBuffer (rest : Text) (hvalue : 0 < value) (hmax : value ≤ max)
    (hindex : value < 10 ^ index) :
    convertFrom max (fillBuffer index value rest) 0 .unknown =
      convertFrom max rest value .decimal := by
  induction index generalizing value rest with
  | zero => omega
  | succ index ih =>
    rw [Nat.pow_succ] at hindex
    rw [fillBuffer_succ]
    by_cases hfront : value / 10 = 0
    · rw [if_neg fun h => h.1 hfront]
      exact convertFrom_digit rest hvalue hmax hfront.symm rfl
    · have hroom : 0 < index := by
        rcases Nat.eq_zero_or_pos index with rfl | h
        · omega
        · exact h
      rw [if_pos ⟨hfront, hroom⟩, ih _ (Nat.pos_of_ne_zero hfront) (by omega) (by omega)]
      exact convertFrom_digit rest hvalue hmax rfl (by rw [if_neg hfront])

/-- What `Text` makes of a value of an unsigned type of at most 64 bits, `Convert` reads. -/
theorem convert_text (hmax : value ≤ max) (hvalue : value < 2 ^ 64) :
    convert max (text value) = value := by
  rcases Nat.eq_zero_or_pos value with rfl | hpos
  · rfl
  · exact convertFrom_fillBuffer [] hpos hmax (Nat.lt_trans hvalue (by decide))

/-- Only digits are put down. -/
theorem mem_fillBuffer {buffer : Text} {c : UInt8} (h : c ∈ fillBuffer index value buffer) :
    c ∈ buffer ∨ 0x30 ≤ c ∧ c ≤ 0x39 := by
  have hchar : ∀ d < 10, 0x30 ≤ UInt8.ofNat (0x30 + d) ∧ UInt8.ofNat (0x30 + d) ≤ 0x39 := by decide
  induction index generalizing value buffer with
  | zero => exact .inl h
  | succ index ih =>
    have hcons : c ∈ UInt8.ofNat (0x30 + value % 10) :: buffer ∨ 0x30 ≤ c ∧ c ≤ 0x39 →
        c ∈ buffer ∨ 0x30 ≤ c ∧ c ≤ 0x39 := by
      rintro (hmem | hc)
      · rcases List.mem_cons.mp hmem with rfl | hmem
        · exact .inr (hchar _ (Nat.mod_lt _ (by decide)))
        · exact .inl hmem
      · exact .inr hc
    rw [fillBuffer_succ] at h
    split_ifs at h
    · exact hcons (ih h)
    · exact hcons (.inl h)

theorem fillBuffer_ne_nil {buffer : Text} (h : buffer ≠ []) :
    fillBuffer index value buffer ≠ [] := by
  induction index generalizing value buffer with
  | zero => exact h
  | succ index ih =>
    rw [fillBuffer_succ]
    split_ifs
    · exact ih (List.cons_ne_nil _ _)
    · exact List.cons_ne_nil _ _

theorem mem_text {c : UInt8} (h : c ∈ text value) : 0x30 ≤ c ∧ c ≤ 0x39 := by
  rcases mem_fillBuffer h with hmem | hc
  · cases hmem
  · exact hc

theorem text_ne_nil (value : Nat) : text value ≠ [] := by
  rw [text, fillBuffer_succ]
  split_ifs
  · exact fillBuffer_ne_nil (List.cons_ne_nil _ _)
  · exact List.cons_ne_nil _ _

end NumberType

end Thunder.Core
