import Mathlib.Algebra.Order.Ring.Nat
import Mathlib.Data.UInt
import Mathlib.Tactic.Ring

/-! Decimal digits as the bytes of a text: a number in a fixed width, and the number that the digits
at the start of a text make. -/

namespace Thunder.Decimal

def isDigit (c : UInt8) : Bool := 0x30 ≤ c ∧ c ≤ 0x39

/-- The last digit of a number. -/
def digit (n : Nat) : UInt8 := .ofNat (0x30 + n % 10)

/-- The last digits of a number, so many of them. -/
def pad : Nat → Nat → List UInt8
  | 0, _ => []
  | width + 1, n => pad width (n / 10) ++ [digit n]

/-- The number that the digits make behind those that are read, and what is left. -/
def readFrom : List UInt8 → Nat → Nat × List UInt8
  | [], n => (n, [])
  | c :: rest, n => if isDigit c then readFrom rest (n * 10 + (c.toNat - 0x30)) else (n, c :: rest)

def read (text : List UInt8) : Nat × List UInt8 := readFrom text 0

variable {n width : Nat} {rest : List UInt8}

theorem digit_spec (n : Nat) : isDigit (digit n) = true ∧ (digit n).toNat - 0x30 = n % 10 := by
  have hlast : ∀ d < 10, isDigit (.ofNat (0x30 + d)) = true ∧
      (UInt8.ofNat (0x30 + d)).toNat - 0x30 = d := by decide
  exact hlast _ (Nat.mod_lt _ (by decide))

/-- What holds of the ten digits. -/
theorem forall_isDigit {P : UInt8 → Prop} (h : ∀ d < 10, P (.ofNat (0x30 + d))) {c : UInt8}
    (hc : isDigit c = true) : P c := by
  obtain ⟨hlow, hhigh⟩ := of_decide_eq_true hc
  have hlow' : 0x30 ≤ c.toNat := UInt8.le_iff_toNat_le.mp hlow
  have hhigh' : c.toNat ≤ 0x39 := UInt8.le_iff_toNat_le.mp hhigh
  have hdigit := h (c.toNat - 0x30) (by omega)
  rwa [Nat.add_sub_of_le hlow', UInt8.ofNat_toNat] at hdigit

@[simp] theorem length_pad (width n : Nat) : (pad width n).length = width := by
  induction width generalizing n with
  | zero => rfl
  | succ width ih => rw [pad, List.length_append, ih, List.length_singleton]

theorem isDigit_of_mem_pad {c : UInt8} (h : c ∈ pad width n) : isDigit c = true := by
  induction width generalizing n with
  | zero => cases h
  | succ width ih =>
    rw [pad] at h
    obtain hmem | hmem := List.mem_append.mp h
    · exact ih hmem
    · rw [List.mem_singleton.mp hmem]
      exact (digit_spec n).1

/-- Digits in front of a text are read before it. -/
theorem readFrom_pad (front : Nat) (rest : List UInt8) (h : n < 10 ^ width) :
    readFrom (pad width n ++ rest) front = readFrom rest (front * 10 ^ width + n) := by
  induction width generalizing n rest with
  | zero =>
    have hzero : n = 0 := by rw [Nat.pow_zero] at h; omega
    rw [pad, List.nil_append, hzero, Nat.pow_zero, Nat.mul_one, Nat.add_zero]
  | succ width ih =>
    have hfront : n / 10 < 10 ^ width := by
      rw [Nat.pow_succ] at h
      omega
    obtain ⟨hdigit, hlast⟩ := digit_spec n
    rw [pad, List.append_assoc, List.singleton_append, ih _ hfront, readFrom, if_pos hdigit, hlast]
    congr 1
    calc (front * 10 ^ width + n / 10) * 10 + n % 10
        = front * 10 ^ width * 10 + (n / 10 * 10 + n % 10) := by ring
      _ = front * 10 ^ (width + 1) + n := by
        rw [Nat.div_add_mod' n 10, Nat.pow_succ, Nat.mul_assoc]

theorem readFrom_stop (h : isDigit (rest.headD 0) = false) : readFrom rest n = (n, rest) := by
  cases rest with
  | nil => rfl
  | cons c rest => rw [readFrom, if_neg (by rw [show isDigit c = false from h]; decide)]

/-- A number in a fixed width is read back. -/
theorem read_pad (h : n < 10 ^ width) (hrest : isDigit (rest.headD 0) = false) :
    read (pad width n ++ rest) = (n, rest) := by
  rw [read, readFrom_pad 0 rest h, readFrom_stop hrest, Nat.zero_mul, Nat.zero_add]

end Thunder.Decimal
