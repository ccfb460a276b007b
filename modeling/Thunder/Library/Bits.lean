import Mathlib.Data.List.Basic
import Mathlib.Data.Nat.Bitwise
import Mathlib.Tactic.SplitIfs

/-! The bits of a byte string, the highest bit of each byte first, and numbers that stand in some of
them. -/

namespace Thunder.Bits

/-- The bit `k` of a byte string; there are only zeros behind its end. -/
def bit (l : List UInt8) (k : Nat) : Bool := ((l[k / 8]?).getD 0).toNat.testBit (7 - k % 8)

/-- The `count` bits from `start` on are those of a number, the highest first. -/
def Holds (l : List UInt8) (start count n : Nat) : Prop :=
  ∀ k, k < count → bit l (start + k) = n.testBit (count - 1 - k)

/-- The bits outside of a range are the same. -/
def SameOutside (l l' : List UInt8) (start count : Nat) : Prop :=
  l'.length = l.length ∧ ∀ k, k < start ∨ start + count ≤ k → bit l' k = bit l k

theorem bit_cons (b : UInt8) (l : List UInt8) (k : Nat) :
    bit (b :: l) k = if k < 8 then b.toNat.testBit (7 - k) else bit l (k - 8) := by
  split_ifs with hk
  · rw [bit, Nat.div_eq_of_lt hk, Nat.mod_eq_of_lt hk]
    rfl
  · rw [bit, bit, show k / 8 = (k - 8) / 8 + 1 by omega, show k % 8 = (k - 8) % 8 by omega]
    rfl

theorem bit_append (l l' : List UInt8) (k : Nat) :
    bit (l ++ l') k = if k < 8 * l.length then bit l k else bit l' (k - 8 * l.length) := by
  split_ifs with hk
  · rw [bit, bit, List.getElem?_append_left (by omega)]
  · rw [bit, bit, List.getElem?_append_right (by omega),
      show k / 8 - l.length = (k - 8 * l.length) / 8 by omega,
      show k % 8 = (k - 8 * l.length) % 8 by omega]

theorem bit_drop (l : List UInt8) (n k : Nat) : bit (l.drop n) k = bit l (8 * n + k) := by
  rw [bit, bit, List.getElem?_drop, show (8 * n + k) / 8 = n + k / 8 by omega,
    show (8 * n + k) % 8 = k % 8 by omega]

theorem testBit_byte (n : Nat) {j : Nat} (hj : j < 8) :
    (UInt8.ofNat n).toNat.testBit j = n.testBit j := by
  rw [UInt8.toNat_ofNat', Nat.testBit_mod_two_pow, decide_eq_true hj, Bool.true_and]

theorem testBit_of_le (k : Nat) {n j : Nat} (h : n < 2 ^ k) (hj : k ≤ j) : n.testBit j = false :=
  Nat.testBit_lt_two_pow (h.trans_le (Nat.pow_le_pow_right Nat.two_pos hj))

theorem testBit_toNat (b : UInt8) {j : Nat} (hj : 8 ≤ j) : b.toNat.testBit j = false :=
  testBit_of_le 8 b.toNat_lt hj

/-- All ones, moved up or down. -/
theorem testBit_ones_shiftLeft (k j : Nat) :
    (0xFF <<< k).testBit j = (decide (k ≤ j) && decide (j < k + 8)) := by
  rw [Nat.testBit_shiftLeft, show 0xFF = 2 ^ 8 - 1 from rfl, Nat.testBit_two_pow_sub_one]
  by_cases hk : k ≤ j
  · simp only [ge_iff_le, hk, decide_true, Bool.true_and, decide_eq_decide]
    omega
  · simp [hk]

theorem testBit_ones_shiftRight (k j : Nat) :
    (0xFF >>> k).testBit j = decide (k + j < 8) := by
  rw [Nat.testBit_shiftRight, show 0xFF = 2 ^ 8 - 1 from rfl, Nat.testBit_two_pow_sub_one]

/-- A number is given by its bits below a bound. -/
theorem eq_of_testBit (count : Nat) {m n : Nat} (hm : m < 2 ^ count) (hn : n < 2 ^ count)
    (h : ∀ j, j < count → m.testBit j = n.testBit j) : m = n := by
  refine Nat.eq_of_testBit_eq fun j => ?_
  rcases Nat.lt_or_ge j count with hj | hj
  · exact h j hj
  · rw [testBit_of_le count hm hj, testBit_of_le count hn hj]

theorem byte_eq_iff (m n : Nat) :
    m % 256 = n % 256 ↔ ∀ j, j < 8 → m.testBit j = n.testBit j := by
  constructor
  · intro h j hj
    have hbit := congrArg (fun x => Nat.testBit x j) h
    simpa only [show 256 = 2 ^ 8 from rfl, Nat.testBit_mod_two_pow, hj, decide_true,
      Bool.true_and] using hbit
  · intro h
    refine eq_of_testBit 8 (Nat.mod_lt _ (by decide)) (Nat.mod_lt _ (by decide))
      fun j hj => ?_
    simpa only [show 256 = 2 ^ 8 from rfl, Nat.testBit_mod_two_pow, hj, decide_true,
      Bool.true_and] using h j hj

end Thunder.Bits
