import Mathlib.Data.List.Basic
import Mathlib.Tactic.SplitIfs
import Mathlib.Algebra.GroupWithZero.Nat

/-! The one's complement sum of 16-bit words, and the checksum that is its complement: sums of many
words, and the order of the bytes. -/

namespace Thunder.OnesComplement

/-- The sum of two words; a carry out of the top is added at the bottom. -/
def add (a b : Nat) : Nat := if a + b < 65536 then a + b else a + b - 65535

def sum (words : List Nat) : Nat := words.foldl add 0

/-- The words of a byte string, the high byte first; a zero follows an odd last byte. -/
def words : List UInt8 → List Nat
  | [] => []
  | [a] => [256 * a.toNat]
  | a :: b :: l => (256 * a.toNat + b.toNat) :: words l

def checksum (bytes : List UInt8) : Nat := 65535 - sum (words bytes)

/-- The plain sum of the words with the low byte first. -/
def total : List UInt8 → Nat
  | [] => 0
  | [a] => a.toNat
  | a :: b :: l => a.toNat + 256 * b.toNat + total l

/-- The one's complement sum that a plain sum stands for: zero only for zero. -/
def reduce (n : Nat) : Nat := if n = 0 then 0 else (n - 1) % 65535 + 1

theorem reduce_lt (n : Nat) : reduce n < 65536 := by
  unfold reduce
  split_ifs <;> omega

theorem add_reduce (n : Nat) {w : Nat} (hw : w < 65536) : add (reduce n) w = reduce (n + w) := by
  unfold add reduce
  split_ifs <;> omega

theorem sum_eq {l : List Nat} (h : ∀ w ∈ l, w < 65536) : sum l = reduce l.sum := by
  have hacc : ∀ n, l.foldl add (reduce n) = reduce (n + l.sum) := by
    induction l with
    | nil => exact fun n => rfl
    | cons w l ih =>
      intro n
      have hw : w < 65536 := h w List.mem_cons_self
      rw [List.foldl_cons, add_reduce n hw, ih fun v hv => h v (List.mem_cons_of_mem w hv),
        List.sum_cons, Nat.add_assoc]
  have h0 := hacc 0
  rwa [Nat.zero_add] at h0

theorem words_lt (l : List UInt8) : ∀ w ∈ words l, w < 65536 := by
  induction l using words.induct with
  | case1 => simp [words]
  | case2 a =>
    have := a.toNat_lt
    simp only [words, List.mem_singleton, forall_eq]
    omega
  | case3 a b l ih =>
    have := a.toNat_lt
    have := b.toNat_lt
    intro w hw
    rcases List.mem_cons.mp hw with rfl | hw
    · omega
    · exact ih w hw

/-- The order of the bytes is a factor. -/
theorem total_mod (l : List UInt8) : total l % 65535 = 256 * (words l).sum % 65535 := by
  induction l using words.induct with
  | case1 => rfl
  | case2 a =>
    simp only [total, words, List.sum_singleton]
    omega
  | case3 a b l ih =>
    simp only [total, words, List.sum_cons]
    omega

theorem total_eq_zero_iff (l : List UInt8) : total l = 0 ↔ (words l).sum = 0 := by
  induction l using words.induct with
  | case1 => exact Iff.rfl
  | case2 a =>
    simp only [total, words, List.sum_singleton]
    omega
  | case3 a b l ih =>
    simp only [total, words, List.sum_cons]
    omega

/-- A word is the checksum exactly when it is, with its bytes and all others exchanged, the
complement of the sum. -/
theorem eq_checksum_iff (a b : UInt8) (l : List UInt8) :
    256 * a.toNat + b.toNat = checksum l ↔
      a.toNat + 256 * b.toNat = 65535 - reduce (total l) := by
  have hmod := total_mod l
  have hzero := total_eq_zero_iff l
  have := a.toNat_lt
  have := b.toNat_lt
  rw [checksum, sum_eq (words_lt l)]
  generalize total l = low at *
  generalize (words l).sum = high at *
  unfold reduce
  split_ifs <;> omega

theorem total_append {l : List UInt8} (heven : l.length % 2 = 0) (l' : List UInt8) :
    total (l ++ l') = total l + total l' := by
  induction l using words.induct with
  | case1 => simp [total]
  | case2 a => simp at heven
  | case3 a b l ih =>
    have heven' : l.length % 2 = 0 := by
      simp only [List.length_cons] at heven
      omega
    simp only [List.cons_append, total, ih heven']
    omega

theorem total_le (l : List UInt8) : total l ≤ 65535 * ((l.length + 1) / 2) := by
  induction l using words.induct with
  | case1 => exact Nat.zero_le _
  | case2 a =>
    have := a.toNat_lt
    simp only [total, List.length_singleton]
    omega
  | case3 a b l ih =>
    have := a.toNat_lt
    have := b.toNat_lt
    simp only [total, List.length_cons]
    omega

end Thunder.OnesComplement
