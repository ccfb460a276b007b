import Mathlib.Data.Nat.Bitwise
import Mathlib.Tactic.Ring

/-! Byte strings: numbers of a fixed width, texts that end at a zero byte, and overwriting a part of
a byte string. -/

namespace Thunder.Bytes

/-- The bytes of a number, the most significant one first. -/
def bigEndian : Nat → Nat → List UInt8
  | 0, _ => []
  | width + 1, n => bigEndian width (n / 256) ++ [UInt8.ofNat n]

def ofBigEndian (l : List UInt8) : Nat := l.foldl (fun n b => n * 256 + b.toNat) 0

/-- The bytes of a number, the least significant one first. -/
def littleEndian (width n : Nat) : List UInt8 := (bigEndian width n).reverse

def ofLittleEndian (l : List UInt8) : Nat := ofBigEndian l.reverse

/-- The bytes before the first zero, when there is one. -/
def terminated (l : List UInt8) : Option (List UInt8) :=
  if 0 ∈ l then some (l.takeWhile (fun b => b ≠ 0)) else none

/-- `l` with the bytes from `offset` on replaced by `bytes`. -/
def overwrite (l : List UInt8) (offset : Nat) (bytes : List UInt8) : List UInt8 :=
  l.take offset ++ bytes ++ l.drop (offset + bytes.length)

theorem bigEndian_succ (width n : Nat) :
    bigEndian (width + 1) n = bigEndian width (n / 256) ++ [UInt8.ofNat n] := rfl

@[simp] theorem length_bigEndian (width n : Nat) : (bigEndian width n).length = width := by
  induction width generalizing n with
  | zero => rfl
  | succ width ih => simp [bigEndian_succ, ih]

theorem bigEndian_add (width width' n : Nat) :
    bigEndian (width + width') n = bigEndian width (n / 256 ^ width') ++ bigEndian width' n := by
  induction width' generalizing n with
  | zero =>
    rw [Nat.pow_zero, Nat.div_one]
    exact (List.append_nil _).symm
  | succ width' ih =>
    rw [← Nat.add_assoc, bigEndian_succ, ih, bigEndian_succ, Nat.div_div_eq_div_mul, ← pow_succ',
      List.append_assoc]

theorem bigEndian_eq_map (width n : Nat) :
    bigEndian width n =
      (List.range width).map fun index => UInt8.ofNat (n >>> (8 * (width - 1 - index))) := by
  induction width generalizing n with
  | zero => rfl
  | succ width ih =>
    rw [bigEndian_succ, ih, List.range_succ, List.map_append]
    congr 1
    · apply List.map_congr_left
      intro index hindex
      have hlt := List.mem_range.mp hindex
      rw [show 8 * (width + 1 - 1 - index) = 8 + 8 * (width - 1 - index) by omega, Nat.shiftRight_add,
        Nat.shiftRight_eq_div_pow n 8]
    · simp

theorem ofBigEndian_append_byte (l : List UInt8) (b : UInt8) :
    ofBigEndian (l ++ [b]) = ofBigEndian l * 256 + b.toNat := by
  simp [ofBigEndian]

theorem ofBigEndian_bigEndian (width n : Nat) :
    ofBigEndian (bigEndian width n) = n % 256 ^ width := by
  induction width generalizing n with
  | zero => exact (Nat.mod_one n).symm
  | succ width ih =>
    rw [bigEndian_succ, ofBigEndian_append_byte, ih]
    have hlow : (UInt8.ofNat n).toNat = n % 256 := by simp
    rw [hlow, pow_succ', Nat.mod_mul]
    ring

/-- A number that fits its width is read as it was written. -/
theorem ofBigEndian_bigEndian_of_lt {width n : Nat} (h : n < 256 ^ width) :
    ofBigEndian (bigEndian width n) = n := by
  rw [ofBigEndian_bigEndian, Nat.mod_eq_of_lt h]

@[simp] theorem length_littleEndian (width n : Nat) : (littleEndian width n).length = width := by
  simp [littleEndian]

theorem ofLittleEndian_littleEndian_of_lt {width n : Nat} (h : n < 256 ^ width) :
    ofLittleEndian (littleEndian width n) = n := by
  rw [ofLittleEndian, littleEndian, List.reverse_reverse, ofBigEndian_bigEndian_of_lt h]

theorem terminated_append {t : List UInt8} (h : 0 ∉ t) (rest : List UInt8) :
    terminated (t ++ 0 :: rest) = some t := by
  have hall : ∀ b ∈ t, (decide (b ≠ 0)) = true := by
    intro b hb
    have : b ≠ 0 := fun h0 => h (h0 ▸ hb)
    simpa using this
  unfold terminated
  rw [if_pos (by simp), List.takeWhile_append_of_pos hall]
  simp

theorem length_overwrite {l bytes : List UInt8} {offset : Nat} (h : offset + bytes.length ≤ l.length) :
    (overwrite l offset bytes).length = l.length := by
  simp only [overwrite, List.length_append, List.length_take, List.length_drop]
  omega

theorem take_overwrite {l : List UInt8} {offset : Nat} (bytes : List UInt8) (h : offset ≤ l.length) :
    (overwrite l offset bytes).take (offset + bytes.length) = l.take offset ++ bytes := by
  have hfront : (l.take offset ++ bytes).length = offset + bytes.length := by simp [h]
  rw [overwrite, ← hfront, List.take_left]

theorem overwrite_set {l : List UInt8} {offset : Nat} (bytes : List UInt8) (b : UInt8)
    (h : offset + bytes.length < l.length) :
    (overwrite l offset bytes).set (offset + bytes.length) b = overwrite l offset (bytes ++ [b]) := by
  have hfront : (l.take offset ++ bytes).length = offset + bytes.length := by
    simp only [List.length_append, List.length_take]
    omega
  rw [overwrite, List.set_append_right _ _ hfront.le, hfront, Nat.sub_self, List.drop_eq_getElem_cons h,
    List.set_cons_zero, overwrite, List.length_append, List.length_singleton, ← Nat.add_assoc,
    List.append_assoc, List.append_assoc, List.append_assoc, List.singleton_append]

/-- Bytes written one after another. -/
theorem foldl_set {l : List UInt8} {offset width : Nat} (h : offset + width ≤ l.length)
    (byte : Nat → UInt8) :
    (List.range' 0 width).foldl (fun l index => l.set (offset + index) (byte index)) l =
      overwrite l offset ((List.range width).map byte) := by
  induction width with
  | zero => simp [overwrite]
  | succ width ih =>
    have hlength : ((List.range width).map byte).length = width := by simp
    have hset := overwrite_set ((List.range width).map byte) (byte width)
      (by omega : offset + ((List.range width).map byte).length < l.length)
    rw [hlength] at hset
    rw [List.range'_1_concat, List.foldl_append, ih (by omega), List.foldl_cons, List.foldl_nil,
      Nat.zero_add, hset, List.range_succ, List.map_append, List.map_singleton]

theorem overwrite_append (pre old bytes : List UInt8) :
    overwrite (pre ++ old) pre.length bytes = pre ++ bytes ++ old.drop bytes.length := by
  have hdrop : (pre ++ old).drop (pre.length + bytes.length) = old.drop bytes.length := by
    rw [List.drop_append]
    simp
  unfold overwrite
  rw [List.take_left, hdrop]

/-- Bytes written behind the ones before are written with them. -/
theorem overwrite_overwrite {l : List UInt8} {offset : Nat} (bytes bytes' : List UInt8)
    (h : offset ≤ l.length) :
    overwrite (overwrite l offset bytes) (offset + bytes.length) bytes' =
      overwrite l offset (bytes ++ bytes') := by
  have hlength : (l.take offset ++ bytes).length = offset + bytes.length := by simp [h]
  have happend := overwrite_append (l.take offset ++ bytes) (l.drop (offset + bytes.length)) bytes'
  rw [hlength, List.drop_drop] at happend
  simp only [overwrite, List.append_assoc, List.length_append, Nat.add_assoc] at happend ⊢
  exact happend

/-! ### Masks -/

section Masks

variable {a b c : UInt8}

theorem and_mask (h : a &&& b = c) (i : UInt8) : (i &&& a) &&& b = i &&& c := by
  rw [UInt8.and_assoc, h]

theorem and_mask_zero (h : a &&& b = 0) (i : UInt8) : (i &&& a) &&& b = 0 := by
  rw [and_mask h, UInt8.and_zero]

theorem or_mask (h : a &&& b = c) (i : UInt8) : (i ||| a) &&& b = i &&& b ||| c := by
  apply UInt8.toNat_inj.mp
  rw [← h, UInt8.toNat_and, UInt8.toNat_or, Nat.and_or_distrib_right, UInt8.toNat_or,
    UInt8.toNat_and, UInt8.toNat_and]

theorem or_mask_zero (h : a &&& b = 0) (i : UInt8) : (i ||| a) &&& b = i &&& b := by
  rw [or_mask h, UInt8.or_zero]

theorem or_mask_ne_zero (h : a &&& b ≠ 0) (i : UInt8) : (i ||| a) &&& b ≠ 0 := by
  rw [or_mask rfl]
  intro hzero
  exact h (UInt8.or_eq_zero_iff.mp hzero).2

theorem or_mask_self (a i : UInt8) : (i ||| a) &&& a = a := by
  apply UInt8.toBitVec_inj.mp
  apply BitVec.eq_of_getElem_eq
  intro k hk
  simp only [BitVec.getElem_and, UInt8.toBitVec_and, UInt8.toBitVec_or, BitVec.getElem_or]
  cases a.toBitVec[k] <;> simp

/-- A mask of one bit. -/
theorem and_bit {bit : Nat} (h : a.toNat = 2 ^ bit) (i : UInt8) : i &&& a = 0 ∨ i &&& a = a := by
  have hbit : (i &&& a).toNat = (i.toNat.testBit bit).toNat * 2 ^ bit := by
    rw [UInt8.toNat_and, h, Nat.and_two_pow]
  cases hcase : i.toNat.testBit bit with
  | false =>
    rw [hcase, Bool.toNat_false, Nat.zero_mul] at hbit
    exact .inl (UInt8.toNat_inj.mp hbit)
  | true =>
    rw [hcase, Bool.toNat_true, Nat.one_mul, ← h] at hbit
    exact .inr (UInt8.toNat_inj.mp hbit)

/-- A mask of several bits finds none of them where none of them is found alone. -/
theorem and_or_eq_zero {i : UInt8} (ha : i &&& a = 0) (hb : i &&& b = 0) : i &&& (a ||| b) = 0 := by
  rw [UInt8.and_comm, or_mask rfl, UInt8.and_comm a, UInt8.and_comm b, ha, hb]
  rfl

end Masks

end Thunder.Bytes
