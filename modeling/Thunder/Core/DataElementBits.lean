import Thunder.Library.Bits

/-! `GetBitNumber` and `SetBitNumber` of a `DataElement`: numbers in a part of its bits.  An access
outside of the element, and a shift by all bits of a type, has no result. -/

namespace Thunder.Core.DataElement

open Bits

/-- Numbers of `width` bits are shifted as an `int` where they are smaller. -/
def promoted (width : Nat) : Nat := max 32 width

/-- `n >> count`. -/
def shiftRight (width n count : Nat) : Option Nat :=
  if count < promoted width then some (n >>> count) else none

/-- `value & ~(static_cast<TYPENAME>(~0) << count)`. -/
def mask (width value count : Nat) : Option Nat :=
  let bits := promoted width
  if count < bits then
    some (value &&& (2 ^ bits - 1 - ((2 ^ width - 1) <<< count) % 2 ^ bits))
  else none

/-- The middle and the tail of `GetBitNumber`, with `bitsleft` bits to go. -/
def getRest (width : Nat) : List UInt8 → Nat → Nat → Option Nat
  | [], result, bitsleft => if bitsleft > 0 then none else some result
  | b :: buffer, result, bitsleft =>
    if bitsleft > 8 then
      getRest width buffer ((result <<< 8 + b.toNat) % 2 ^ width) (bitsleft - 8)
    else if bitsleft > 0 then
      some ((result <<< bitsleft ||| (b.toNat >>> (8 - bitsleft) &&& 0xFF)) % 2 ^ width)
    else some result

/-- Of an element with the content `l`, for a type of `width` bits. -/
def getBitNumber (width : Nat) (l : List UInt8) (offset bitIndex count : Nat) : Option Nat :=
  match l.drop (offset + bitIndex / 8) with
  | [] => none
  | b :: buffer =>
    let result := (b.toNat &&& (0xFF >>> (bitIndex % 8))) % 2 ^ width
    if 8 - bitIndex % 8 ≤ count then getRest width buffer result (count - (8 - bitIndex % 8))
    else some (result >>> (8 - bitIndex % 8 - count))

/-- The middle and the tail of `SetBitNumber`. -/
def setRest (width number count : Nat) : List UInt8 → Nat → Option (List UInt8)
  | [], bitCount => if bitCount = 0 then some [] else none
  | b :: buffer, bitCount =>
    if bitCount ≥ 8 then do
      let bitCount := bitCount - 8
      let value ← shiftRight width number (count - bitCount)
      let rest ← setRest width number count buffer bitCount
      some (UInt8.ofNat (value &&& 0xFF) :: rest)
    else if bitCount ≠ 0 then
      some (UInt8.ofNat ((number <<< (8 - bitCount) &&& 0xFF) |||
        (b.toNat &&& (0xFF >>> bitCount))) :: buffer)
    else some (b :: buffer)

def setBitNumber (width : Nat) (l : List UInt8) (offset bitIndex count value : Nat) :
    Option (List UInt8) := do
  let number ← mask width value count
  match l.drop (offset + bitIndex / 8) with
  | [] => none
  | b :: buffer =>
    let rest := 8 - bitIndex % 8
    let front := l.take (offset + bitIndex / 8)
    if count < rest then
      some (front ++ UInt8.ofNat ((b.toNat &&& (0xFF <<< rest)) ||| number <<< (rest - count) |||
        (b.toNat &&& (0xFF >>> (8 - rest + count)))) :: buffer)
    else do
      let value ← shiftRight width number (count - rest)
      let buffer ← setRest width number count buffer (count - rest)
      some (front ++ UInt8.ofNat ((b.toNat &&& (0xFF <<< rest)) ||| value) :: buffer)

/-- A number that is set is what is got, and the other bits of the element are the same. -/
def RoundTrip (width : Nat) (l : List UInt8) (offset bitIndex count value : Nat) : Prop :=
  ∃ l', setBitNumber width l offset bitIndex count value = some l' ∧
    getBitNumber width l' offset bitIndex count = some (value % 2 ^ count) ∧
    SameOutside l l' (8 * offset + bitIndex) count

/-- The byte of a number with `low` bits behind it. -/
def byteAt (number low : Nat) : Nat := number >>> low % 256

/-- Not all bits of the type where it is no smaller than an `int`; and each whole byte behind the
first one is the byte of the number that has as many bits behind it as are written up to it. -/
def Fits (width bitIndex count value : Nat) : Prop :=
  count < promoted width ∧
    ∀ m, 8 - bitIndex % 8 + 8 * (m + 1) ≤ count →
      byteAt (value % 2 ^ count) (8 - bitIndex % 8 + 8 * (m + 1)) =
        byteAt (value % 2 ^ count) (count - (8 - bitIndex % 8 + 8 * (m + 1)))

/-! ### Reading -/

theorem wrap_of_lt {width n : Nat} (h : n < 2 ^ width) : n % 2 ^ width = n := Nat.mod_eq_of_lt h

/-- The bits of a number followed by those of another. -/
theorem testBit_join {a b k : Nat} (hb : b < 2 ^ k) (j : Nat) :
    (a <<< k + b).testBit j = if j < k then b.testBit j else a.testBit (j - k) := by
  rw [Nat.shiftLeft_eq, Nat.mul_comm, Nat.testBit_two_pow_mul_add a hb]

/-- What is read behind the first byte: what was read before, followed by the bits that are left. -/
theorem getRest_eq {width : Nat} {l : List UInt8} {result bitsleft taken : Nat}
    (hresult : result < 2 ^ taken) (hwidth : taken + bitsleft ≤ width)
    (hl : bitsleft ≤ 8 * l.length) :
    ∃ n, getRest width l result bitsleft = some n ∧ n < 2 ^ (taken + bitsleft) ∧
      ∀ j, n.testBit j =
        if j < bitsleft then bit l (bitsleft - 1 - j) else result.testBit (j - bitsleft) := by
  induction l generalizing result bitsleft taken with
  | nil =>
    obtain rfl : bitsleft = 0 := by simpa using hl
    exact ⟨result, rfl, hresult, fun j => by simp⟩
  | cons b l ih =>
    simp only [getRest]
    rcases Nat.lt_or_ge 8 bitsleft with hmore | hlast
    · rw [if_pos hmore]
      have hb : b.toNat < 2 ^ 8 := b.toNat_lt
      have hjoin : result <<< 8 + b.toNat < 2 ^ (taken + 8) := by
        rw [Nat.shiftLeft_eq, Nat.pow_add]
        calc result * 2 ^ 8 + b.toNat < result * 2 ^ 8 + 2 ^ 8 := Nat.add_lt_add_left hb _
          _ = (result + 1) * 2 ^ 8 := by rw [Nat.succ_mul]
          _ ≤ 2 ^ taken * 2 ^ 8 := Nat.mul_le_mul_right _ hresult
      have hmod := wrap_of_lt (hjoin.trans_le (Nat.pow_le_pow_right Nat.two_pos (show
        taken + 8 ≤ width by omega)))
      rw [hmod]
      obtain ⟨n, hn, hlt, hbits⟩ := ih hjoin (show taken + 8 + (bitsleft - 8) ≤ width by omega)
        (by simp only [List.length_cons] at hl; omega)
      refine ⟨n, hn, by rwa [show taken + bitsleft = taken + 8 + (bitsleft - 8) by omega],
        fun j => ?_⟩
      rw [hbits]
      rcases Nat.lt_or_ge j (bitsleft - 8) with hj | hj
      · rw [if_pos hj, if_pos (by omega), bit_cons, if_neg (by omega)]
        congr 1
        omega
      · rw [if_neg (by omega), testBit_join hb]
        rcases Nat.lt_or_ge j bitsleft with hj' | hj'
        · rw [if_pos (by omega), if_pos hj', bit_cons, if_pos (by omega)]
          congr 1
          omega
        · rw [if_neg (by omega), if_neg (by omega)]
          congr 1
          omega
    · rw [if_neg (by omega)]
      rcases Nat.eq_zero_or_pos bitsleft with rfl | hpos
      · exact ⟨result, rfl, hresult, fun j => by simp⟩
      · rw [if_pos hpos]
        have hbits : ∀ j,
            (result <<< bitsleft ||| (b.toNat >>> (8 - bitsleft) &&& 0xFF)).testBit j =
              if j < bitsleft then bit (b :: l) (bitsleft - 1 - j)
              else result.testBit (j - bitsleft) := by
          intro j
          rw [Nat.testBit_or, Nat.testBit_shiftLeft, Nat.testBit_and, Nat.testBit_shiftRight,
            show 0xFF = 2 ^ 8 - 1 from rfl, Nat.testBit_two_pow_sub_one]
          split_ifs with hj
          · rw [bit_cons, if_pos (by omega),
              show 7 - (bitsleft - 1 - j) = 8 - bitsleft + j by omega]
            simp [show ¬ bitsleft ≤ j by omega, show j < 8 by omega]
          · rw [testBit_toNat b (show 8 ≤ 8 - bitsleft + j by omega)]
            simp [show bitsleft ≤ j by omega]
        have hlt : (result <<< bitsleft ||| (b.toNat >>> (8 - bitsleft) &&& 0xFF)) <
            2 ^ (taken + bitsleft) := by
          refine Nat.lt_pow_two_of_testBit _ fun j hj => ?_
          rw [hbits, if_neg (by omega)]
          exact testBit_of_le taken hresult (by omega)
        have hmod := wrap_of_lt (hlt.trans_le (Nat.pow_le_pow_right Nat.two_pos hwidth))
        exact ⟨_, rfl, by rwa [hmod], by rwa [hmod]⟩

/-- Reading gives the number that stands in the bits. -/
theorem getBitNumber_eq {width : Nat} {l : List UInt8} {offset bitIndex count : Nat}
    (height : 8 ≤ width) (hcount : count ≤ width) (hpos : 0 < count)
    (hfit : 8 * offset + bitIndex + count ≤ 8 * l.length) :
    ∃ n, getBitNumber width l offset bitIndex count = some n ∧ n < 2 ^ count ∧
      Holds l (8 * offset + bitIndex) count n := by
  have hstart : 8 * offset + bitIndex = 8 * (offset + bitIndex / 8) + bitIndex % 8 := by omega
  have hlt : offset + bitIndex / 8 < l.length := by omega
  have hindex : bitIndex % 8 < 8 := Nat.mod_lt _ (by decide)
  rw [getBitNumber, List.drop_eq_getElem_cons hlt]
  unfold Holds
  have hbit : ∀ k, bit l (8 * offset + bitIndex + k) =
      bit (l[offset + bitIndex / 8] :: l.drop (offset + bitIndex / 8 + 1)) (bitIndex % 8 + k) := by
    intro k
    rw [← List.drop_eq_getElem_cons hlt, bit_drop, hstart, Nat.add_assoc]
  have hrest : (l.drop (offset + bitIndex / 8 + 1)).length =
      l.length - (offset + bitIndex / 8 + 1) := List.length_drop
  generalize l[offset + bitIndex / 8] = b at *
  generalize l.drop (offset + bitIndex / 8 + 1) = buffer at *
  generalize bitIndex % 8 = i at *
  -- the first byte
  have hhead : ∀ j, (b.toNat &&& (0xFF >>> i)).testBit j =
      if j < 8 - i then b.toNat.testBit j else false := by
    intro j
    rw [Nat.testBit_and, testBit_ones_shiftRight]
    split_ifs with hj
    · simp [show i + j < 8 by omega]
    · simp [show ¬ i + j < 8 by omega]
  have hheadLt : b.toNat &&& (0xFF >>> i) < 2 ^ (8 - i) :=
    Nat.lt_pow_two_of_testBit _ fun j hj => by rw [hhead, if_neg (by omega)]
  simp only [wrap_of_lt (hheadLt.trans_le (Nat.pow_le_pow_right Nat.two_pos (show 8 - i ≤ width by
    omega)))]
  rcases Nat.lt_or_ge count (8 - i) with hshort | hlong
  · rw [if_neg (by omega)]
    have hbits : ∀ j, ((b.toNat &&& (0xFF >>> i)) >>> (8 - i - count)).testBit j =
        if j < count then b.toNat.testBit (8 - i - count + j) else false := by
      intro j
      rw [Nat.testBit_shiftRight, hhead]
      split_ifs <;> first | rfl | omega
    refine ⟨_, rfl, Nat.lt_pow_two_of_testBit _ fun j hj => by rw [hbits, if_neg (by omega)],
      fun k hk => ?_⟩
    rw [hbit, bit_cons, if_pos (by omega), hbits, if_pos (by omega)]
    congr 1
    omega
  · rw [if_pos hlong]
    obtain ⟨n, hn, hnLt, hbits⟩ := getRest_eq (l := buffer) hheadLt
      (show 8 - i + (count - (8 - i)) ≤ width by omega) (by omega)
    refine ⟨n, hn, by rwa [show count = 8 - i + (count - (8 - i)) by omega], fun k hk => ?_⟩
    rw [hbit, hbits, bit_cons]
    rcases Nat.lt_or_ge (i + k) 8 with hfirst | hlater
    · rw [if_pos hfirst, if_neg (by omega), hhead, if_pos (by omega)]
      congr 1
      omega
    · rw [if_neg (by omega), if_pos (by omega)]
      congr 1
      omega

/-! ### Writing -/

theorem mask_eq {width value : Nat} (count : Nat) (hvalue : value < 2 ^ width) :
    mask width value count = if count < promoted width then some (value % 2 ^ count) else none := by
  simp only [mask]
  split_ifs with h
  · have hbits : width ≤ promoted width := le_max_right ..
    refine congrArg some (Nat.eq_of_testBit_eq fun j => ?_)
    rw [Nat.testBit_and, Nat.sub_sub, Nat.add_comm 1,
      Nat.testBit_two_pow_sub_succ (Nat.mod_lt _ (Nat.two_pow_pos _)),
      Nat.testBit_mod_two_pow, Nat.testBit_mod_two_pow, Nat.testBit_shiftLeft,
      Nat.testBit_two_pow_sub_one]
    rcases Nat.lt_or_ge j width with hj | hj
    · rcases Nat.lt_or_ge j count with hj' | hj'
      · simp [hj', show j < promoted width by omega, show ¬ count ≤ j by omega]
      · simp [show ¬ j < count by omega, show j < promoted width by omega, hj',
          show j - count < width by omega]
    · rw [testBit_of_le width hvalue hj]
      simp
  · rfl

/-- The bytes behind the first one: whole ones, the tail, and what is left alone. -/
theorem setRest_eq {width count : Nat} (number : Nat) (hcount : count < promoted width)
    {l : List UInt8} {bitCount : Nat} (hle : bitCount ≤ count) (hl : bitCount ≤ 8 * l.length) :
    ∃ l', setRest width number count l bitCount = some l' ∧ l'.length = l.length ∧
      ∀ k, bit l' k =
        if k < bitCount then
          if k / 8 < bitCount / 8 then
            number.testBit (7 - k % 8 + (count - (bitCount - 8 * (k / 8 + 1))))
          else number.testBit (bitCount - 1 - k)
        else bit l k := by
  induction l generalizing bitCount with
  | nil =>
    obtain rfl : bitCount = 0 := by simpa using hl
    exact ⟨[], rfl, rfl, fun k => by simp⟩
  | cons b l ih =>
    simp only [setRest]
    rcases Nat.lt_or_ge bitCount 8 with hlast | hmore
    · rw [if_neg (by omega)]
      rcases Nat.eq_zero_or_pos bitCount with rfl | hpos
      · exact ⟨b :: l, rfl, rfl, fun k => by simp⟩
      · rw [if_pos (by omega)]
        refine ⟨_, rfl, rfl, fun k => ?_⟩
        rw [bit_cons, bit_cons]
        rcases Nat.lt_or_ge k 8 with hk | hk
        · rw [if_pos hk, if_pos hk, testBit_byte _ (by omega), Nat.testBit_or, Nat.testBit_and,
            Nat.testBit_and, Nat.testBit_shiftLeft, testBit_ones_shiftRight,
            show 0xFF = 2 ^ 8 - 1 from rfl, Nat.testBit_two_pow_sub_one]
          rcases Nat.lt_or_ge k bitCount with hk' | hk'
          · rw [if_pos hk', if_neg (by omega),
              show bitCount - 1 - k = 7 - k - (8 - bitCount) by omega]
            simp [show 8 - bitCount ≤ 7 - k by omega, show ¬ bitCount + (7 - k) < 8 by omega,
              show 7 - k < 8 by omega]
          · rw [if_neg (by omega)]
            simp [show ¬ 8 - bitCount ≤ 7 - k by omega, show bitCount + (7 - k) < 8 by omega]
        · rw [if_neg (by omega), if_neg (by omega), if_neg (by omega)]
    · rw [if_pos hmore]
      obtain ⟨l', hrun, hlength, hbits⟩ := ih (show bitCount - 8 ≤ count by omega)
        (by simp only [List.length_cons] at hl; omega)
      have hshift : shiftRight width number (count - (bitCount - 8)) =
          some (number >>> (count - (bitCount - 8))) := if_pos (by omega)
      refine ⟨UInt8.ofNat (number >>> (count - (bitCount - 8)) &&& 0xFF) :: l', ?_, ?_,
        fun k => ?_⟩
      · simp [hshift, hrun]
      · simp [hlength]
      · rw [bit_cons, bit_cons]
        rcases Nat.lt_or_ge k 8 with hk | hk
        · rw [if_pos hk, if_pos hk, if_pos (by omega), if_pos (by omega), testBit_byte _ (by omega),
            Nat.testBit_and, Nat.testBit_shiftRight, show 0xFF = 2 ^ 8 - 1 from rfl,
            Nat.testBit_two_pow_sub_one, decide_eq_true (show 7 - k < 8 by omega), Bool.and_true]
          congr 1
          omega
        · rw [if_neg (not_lt.mpr hk), hbits]
          rcases Nat.lt_or_ge k bitCount with hk' | hk'
          · rw [if_pos (show k - 8 < bitCount - 8 by omega), if_pos hk']
            rcases Nat.lt_or_ge (k / 8) (bitCount / 8) with hwhole | htail
            · rw [if_pos (by omega), if_pos hwhole]
              congr 1
              omega
            · rw [if_neg (by omega), if_neg (by omega)]
              congr 1
              omega
          · rw [if_neg (by omega), if_neg (by omega), if_neg (by omega)]

/-- The bit of a number that is written as the bit `x` of its field. -/
def writtenBit (number rest count x : Nat) : Bool :=
  if rest ≤ x ∧ (x - rest) / 8 < (count - rest) / 8 then
    number.testBit (7 - (x - rest) % 8 + (rest + 8 * ((x - rest) / 8 + 1)))
  else number.testBit (count - 1 - x)

/-- The bits of a byte string in which a part was written from bit `i` of a byte on. -/
def Written (number i count : Nat) (l l' : List UInt8) : Prop :=
  l'.length = l.length ∧ ∀ k, bit l' k =
    if i ≤ k ∧ k < i + count then writtenBit number (8 - i) count (k - i) else bit l k

/-- The first byte, where the field ends in it. -/
theorem written_byte {number i count : Nat} (hnumber : number < 2 ^ count) (hpos : 0 < count)
    (hshort : count < 8 - i) (b : UInt8) (buffer : List UInt8) :
    Written number i count (b :: buffer)
      (UInt8.ofNat ((b.toNat &&& (0xFF <<< (8 - i))) ||| number <<< (8 - i - count) |||
        (b.toNat &&& (0xFF >>> (8 - (8 - i) + count)))) :: buffer) := by
  refine ⟨rfl, fun k => ?_⟩
  rw [bit_cons, bit_cons]
  rcases Nat.lt_or_ge k 8 with hk | hk
  · rw [if_pos hk, if_pos hk, testBit_byte _ (by omega), Nat.testBit_or, Nat.testBit_or,
      Nat.testBit_and, Nat.testBit_and, testBit_ones_shiftLeft, testBit_ones_shiftRight,
      Nat.testBit_shiftLeft]
    split_ifs with hfield
    · rw [writtenBit, if_neg (by omega),
        show count - 1 - (k - i) = 7 - k - (8 - i - count) by omega]
      simp [show ¬ 8 - i ≤ 7 - k by omega, show 8 - i - count ≤ 7 - k by omega,
        show ¬ 8 - (8 - i) + count + (7 - k) < 8 by omega]
    · rcases Nat.lt_or_ge k i with hbefore | hafter
      · rw [testBit_of_le count hnumber (show count ≤ 7 - k - (8 - i - count) by omega)]
        simp [show 8 - i ≤ 7 - k by omega, show 7 - k < 8 - i + 8 by omega,
          show ¬ 8 - (8 - i) + count + (7 - k) < 8 by omega]
      · simp [show ¬ 8 - i ≤ 7 - k by omega, show ¬ 8 - i - count ≤ 7 - k by omega,
          show 8 - (8 - i) + count + (7 - k) < 8 by omega]
  · rw [if_neg (show ¬ (i ≤ k ∧ k < i + count) by omega), if_neg (by omega), if_neg (by omega)]

/-- The first byte, and what follows it. -/
theorem written_bytes {width number i count : Nat} (hnumber : number < 2 ^ count)
    (hpromoted : count < promoted width) (hi : i < 8) (hlong : 8 - i ≤ count) (b : UInt8)
    (buffer : List UInt8) (hfit : i + count ≤ 8 * (buffer.length + 1)) :
    ∃ buffer', setRest width number count buffer (count - (8 - i)) = some buffer' ∧
      Written number i count (b :: buffer)
        (UInt8.ofNat ((b.toNat &&& (0xFF <<< (8 - i))) ||| number >>> (count - (8 - i))) ::
          buffer') := by
  obtain ⟨buffer', hset, hlength, hbits⟩ :=
    setRest_eq number hpromoted (Nat.sub_le count (8 - i)) (l := buffer) (by omega)
  refine ⟨buffer', hset, by simp [hlength], fun k => ?_⟩
  rw [bit_cons, bit_cons]
  rcases Nat.lt_or_ge k 8 with hk | hk
  · rw [if_pos hk, if_pos hk, testBit_byte _ (by omega), Nat.testBit_or, Nat.testBit_and,
      testBit_ones_shiftLeft, Nat.testBit_shiftRight]
    rcases Nat.lt_or_ge k i with hbefore | hfield
    · rw [if_neg (by omega), testBit_of_le count hnumber
        (show count ≤ count - (8 - i) + (7 - k) by omega)]
      simp [show 8 - i ≤ 7 - k by omega, show 7 - k < 8 - i + 8 by omega]
    · rw [if_pos (by omega), writtenBit, if_neg (by omega),
        show count - 1 - (k - i) = count - (8 - i) + (7 - k) by omega]
      simp [show ¬ 8 - i ≤ 7 - k by omega]
  · rw [if_neg (not_lt.mpr hk), hbits]
    rcases Nat.lt_or_ge (k - 8) (count - (8 - i)) with hfield | hafter
    · rw [if_pos hfield, if_pos (show i ≤ k ∧ k < i + count by omega), writtenBit,
        show k - i - (8 - i) = k - 8 by omega]
      rcases Nat.lt_or_ge ((k - 8) / 8) ((count - (8 - i)) / 8) with hwhole | htail
      · rw [if_pos hwhole, if_pos ⟨by omega, hwhole⟩]
        congr 1
        omega
      · rw [if_neg (by omega), if_neg (by omega)]
        congr 1
        omega
    · rw [if_neg (by omega), if_neg (by omega), if_neg (by omega)]

/-- Writing changes no bit outside of the field. -/
theorem setBitNumber_eq {width : Nat} {l : List UInt8} {offset bitIndex count value : Nat}
    (hvalue : value < 2 ^ width) (hpromoted : count < promoted width) (hpos : 0 < count)
    (hfit : 8 * offset + bitIndex + count ≤ 8 * l.length) :
    ∃ l', setBitNumber width l offset bitIndex count value = some l' ∧ l'.length = l.length ∧
      ∀ k, bit l' k =
        if 8 * offset + bitIndex ≤ k ∧ k < 8 * offset + bitIndex + count then
          writtenBit (value % 2 ^ count) (8 - bitIndex % 8) count (k - (8 * offset + bitIndex))
        else bit l k := by
  have hstart : 8 * offset + bitIndex = 8 * (offset + bitIndex / 8) + bitIndex % 8 := by omega
  have hlt : offset + bitIndex / 8 < l.length := by omega
  have hindex : bitIndex % 8 < 8 := Nat.mod_lt _ (by decide)
  have hnumber : value % 2 ^ count < 2 ^ count := Nat.mod_lt _ (Nat.two_pow_pos _)
  have hfront : (l.take (offset + bitIndex / 8)).length = offset + bitIndex / 8 :=
    List.length_take_of_le hlt.le
  have hrest : (l.drop (offset + bitIndex / 8 + 1)).length =
      l.length - (offset + bitIndex / 8 + 1) := List.length_drop
  -- what is written behind the front gives what is written in the element
  have hplace : ∀ {rest : List UInt8},
      Written (value % 2 ^ count) (bitIndex % 8) count (l.drop (offset + bitIndex / 8)) rest →
        (l.take (offset + bitIndex / 8) ++ rest).length = l.length ∧
        ∀ k, bit (l.take (offset + bitIndex / 8) ++ rest) k =
          if 8 * offset + bitIndex ≤ k ∧ k < 8 * offset + bitIndex + count then
            writtenBit (value % 2 ^ count) (8 - bitIndex % 8) count (k - (8 * offset + bitIndex))
          else bit l k := by
    rintro rest ⟨hlength, hbits⟩
    refine ⟨by rw [List.length_append, hfront, hlength, List.length_drop]; omega, fun k => ?_⟩
    rw [bit_append, hfront, hstart]
    rcases Nat.lt_or_ge k (8 * (offset + bitIndex / 8)) with hk | hk
    · rw [if_pos hk, if_neg (by omega)]
      have hold := bit_append (l.take (offset + bitIndex / 8)) (l.drop (offset + bitIndex / 8)) k
      rw [List.take_append_drop, hfront, if_pos hk] at hold
      exact hold.symm
    · rw [if_neg (by omega), hbits, bit_drop, Nat.add_sub_cancel' hk, Nat.sub_sub]
      congr 1
      exact propext ⟨fun _ => by omega, fun _ => by omega⟩
  simp only [setBitNumber, mask_eq count hvalue, if_pos hpromoted, Option.bind_eq_bind,
    Option.bind_some]
  rw [List.drop_eq_getElem_cons hlt] at hplace ⊢
  rcases Nat.lt_or_ge count (8 - bitIndex % 8) with hshort | hlong
  · simp only [if_pos hshort]
    exact ⟨_, rfl, hplace (written_byte hnumber hpos hshort _ _)⟩
  · obtain ⟨buffer', hset, hwritten⟩ := written_bytes hnumber hpromoted hindex hlong
      l[offset + bitIndex / 8] (l.drop (offset + bitIndex / 8 + 1)) (by omega)
    have hshift : shiftRight width (value % 2 ^ count) (count - (8 - bitIndex % 8)) =
        some ((value % 2 ^ count) >>> (count - (8 - bitIndex % 8))) := if_pos (by omega)
    simp only [if_neg (not_lt.mpr hlong), hshift, hset, Option.bind_some]
    exact ⟨_, rfl, hplace hwritten⟩

/-! ### The round trip -/

/-- The whole bytes are those of the number exactly when all bits of the field are. -/
theorem fits_iff {number rest count : Nat} :
    (∀ m, rest + 8 * (m + 1) ≤ count →
        byteAt number (rest + 8 * (m + 1)) = byteAt number (count - (rest + 8 * (m + 1)))) ↔
      ∀ x, x < count → writtenBit number rest count x = number.testBit (count - 1 - x) := by
  simp only [byteAt, byte_eq_iff, Nat.testBit_shiftRight]
  constructor
  · intro h x hx
    rw [writtenBit]
    split_ifs with hwhole
    · rw [Nat.add_comm (7 - _), h ((x - rest) / 8) (by omega) (7 - (x - rest) % 8) (by omega)]
      congr 1
      omega
    · rfl
  · intro h m hm j hj
    have hx := h (rest + 8 * m + (7 - j)) (by omega)
    rw [writtenBit, if_pos (by omega)] at hx
    rw [show rest + 8 * (m + 1) + j = 7 - (rest + 8 * m + (7 - j) - rest) % 8 +
      (rest + 8 * ((rest + 8 * m + (7 - j) - rest) / 8 + 1)) by omega, hx]
    congr 1
    omega

/-- A number comes back, and leaves the other bits alone, exactly when it fits. -/
theorem roundTrip_iff {width : Nat} (hwidth : width ∈ [8, 16, 32, 64]) {l : List UInt8}
    {offset bitIndex count value : Nat} (hvalue : value < 2 ^ width) (hpos : 1 ≤ count)
    (hcount : count ≤ width) (hfit : 8 * offset + bitIndex + count ≤ 8 * l.length) :
    RoundTrip width l offset bitIndex count value ↔ Fits width bitIndex count value := by
  have height : 8 ≤ width := by
    simp only [List.mem_cons, List.not_mem_nil, or_false] at hwidth
    omega
  rw [Fits]
  by_cases hpromoted : count < promoted width
  · simp only [hpromoted, true_and]
    rw [fits_iff]
    obtain ⟨l', hset, hlength, hbits⟩ := setBitNumber_eq hvalue hpromoted hpos hfit
    obtain ⟨n, hget, hn, hholds⟩ := getBitNumber_eq height hcount hpos (hlength ▸ hfit)
    have hnumber : value % 2 ^ count < 2 ^ count := Nat.mod_lt _ (Nat.two_pow_pos _)
    -- the bits of the field are the written ones
    have hfield : ∀ x, x < count →
        writtenBit (value % 2 ^ count) (8 - bitIndex % 8) count x = n.testBit (count - 1 - x) := by
      intro x hx
      rw [← hholds x hx, hbits, if_pos (by omega), Nat.add_sub_cancel_left]
    constructor
    · rintro ⟨l₁, hset₁, hget₁, -⟩ x hx
      obtain rfl : l' = l₁ := Option.some.inj (hset.symm.trans hset₁)
      obtain rfl : n = value % 2 ^ count := Option.some.inj (hget.symm.trans hget₁)
      exact hfield x hx
    · intro h
      have hsame : n = value % 2 ^ count := by
        refine eq_of_testBit count hn hnumber fun j hj => ?_
        have hx := (hfield (count - 1 - j) (by omega)).symm.trans (h (count - 1 - j) (by omega))
        rwa [show count - 1 - (count - 1 - j) = j by omega] at hx
      refine ⟨l', hset, hsame ▸ hget, hlength, fun k hk => ?_⟩
      rw [hbits, if_neg (by omega)]
  · refine iff_of_false ?_ fun h => hpromoted h.1
    rintro ⟨l', hset, -⟩
    simp [setBitNumber, mask_eq count hvalue, hpromoted] at hset

theorem roundTrip_sixteen : RoundTrip 16 [0xFF, 0xFF, 0xFF] 0 4 16 0x5055 :=
  (roundTrip_iff (by decide) (by decide) (by decide) (by decide) (by decide)).mpr
    ⟨by decide, fun m hm => by
      obtain rfl : m = 0 := by omega
      decide⟩

/-- Sixteen bits of a larger number at the start of a byte: the second byte is zero. -/
theorem not_roundTrip : ¬ RoundTrip 32 [0, 0] 0 0 16 0x1234 := by
  rintro ⟨l', hset, hget, -⟩
  have hrun : setBitNumber 32 [0, 0] 0 0 16 0x1234 = some [0x12, 0] := by decide
  obtain rfl : [0x12, 0] = l' := Option.some.inj (hrun.symm.trans hset)
  exact absurd hget (by decide)

end Thunder.Core.DataElement
