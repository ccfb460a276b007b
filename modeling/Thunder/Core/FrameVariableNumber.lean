import Thunder.Core.FrameType
import Mathlib.Data.Nat.Bitwise

/-! Variable numbers of a `FrameType`: seven bits a byte, and a bit that says that more follow. -/

namespace Thunder.Core.FrameType

open Bytes

/-- The loop of `SetVariableNumber` over the places of `bytes`. -/
def groups : Nat → Nat → List UInt8
  | 0, _ => []
  | places + 1, value =>
    (UInt8.ofNat (value % 128) ||| 0x80) ::
      if value / 128 = 0 then [] else groups places (value / 128)

/-- The last byte loses its bit. -/
def finish : List UInt8 → List UInt8
  | [] => []
  | [b] => [b ^^^ 0x80]
  | b :: bytes => b :: finish bytes

/-- The bytes are swapped where there are several of them and the order is big-endian. -/
def ordered (c : FrameConfig) (bytes : List UInt8) : List UInt8 :=
  if c.bigEndian ∧ 1 < bytes.length then bytes.reverse else bytes

def setVariableNumber (c : FrameConfig) (size offset number : Nat) (frame : FrameType) :
    Option (Nat × FrameType) :=
  let bytes := finish (groups 10 number)
  let index := bytes.length
  let frame :=
    if frame.size ≤ c.plus offset index then frame.resize c (c.plus offset size) else frame
  (frame.put offset (ordered c bytes)).map fun frame => (index, frame)

/-- The loop of `VariableNumberLength`, which a value of 64 bits leaves in time. -/
def variableNumberLengthFrom : Nat → Nat → Nat
  | 0, _ => 0
  | places + 1, testValue =>
    1 + if testValue >>> 7 = 0 then 0 else variableNumberLengthFrom places (testValue >>> 7)

def variableNumberLength (value : Nat) : Nat := variableNumberLengthFrom 10 value

def addGroup (size number : Nat) (b : UInt8) : Nat :=
  (number <<< 7 ||| (b &&& 0x7F).toNat) % 256 ^ size

/-- There is no value where the byte that counts the bytes overflows, or where one of them is behind
the buffer. -/
def getVariableNumber (c : FrameConfig) (size offset : Nat) (frame : FrameType) :
    Option (Nat × Nat) :=
  let index :=
    (((frame.data.take frame.size).drop offset).takeWhile fun b => b &&& 0x80 ≠ 0).length + 1
  let bytes := frame.get offset index
  if 256 ≤ index ∨ bytes.length < index then none
  else
    some ((if c.bigEndian then bytes else bytes.reverse).foldl (addGroup size) 0, index)

/-! ### The bytes of a number -/

theorem group_more {n : Nat} (h : n < 128) : (UInt8.ofNat n ||| 0x80) &&& 0x80 ≠ 0 := by
  revert n
  decide

theorem group_last {n : Nat} (h : n < 128) :
    ((UInt8.ofNat n ||| 0x80) ^^^ 0x80) &&& 0x80 = 0 := by
  revert n
  decide

theorem group_value {n : Nat} (h : n < 128) :
    ((UInt8.ofNat n ||| 0x80) &&& 0x7F).toNat = n ∧
      (((UInt8.ofNat n ||| 0x80) ^^^ 0x80) &&& 0x7F).toNat = n := by
  revert n
  decide

theorem addGroup_of {size n : Nat} {b : UInt8} (h : n < 256 ^ size)
    (hb : (b &&& 0x7F).toNat = n % 128) :
    addGroup size (n / 128) b = n := by
  have hor : (n / 128) <<< 7 ||| n % 128 = n := by
    rw [← Nat.shiftLeft_add_eq_or_of_lt (Nat.mod_lt n (by decide : 0 < 2 ^ 7)), Nat.shiftLeft_eq]
    omega
  rw [addGroup, hb, hor, Nat.mod_eq_of_lt h]

/-- All bytes but the last one say that more follow, they are as many as the length says, and the
number is read from them, the last one first. -/
structure Encodes (size n : Nat) (bytes : List UInt8) : Prop where
  shape : ∃ front last, bytes = front ++ [last] ∧ (∀ b ∈ front, b &&& 0x80 ≠ 0) ∧ last &&& 0x80 = 0
  value : bytes.reverse.foldl (addGroup size) 0 = n

theorem encodes_groups {places size n : Nat} (hplaces : n < 128 ^ places) (hsize : n < 256 ^ size)
    (hpos : 0 < places) :
    Encodes size n (finish (groups places n)) ∧
      (finish (groups places n)).length = variableNumberLengthFrom places n := by
  induction places generalizing n with
  | zero => omega
  | succ places ih =>
    have hlow : n % 128 < 128 := Nat.mod_lt n (by decide)
    obtain ⟨hmore, hlast⟩ := group_value hlow
    rw [groups, variableNumberLengthFrom, Nat.shiftRight_eq_div_pow]
    by_cases hzero : n / 128 = 0
    · rw [if_pos hzero, if_pos (by exact hzero), finish]
      refine ⟨⟨⟨[], _, rfl, nofun, group_last hlow⟩, ?_⟩, rfl⟩
      have hvalue := addGroup_of hsize hlast
      rwa [hzero] at hvalue
    · have hless : n / 128 < 128 ^ places := by
        rw [Nat.div_lt_iff_lt_mul (by decide), ← pow_succ]
        exact hplaces
      have hpos' : 0 < places := by
        rcases Nat.eq_zero_or_pos places with rfl | hpos'
        · simp only [pow_zero] at hless
          omega
        · exact hpos'
      obtain ⟨⟨⟨front, last, heq, hfront, hend⟩, hvalue⟩, hlength⟩ :=
        ih hless (lt_of_le_of_lt (Nat.div_le_self n 128) hsize) hpos'
      rw [if_neg hzero, if_neg (by exact hzero)]
      have hcons : finish ((UInt8.ofNat (n % 128) ||| 0x80) :: groups places (n / 128)) =
          (UInt8.ofNat (n % 128) ||| 0x80) :: finish (groups places (n / 128)) := by
        cases hgroups : groups places (n / 128) with
        | nil =>
          rw [hgroups, finish] at heq
          simp at heq
        | cons b bytes => rw [finish]; simp
      rw [hcons]
      refine ⟨⟨⟨_ :: front, last, by rw [heq]; rfl, ?_, hend⟩, ?_⟩, ?_⟩
      · intro b hb
        obtain rfl | hb := List.mem_cons.mp hb
        · exact group_more hlow
        · exact hfront b hb
      · rw [List.reverse_cons, List.foldl_append, hvalue]
        exact addGroup_of hsize hmore
      · rw [List.length_cons, hlength, Nat.add_comm]

/-! ### Round trip -/

section

variable {c : FrameConfig} {frame frame' : FrameType} {size offset n : Nat}

/-- A number is written with as many bytes as its length says, inside of the frame, and read from
them again, whatever bytes follow. -/
def ReadsBack (c : FrameConfig) (size offset n : Nat) (frame : FrameType) : Prop :=
  ∃ frame', frame.setVariableNumber c size offset n = some (variableNumberLength n, frame') ∧
    offset + variableNumberLength n ≤ frame'.size ∧
    ∀ frame'' : FrameType, offset + variableNumberLength n ≤ frame''.size →
      frame''.data.take (offset + variableNumberLength n) =
        frame'.data.take (offset + variableNumberLength n) →
      frame''.getVariableNumber c size offset = some (n, variableNumberLength n)

theorem takeWhile_front {front : List UInt8} {last : UInt8} (hfront : ∀ b ∈ front, b &&& 0x80 ≠ 0)
    (hlast : last &&& 0x80 = 0) (rest : List UInt8) :
    ((front ++ last :: rest).takeWhile fun b => b &&& 0x80 ≠ 0) = front := by
  rw [List.takeWhile_append_of_pos (by simpa using hfront)]
  simp [hlast]

/-- What a reader sees of bytes of the frame. -/
theorem drop_take_eq {bytes : List UInt8} (hcovers : offset + bytes.length ≤ frame.size)
    (hget : frame.get offset bytes.length = bytes) :
    ∃ rest, (frame.data.take frame.size).drop offset = bytes ++ rest := by
  refine ⟨((frame.data.take frame.size).drop offset).drop bytes.length, ?_⟩
  have htake : ((frame.data.take frame.size).drop offset).take bytes.length = bytes := by
    conv_rhs => rw [← hget, get]
    rw [List.drop_take, List.take_take, min_eq_left (by omega)]
  conv_lhs => rw [← List.take_append_drop bytes.length ((frame.data.take frame.size).drop offset),
    htake]

/-- In little-endian order, and where there is one byte, the number is read. -/
theorem getVariableNumber_spec {bytes : List UInt8} (hencodes : Encodes size n bytes)
    (horder : c.bigEndian = false ∨ bytes.length = 1) (hlength : bytes.length < 256)
    (hcovers : offset + bytes.length ≤ frame.size) (hget : frame.get offset bytes.length = bytes) :
    frame.getVariableNumber c size offset = some (n, bytes.length) := by
  obtain ⟨front, last, heq, hfront, hlast⟩ := hencodes.shape
  obtain ⟨rest, hrest⟩ := drop_take_eq hcovers hget
  have hindex : (((frame.data.take frame.size).drop offset).takeWhile
      fun b => b &&& 0x80 ≠ 0).length + 1 = bytes.length := by
    rw [hrest, heq, List.append_assoc, List.singleton_append, takeWhile_front hfront hlast]
    simp
  have hvalue : (if c.bigEndian then bytes else bytes.reverse).foldl (addGroup size) 0 = n := by
    obtain hlittle | hone := horder
    · rw [hlittle]
      exact hencodes.value
    · obtain ⟨b, rfl⟩ := List.length_eq_one_iff.mp hone
      have hvalue := hencodes.value
      rw [List.reverse_singleton] at hvalue ⊢
      rwa [ite_self]
  rw [getVariableNumber, hindex, hget, if_neg (by omega), hvalue]

/-- In big-endian order the first byte of several says that nothing follows. -/
theorem getVariableNumber_reverse {bytes : List UInt8} (hencodes : Encodes size n bytes)
    (hcovers : offset + bytes.length ≤ frame.size)
    (hget : frame.get offset bytes.length = bytes.reverse) {value length : Nat}
    (hread : frame.getVariableNumber c size offset = some (value, length)) : length = 1 := by
  obtain ⟨front, last, heq, -, hlast⟩ := hencodes.shape
  rw [← List.length_reverse] at hcovers hget
  obtain ⟨rest, hrest⟩ := drop_take_eq hcovers hget
  have hindex : ((frame.data.take frame.size).drop offset).takeWhile
      (fun b => b &&& 0x80 ≠ 0) = [] := by
    rw [hrest, heq, List.reverse_append, List.reverse_singleton, List.singleton_append,
      List.cons_append]
    simp [hlast]
  rw [getVariableNumber, hindex] at hread
  split_ifs at hread
  all_goals exact (Prod.mk.inj (Option.some.inj hread)).2.symm

theorem variableNumberLengthFrom_le (places value : Nat) :
    variableNumberLengthFrom places value ≤ places := by
  induction places generalizing value with
  | zero => exact le_rfl
  | succ places ih =>
    rw [variableNumberLengthFrom]
    have hrest := ih (value >>> 7)
    split_ifs <;> omega

theorem variableNumberLength_eq_one_iff (n : Nat) : variableNumberLength n = 1 ↔ n < 128 := by
  have hshift : n >>> 7 = 0 ↔ n < 128 := by
    rw [Nat.shiftRight_eq_div_pow]
    omega
  rw [variableNumberLength, variableNumberLengthFrom, ← hshift]
  split_ifs with hzero
  · simp [hzero]
  · simp only [variableNumberLengthFrom, hzero, iff_false]
    omega

/-- The frame in which the bytes are put. -/
def widened (c : FrameConfig) (size offset n : Nat) (frame : FrameType) : FrameType :=
  if frame.size ≤ c.plus offset (variableNumberLength n) then frame.resize c (c.plus offset size)
  else frame


theorem length_ordered (c : FrameConfig) (bytes : List UInt8) :
    (ordered c bytes).length = bytes.length := by
  rw [ordered]
  split_ifs
  · exact List.length_reverse
  · rfl

theorem setVariableNumber_eq (c : FrameConfig) (size offset : Nat) (frame : FrameType)
    (hlength : (finish (groups 10 n)).length = variableNumberLength n) :
    frame.setVariableNumber c size offset n =
      ((frame.widened c size offset n).put offset (ordered c (finish (groups 10 n)))).map
        fun frame => (variableNumberLength n, frame) := by
  rw [setVariableNumber, hlength, widened]

/-- What there is when a number was written. -/
theorem of_setVariableNumber (hlength : (finish (groups 10 n)).length = variableNumberLength n)
    (hset : frame.setVariableNumber c size offset n = some (variableNumberLength n, frame')) :
    frame'.size = (frame.widened c size offset n).size ∧
      frame'.get offset (variableNumberLength n) = ordered c (finish (groups 10 n)) := by
  rw [setVariableNumber_eq c size offset frame hlength] at hset
  obtain ⟨_, hput, hsome⟩ := Option.map_eq_some_iff.mp hset
  obtain rfl := (Prod.mk.inj hsome).2
  rw [put] at hput
  split_ifs at hput with hroom
  obtain rfl := Option.some.inj hput
  have hget := get_put hroom
  rw [length_ordered, hlength] at hget
  exact ⟨rfl, hget⟩

/-- The frame is too small behind a number that has more bytes than its type. -/
theorem widened_size (hfits : offset + size < 256 ^ c.context)
    (hless : size < variableNumberLength n)
    (hbehind : frame.size ≤ offset + variableNumberLength n)
    (hheld : offset + variableNumberLength n < 256 ^ c.context) :
    (frame.widened c size offset n).size < offset + variableNumberLength n := by
  rw [widened, plus_of_lt hheld, plus_of_lt hfits, if_pos hbehind]
  change c.held (offset + size) < _
  rw [held_of_lt hfits]
  omega

/-- A variable number is read back exactly if its bytes are not more than the type has, or the frame
goes on behind them, and if the order is little-endian or there is one byte. -/
theorem readsBack_iff (hsound : frame.Sound) (hframe : frame.size < 256 ^ c.context)
    (hfits : offset + size < 256 ^ c.context)
    (howned : c.blockSize = 0 → offset + variableNumberLength n ≤ frame.data.length)
    (hgrows : c.blockSize ≠ 0 → ∀ m ≤ offset + size, m ≤ c.bufferSize m) (hsize : size ≤ 8)
    (hn : n < 256 ^ size) :
    ReadsBack c size offset n frame ↔
      (variableNumberLength n ≤ size ∨ offset + variableNumberLength n < frame.size) ∧
        (c.bigEndian = false ∨ n < 128) := by
  have hplaces : n < 128 ^ 10 := by
    have hle : 256 ^ size ≤ 256 ^ 8 := Nat.pow_le_pow_right (by decide) hsize
    omega
  obtain ⟨hencodes, hlength⟩ := encodes_groups hplaces hn (by decide)
  have hlength : (finish (groups 10 n)).length = variableNumberLength n := hlength
  have hsmall : variableNumberLength n ≤ 10 := variableNumberLengthFrom_le 10 n
  have hone := variableNumberLength_eq_one_iff n
  constructor
  · rintro ⟨frame', hset, hcovers, hread⟩
    obtain ⟨hsame, hget⟩ := of_setVariableNumber hlength hset
    have hheld : frame'.size < 256 ^ c.context := by
      rw [hsame, widened]
      split_ifs
      · exact Nat.mod_lt _ (Nat.pow_pos (by decide))
      · exact hframe
    constructor
    · by_contra hnot
      rw [not_or, not_le, not_lt] at hnot
      have hless := widened_size hfits hnot.1 hnot.2 (by omega)
      omega
    · by_contra hnot
      rw [not_or, Bool.not_eq_false, ← hone] at hnot
      obtain ⟨hbig, hseveral⟩ := hnot
      have hpos : variableNumberLength n ≠ 0 := by
        obtain ⟨front, last, heq, -⟩ := hencodes.shape
        rw [← hlength, heq]
        simp
      rw [ordered, if_pos ⟨hbig, by omega⟩, ← hlength] at hget
      rw [← hlength] at hcovers
      exact hseveral (getVariableNumber_reverse hencodes hcovers hget (hread frame' (by omega) rfl))
  · rintro ⟨hroom, horder⟩
    have hfits' : offset + variableNumberLength n < 256 ^ c.context := by omega
    have hordered : ordered c (finish (groups 10 n)) = finish (groups 10 n) := by
      refine if_neg ?_
      rw [hlength]
      rintro ⟨hbig, hseveral⟩
      obtain hlittle | hless := horder
      · rw [hbig] at hlittle
        cases hlittle
      · omega
    have hwide : offset + variableNumberLength n ≤ (frame.widened c size offset n).size ∧
        offset + variableNumberLength n ≤ (frame.widened c size offset n).data.length := by
      rw [widened, plus_of_lt hfits', plus_of_lt hfits]
      split_ifs with hbehind
      · have hle : variableNumberLength n ≤ size := hroom.resolve_right (by omega)
        simp only [resize, held_of_lt hfits]
        refine ⟨by omega, ?_⟩
        rcases eq_or_ne c.blockSize 0 with hzero | hne
        · rw [allocate, if_pos hzero]
          exact howned hzero
        · have hspace : Room c frame (offset + size) :=
            ⟨hfits, fun hzero => absurd hzero hne, hgrows⟩
          have hallocate := (allocate_spec hspace).1
          omega
      · exact ⟨by omega, le_trans (by omega) hsound⟩
    have hset := setVariableNumber_eq c size offset frame hlength
    rw [put, if_pos (by rw [length_ordered, hlength]; exact hwide.2), Option.map_some] at hset
    obtain ⟨hsame, hget⟩ := of_setVariableNumber hlength hset
    refine ⟨_, hset, hwide.1, fun frame'' hcovers hbytes => ?_⟩
    rw [← hlength] at hcovers
    rw [← hlength]
    refine getVariableNumber_spec hencodes ?_ (by omega) hcovers ?_
    · exact horder.imp_right fun hless => by rw [hlength, hone]; exact hless
    · rw [hlength, get, List.take_drop, hbytes, ← List.take_drop]
      exact hget.trans hordered

/-- A number of two bytes is written behind the end of a frame, by its own type. -/
theorem readsBack_two : ReadsBack ⟨16, false, 2⟩ 2 3 300 ⟨3, [1, 2, 3]⟩ :=
  (readsBack_iff le_rfl (by decide) (by decide) (by decide) (fun _ => by decide) (by decide)
    (by decide)).mpr (by decide)

/-- In the order that frames have by default, a number of two bytes is not read back. -/
theorem not_readsBack_swapped : ¬ ReadsBack ⟨16, true, 2⟩ 2 0 300 ⟨0, []⟩ := by
  rintro ⟨frame', hset, -, hread⟩
  have hbytes : (⟨0, []⟩ : FrameType).setVariableNumber ⟨16, true, 2⟩ 2 0 300 =
      some (2, ⟨2, [2, 172] ++ List.replicate 14 0⟩) := by decide
  rw [hbytes] at hset
  obtain rfl := (Prod.mk.inj (Option.some.inj hset)).2
  exact absurd (hread _ (by decide) rfl) (by decide)

end

end Thunder.Core.FrameType
