import Thunder.Core.FrameVariableNumber

/-! The allocation of a `FrameType` over runs of `Size`, `Clear` and everything that writes.  A
buffer is enlarged to whole blocks, and one more, in a `uint32_t` that is cut to `SIZE_CONTEXT`; the
memory for it is always there. -/

namespace Thunder.Core

open Bytes

namespace FrameConfig

/-- The blocks that are asked for, before their size is cut. -/
def rounded (c : FrameConfig) (requiredSize : Nat) : Nat :=
  (requiredSize / c.blockSize + 1) * c.blockSize

/-- The sizes that a `uint32_t` and a `SIZE_CONTEXT` can hold. -/
def sizes (c : FrameConfig) : Nat := min (2 ^ 32) (256 ^ c.context)

/-- The blocks of a size are not cut; or one block is, and what is left of it is enough. -/
def Allots (c : FrameConfig) (requiredSize : Nat) : Prop :=
  if c.sizes < c.blockSize then requiredSize ≤ c.blockSize % c.sizes
  else c.rounded requiredSize < c.sizes

/-- The bytes of the blocks, of which one that is itself cut does not have all. -/
def blocks (c : FrameConfig) (requiredSize : Nat) : Nat :=
  if c.sizes < c.blockSize then c.blockSize % c.sizes else c.rounded requiredSize

end FrameConfig

namespace FrameType

/-- `FrameType()`. -/
def start (c : FrameConfig) : FrameType := ⟨0, List.replicate (c.held c.blockSize) 0⟩

/-- `Copy` of bytes into the frame. -/
def copy (c : FrameConfig) (offset : Nat) (buffer : List UInt8) (frame : FrameType) :
    Option (Nat × FrameType) :=
  ((frame.resize c (c.plus offset buffer.length)).put offset buffer).map fun frame =>
    (buffer.length, frame)

inductive Operation
  | size (n : Nat)
  | clear
  | number (size offset n : Nat)
  | variableNumber (size offset n : Nat)
  | boolean (offset : Nat) (value : Bool)
  | buffer (size offset : Nat) (bytes : List UInt8)
  | text (size offset : Nat) (value : Text)
  | nullTerminatedText (offset : Nat) (value : Text) (maxLength : Nat)
  | copy (offset : Nat) (bytes : List UInt8)

/-- There is no frame behind a write out of the buffer.  With a `maxLength` of zero the string is
not made, and nothing is written. -/
def Operation.apply (c : FrameConfig) (frame : FrameType) : Operation → Option FrameType
  | .size n => some (frame.resize c n)
  | .clear => some { frame with size := 0 }
  | .number width offset n => (frame.setNumber c width offset n).map Prod.snd
  | .variableNumber width offset n => (frame.setVariableNumber c width offset n).map Prod.snd
  | .boolean offset value => (frame.setBoolean c offset value).map Prod.snd
  | .buffer width offset bytes =>
    (frame.setBuffer c width offset bytes.length bytes).map Prod.snd
  | .text width offset value => (frame.setText c width offset value).map Prod.snd
  | .nullTerminatedText offset value maxLength =>
    if maxLength = 0 then some frame
    else (frame.setNullTerminatedText c offset value maxLength).map Prod.snd
  | .copy offset bytes => (frame.copy c offset bytes).map Prod.snd

/-! ### What an operation writes -/

/-- Bytes that go to an offset, and the size that is asked for if the frame does not go on behind
them, or always. -/
structure Write where
  offset : Nat
  bytes : List UInt8
  asked : Nat
  always : Bool

namespace Write

/-- The end of the bytes. -/
def reach (w : Write) : Nat := w.offset + w.bytes.length

/-- `Size` is called. -/
def Calls (w : Write) (frame : FrameType) : Prop := w.always = true ∨ frame.size ≤ w.reach

instance (w : Write) (frame : FrameType) : Decidable (w.Calls frame) :=
  inferInstanceAs (Decidable (_ ∨ _))

/-- Room is made. -/
def room (c : FrameConfig) (frame : FrameType) (w : Write) : FrameType :=
  if w.Calls frame then frame.resize c w.asked else frame

/-- Room is made, and the bytes are copied. -/
def run (c : FrameConfig) (frame : FrameType) (w : Write) : Option FrameType :=
  (w.room c frame).put w.offset w.bytes

/-- The sizes are values of `SIZE_CONTEXT`. -/
def Representable (c : FrameConfig) (w : Write) : Prop :=
  w.asked < 256 ^ c.context ∧ w.reach < 256 ^ c.context

instance (c : FrameConfig) (w : Write) : Decidable (w.Representable c) :=
  inferInstanceAs (Decidable (_ ∧ _))

/-- No size is asked for, or the buffer has it or its blocks do; and the bytes are in the buffer as
it is, or in the blocks that are asked for. -/
def Ok (c : FrameConfig) (frame : FrameType) (w : Write) : Prop :=
  ¬ w.Calls frame ∨
    (w.asked ≤ frame.data.length ∨ c.Allots w.asked) ∧
      (w.reach ≤ frame.data.length ∨ frame.data.length < w.asked ∧ w.reach ≤ c.blocks w.asked)

end Write

/-- The text that `SetNullTerminatedText` makes. -/
def convertedText (c : FrameConfig) (value : Text) (maxLength : Nat) : Text :=
  if maxLength ≠ 256 ^ c.context - 1 ∧ maxLength < value.length + 1 then value.take (maxLength - 1)
  else value

/-- The write of an operation, if it is one. -/
def Operation.write (c : FrameConfig) : Operation → Option Write
  | .size n => some ⟨0, [], n, true⟩
  | .clear => none
  | .number width offset n => some ⟨offset, c.bytes width n, offset + width, false⟩
  | .variableNumber width offset n =>
    some ⟨offset, ordered c (finish (groups 10 n)), offset + width, false⟩
  | .boolean offset value => some ⟨offset, [if value then 1 else 0], offset + 1, false⟩
  | .buffer width offset bytes =>
    some ⟨offset, c.bytes width bytes.length ++ bytes, offset + (width + bytes.length), false⟩
  | .text width offset value =>
    let length := bufferLengthCast width value.length
    some ⟨offset, c.bytes width length ++ value.take length, offset + (width + length), false⟩
  | .nullTerminatedText offset value maxLength =>
    if maxLength = 0 then none
    else
      let text := convertedText c value maxLength
      some ⟨offset, text ++ [0], offset + (text.length + 1), false⟩
  | .copy offset bytes => some ⟨offset, bytes, offset + bytes.length, true⟩

/-- The sizes of an operation are values of `SIZE_CONTEXT`. -/
def Operation.Representable (c : FrameConfig) (op : Operation) : Prop :=
  ∀ w ∈ op.write c, w.Representable c

instance (c : FrameConfig) (op : Operation) : Decidable (op.Representable c) :=
  inferInstanceAs (Decidable (∀ w ∈ op.write c, w.Representable c))

def Operation.Ok (c : FrameConfig) (frame : FrameType) (op : Operation) : Prop :=
  ∀ w ∈ op.write c, w.Ok c frame

/-- In a run every write is in the buffer, which has the size of the frame and keeps what was in it
where it is enlarged. -/
def Covered (c : FrameConfig) : FrameType → List Operation → Prop
  | _, [] => True
  | frame, op :: ops => ∃ frame', op.apply c frame = some frame' ∧ frame'.Sound ∧
      (∀ n, op = .size n → n ≤ frame'.data.length ∧ frame.data <+: frame'.data) ∧
      Covered c frame' ops

/-- Every operation of a run is as it should be, in the state before it. -/
def Meets (c : FrameConfig) : FrameType → List Operation → Prop
  | _, [] => True
  | frame, op :: ops =>
    op.Ok c frame ∧ ∀ frame', op.apply c frame = some frame' → Meets c frame' ops

variable {c : FrameConfig} {frame frame' : FrameType} {w : Write} {n offset width : Nat}

/-! ### The blocks -/

theorem lt_rounded (hblock : c.blockSize ≠ 0) (n : Nat) : n < c.rounded n := by
  rw [FrameConfig.rounded, Nat.mul_comm]
  exact Nat.lt_mul_div_succ n (Nat.pos_of_ne_zero hblock)

theorem rounded_of_lt (h : n < c.blockSize) : c.rounded n = c.blockSize := by
  rw [FrameConfig.rounded, Nat.div_eq_of_lt h, zero_add, one_mul]

/-- Both cuts are one. -/
theorem bufferSize_eq (c : FrameConfig) (n : Nat) :
    c.bufferSize n = c.rounded n % c.sizes := by
  rw [FrameConfig.bufferSize, ← FrameConfig.rounded, FrameConfig.held, FrameConfig.sizes]
  have hpow : 256 ^ c.context = 2 ^ (8 * c.context) := by rw [pow_mul]; rfl
  rw [hpow]
  rcases Nat.le_total (8 * c.context) 32 with hle | hle
  · rw [min_eq_right (Nat.pow_le_pow_right (by decide) hle),
      Nat.mod_mod_of_dvd _ (Nat.pow_dvd_pow 2 hle)]
  · have hword : 2 ^ 32 ≤ 2 ^ (8 * c.context) := Nat.pow_le_pow_right (by decide) hle
    rw [min_eq_left hword, Nat.mod_eq_of_lt ((Nat.mod_lt _ (by decide)).trans_le hword)]

/-- A block that is cut itself is one of a `SIZE_CONTEXT` that is narrower than it. -/
theorem sizes_eq (hword : c.blockSize < 2 ^ 32) (h : c.sizes < c.blockSize) :
    c.sizes = 256 ^ c.context := by
  rcases min_choice (2 ^ 32) (256 ^ c.context) with hmin | hmin
  · rw [FrameConfig.sizes] at h
    omega
  · exact hmin

theorem bufferSize_of_allots (hblock : c.blockSize ≠ 0) (hword : c.blockSize < 2 ^ 32)
    (hheld : n < 256 ^ c.context) (h : c.Allots n) :
    c.bufferSize n = c.blocks n ∧ n ≤ c.blocks n := by
  rw [bufferSize_eq, FrameConfig.blocks]
  rw [FrameConfig.Allots] at h
  split_ifs at h ⊢ with hsizes
  · rw [sizes_eq hword hsizes] at hsizes
    rw [rounded_of_lt (hheld.trans hsizes)]
    exact ⟨rfl, h⟩
  · exact ⟨Nat.mod_eq_of_lt h, (lt_rounded hblock n).le⟩

/-- Blocks that are cut do not have the bytes they are for. -/
theorem bufferSize_lt (hblock : c.blockSize ≠ 0) (hword : c.blockSize < 2 ^ 32) (hpos : 0 < n)
    (hheld : n < 256 ^ c.context) (h : ¬ c.Allots n) : c.bufferSize n < n := by
  rw [bufferSize_eq]
  rw [FrameConfig.Allots] at h
  split_ifs at h with hsizes
  · rw [sizes_eq hword hsizes] at hsizes
    rw [rounded_of_lt (hheld.trans hsizes)]
    omega
  · rw [not_lt] at h hsizes
    have hsizesPos : 0 < c.sizes := lt_of_lt_of_le (Nat.pos_of_ne_zero hblock) hsizes
    have hmod : c.rounded n % c.sizes < c.sizes := Nat.mod_lt _ hsizesPos
    by_cases hn : c.sizes ≤ n
    · exact lt_of_lt_of_le hmod hn
    · -- What is left of the last block is less than what the block has too much.
      have hrounded : c.rounded n ≤ n + c.blockSize := by
        rw [FrameConfig.rounded, Nat.add_mul, one_mul]
        exact Nat.add_le_add_right (Nat.div_mul_le_self n c.blockSize) _
      have hleft : c.rounded n - c.sizes < n := by
        rcases hsizes.lt_or_eq with hless | heq
        · omega
        · rw [rounded_of_lt (by omega)]
          omega
      rw [Nat.mod_eq_sub_mod h]
      exact lt_of_le_of_lt (Nat.mod_le _ _) hleft

/-! ### Room -/

theorem length_allocate (hblock : c.blockSize ≠ 0) (frame : FrameType) (n : Nat) :
    (frame.allocate c n).data.length =
      if frame.data.length < n then c.bufferSize n else frame.data.length := by
  rw [allocate, if_neg hblock]
  split_ifs
  · rw [List.length_append, List.length_take, List.length_replicate]
    omega
  · rfl

theorem length_resize (hblock : c.blockSize ≠ 0) (frame : FrameType) (n : Nat) :
    (frame.resize c n).data.length =
      if frame.data.length < c.held n then c.bufferSize (c.held n) else frame.data.length :=
  length_allocate hblock frame (c.held n)

theorem prefix_allocate (h : frame.data.length < n → frame.data.length ≤ c.bufferSize n) :
    frame.data <+: (frame.allocate c n).data := by
  rw [allocate]
  split_ifs with hblock hless
  · exact List.prefix_rfl
  · dsimp only
    rw [List.take_of_length_le (h hless)]
    exact List.prefix_append _ _
  · exact List.prefix_rfl

theorem resize_resize (hblock : c.blockSize ≠ 0) (frame : FrameType) (n : Nat) :
    (frame.resize c n).resize c n = frame.resize c n := by
  have hallocate : (frame.resize c n).allocate c (c.held n) = frame.resize c n := by
    have hlength := length_resize hblock frame n
    by_cases hless : (frame.resize c n).data.length < c.held n
    · have hold : frame.data.length < c.held n := by
        by_contra hnot
        rw [if_neg hnot] at hlength
        omega
      rw [if_pos hold] at hlength
      rw [allocate, if_neg hblock, if_pos hless]
      dsimp only
      rw [List.take_of_length_le hlength.le, hlength, Nat.sub_self, List.replicate_zero,
        List.append_nil]
    · rw [allocate, if_neg hblock, if_neg hless]
  rw [resize, hallocate]
  rfl

/-- Where the operation is as it should be, there is room. -/
theorem Write.room_spec (hblock : c.blockSize ≠ 0) (hword : c.blockSize < 2 ^ 32)
    (hsound : frame.Sound) (hfits : w.Representable c) (h : w.Ok c frame) :
    (w.room c frame).Sound ∧ w.reach ≤ (w.room c frame).data.length ∧
      frame.data <+: (w.room c frame).data := by
  rw [Write.room]
  split_ifs with hcalls
  · obtain hnot | ⟨hasked, hreach⟩ := h
    · exact absurd hcalls hnot
    · rw [resize, held_of_lt hfits.1, Sound]
      have hallots : frame.data.length < w.asked →
          c.bufferSize w.asked = c.blocks w.asked ∧ w.asked ≤ c.blocks w.asked := by
        intro hless
        exact bufferSize_of_allots hblock hword hfits.1 (hasked.resolve_left (by omega))
      dsimp only
      rw [length_allocate hblock]
      refine ⟨?_, ?_, prefix_allocate fun hless => ?_⟩
      · split_ifs with hless
        · obtain ⟨heq, hle⟩ := hallots hless
          omega
        · omega
      · split_ifs with hless
        · obtain ⟨heq, hle⟩ := hallots hless
          omega
        · omega
      · obtain ⟨heq, hle⟩ := hallots hless
        omega
  · rw [Write.Calls, not_or, not_le] at hcalls
    exact ⟨hsound, hcalls.2.le.trans hsound, List.prefix_rfl⟩

/-- Where there is room, the operation is as it should be. -/
theorem Write.ok_of_room (hblock : c.blockSize ≠ 0) (hword : c.blockSize < 2 ^ 32)
    (hfits : w.Representable c) (hsound : (w.room c frame).Sound)
    (hreach : w.reach ≤ (w.room c frame).data.length) : w.Ok c frame := by
  by_cases hcalls : w.Calls frame
  · rw [Write.room, if_pos hcalls, resize, held_of_lt hfits.1] at hsound hreach
    rw [Sound] at hsound
    dsimp only at hsound hreach
    rw [length_allocate hblock] at hsound hreach
    by_cases hless : frame.data.length < w.asked
    · rw [if_pos hless] at hsound hreach
      have hallots : c.Allots w.asked := by
        by_contra hnot
        exact absurd hsound
          (bufferSize_lt hblock hword (Nat.zero_lt_of_lt hless) hfits.1 hnot).not_ge
      rw [(bufferSize_of_allots hblock hword hfits.1 hallots).1] at hreach
      exact Or.inr ⟨Or.inr hallots, Or.inr ⟨hless, hreach⟩⟩
    · rw [if_neg hless] at hreach
      exact Or.inr ⟨Or.inl (not_lt.mp hless), Or.inl hreach⟩
  · exact Or.inl hcalls

/-! ### The operations are writes -/

theorem put_bind_put (bytes bytes' : List UInt8) (frame : FrameType) (offset : Nat) :
    (frame.put offset bytes).bind (put (offset + bytes.length) bytes') =
      frame.put offset (bytes ++ bytes') := by
  by_cases hall : offset + (bytes ++ bytes').length ≤ frame.data.length
  · exact put_put bytes bytes' hall
  · rw [put, put, if_neg hall]
    split_ifs with hfirst
    · rw [Option.bind_some, put, if_neg]
      dsimp only
      rw [length_overwrite hfirst]
      rw [List.length_append] at hall
      omega
    · rfl

theorem put_nil (frame : FrameType) : frame.put 0 [] = some frame := by
  rw [put, overwrite]
  exact if_pos (Nat.zero_le _)

theorem room_eq_grow {required : Nat} (hreach : w.reach = w.offset + n)
    (hasked : w.asked = w.offset + required) (halways : w.always = false)
    (hfits : w.Representable c) (h : required = n) : w.room c frame = frame.grow c w.offset n := by
  subst h
  have hplus : c.plus w.offset required = w.offset + required := by
    rw [plus_of_lt]
    exact hasked ▸ hfits.1
  rw [Write.room, grow, hplus, hasked]
  simp [Write.Calls, halways, hreach]

/-- Room that is there is not made again. -/
theorem grow_grow (hblock : c.blockSize ≠ 0) {a b : Nat} (hle : a ≤ b)
    (hfits : offset + b < 256 ^ c.context) (frame : FrameType) :
    (frame.grow c offset b).grow c offset a = frame.grow c offset b := by
  have hsize : offset + b ≤ (frame.grow c offset b).size := by
    rw [grow, plus_of_lt hfits]
    split_ifs with hless
    · rw [resize, held_of_lt hfits]
    · omega
  generalize hgrown : frame.grow c offset b = grown at hsize ⊢
  rw [grow, plus_of_lt (by omega)]
  split_ifs with hagain
  · obtain rfl : a = b := by omega
    rw [grow, plus_of_lt hfits] at hgrown
    split_ifs at hgrown with hless
    · rw [← hgrown]
      exact resize_resize hblock frame _
    · exact absurd (hgrown ▸ hagain) hless
  · rfl

theorem setBuffer_eq (hblock : c.blockSize ≠ 0) (bytes : List UInt8) (length : Nat)
    (hfits : offset + (width + length) < 256 ^ c.context) :
    (frame.setBuffer c width offset length bytes).map Prod.snd =
      (frame.grow c offset (width + length)).put offset
        (c.bytes width length ++ bytes.take length) := by
  rw [setBuffer, held_of_lt (by omega), setNumber,
    grow_grow hblock (Nat.le_add_right width length) hfits]
  by_cases hzero : length = 0
  · subst hzero
    rw [List.take_zero, List.append_nil]
    cases (frame.grow c offset (width + 0)).put offset (c.bytes width 0) <;> rfl
  · rw [← put_bind_put, length_bytes, plus_of_lt (by omega)]
    cases (frame.grow c offset (width + length)).put offset (c.bytes width length) with
    | none => rfl
    | some frame =>
      rw [Option.map_some, Option.bind_some, Option.bind_some]
      dsimp only
      rw [if_neg hzero, Option.map_map]
      exact Option.map_id'

theorem bufferLengthCast_le (width length : Nat) : bufferLengthCast width length ≤ length := by
  rw [bufferLengthCast]
  split_ifs
  · exact le_rfl
  · exact Nat.zero_le _

theorem setNullTerminatedText_eq {value : Text} {maxLength : Nat} (hmax : maxLength ≠ 0)
    (hfits : offset + ((convertedText c value maxLength).length + 1) < 256 ^ c.context) :
    (frame.setNullTerminatedText c offset value maxLength).map Prod.snd =
      (frame.grow c offset ((convertedText c value maxLength).length + 1)).put offset
        (convertedText c value maxLength ++ [0]) := by
  rw [setNullTerminatedText, if_neg fun h => hmax h.2]
  dsimp only
  rw [← convertedText, held_of_lt (by omega), List.take_of_length_le, Option.map_map]
  · exact Option.map_id'
  · rw [List.length_append, List.length_singleton]

theorem apply_of_none {op : Operation} (frame : FrameType) (h : op.write c = none) :
    ∃ frame' : FrameType, op.apply c frame = some frame' ∧ frame'.data = frame.data ∧
      frame'.size ≤ frame.size := by
  cases op with
  | clear => exact ⟨_, rfl, rfl, Nat.zero_le _⟩
  | nullTerminatedText offset value maxLength =>
    rw [Operation.write] at h
    split_ifs at h with hzero
    exact ⟨frame, if_pos hzero, rfl, le_rfl⟩
  | _ => cases h

theorem apply_eq {op : Operation} (hblock : c.blockSize ≠ 0) (h : op.write c = some w)
    (hfits : w.Representable c) : op.apply c frame = w.run c frame := by
  cases op with
  | clear => cases h
  | size n =>
    obtain rfl := Option.some.inj h
    have hcalls : Write.Calls ⟨0, [], n, true⟩ frame := Or.inl rfl
    rw [Operation.apply, Write.run, Write.room, if_pos hcalls]
    exact (put_nil _).symm
  | number width offset n =>
    obtain rfl := Option.some.inj h
    rw [Operation.apply, Write.run, setNumber, Option.map_map,
      room_eq_grow (by rw [Write.reach, length_bytes]) rfl rfl hfits rfl]
    exact Option.map_id'
  | variableNumber width offset n =>
    obtain rfl := Option.some.inj h
    have hreach := hfits.2
    rw [Write.reach, length_ordered] at hreach
    rw [Operation.apply, Write.run, Write.room, setVariableNumber, Option.map_map]
    dsimp only
    rw [plus_of_lt hreach, plus_of_lt hfits.1]
    simp only [Write.Calls, Write.reach, length_ordered, Bool.false_eq_true, false_or]
    exact Option.map_id'
  | boolean offset value =>
    obtain rfl := Option.some.inj h
    rw [Operation.apply, Write.run, setBoolean, Option.map_map,
      room_eq_grow rfl rfl rfl hfits rfl]
    exact Option.map_id'
  | buffer width offset bytes =>
    obtain rfl := Option.some.inj h
    rw [Operation.apply, Write.run, setBuffer_eq hblock bytes bytes.length hfits.1,
      List.take_length, room_eq_grow
        (by rw [Write.reach, List.length_append, length_bytes]) rfl rfl hfits rfl]
  | text width offset value =>
    obtain rfl := Option.some.inj h
    have hlength : (value.take (bufferLengthCast width value.length)).length =
        bufferLengthCast width value.length :=
      List.length_take_of_le (bufferLengthCast_le width value.length)
    rw [Operation.apply, Write.run, setText, setBuffer_eq hblock value _ hfits.1, room_eq_grow
      (by rw [Write.reach, List.length_append, length_bytes, hlength]) rfl rfl hfits rfl]
  | nullTerminatedText offset value maxLength =>
    rw [Operation.write] at h
    split_ifs at h with hzero
    obtain rfl := Option.some.inj h
    rw [Operation.apply, if_neg hzero, Write.run, setNullTerminatedText_eq hzero hfits.1,
      room_eq_grow (by rw [Write.reach, List.length_append, List.length_singleton]) rfl rfl
        hfits rfl]
  | copy offset bytes =>
    obtain rfl := Option.some.inj h
    have hcalls : Write.Calls ⟨offset, bytes, offset + bytes.length, true⟩ frame := Or.inl rfl
    rw [Operation.apply, Write.run, Write.room, if_pos hcalls, copy, plus_of_lt hfits.1,
      Option.map_map]
    exact Option.map_id'

theorem of_put {bytes : List UInt8} (h : frame.put offset bytes = some frame') :
    offset + bytes.length ≤ frame.data.length ∧ frame'.size = frame.size ∧
      frame'.data.length = frame.data.length := by
  rw [put] at h
  split_ifs at h with hle
  obtain rfl := Option.some.inj h
  exact ⟨hle, rfl, length_overwrite hle⟩

theorem Write.run_iff (hblock : c.blockSize ≠ 0) (hword : c.blockSize < 2 ^ 32)
    (hsound : frame.Sound) (hfits : w.Representable c) :
    (∃ frame', w.run c frame = some frame' ∧ frame'.Sound) ↔ w.Ok c frame := by
  constructor
  · rintro ⟨frame', hrun, hsound'⟩
    obtain ⟨hreach, hsize, hlength⟩ := of_put hrun
    rw [Sound, hsize, hlength] at hsound'
    exact Write.ok_of_room hblock hword hfits hsound' hreach
  · intro h
    obtain ⟨hroom, hreach, -⟩ := Write.room_spec hblock hword hsound hfits h
    refine ⟨_, if_pos hreach, ?_⟩
    rw [Sound, length_overwrite hreach]
    exact hroom

/-- One operation. -/
theorem apply_iff (hblock : c.blockSize ≠ 0) (hword : c.blockSize < 2 ^ 32) (hsound : frame.Sound)
    {op : Operation} (hfits : op.Representable c) :
    (∃ frame', op.apply c frame = some frame' ∧ frame'.Sound ∧
      ∀ n, op = .size n → n ≤ frame'.data.length ∧ frame.data <+: frame'.data) ↔
        op.Ok c frame := by
  cases hwrite : op.write c with
  | none =>
    have hok : op.Ok c frame := fun w hw => absurd (hwrite ▸ hw) (Option.not_mem_none w)
    refine iff_of_true ?_ hok
    obtain ⟨frame', happly, hdata, hsize⟩ := apply_of_none frame hwrite
    refine ⟨frame', happly, ?_, ?_⟩
    · rw [Sound, hdata]
      exact hsize.trans hsound
    · rintro n rfl
      cases hwrite
  | some w =>
    have hok : op.Ok c frame ↔ w.Ok c frame := by
      simp only [Operation.Ok, hwrite, Option.mem_some_iff, forall_eq']
    have hw : w.Representable c := hfits w hwrite
    rw [hok, ← Write.run_iff hblock hword hsound hw, apply_eq hblock hwrite hw]
    constructor
    · rintro ⟨frame', hrun, hsound', -⟩
      exact ⟨frame', hrun, hsound'⟩
    · rintro ⟨frame', hrun, hsound'⟩
      refine ⟨frame', hrun, hsound', ?_⟩
      rintro n rfl
      obtain rfl := Option.some.inj hwrite
      have hwok := (Write.run_iff hblock hword hsound hw).mp ⟨frame', hrun, hsound'⟩
      obtain ⟨hroom, -, hprefix⟩ := Write.room_spec hblock hword hsound hw hwok
      have hcalls : Write.Calls ⟨0, [], n, true⟩ frame := Or.inl rfl
      obtain rfl : Write.room c frame ⟨0, [], n, true⟩ = frame' :=
        Option.some.inj ((put_nil _).symm.trans hrun)
      refine ⟨?_, hprefix⟩
      rw [Write.room, if_pos hcalls, resize, held_of_lt hw.1] at hroom ⊢
      exact hroom

/-! ### Runs -/

theorem start_sound (c : FrameConfig) : (start c).Sound := Nat.zero_le _

/-- A frame of an allocator covers what is written to it as long as the blocks of every size it is
asked for are not cut, and no write goes on behind the size it asks for. -/
theorem capacity_exact (hblock : c.blockSize ≠ 0) (hword : c.blockSize < 2 ^ 32)
    (hsound : frame.Sound) (ops : List Operation) (hfits : ∀ op ∈ ops, op.Representable c) :
    Covered c frame ops ↔ Meets c frame ops := by
  induction ops generalizing frame with
  | nil => exact Iff.rfl
  | cons op ops ih =>
    have hstep := apply_iff hblock hword hsound (hfits op List.mem_cons_self)
    have hrest : ∀ op ∈ ops, op.Representable c := fun op hop =>
      hfits op (List.mem_cons_of_mem _ hop)
    rw [Covered, Meets]
    constructor
    · rintro ⟨frame', happly, hsound', hsize, hcovered⟩
      refine ⟨hstep.mp ⟨frame', happly, hsound', hsize⟩, fun frame'' happly' => ?_⟩
      obtain rfl := Option.some.inj (happly.symm.trans happly')
      exact (ih hsound' hrest).mp hcovered
    · rintro ⟨hok, hmeets⟩
      obtain ⟨frame', happly, hsound', hsize⟩ := hstep.mpr hok
      exact ⟨frame', happly, hsound', hsize, (ih hsound' hrest).mpr (hmeets frame' happly)⟩

/-- A frame of blocks of 16 bytes, with a text behind a size. -/
theorem capacity_exact_text :
    Covered ⟨16, true, 2⟩ (start ⟨16, true, 2⟩) [.size 40, .text 2 3 [72, 105], .clear] ↔
      Meets ⟨16, true, 2⟩ (start ⟨16, true, 2⟩) [.size 40, .text 2 3 [72, 105], .clear] :=
  capacity_exact (by decide) (by decide) (start_sound _) _ (by decide)

/-- The blocks of the largest size are cut to none. -/
theorem not_capacity : ¬ ∀ (c : FrameConfig) (ops : List Operation), c.blockSize ≠ 0 →
    c.blockSize < 2 ^ 32 → (∀ op ∈ ops, op.Representable c) → Covered c (start c) ops := by
  intro h
  obtain ⟨frame', happly, -, hsize, -⟩ := h ⟨1024, true, 2⟩ [.size 65535] (by decide) (by decide)
    (by decide)
  obtain ⟨hcapacity, -⟩ := hsize 65535 rfl
  obtain rfl := Option.some.inj happly
  rw [length_resize (by decide), start, List.length_replicate] at hcapacity
  exact absurd hcapacity (by decide +kernel)

end FrameType

end Thunder.Core
