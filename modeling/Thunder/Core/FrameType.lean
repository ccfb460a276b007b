import Thunder.Library.Bytes
import Thunder.Core.Metadata

/-! `FrameType`: fields that are written one after another into a buffer that grows with them, and
read from it in the same order.  Its parameters are `BLOCKSIZE`, `BIG_ENDIAN_ORDERING` and the bytes
of `SIZE_CONTEXT`. -/

namespace Thunder.Core

open Bytes

structure FrameConfig where
  blockSize : Nat
  bigEndian : Bool
  context : Nat

namespace FrameConfig

/-- A value as `SIZE_CONTEXT` holds it. -/
def held (c : FrameConfig) (n : Nat) : Nat := n % 256 ^ c.context

/-- A sum of two lengths; narrow ones are added in an `int`. -/
def plus (c : FrameConfig) (a b : Nat) : Nat := if c.context < 4 then a + b else c.held (a + b)

/-- What `RealAllocate` asks for: whole blocks, and one more. -/
def bufferSize (c : FrameConfig) (requiredSize : Nat) : Nat :=
  c.held ((requiredSize / c.blockSize + 1) * c.blockSize % 2 ^ 32)

/-- The bytes of a number. -/
def bytes (c : FrameConfig) (size n : Nat) : List UInt8 :=
  if c.bigEndian then Bytes.bigEndian size n else littleEndian size n

def number (c : FrameConfig) (bytes : List UInt8) : Nat :=
  if c.bigEndian then ofBigEndian bytes else ofLittleEndian bytes

end FrameConfig

/-- `data` are the bytes of the allocator, as many as `_bufferSize` says. -/
structure FrameType where
  size : Nat
  data : List UInt8
  deriving DecidableEq

namespace FrameType

/-- `Allocate`; a buffer that the caller owns stays as it is.  (New bytes are zero here.) -/
def allocate (c : FrameConfig) (requiredSize : Nat) (frame : FrameType) : FrameType :=
  if c.blockSize = 0 then frame
  else if frame.data.length < requiredSize then
    let n := c.bufferSize requiredSize
    { frame with data := frame.data.take n ++ List.replicate (n - frame.data.length) 0 }
  else frame

/-- `Size(size)`. -/
def resize (c : FrameConfig) (size : Nat) (frame : FrameType) : FrameType :=
  { frame.allocate c (c.held size) with size := c.held size }

/-- How every field makes room for itself. -/
def grow (c : FrameConfig) (offset requiredLength : Nat) (frame : FrameType) : FrameType :=
  if frame.size ≤ c.plus offset requiredLength then frame.resize c (c.plus offset requiredLength)
  else frame

/-- Bytes are copied to an offset; there is no frame behind a copy out of the buffer. -/
def put (offset : Nat) (bytes : List UInt8) (frame : FrameType) : Option FrameType :=
  if offset + bytes.length ≤ frame.data.length then
    some { frame with data := overwrite frame.data offset bytes }
  else none

def setNumber (c : FrameConfig) (size offset n : Nat) (frame : FrameType) :
    Option (Nat × FrameType) :=
  ((frame.grow c offset size).put offset (c.bytes size n)).map fun frame => (size, frame)

def setBoolean (c : FrameConfig) (offset : Nat) (value : Bool) (frame : FrameType) :
    Option (Nat × FrameType) :=
  ((frame.grow c offset 1).put offset [if value then 1 else 0]).map fun frame => (1, frame)

def setBuffer (c : FrameConfig) (size offset length : Nat) (buffer : List UInt8)
    (frame : FrameType) : Option (Nat × FrameType) :=
  let requiredLength := c.held (size + length)
  ((frame.grow c offset requiredLength).setNumber c size offset length).bind fun (_, frame) =>
    if length = 0 then some (requiredLength, frame)
    else (frame.put (c.plus offset size) (buffer.take length)).map fun frame =>
      (requiredLength, frame)

/-- `buffer_length_cast`: a length that does not fit is sent as zero. -/
def bufferLengthCast (size length : Nat) : Nat := if length < 256 ^ size then length else 0

def setText (c : FrameConfig) (size offset : Nat) (value : Text) (frame : FrameType) :
    Option (Nat × FrameType) :=
  frame.setBuffer c size offset (bufferLengthCast size value.length) value

/-- A `maxLength` of all ones does not cut the text; with no room for the zero there is none. -/
def setNullTerminatedText (c : FrameConfig) (offset : Nat) (value : Text) (maxLength : Nat)
    (frame : FrameType) : Option (Nat × FrameType) :=
  let cut := maxLength ≠ 256 ^ c.context - 1 ∧ maxLength < value.length + 1
  if cut ∧ maxLength = 0 then none
  else
    let convertedText := if cut then value.take (maxLength - 1) else value
    let requiredLength := c.held (convertedText.length + 1)
    ((frame.grow c offset requiredLength).put offset
      ((convertedText ++ [0]).take requiredLength)).map fun frame => (requiredLength, frame)

/-- Bytes of the frame. -/
def get (offset length : Nat) (frame : FrameType) : List UInt8 :=
  (frame.data.drop offset).take length

/-- A number of one byte is not checked: there is no value where it is read behind `_size`. -/
def getNumber (c : FrameConfig) (size offset : Nat) (frame : FrameType) : Option (Nat × Nat) :=
  if size = 1 then
    if offset + 1 ≤ frame.size then some (c.number (frame.get offset 1), 1) else none
  else if frame.size < c.plus offset size then some (0, size)
  else some (c.number (frame.get offset size), size)

def getBoolean (offset : Nat) (frame : FrameType) : Option (Bool × Nat) :=
  if offset < frame.size then some (frame.get offset 1 ≠ [0], 1) else none

/-- The length in front of a text, cut at the end of the frame. -/
def textLength (c : FrameConfig) (size offset : Nat) (frame : FrameType) : Option Nat :=
  if c.plus offset size ≤ frame.size then
    (frame.getNumber c size offset).map fun (length, _) =>
      if frame.size < c.plus (c.plus length offset) size then
        (frame.size - c.plus offset size) % 256 ^ size
      else length
  else none

def getBuffer (c : FrameConfig) (size offset maxLength : Nat) (frame : FrameType) :
    Option (List UInt8 × Nat) :=
  (frame.textLength c size offset).map fun length =>
    (frame.get (c.plus offset size) (min length maxLength), c.held (size + length))

def getText (c : FrameConfig) (size offset : Nat) (frame : FrameType) : Option (Text × Nat) :=
  (frame.textLength c size offset).map fun length =>
    (frame.get (c.plus offset size) length, c.held (size + length))

/-- The text up to the next zero; there is none where that is behind `_size`. -/
def getNullTerminatedText (c : FrameConfig) (offset : Nat) (frame : FrameType) :
    Option (Text × Nat) :=
  (terminated ((frame.data.take frame.size).drop offset)).map fun text =>
    (text, c.held (text.length + 1))

/-- What a writer writes: numbers by the bytes of their types, texts and buffers by those of the
type of their length. -/
inductive Field
  | number (size n : Nat)
  | boolean (value : Bool)
  | text (size : Nat) (value : Text)
  | buffer (size : Nat) (bytes : List UInt8)
  | nullTerminatedText (value : Text) (maxLength : Nat)

/-- What a reader asks for. -/
inductive Field.Kind
  | number (size : Nat)
  | boolean
  | text (size : Nat)
  | buffer (size maxLength : Nat)
  | nullTerminatedText

inductive Field.Value
  | number (n : Nat)
  | boolean (value : Bool)
  | bytes (bytes : List UInt8)
  deriving DecidableEq

structure Writer where
  frame : FrameType
  offset : Nat

/-- An operation of the writer moves its offset. -/
def Writer.moved (c : FrameConfig) (writer : Writer) (r : Option (Nat × FrameType)) :
    Option Writer :=
  r.map fun (length, frame) => ⟨frame, c.held (writer.offset + length)⟩

def Writer.write (c : FrameConfig) (writer : Writer) : Field → Option Writer
  | .number size n => writer.moved c (writer.frame.setNumber c size writer.offset n)
  | .boolean value => writer.moved c (writer.frame.setBoolean c writer.offset value)
  | .text size value => writer.moved c (writer.frame.setText c size writer.offset value)
  | .buffer size bytes =>
    writer.moved c (writer.frame.setBuffer c size writer.offset bytes.length bytes)
  | .nullTerminatedText value maxLength =>
    writer.moved c (writer.frame.setNullTerminatedText c writer.offset value maxLength)

structure Reader where
  frame : FrameType
  offset : Nat

def Reader.moved {α : Type} (c : FrameConfig) (reader : Reader) (value : α → Field.Value)
    (r : Option (α × Nat)) : Option (Field.Value × Reader) :=
  r.map fun (x, length) => (value x, ⟨reader.frame, c.held (reader.offset + length)⟩)

def Reader.read (c : FrameConfig) (reader : Reader) : Field.Kind → Option (Field.Value × Reader)
  | .number size => reader.moved c .number (reader.frame.getNumber c size reader.offset)
  | .boolean => reader.moved c .boolean (reader.frame.getBoolean reader.offset)
  | .text size => reader.moved c .bytes (reader.frame.getText c size reader.offset)
  | .buffer size maxLength =>
    reader.moved c .bytes (reader.frame.getBuffer c size reader.offset maxLength)
  | .nullTerminatedText =>
    reader.moved c .bytes (reader.frame.getNullTerminatedText c reader.offset)

def Writer.writeAll (c : FrameConfig) : Writer → List Field → Option Writer
  | writer, [] => some writer
  | writer, field :: fields => (writer.write c field).bind fun writer => writer.writeAll c fields

def Reader.readAll (c : FrameConfig) :
    Reader → List Field.Kind → Option (List Field.Value × Reader)
  | reader, [] => some ([], reader)
  | reader, kind :: kinds =>
    (reader.read c kind).bind fun (value, reader) =>
      (reader.readAll c kinds).map fun (values, reader) => (value :: values, reader)

/-! ### Making room -/

section

variable {c : FrameConfig} {frame frame' : FrameType} {a b n offset : Nat}

theorem held_of_lt (h : n < 256 ^ c.context) : c.held n = n := Nat.mod_eq_of_lt h

theorem plus_of_lt (h : a + b < 256 ^ c.context) : c.plus a b = a + b := by
  rw [FrameConfig.plus, held_of_lt h, ite_self]

@[simp] theorem length_bytes (c : FrameConfig) (size n : Nat) : (c.bytes size n).length = size := by
  rw [FrameConfig.bytes]
  split_ifs
  · exact length_bigEndian size n
  · exact length_littleEndian size n

theorem number_bytes {size : Nat} (h : n < 256 ^ size) : c.number (c.bytes size n) = n := by
  rw [FrameConfig.number, FrameConfig.bytes]
  split_ifs
  · exact ofBigEndian_bigEndian_of_lt h
  · exact ofLittleEndian_littleEndian_of_lt h

/-- There is room for the first `n` bytes: they have a size, and a buffer of the caller has them, or
what is asked of the allocator for them is enough. -/
structure Room (c : FrameConfig) (frame : FrameType) (n : Nat) : Prop where
  fits : n < 256 ^ c.context
  owned : c.blockSize = 0 → n ≤ frame.data.length
  grows : c.blockSize ≠ 0 → ∀ m ≤ n, m ≤ c.bufferSize m

/-- A frame is not larger than its buffer. -/
def Sound (frame : FrameType) : Prop := frame.size ≤ frame.data.length

theorem Room.mono (h : Room c frame n) (hle : a ≤ n)
    (hlength : frame.data.length ≤ frame'.data.length) :
    Room c frame' a :=
  ⟨lt_of_le_of_lt hle h.fits, fun hzero => hle.trans ((h.owned hzero).trans hlength),
    fun hne m hm => h.grows hne m (hm.trans hle)⟩

/-- Room is made behind what there is. -/
theorem allocate_spec (h : Room c frame n) :
    n ≤ (frame.allocate c n).data.length ∧ (frame.allocate c n).size = frame.size ∧
      ∃ fresh, (frame.allocate c n).data = frame.data ++ fresh := by
  rw [allocate]
  split_ifs with hzero hless
  · exact ⟨h.owned hzero, rfl, [], (List.append_nil _).symm⟩
  · have hgrows := h.grows hzero n le_rfl
    have htake : frame.data.take (c.bufferSize n) = frame.data :=
      List.take_of_length_le (by omega)
    refine ⟨?_, rfl, _, congrArg (· ++ _) htake⟩
    simp only [htake, List.length_append, List.length_replicate]
    omega
  · exact ⟨by omega, rfl, [], (List.append_nil _).symm⟩

theorem grow_spec (hsound : frame.Sound) (h : Room c frame (offset + n)) :
    offset + n ≤ (frame.grow c offset n).size ∧ (frame.grow c offset n).Sound ∧
      ∃ fresh, (frame.grow c offset n).data = frame.data ++ fresh := by
  rw [grow, plus_of_lt h.fits]
  split_ifs with hle
  · obtain ⟨hlength, -, hfresh⟩ := allocate_spec h
    simp only [resize, held_of_lt h.fits]
    exact ⟨le_rfl, hlength, hfresh⟩
  · exact ⟨by omega, hsound, [], (List.append_nil _).symm⟩

/-- Where there is room already nothing changes. -/
theorem grow_of_le (hsound : frame.Sound) (hfits : offset + n < 256 ^ c.context)
    (hle : offset + n ≤ frame.size) : frame.grow c offset n = frame := by
  rw [grow, plus_of_lt hfits]
  split_ifs with hsize
  · have heq : offset + n = frame.size := by omega
    have hallocate : frame.allocate c (offset + n) = frame := by
      rw [allocate, if_neg (c := frame.data.length < offset + n) (by rw [heq]; exact hsound.not_gt),
        ite_self]
    rw [resize, held_of_lt hfits, hallocate, heq]
  · rfl

/-! ### Bytes of a frame -/

/-- A frame is written on: the bytes are at the offset, and what stood before them stays. -/
structure Wrote (frame frame' : FrameType) (offset : Nat) (bytes : List UInt8) : Prop where
  sound : frame'.Sound
  covers : offset + bytes.length ≤ frame'.size
  length : frame.data.length ≤ frame'.data.length
  before : ∀ n ≤ offset, n ≤ frame.data.length → frame'.data.take n = frame.data.take n
  here : frame'.get offset bytes.length = bytes

theorem get_put {bytes : List UInt8} (h : offset + bytes.length ≤ frame.data.length) :
    ({ frame with data := overwrite frame.data offset bytes } : FrameType).get offset bytes.length =
      bytes := by
  have hlength : (frame.data.take offset).length = offset := by
    rw [List.length_take]
    omega
  simp only [get, overwrite, List.append_assoc]
  rw [List.drop_left' hlength, List.take_left]

/-- Room is made, and then the bytes are copied. -/
theorem grow_put (hsound : frame.Sound) (bytes : List UInt8)
    (h : Room c frame (offset + bytes.length)) :
    ∃ frame', (frame.grow c offset bytes.length).put offset bytes = some frame' ∧
      Wrote frame frame' offset bytes := by
  obtain ⟨hsize, hsound', fresh, hfresh⟩ := grow_spec hsound h
  have hroom : offset + bytes.length ≤ (frame.grow c offset bytes.length).data.length :=
    hsize.trans hsound'
  refine ⟨_, if_pos hroom, ?_, hsize, ?_, ?_, get_put hroom⟩
  · change _ ≤ (overwrite _ _ _).length
    rw [length_overwrite hroom]
    exact hsound'
  · change _ ≤ (overwrite _ _ _).length
    rw [length_overwrite hroom, hfresh, List.length_append]
    omega
  · intro n hn hlength
    change (overwrite _ _ _).take n = _
    rw [overwrite, List.append_assoc, List.take_append_of_le_length, List.take_take, min_eq_left hn,
      hfresh, List.take_append_of_le_length hlength]
    rw [List.length_take]
    omega

theorem put_put (bytes bytes' : List UInt8)
    (h : offset + (bytes ++ bytes').length ≤ frame.data.length) :
    (frame.put offset bytes).bind (put (offset + bytes.length) bytes') =
      frame.put offset (bytes ++ bytes') := by
  have hle : offset + bytes.length + bytes'.length ≤ frame.data.length := by
    rw [List.length_append] at h
    omega
  rw [put, if_pos (by omega), Option.bind_some, put]
  simp only [length_overwrite (show offset + bytes.length ≤ frame.data.length by omega)]
  rw [if_pos hle, put, if_pos h]
  rw [overwrite_overwrite bytes bytes' (by omega)]

end

/-! ### Writing -/

/-- The bytes that a field takes. -/
def Field.encoded (c : FrameConfig) : Field → List UInt8
  | .number size n => c.bytes size n
  | .boolean value => [if value then 1 else 0]
  | .text size value | .buffer size value => c.bytes size value.length ++ value
  | .nullTerminatedText value _ => value ++ [0]

def Field.value : Field → Field.Value
  | .number _ n => .number n
  | .boolean value => .boolean value
  | .text _ value | .buffer _ value | .nullTerminatedText value _ => .bytes value

/-- A number and a length are values of their types, the type of a length is not wider than
`SIZE_CONTEXT`, and a text with a zero behind it has none inside and is not cut. -/
def Field.Suits (c : FrameConfig) : Field → Prop
  | .number size n => 0 < size ∧ n < 256 ^ size
  | .boolean _ => True
  | .text size value | .buffer size value => 0 < size ∧ value.length < 256 ^ size
  | .nullTerminatedText value maxLength =>
    0 ∉ value ∧ (maxLength = 256 ^ c.context - 1 ∨ value.length < maxLength)

instance (c : FrameConfig) : DecidablePred (Field.Suits c)
  | .number .. | .text .. | .buffer .. | .nullTerminatedText .. =>
    inferInstanceAs (Decidable (_ ∧ _))
  | .boolean _ => inferInstanceAs (Decidable True)

/-- A reader asks for the type of a field; a buffer is read into at least as many bytes. -/
inductive Field.Asked : Field → Field.Kind → Prop
  | number (size n : Nat) : Asked (.number size n) (.number size)
  | boolean (value : Bool) : Asked (.boolean value) .boolean
  | text (size : Nat) (value : Text) : Asked (.text size value) (.text size)
  | buffer (size : Nat) {bytes : List UInt8} {maxLength : Nat} (h : bytes.length ≤ maxLength) :
    Asked (.buffer size bytes) (.buffer size maxLength)
  | nullTerminatedText (value : Text) (maxLength : Nat) :
    Asked (.nullTerminatedText value maxLength) .nullTerminatedText

section

variable {c : FrameConfig} {frame : FrameType} {n size offset : Nat}

theorem setNumber_spec (hsound : frame.Sound) (h : Room c frame (offset + size)) :
    ∃ frame', frame.setNumber c size offset n = some (size, frame') ∧
      Wrote frame frame' offset (c.bytes size n) := by
  have hlength := length_bytes c size n
  obtain ⟨frame', hput, hwrote⟩ := grow_put hsound (c.bytes size n) (by rwa [hlength])
  rw [hlength] at hput
  exact ⟨frame', by rw [setNumber, hput, Option.map_some], hwrote⟩

/-- A length and the bytes behind it are written as one. -/
theorem setBuffer_spec (hsound : frame.Sound) {bytes : List UInt8}
    (h : Room c frame (offset + (size + bytes.length))) :
    ∃ frame',
      frame.setBuffer c size offset bytes.length bytes = some (size + bytes.length, frame') ∧
      Wrote frame frame' offset (c.bytes size bytes.length ++ bytes) := by
  have hlength : (c.bytes size bytes.length ++ bytes).length = size + bytes.length := by
    rw [List.length_append, length_bytes]
  have hfits := h.fits
  obtain ⟨frame', hput, hwrote⟩ :=
    grow_put hsound (c.bytes size bytes.length ++ bytes) (by rwa [hlength])
  rw [hlength] at hput
  obtain ⟨hsize, hsound', -⟩ := grow_spec hsound h
  refine ⟨frame', ?_, hwrote⟩
  have hagain : (frame.grow c offset (size + bytes.length)).grow c offset size =
      frame.grow c offset (size + bytes.length) := grow_of_le hsound' (by omega) (by omega)
  have hfull : offset + (c.bytes size bytes.length ++ bytes).length ≤
      (frame.grow c offset (size + bytes.length)).data.length := by
    rw [hlength]
    exact hsize.trans hsound'
  have hall := put_put (c.bytes size bytes.length) bytes hfull
  rw [length_bytes, hput] at hall
  rw [setBuffer, held_of_lt (by omega), setNumber, hagain, plus_of_lt (by omega), List.take_length]
  obtain ⟨middle, hmiddle, hbytes⟩ := Option.bind_eq_some_iff.mp hall
  rw [hmiddle, Option.map_some, Option.bind_some]
  dsimp only
  split_ifs with hempty
  · rw [put, List.eq_nil_of_length_eq_zero hempty] at hbytes
    split_ifs at hbytes
    rw [← Option.some.inj hbytes]
    simp [overwrite]
  · rw [hbytes, Option.map_some]

/-- A text that does not fit the type of its length is written as an empty one. -/
theorem setText_long {value : Text} (h : 256 ^ size ≤ value.length) :
    frame.setText c size offset value = frame.setText c size offset [] := by
  have hcast : bufferLengthCast size value.length = 0 := if_neg h.not_gt
  have hempty : bufferLengthCast size ([] : Text).length = 0 := ite_self 0
  rw [setText, setText, hcast, hempty, setBuffer, setBuffer]
  rfl

theorem setNullTerminatedText_spec (hsound : frame.Sound) {value : Text} {maxLength : Nat}
    (hsuits : (Field.nullTerminatedText value maxLength).Suits c)
    (h : Room c frame (offset + (value.length + 1))) :
    ∃ frame',
      frame.setNullTerminatedText c offset value maxLength = some (value.length + 1, frame') ∧
      Wrote frame frame' offset (value ++ [0]) := by
  have hlength : (value ++ [0]).length = value.length + 1 := by simp
  have hfits := h.fits
  have hcut : ¬ (maxLength ≠ 256 ^ c.context - 1 ∧ maxLength < value.length + 1) := by
    rintro ⟨hne, hless⟩
    obtain heq | hle := hsuits.2
    · exact hne heq
    · omega
  obtain ⟨frame', hput, hwrote⟩ := grow_put hsound (value ++ [0]) (by rwa [hlength])
  rw [hlength] at hput
  refine ⟨frame', ?_, hwrote⟩
  have htake : (value ++ [0]).take (value.length + 1) = value ++ [0] :=
    List.take_of_length_le hlength.le
  rw [setNullTerminatedText]
  simp only [hcut, false_and, if_false]
  rw [held_of_lt (by omega), htake, hput, Option.map_some]

/-- A field is written as its bytes. -/
theorem Writer.write_spec {writer : Writer} (field : Field) (hsound : writer.frame.Sound)
    (hsuits : field.Suits c) (h : Room c writer.frame (writer.offset + (field.encoded c).length)) :
    ∃ writer', writer.write c field = some writer' ∧
      writer'.offset = writer.offset + (field.encoded c).length ∧
      Wrote writer.frame writer'.frame writer.offset (field.encoded c) := by
  have hmoves : ∀ {r : Option (Nat × FrameType)} {length : Nat},
      (∃ frame', r = some (length, frame') ∧
        Wrote writer.frame frame' writer.offset (field.encoded c)) →
      length = (field.encoded c).length →
      ∃ writer', writer.moved c r = some writer' ∧
        writer'.offset = writer.offset + (field.encoded c).length ∧
        Wrote writer.frame writer'.frame writer.offset (field.encoded c) := by
    rintro _ length ⟨frame', rfl, hwrote⟩ hlength
    refine ⟨⟨frame', _⟩, rfl, ?_, hwrote⟩
    rw [hlength]
    exact held_of_lt h.fits
  cases field with
  | number size n =>
    refine hmoves (setNumber_spec hsound ?_) ?_
    · rwa [Field.encoded, length_bytes] at h
    · rw [Field.encoded, length_bytes]
  | boolean value =>
    refine hmoves ?_ rfl
    obtain ⟨frame', hput, hwrote⟩ := grow_put hsound [if value then 1 else 0] h
    refine ⟨frame', ?_, hwrote⟩
    rw [List.length_singleton] at hput
    rw [setBoolean, hput]
    rfl
  | text size value =>
    have hcast : bufferLengthCast size value.length = value.length := if_pos hsuits.2
    have hlength : (c.bytes size value.length ++ value).length = size + value.length := by
      rw [List.length_append, length_bytes]
    rw [Field.encoded, hlength] at h
    refine hmoves ?_ hlength.symm
    rw [setText, hcast]
    exact setBuffer_spec hsound h
  | buffer size bytes =>
    have hlength : (c.bytes size bytes.length ++ bytes).length = size + bytes.length := by
      rw [List.length_append, length_bytes]
    rw [Field.encoded, hlength] at h
    exact hmoves (setBuffer_spec hsound h) hlength.symm
  | nullTerminatedText value maxLength =>
    have hlength : (value ++ [0]).length = value.length + 1 := by simp
    rw [Field.encoded, hlength] at h
    exact hmoves (setNullTerminatedText_spec hsound hsuits h) hlength.symm

end

/-! ### Reading -/

section

variable {c : FrameConfig} {frame frame' frame'' : FrameType} {n size offset : Nat}
  {bytes bytes' : List UInt8}

theorem get_append (h : frame.get offset (bytes ++ bytes').length = bytes ++ bytes') :
    frame.get offset bytes.length = bytes ∧
      frame.get (offset + bytes.length) bytes'.length = bytes' := by
  rw [get, List.length_append, List.take_add, List.drop_drop] at h
  have hlength : ((frame.data.drop offset).take bytes.length).length = bytes.length := by
    have hall := congrArg List.length h
    simp only [List.length_append, List.length_take, List.length_drop] at hall ⊢
    omega
  exact List.append_inj h hlength

/-- What is written behind bytes does not change them. -/
theorem Wrote.keeps (h : Wrote frame frame' (offset + bytes.length) bytes')
    (hroom : offset + bytes.length ≤ frame.data.length)
    (hget : frame.get offset bytes.length = bytes) :
    frame'.get offset bytes.length = bytes := by
  have hbefore := h.before (offset + bytes.length) le_rfl hroom
  have hsame : frame'.get offset bytes.length = frame.get offset bytes.length := by
    rw [get, get, List.take_drop, List.take_drop, hbefore]
  exact hsame.trans hget

theorem Wrote.trans (h : Wrote frame frame' offset bytes)
    (h' : Wrote frame' frame'' (offset + bytes.length) bytes') :
    Wrote frame frame'' offset (bytes ++ bytes') where
  sound := h'.sound
  covers := by
    rw [List.length_append, ← Nat.add_assoc]
    exact h'.covers
  length := h.length.trans h'.length
  before n hn hlength := by
    rw [h'.before n (by omega) (hlength.trans h.length), h.before n hn hlength]
  here := by
    have hkept := h'.keeps (h.covers.trans h.sound) h.here
    have hhere := h'.here
    rw [get] at hkept hhere ⊢
    rw [List.length_append, List.take_add, List.drop_drop, hkept, hhere]

theorem getNumber_spec (hsize : 0 < size) (hn : n < 256 ^ size)
    (hfits : offset + size < 256 ^ c.context)
    (hcovers : offset + size ≤ frame.size) (hget : frame.get offset size = c.bytes size n) :
    frame.getNumber c size offset = some (n, size) := by
  rw [getNumber, plus_of_lt hfits]
  split_ifs with hone hless
  · subst hone
    rw [hget, number_bytes hn]
  · omega
  · omega
  · rw [hget, number_bytes hn]

theorem textLength_spec (hsize : 0 < size) (hlength : bytes.length < 256 ^ size)
    (hfits : offset + (size + bytes.length) < 256 ^ c.context)
    (hcovers : offset + (size + bytes.length) ≤ frame.size)
    (hget : frame.get offset size = c.bytes size bytes.length) :
    frame.textLength c size offset = some bytes.length := by
  have hall : c.plus (c.plus bytes.length offset) size = bytes.length + offset + size := by
    rw [plus_of_lt (a := bytes.length) (by omega), plus_of_lt (by omega)]
  rw [textLength, plus_of_lt (by omega), if_pos (by omega),
    getNumber_spec hsize hlength (by omega) (by omega) hget, Option.map_some]
  dsimp only
  rw [hall, if_neg (by omega)]

/-- A field is read back from its bytes. -/
theorem Reader.read_spec {reader : Reader} {field : Field} {kind : Field.Kind}
    (hasked : field.Asked kind) (hsuits : field.Suits c)
    (hfits : reader.offset + (field.encoded c).length < 256 ^ c.context)
    (hcovers : reader.offset + (field.encoded c).length ≤ reader.frame.size)
    (hget : reader.frame.get reader.offset (field.encoded c).length = field.encoded c) :
    reader.read c kind =
      some (field.value, ⟨reader.frame, reader.offset + (field.encoded c).length⟩) := by
  have hmoves : ∀ {α : Type} {value : α → Field.Value} {r : Option (α × Nat)} {x : α},
      r = some (x, (field.encoded c).length) → value x = field.value →
      reader.moved c value r =
        some (field.value, ⟨reader.frame, reader.offset + (field.encoded c).length⟩) := by
    rintro _ value _ x rfl hx
    rw [Reader.moved, Option.map_some]
    dsimp only
    rw [hx, held_of_lt hfits]
  cases hasked with
  | number size n =>
    refine hmoves (x := n) ?_ rfl
    rw [Field.encoded, length_bytes] at hfits hcovers hget ⊢
    exact getNumber_spec hsuits.1 hsuits.2 hfits hcovers hget
  | boolean value =>
    refine hmoves (x := value) ?_ rfl
    change reader.frame.get reader.offset 1 = [if value then 1 else 0] at hget
    rw [getBoolean, if_pos (by exact hcovers), hget]
    cases value <;> rfl
  | text size value =>
    have hlength : (c.bytes size value.length ++ value).length = size + value.length := by
      rw [List.length_append, length_bytes]
    refine hmoves (x := value) ?_ rfl
    obtain ⟨hnumber, hvalue⟩ := get_append hget
    rw [length_bytes] at hnumber hvalue
    rw [Field.encoded, hlength] at hfits hcovers ⊢
    rw [getText, textLength_spec hsuits.1 hsuits.2 hfits hcovers hnumber, Option.map_some,
      plus_of_lt (by omega), hvalue, held_of_lt (by omega)]
  | @buffer size bytes maxLength h =>
    have hlength : (c.bytes size bytes.length ++ bytes).length = size + bytes.length := by
      rw [List.length_append, length_bytes]
    refine hmoves (x := bytes) ?_ rfl
    obtain ⟨hnumber, hvalue⟩ := get_append hget
    rw [length_bytes] at hnumber hvalue
    rw [Field.encoded, hlength] at hfits hcovers ⊢
    rw [getBuffer, textLength_spec hsuits.1 hsuits.2 hfits hcovers hnumber, Option.map_some,
      plus_of_lt (by omega), min_eq_left h, hvalue, held_of_lt (by omega)]
  | nullTerminatedText value maxLength =>
    have hlength : (value ++ [0]).length = value.length + 1 := by simp
    refine hmoves (x := value) ?_ rfl
    rw [Field.encoded, hlength] at hfits hcovers hget ⊢
    have htext : (reader.frame.data.take reader.frame.size).drop reader.offset =
        value ++ 0 :: ((reader.frame.data.take reader.frame.size).drop reader.offset).drop
          (value.length + 1) := by
      have htake : ((reader.frame.data.take reader.frame.size).drop reader.offset).take
          (value.length + 1) = value ++ [0] := by
        rw [← hget, get, List.drop_take, List.take_take, min_eq_left (by omega)]
      conv_lhs => rw [← List.take_append_drop (value.length + 1)
        ((reader.frame.data.take reader.frame.size).drop reader.offset), htake]
      simp
    rw [getNullTerminatedText, htext, terminated_append hsuits.1, Option.map_some,
      held_of_lt (by omega)]

/-- The bytes of some fields. -/
def encodedAll (c : FrameConfig) (fields : List Field) : List UInt8 :=
  (fields.map fun field => field.encoded c).flatten

/-- Fields are written as their bytes, one after another. -/
theorem Writer.writeAll_spec (writer : Writer) (field : Field) (fields : List Field)
    (hsound : writer.frame.Sound) (hsuits : ∀ f ∈ field :: fields, f.Suits c)
    (h : Room c writer.frame (writer.offset + (encodedAll c (field :: fields)).length)) :
    ∃ writer', writer.writeAll c (field :: fields) = some writer' ∧
      writer'.offset = writer.offset + (encodedAll c (field :: fields)).length ∧
      Wrote writer.frame writer'.frame writer.offset (encodedAll c (field :: fields)) := by
  have hall : ∀ field fields, encodedAll c (field :: fields) =
      field.encoded c ++ encodedAll c fields := fun _ _ => List.flatten_cons
  induction fields generalizing writer field with
  | nil =>
    rw [hall, encodedAll, List.map_nil, List.flatten_nil, List.append_nil] at h ⊢
    obtain ⟨writer', hwrite, hspec⟩ :=
      Writer.write_spec field hsound (hsuits field List.mem_cons_self) h
    refine ⟨writer', ?_, hspec⟩
    rw [writeAll, hwrite, Option.bind_some, writeAll]
  | cons next fields ih =>
    rw [hall, List.length_append] at h
    obtain ⟨writer', hwrite, hoffset, hwrote⟩ := Writer.write_spec field hsound
      (hsuits field List.mem_cons_self) (h.mono (by omega) le_rfl)
    obtain ⟨writer'', hrest, hoffset', hwrote'⟩ := ih writer' next hwrote.sound
      (fun f hf => hsuits f (List.mem_cons_of_mem field hf))
      (h.mono (by omega) hwrote.length)
    rw [hoffset] at hoffset' hwrote'
    refine ⟨writer'', ?_, ?_, ?_⟩
    · rw [writeAll, hwrite, Option.bind_some, hrest]
    · rw [hoffset', hall field, List.length_append, Nat.add_assoc]
    · rw [hall field]
      exact hwrote.trans hwrote'

/-- Fields are read back from their bytes. -/
theorem Reader.readAll_spec {reader : Reader} {fields : List Field} {kinds : List Field.Kind}
    (hasked : List.Forall₂ Field.Asked fields kinds) (hsuits : ∀ f ∈ fields, f.Suits c)
    (hfits : reader.offset + (encodedAll c fields).length < 256 ^ c.context)
    (hcovers : reader.offset + (encodedAll c fields).length ≤ reader.frame.size)
    (hget : reader.frame.get reader.offset (encodedAll c fields).length = encodedAll c fields) :
    reader.readAll c kinds = some (fields.map Field.value,
      ⟨reader.frame, reader.offset + (encodedAll c fields).length⟩) := by
  induction hasked generalizing reader with
  | nil => rfl
  | @cons field kind fields kinds hkind hasked ih =>
    have hall : encodedAll c (field :: fields) = field.encoded c ++ encodedAll c fields :=
      List.flatten_cons
    rw [hall] at hget hfits hcovers ⊢
    obtain ⟨hfirst, hrest⟩ := get_append hget
    rw [List.length_append] at hfits hcovers ⊢
    have hread :=
      Reader.read_spec hkind (hsuits field List.mem_cons_self) (by omega) (by omega) hfirst
    have hreads := @ih ⟨reader.frame, reader.offset + (field.encoded c).length⟩
      (fun f hf => hsuits f (List.mem_cons_of_mem field hf)) (by dsimp only; omega)
      (by dsimp only; omega) hrest
    rw [readAll, hread, Option.bind_some]
    dsimp only
    rw [hreads, Option.map_some, List.map_cons, Nat.add_assoc]

/-- What a writer has written from an offset on, a reader from there reads back: all of it, and
nothing else. -/
theorem Writer.read_back (c : FrameConfig) (frame : FrameType) (start : Nat) {fields : List Field}
    {kinds : List Field.Kind} (hsound : frame.Sound) (hsuits : ∀ f ∈ fields, f.Suits c)
    (hasked : List.Forall₂ Field.Asked fields kinds)
    (hroom : Room c frame (start + (encodedAll c fields).length)) :
    ∃ writer, (Writer.mk frame start).writeAll c fields = some writer ∧
      writer.offset = start + (encodedAll c fields).length ∧
      (Reader.mk writer.frame start).readAll c kinds =
        some (fields.map Field.value, ⟨writer.frame, writer.offset⟩) := by
  cases fields with
  | nil =>
    cases hasked
    exact ⟨⟨frame, start⟩, rfl, rfl, rfl⟩
  | cons field fields =>
    obtain ⟨writer, hwrite, hoffset, hwrote⟩ :=
      Writer.writeAll_spec ⟨frame, start⟩ field fields hsound hsuits hroom
    refine ⟨writer, hwrite, hoffset, ?_⟩
    rw [Reader.readAll_spec hasked hsuits hroom.fits hwrote.covers hwrote.here, hoffset]

end

/-- A frame that grows by eight bytes, and one field of each kind. -/
theorem Writer.read_back_kinds : ∃ writer,
    (Writer.mk ⟨0, []⟩ 3).writeAll ⟨8, true, 2⟩
      [.number 4 70000, .boolean true, .text 2 [72, 105], .buffer 1 [0, 1],
        .nullTerminatedText [72] 65535] =
        some writer ∧ writer.offset = 3 + 14 ∧
    (Reader.mk writer.frame 3).readAll ⟨8, true, 2⟩
      [.number 4, .boolean, .text 2, .buffer 1 9, .nullTerminatedText] =
        some ([.number 70000, .boolean true, .bytes [72, 105], .bytes [0, 1], .bytes [72]],
          ⟨writer.frame, writer.offset⟩) :=
  Writer.read_back ⟨8, true, 2⟩ ⟨0, []⟩ 3 le_rfl (by decide)
    (.cons (.number _ _) <| .cons (.boolean _) <| .cons (.text _ _) <|
      .cons (.buffer _ (by decide)) <| .cons (.nullTerminatedText _ _) .nil)
    ⟨by decide, nofun, fun _ => by decide⟩

/-- A text of 256 bytes with a length of one byte. -/
theorem Writer.not_read_back_long : ¬ ∃ writer,
    (Writer.mk ⟨0, []⟩ 0).writeAll ⟨16, true, 2⟩ [.text 1 (List.replicate 256 97)] = some writer ∧
    (Reader.mk writer.frame 0).readAll ⟨16, true, 2⟩ [.text 1] =
      some ([.bytes (List.replicate 256 97)], ⟨writer.frame, writer.offset⟩) := by
  rintro ⟨writer, hwrite, hread⟩
  have hlong : (⟨0, []⟩ : FrameType).setText ⟨16, true, 2⟩ 1 0 (List.replicate 256 97) =
      (⟨0, []⟩ : FrameType).setText ⟨16, true, 2⟩ 1 0 [] :=
    setText_long (by rw [List.length_replicate]; decide)
  rw [writeAll, write, hlong] at hwrite
  obtain rfl := Option.some.inj hwrite
  have hvalues : [Field.Value.bytes []] = [Field.Value.bytes (List.replicate 256 97)] :=
    congrArg Prod.fst (Option.some.inj hread)
  injection hvalues with hvalue
  injection hvalue with hbytes
  exact absurd (congrArg List.length hbytes) (by rw [List.length_replicate]; decide)

end FrameType

end Thunder.Core
