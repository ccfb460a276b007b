import Thunder.Core.Words
import Thunder.Library.Bytes
import Thunder.Core.Metadata

/-! `FrameType<0>`: a reader and a writer that move through a byte buffer the caller owns.  Numbers
are big-endian, offsets and sizes are 16 bits wide. -/

namespace Thunder.Core

open Bytes

/-- `FrameType::Writer` and the frame it writes to. -/
structure Writer where
  data : List UInt8
  offset : Nat

namespace Writer

def number (size n : Nat) (writer : Writer) : Writer :=
  ⟨overwrite writer.data writer.offset (bigEndian size n), u16 (writer.offset + size)⟩

def nullTerminatedText (text : Text) (writer : Writer) : Writer :=
  let requiredLength := u16 (text.length + 1)
  ⟨overwrite writer.data writer.offset ((text ++ [0]).take requiredLength),
    u16 (writer.offset + requiredLength)⟩

/-- The writer has written `written`, and `room` follows. -/
structure At (writer : Writer) (written room : List UInt8) : Prop where
  data : writer.data = written ++ room
  offset : writer.offset = written.length
  fits : (written ++ room).length ≤ 65535

theorem at_start {data : List UInt8} (h : data.length ≤ 65535) : At ⟨data, 0⟩ [] data :=
  ⟨rfl, rfl, h⟩

variable {writer : Writer} {written room : List UInt8}

/-- Writing `bytes` at the offset. -/
theorem At.bytes (h : At writer written room) (bytes : List UInt8)
    (hroom : bytes.length ≤ room.length) :
    At ⟨overwrite writer.data writer.offset bytes, u16 (writer.offset + bytes.length)⟩
      (written ++ bytes) (room.drop bytes.length) := by
  have hfits := h.fits
  rw [List.length_append] at hfits
  refine ⟨?_, ?_, ?_⟩
  · simp only [h.data, h.offset, overwrite_append]
  · rw [List.length_append, ← h.offset]
    exact u16_of_lt (by have := h.offset; omega)
  · simp only [List.length_append, List.length_drop]
    omega

/-- A chain of writes that puts `bytes` at the offset of any frame with room for them. -/
def Fills (fields : Writer → Writer) (bytes : List UInt8) : Prop :=
  ∀ writer written room, At writer written room → bytes.length ≤ room.length →
    At (fields writer) (written ++ bytes) (room.drop bytes.length)

theorem fills_number (size n : Nat) : Fills (number size n) (bigEndian size n) := by
  intro writer written room h hroom
  have hbytes := h.bytes _ hroom
  rw [length_bigEndian] at hbytes ⊢
  exact hbytes

theorem fills_text (text : Text) : Fills (nullTerminatedText text) (text ++ [0]) := by
  intro writer written room h hroom
  have hfits := h.fits
  simp only [List.length_append, List.length_singleton] at hfits hroom
  have hrequired : u16 (text.length + 1) = text.length + 1 := u16_of_lt (by omega)
  have htake : (text ++ [0]).take (text.length + 1) = text ++ [0] :=
    List.take_of_length_le (by simp)
  have hbytes := h.bytes (text ++ [0]) (by simpa using hroom)
  simp only [nullTerminatedText, hrequired, htake]
  simpa using hbytes

theorem Fills.comp {first second : Writer → Writer} {bytes bytes' : List UInt8}
    (hfirst : Fills first bytes) (hsecond : Fills second bytes') :
    Fills (fun writer => second (first writer)) (bytes ++ bytes') := by
  intro writer written room h hroom
  rw [List.length_append] at hroom ⊢
  have hmid := hfirst writer written room h (by omega)
  have hend := hsecond _ _ _ hmid (by rw [List.length_drop]; omega)
  rwa [List.append_assoc, List.drop_drop] at hend

end Writer

/-- `FrameType::Reader` and the frame it reads. -/
structure Reader where
  data : List UInt8
  offset : Nat

namespace Reader

/-- A number that does not fit in what is left is read as zero. -/
def number (size : Nat) (reader : Reader) : Nat × Reader :=
  (if reader.data.length < reader.offset + size then 0
    else ofBigEndian ((reader.data.drop reader.offset).take size),
    ⟨reader.data, u16 (reader.offset + size)⟩)

/-- The text up to the next zero byte; without one the code reads on behind the buffer. -/
def nullTerminatedText (reader : Reader) : Option (Text × Reader) :=
  (terminated (reader.data.drop reader.offset)).map fun text =>
    (text, ⟨reader.data, u16 (reader.offset + (text.length + 1))⟩)

/-- The reader has read `read`, and `rest` follows. -/
structure At (reader : Reader) (read rest : List UInt8) : Prop where
  data : reader.data = read ++ rest
  offset : reader.offset = read.length
  fits : (read ++ rest).length ≤ 65535

theorem at_start {data : List UInt8} (h : data.length ≤ 65535) : At ⟨data, 0⟩ [] data :=
  ⟨rfl, rfl, h⟩

variable {reader : Reader} {read rest : List UInt8}

theorem At.number {size n : Nat} (h : At reader read (bigEndian size n ++ rest)) :
    (reader.number size).1 = n % 256 ^ size ∧
      At (reader.number size).2 (read ++ bigEndian size n) rest := by
  have hfits := h.fits
  simp only [List.length_append, length_bigEndian] at hfits
  constructor
  · unfold Reader.number
    rw [if_neg (by rw [h.data, h.offset]; simp), h.data, h.offset, List.drop_left]
    rw [List.take_left' (length_bigEndian size n), ofBigEndian_bigEndian]
  · refine ⟨?_, ?_, ?_⟩
    · simp [Reader.number, h.data]
    · simp only [Reader.number, h.offset, List.length_append, length_bigEndian]
      exact u16_of_lt (by omega)
    · simpa using h.fits

/-- A reader of one field and what follows it. -/
theorem At.nullTerminatedText {text : Text} (h : At reader read (text ++ 0 :: rest))
    (hnul : 0 ∉ text) :
    ∃ reader', reader.nullTerminatedText = some (text, reader') ∧
      At reader' (read ++ (text ++ [0])) rest := by
  have hfits := h.fits
  simp only [List.length_append, List.length_cons] at hfits
  refine ⟨⟨reader.data, u16 (reader.offset + (text.length + 1))⟩, ?_, ?_, ?_, ?_⟩
  · unfold Reader.nullTerminatedText
    rw [h.data, h.offset, List.drop_left, terminated_append hnul]
    rfl
  · simp [h.data]
  · simp only [h.offset, List.length_append, List.length_singleton]
    exact u16_of_lt (by omega)
  · simpa using h.fits

end Reader

end Thunder.Core
