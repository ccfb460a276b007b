import Thunder.Core.Words
import Thunder.Library.Chunks
import Mathlib.Data.Nat.Bitwise
import Mathlib.Tactic.Ring

/-! IPC framing: `IMessage::Serializer` turns messages into one byte stream, through output buffers
of any size, and `IMessage::Deserializer` recovers them from input chunks of any size.  Lengths and
labels are written in one to four bytes, seven bits a byte, the lowest first; the fourth byte holds
eight bits.  Counters are 32 bits wide; no offset of a frame whose length is right comes near
2 ^ 32. -/

namespace Thunder.Core

open Chunks

/-- The parameters or the response of a call (`IPCMessageType`), with the largest label that four
bytes hold and the length that `Serializer::Submit` asserts. -/
structure IMessage where
  identifier : Nat
  response : Bool
  payload : List UInt8
  identifier_le : identifier ≤ 0xFFFFFFF
  payload_le : payload.length ≤ 0x1FFFFFFF

namespace IMessage

/-- `IDENTIFIER << 1` for the parameters, `(IDENTIFIER << 1) | 0x1` for the response. -/
def label (element : IMessage) : Nat := element.identifier <<< 1 ||| element.response.toNat

def length (element : IMessage) : Nat := element.payload.length

def serialize (element : IMessage) (maxLength offset : Nat) : List UInt8 :=
  (element.payload.drop offset).take maxLength

end IMessage

/-! ### The serializer -/

/-- The number of bytes that `CommandSize` counts for a label. -/
def commandSize (label : Nat) : Nat :=
  if 0x1FFFFF < label then 4 else if 0xCFFF < label then 3 else if 0x7F < label then 2 else 1

/-- The byte for `value`, the part of a number that is not yet written. -/
def pieceByte (value : Nat) : UInt8 :=
  UInt8.ofNat ((value &&& 0x7F) ||| (if 0x80 ≤ value then 0x80 else 0))

/-- The loop that writes a number at the offsets `base` to `base + 3`: the bytes it puts out and
the offset it stops at. -/
def writeField (number base : Nat) : Nat → Nat → List UInt8 × Nat
  | offset, 0 => ([], offset)
  | offset, room + 1 =>
    if offset < base + 4 then
      let value := number >>> (7 * (offset - base))
      let (bytes, stop) :=
        writeField number base (if 0x80 ≤ value then offset + 1 else base + 4) room
      (pieceByte value :: bytes, stop)
    else ([], offset)

/-- `IMessage::Serializer` and the queue of `LinkType` behind it; `_current` is the first message
of the queue. -/
structure Serializer where
  length : Nat
  offset : Nat
  queue : List IMessage

namespace Serializer

/-- `LinkType::SerializerImpl::Submit`: a message that is alone in the queue becomes the current
one at once. -/
def submit (s : Serializer) (element : IMessage) : Serializer :=
  match s.queue with
  | [] => ⟨element.length, 0, [element]⟩
  | queue => { s with queue := queue ++ [element] }

/-- `LinkType::SerializerImpl::Serialized`: the message leaves the queue and the next one is
submitted. -/
def serialized (s : Serializer) : Serializer :=
  match s.queue.tail with
  | [] => { s with queue := [] }
  | next :: waiting => ⟨next.length, 0, next :: waiting⟩

/-- The body of `Serialize`, once for each message that gets finished.  A message that is not
finished has filled the buffer. -/
def serializeFrom : List IMessage → Nat → Nat → Nat → List UInt8 × Serializer
  | [], length, offset, _ => ([], ⟨length, offset, []⟩)
  | element :: waiting, length, offset, maxLength =>
    let (size, offset) := writeField (u32 (length + commandSize element.label)) 0 offset maxLength
    let room := maxLength - size.length
    let (command, offset) := writeField element.label 4 offset room
    let room := room - command.length
    if room = 0 then (size ++ command, ⟨length, offset, element :: waiting⟩)
    else
      let handled := element.serialize room (offset - 8)
      let offset := offset + handled.length
      if offset - 8 = length then
        let next := serialized ⟨length, offset, element :: waiting⟩
        let (bytes, s) := serializeFrom waiting next.length next.offset (room - handled.length)
        (size ++ command ++ handled ++ bytes, s)
      else (size ++ command ++ handled, ⟨length, offset, element :: waiting⟩)

def serialize (s : Serializer) (maxLength : Nat) : List UInt8 × Serializer :=
  serializeFrom s.queue s.length s.offset maxLength

def idle : Serializer := ⟨0, 0, []⟩

end Serializer

/-! ### The deserializer -/

/-- The package of a message class: a plain structure of some size, `Text<LENGTH>`, or one that
takes every byte (`string`, `BufferType` and the frames of COM). -/
inductive Package
  | plain (size : Nat)
  | text (LENGTH : Nat)
  | growing

/-- What `Deserialize` takes of `maxLength` bytes that belong at `offset`.  The room that is left is
cut to 16 bits. -/
def Package.deserialize (maxLength offset : Nat) : Package → Nat
  | plain size => if offset < size then min maxLength ((size - offset) % 2 ^ 16) else 0
  | text LENGTH => if offset < LENGTH then min maxLength ((LENGTH - 1 - offset) % 2 ^ 16) else 0
  | growing => maxLength

/-- How many bytes a package takes in all, if that is limited. -/
def Package.capacity : Package → Option Nat
  | plain size => some (size % 2 ^ 16)
  | text LENGTH => some ((LENGTH - 1) % 2 ^ 16)
  | growing => none

/-- A message on its way in, with the bytes it has so far. -/
structure Inbound where
  identifier : Nat
  response : Bool
  package : Package
  payload : List UInt8

/-- The message classes that the receiver knows: those of its factory for parameters, that of the
outstanding call for a response. -/
abbrev IPCFactory := Bool → Nat → Option Package

def IPCFactory.element (factory : IPCFactory) (label : Nat) : Option Inbound :=
  let searchIdentifier := label >>> 1
  let response := label &&& 1 ≠ 0
  (factory response searchIdentifier).map fun package => ⟨searchIdentifier, response, package, []⟩

/-- A frame that has ended: handed out through `Deserialized`, or skipped. -/
inductive Received
  | deserialized (identifier : Nat) (response : Bool) (payload : List UInt8)
  | skipped (length : Nat)
  deriving DecidableEq

/-- `log` is not in the source: it records the frames that have ended. -/
structure Deserializer where
  length : Nat
  offset : Nat
  label : Nat
  current : Option Inbound
  log : List Received

/-- The number and the position in it after one more byte. -/
def readPiece (number position : Nat) (b : UInt8) : Nat × Nat :=
  (number ||| ((b.toNat &&& (if position = 3 then 0xFF else 0x7F)) <<< (7 * position)),
    if b.toNat &&& 0x80 ≠ 0 then position + 1 else 4)

namespace Deserializer

def initial : Deserializer := ⟨0, 0, 0, none, []⟩

def readLength (s : Deserializer) (b : UInt8) : Deserializer :=
  let (length, position) := readPiece s.length s.offset b
  { s with length := length, offset := position }

def readLabel (s : Deserializer) (b : UInt8) : Deserializer :=
  let (label, position) := readPiece s.label (s.offset - 4) b
  -- `_length--` at zero gives the largest `uint32_t`
  { s with
    label := label, offset := 4 + position
    length := if s.length = 0 then 0xFFFFFFFF else s.length - 1 }

/-- The loop that reads the length, or the label, up to the offset `bound`. -/
def readField (bound : Nat) (read : Deserializer → UInt8 → Deserializer) :
    Deserializer → List UInt8 → Deserializer × List UInt8
  | s, [] => (s, [])
  | s, b :: stream =>
    if s.offset < bound then readField bound read (read s b) stream else (s, b :: stream)

def lookUp (factory : IPCFactory) (s : Deserializer) : Deserializer :=
  if s.offset = 8 then { s with current := factory.element s.label, label := 0 } else s

def readHeader (factory : IPCFactory) (s : Deserializer) (stream : List UInt8) :
    Deserializer × List UInt8 :=
  let (s, stream) := readField 4 readLength s stream
  let (s, stream) := readField 8 readLabel s stream
  (s.lookUp factory, stream)

/-- The end of a frame. -/
def finish (s : Deserializer) : Deserializer :=
  { s with
    length := 0, offset := 0, current := none
    log := s.log ++ [match s.current with
      | none => .skipped (s.offset - 8)
      | some element => .deserialized element.identifier element.response element.payload] }

/-- Bytes of the payload go to the current message, or nowhere. -/
def handle (s : Deserializer) (bytes : List UInt8) : Deserializer :=
  { s with
    offset := s.offset + bytes.length
    current := s.current.map fun element => { element with payload := element.payload ++ bytes } }

def handled (s : Deserializer) (maxLength : Nat) : Nat :=
  match s.current with
  | none => maxLength
  | some element => element.package.deserialize maxLength (s.offset - 8)

/-- A frame that has all its bytes ends. -/
def close (s : Deserializer) : Deserializer :=
  if s.offset - 8 = s.length then s.finish else s

def readPayload (s : Deserializer) (stream : List UInt8) : Deserializer × List UInt8 :=
  if s.offset - 8 < s.length then
    let taken := s.handled (min stream.length (s.length - (s.offset - 8)))
    ((s.handle (stream.take taken)).close, stream.drop taken)
  else (s.close, stream)

/-- One round of the loop of `Deserialize`. -/
def round (factory : IPCFactory) (s : Deserializer) (stream : List UInt8) :
    Deserializer × List UInt8 :=
  let (s, stream) :=
    if s.current.isNone ∧ s.offset < 8 then s.readHeader factory stream else (s, stream)
  if 8 ≤ s.offset then s.readPayload stream else (s, stream)

/-- `Deserialize`.  A round that takes no byte leaves everything as it was: the loop never ends. -/
def deserialize (factory : IPCFactory) (s : Deserializer) (stream : List UInt8) :
    Option Deserializer :=
  if stream = [] then some s
  else
    let next := s.round factory stream
    if next.2.length < stream.length then deserialize factory next.1 next.2 else none
termination_by stream.length

end Deserializer

/-! ### Numbers of one to four bytes -/

/-- The bytes of a number of which at most `n` bytes are written. -/
def fieldBytes : Nat → Nat → List UInt8
  | 0, _ => []
  | n + 1, value => pieceByte value :: if 0x80 ≤ value then fieldBytes n (value / 0x80) else []

/-- What a reader gets from `fieldBytes`. -/
def fieldValue : Nat → Nat → Nat
  | 0, _ => 0
  | n + 1, value =>
    if value < 0x80 then value
    else value % 0x80 + 0x80 * if n = 0 then 1 else fieldValue n (value / 0x80)

/-- The bytes of a number that are still to be written at `offset`. -/
def fieldAt (number base offset : Nat) : List UInt8 :=
  fieldBytes (base + 4 - offset) (number >>> (7 * (offset - base)))

theorem pieceByte_toNat (value : Nat) :
    (pieceByte value).toNat = value % 0x80 + if 0x80 ≤ value then 0x80 else 0 := by
  have hlow : value &&& 0x7F = value % 0x80 := Nat.and_two_pow_sub_one_eq_mod value 7
  have hlt : value % 0x80 < 2 ^ 7 := Nat.mod_lt _ (by decide)
  unfold pieceByte
  rw [hlow]
  split
  · have hor : 1 <<< 7 + value % 0x80 = 1 <<< 7 ||| value % 0x80 :=
      Nat.shiftLeft_add_eq_or_of_lt hlt 1
    have hor' : value % 0x80 ||| 0x80 = value % 0x80 + 0x80 := by
      rw [Nat.or_comm, Nat.add_comm]
      exact hor.symm
    rw [hor', UInt8.toNat_ofNat']
    omega
  · rw [Nat.or_zero, UInt8.toNat_ofNat']
    omega

theorem byte_flag (b : UInt8) : b.toNat &&& 0x80 ≠ 0 ↔ 0x80 ≤ b.toNat := by
  have hlt := b.toNat_lt
  have hand : b.toNat &&& 0x80 = (b.toNat.testBit 7).toNat * 2 ^ 7 := Nat.and_two_pow b.toNat 7
  rw [hand, Nat.testBit_eq_decide_div_mod_eq]
  by_cases h : b.toNat / 2 ^ 7 % 2 = 1
  · simp only [h, decide_true, Bool.toNat_true]
    omega
  · simp only [h, decide_false, Bool.toNat_false]
    omega

theorem byte_low (b : UInt8) : b.toNat &&& 0x7F = b.toNat % 0x80 :=
  Nat.and_two_pow_sub_one_eq_mod b.toNat 7

theorem byte_all (b : UInt8) : b.toNat &&& 0xFF = b.toNat := by
  have hmod : b.toNat &&& 0xFF = b.toNat % 256 := Nat.and_two_pow_sub_one_eq_mod b.toNat 8
  rw [hmod, Nat.mod_eq_of_lt b.toNat_lt]

theorem pieceByte_flag (value : Nat) :
    (pieceByte value).toNat &&& 0x80 ≠ 0 ↔ 0x80 ≤ value := by
  rw [byte_flag, pieceByte_toNat]
  split <;> omega

namespace IMessage

/-- What is still to be written at `offset` of the length and the label. -/
def header (element : IMessage) (offset : Nat) : List UInt8 :=
  fieldAt (u32 (element.length + commandSize element.label)) 0 offset ++
    fieldAt element.label 4 (max offset 4)

/-- What is still to be written of a message at `offset`. -/
def rest (element : IMessage) (offset : Nat) : List UInt8 :=
  element.header offset ++ element.payload.drop (offset - 8)

/-- All the bytes of a message. -/
def frame (element : IMessage) : List UInt8 := element.rest 0

end IMessage

namespace Serializer

def pending (s : Serializer) : List UInt8 :=
  match s.queue with
  | [] => []
  | element :: waiting => element.rest s.offset ++ waiting.flatMap IMessage.frame

/-- The counters belong to the current message. -/
def Current (s : Serializer) : Prop :=
  ∀ element ∈ s.queue.head?, s.length = element.length ∧ s.offset ≤ 8 + element.length

theorem pending_submit (s : Serializer) (element : IMessage) :
    (s.submit element).pending = s.pending ++ element.frame := by
  unfold submit
  split
  case h_1 hqueue => simp [pending, hqueue, IMessage.frame]
  case h_2 queue hqueue =>
    cases hs : s.queue with
    | nil => exact absurd hs hqueue
    | cons current waiting => simp [pending, hs]

/-- The messages are submitted one after another. -/
def submitAll (s : Serializer) (elements : List IMessage) : Serializer := elements.foldl submit s

end Serializer

end Thunder.Core
