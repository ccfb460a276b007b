import Thunder.Library.Bytes
import Thunder.Library.Chunks
import Thunder.Library.Run
import Thunder.Core.Words
import Mathlib.Data.List.Infix
import Mathlib.Data.List.Range

/-! The messages of `MessageExchangeType`: a type, a length and a value, written to the send buffers
of a channel and read back from the chunks that it receives. -/

namespace Thunder.Exchange

open Thunder.Core

/-- The template arguments: `sizeof(TYPE)`, `sizeof(LENGTH)` and BUFFERSIZE.  `wide` is what the machine
makes of a shift by all bits of a number or more, which the language leaves open. -/
structure TypeLengthValueType where
  typeSize : Nat
  lengthSize : Nat
  bufferSize : Nat
  wide : Nat → Nat → Nat
  typeSize_pos : 0 < typeSize
  lengthSize_pos : 0 < lengthSize

/-- What is sent and what is reported. -/
@[ext] structure Message where
  type : Nat
  value : List UInt8
  deriving DecidableEq, Repr

namespace TypeLengthValueType

variable (c : TypeLengthValueType)

def headerSize : Nat := c.typeSize + c.lengthSize

/-- A value as a LENGTH holds it. -/
def word (n : Nat) : Nat := n % 256 ^ c.lengthSize

/-- A number of so many bits, shifted right. -/
def shiftRight (bits number shift : Nat) : Nat :=
  if shift < bits then number >>> shift else c.wide number shift

/-! ### The sender -/

structure Request where
  type : Nat
  length : Nat
  offset : Nat
  value : List UInt8

def Request.new (m : Message) : Request := ⟨m.type, m.value.length, 0, m.value⟩

/-- A byte that `Store` takes from a field.  The shift has `sizeof(TYPE)` for both fields, and wraps as
a `size_t` where the field is wider. -/
def fieldByte (size number index : Nat) : UInt8 :=
  UInt8.ofNat (c.shiftRight (max 32 (8 * size)) number
    (8 * ((c.typeSize + 2 ^ 64 - 1 - index) % 2 ^ 64) % 2 ^ 64))

/-- `Store` to the part of the stream that begins at `start`.  The bytes go to `stream[index]`, also
where the field is resumed; what is written behind the stream is not modelled. -/
def store (size number : Nat) (stream : List UInt8) (start length offset : Nat) :
    List UInt8 × Nat :=
  let stored := min (size - offset) length
  ((List.range' offset stored).foldl
    (fun stream index => stream.set (start + index) (c.fieldByte size number index)) stream, stored)

/-- A call of `Serialize` under way. -/
structure Serializing where
  stream : List UInt8
  result : Nat
  offset : Nat

namespace Serializing

variable (s : Serializing)

def storeType (type : Nat) : Serializing :=
  if s.offset < c.typeSize then
    let (stream, stored) := c.store c.typeSize type s.stream 0 s.stream.length s.offset
    ⟨stream, stored, c.word (s.offset + stored)⟩
  else s

def storeLength (length : Nat) : Serializing :=
  if s.offset < c.headerSize ∧ 0 < s.stream.length - s.result then
    let (stream, stored) := c.store c.lengthSize length s.stream s.result
      (s.stream.length - s.result) (s.offset - c.typeSize)
    ⟨stream, s.result + stored, c.word (s.offset + stored)⟩
  else s

def copyValue (length : Nat) (value : List UInt8) : Serializing :=
  if 0 < s.stream.length - s.result then
    let copyLength := min (u16 (length - (s.offset - c.headerSize)))
      (u16 (s.stream.length - s.result))
    ⟨Bytes.overwrite s.stream s.result ((value.drop (s.offset - c.headerSize)).take copyLength),
      s.result + copyLength, c.word (s.offset + copyLength)⟩
  else s

end Serializing

/-- `Serialize` to a stream with its old bytes. -/
def Request.serialize (r : Request) (stream : List UInt8) : List UInt8 × Nat × Request :=
  let s := (((Serializing.mk stream 0 r.offset).storeType c r.type).storeLength c r.length).copyValue c
    r.length r.value
  (s.stream, s.result, { r with offset := s.offset })

/-- The requests that are submitted one after another, the current one first, and what the channel has
been given. -/
structure Sender where
  requests : List Request
  sent : List UInt8

def Sender.new (messages : List Message) : Sender := ⟨messages.map .new, []⟩

/-- `SendData`: a request that has nothing to write is completed. -/
def Sender.sendData (s : Sender) (dataFrame : List UInt8) : Sender :=
  match s.requests with
  | [] => s
  | current :: requests =>
    let (stream, result, current) := current.serialize c dataFrame
    if result = 0 then { s with requests := requests }
    else ⟨current :: requests, s.sent ++ stream.take result⟩

/-! ### The receiver -/

/-- The buffer of the receiver, with the `2 * BUFFERSIZE` bytes of `_value`. -/
structure Buffer where
  type : Nat
  length : Nat
  offset : Nat
  used : Nat
  value : List UInt8

/-- `Load`: the number, and how many bytes were taken. -/
def load (size : Nat) : Nat → List UInt8 → Nat → Nat × Nat
  | number, [], _ => (number, 0)
  | number, b :: stream, index =>
    if index < size then
      let (number, loaded) :=
        load size (number ||| c.shiftRight 32 b.toNat (8 * (size - 1 - index))) stream (index + 1)
      (number, loaded + 1)
    else (number, 0)

/-- A copy to `_value`, if it has room for it. -/
def copyTo (value : List UInt8) (start : Nat) (bytes : List UInt8) : Option (List UInt8) :=
  if start + bytes.length ≤ value.length then some (Bytes.overwrite value start bytes) else none

namespace Buffer

variable (b : Buffer)

/-- The parts of `Deserialize` give back what is left of the stream. -/
def loadType (stream : List UInt8) : Buffer × List UInt8 :=
  if b.offset < c.typeSize then
    let (type, loaded) := c.load c.typeSize (if 0 < b.offset then b.type else 0) stream b.offset
    ({ b with type := type, offset := c.word (b.offset + loaded) }, stream.drop loaded)
  else (b, stream)

def loadLength (stream : List UInt8) : Buffer × List UInt8 :=
  if b.offset < c.headerSize ∧ 0 < stream.length then
    let (length, loaded) := c.load c.lengthSize (if c.typeSize < b.offset then b.length else 0) stream
      (b.offset - c.typeSize)
    ({ b with length := length, offset := c.word (b.offset + loaded) }, stream.drop loaded)
  else (b, stream)

def copyValue (stream : List UInt8) : Option (Buffer × List UInt8) :=
  if 0 < stream.length then do
    let copyLength := min (u16 (b.length - (b.offset - c.headerSize))) (u16 stream.length)
    let value ← copyTo b.value (b.offset - c.headerSize) (stream.take copyLength)
    return ({ b with value := value, offset := c.word (b.offset + copyLength) },
      stream.drop copyLength)
  else some (b, stream)

/-- The room for the bytes behind a message, as `Deserialize` has it. -/
def room (offset used : Nat) : Nat :=
  ((2 * c.bufferSize - offset - c.headerSize - used : Int) % 65536).toNat

def keepRest (stream : List UInt8) : Option Buffer :=
  if 0 < stream.length then do
    let copyLength := min (room c b.offset b.used) (u16 stream.length)
    let value ← copyTo b.value (b.offset - c.headerSize + b.used) (stream.take copyLength)
    return { b with value := value, used := u16 (b.used + copyLength) }
  else some b

def complete : Bool := c.headerSize ≤ b.offset ∧ b.offset - c.headerSize = b.length

/-- `Deserialize`; `none` where it would write behind `_value`. -/
def deserialize (stream : List UInt8) : Option (Buffer × Bool) := do
  let (b, stream) := b.loadType c stream
  let (b, stream) := b.loadLength c stream
  let (b, stream) ← b.copyValue c stream
  let b ← b.keepRest c stream
  return (b, b.complete c)

/-- `Next`.  The bytes that were kept are moved to the front of `_value` and deserialized from there;
a copy of bytes that overlap is taken to move them. -/
def next : Option (Buffer × Bool) :=
  if c.headerSize < b.offset ∧ b.offset - c.headerSize = b.length then
    if 0 < b.used then do
      let kept := (b.value.drop b.length).take b.used
      let value ← copyTo b.value 0 kept
      { b with offset := 0, used := 0, value := value }.deserialize c kept
    else some ({ b with offset := 0 }, false)
  else some (b, false)

def message : Message := ⟨b.type, b.value.take b.length⟩

/-- The loop of `ReceiveData` behind a message that is complete. -/
def reportAll : Nat → Buffer → Option (Buffer × List Message)
  | 0, _ => none
  | fuel + 1, b => do
    let (b', more) ← b.next c
    if more then
      let (b'', messages) ← reportAll fuel b'
      return (b'', b.message :: messages)
    else return (b', [b.message])

/-- `ReceiveData`, with the messages that it reports.  Every message has a byte of the chunk. -/
def receiveData (dataFrame : List UInt8) : Option (Buffer × List Message) := do
  let (b, found) ← b.deserialize c dataFrame
  if found then reportAll c (dataFrame.length + 1) b else return (b, [])

/-- The chunks of a stream, one after another. -/
def receiveAll : Buffer → List (List UInt8) → Option (Buffer × List Message)
  | b, [] => some (b, [])
  | b, chunk :: chunks => do
    let (b, messages) ← b.receiveData c chunk
    let (b, more) ← receiveAll b chunks
    return (b, messages ++ more)

end Buffer

/-! ### What is wanted -/

/-- A message on the stream. -/
def encode (m : Message) : List UInt8 :=
  Bytes.bigEndian c.typeSize m.type ++ Bytes.bigEndian c.lengthSize m.value.length ++ m.value

def encodeAll (messages : List Message) : List UInt8 := messages.flatMap c.encode

/-- Where the stream of some messages is cut between two of them, those before the cut are reported
and the receiver is as it was at the start. -/
def Reports (messages : List Message) (b : Buffer) (chunks : List (List UInt8)) : Prop :=
  ∀ done todo before after, messages = done ++ todo → chunks = before ++ after →
    before.flatten.length = (c.encodeAll done).length →
      ∃ b', b.receiveAll c before = some (b', done) ∧ b'.offset = 0 ∧ b'.used = 0

/-- What is wanted of some messages, send buffers and chunks: there is an end of the sending, and then
the messages are reported. -/
def RoundTrip (messages : List Message) (buffers : List (List UInt8)) (b : Buffer)
    (chunks : List (List UInt8)) : Prop :=
  let s := Run.after (Sender.sendData c) (Sender.new messages) buffers
  ((c.encodeAll messages).length + messages.length ≤ buffers.length → s.requests = []) ∧
    (s.requests = [] → chunks.flatten = s.sent → Reports c messages b chunks)

/-- The messages that both sides have right: a type and a length that fit a byte, a value that is not
empty and that the receiver has room for, and an end that an offset can reach. -/
structure Plain (m : Message) : Prop where
  type : m.type < 256
  some : m.value ≠ []
  short : m.value.length < 256
  reached : c.headerSize + m.value.length < 256 ^ c.lengthSize
  kept : m.value.length ≤ 2 * c.bufferSize

/-- The send buffer does not end inside a field of the current request. -/
def Sender.Whole (s : Sender) (dataFrame : List UInt8) : Prop :=
  ∀ r ∈ s.requests.head?, r.offset + dataFrame.length < c.headerSize →
    r.offset + dataFrame.length = c.typeSize

/-- There is room for a message and the bytes of the chunk that follow it. -/
def Room (m : Message) (rest : Nat) : Prop :=
  rest ≤ Buffer.room c (c.headerSize + m.value.length) 0 ∧ m.value.length + rest ≤ 2 * c.bufferSize

instance (m : Message) (rest : Nat) : Decidable (c.Room m rest) :=
  inferInstanceAs (Decidable (_ ∧ _))

/-- There is room for every message and what follows it in the chunk that it ends in. -/
def Fits (messages : List Message) : Nat → List (List UInt8) → Prop
  | _, [] => True
  | start, chunk :: chunks =>
    (∀ before m after, messages = before ++ m :: after →
      start < (c.encodeAll (before ++ [m])).length →
      (c.encodeAll (before ++ [m])).length ≤ start + chunk.length →
      c.Room m (start + chunk.length - (c.encodeAll (before ++ [m])).length)) ∧
    Fits messages (start + chunk.length) chunks

/-! ### Numbers and fields -/

section

variable {c}

theorem word_of_lt {n : Nat} (h : n < 256 ^ c.lengthSize) : c.word n = n := Nat.mod_eq_of_lt h

@[simp] theorem encode_length (m : Message) :
    (c.encode m).length = c.headerSize + m.value.length := by
  simp [encode, headerSize, Nat.add_assoc]

theorem encodeAll_append (messages messages' : List Message) :
    c.encodeAll (messages ++ messages') = c.encodeAll messages ++ c.encodeAll messages' :=
  List.flatMap_append

@[simp] theorem encodeAll_cons (m : Message) (messages : List Message) :
    c.encodeAll (m :: messages) = c.encode m ++ c.encodeAll messages := rfl

theorem fieldByte_of_lt {number index : Nat} (hfour : c.typeSize ≤ 4) (h : index < c.typeSize) :
    c.fieldByte c.typeSize number index =
      UInt8.ofNat (number >>> (8 * (c.typeSize - 1 - index))) := by
  have hshift : 8 * ((c.typeSize + 2 ^ 64 - 1 - index) % 2 ^ 64) % 2 ^ 64 =
      8 * (c.typeSize - 1 - index) := by omega
  rw [fieldByte, hshift, shiftRight, if_pos (by omega)]

/-- A field that is not resumed, in a stream with room for it. -/
theorem store_field {number start length : Nat} {stream : List UInt8} (hfour : c.typeSize ≤ 4)
    (hlength : c.typeSize ≤ length) (hroom : start + c.typeSize ≤ stream.length) :
    c.store c.typeSize number stream start length 0 =
      (Bytes.overwrite stream start (Bytes.bigEndian c.typeSize number), c.typeSize) := by
  have hbytes : (List.range c.typeSize).map (c.fieldByte c.typeSize number) =
      Bytes.bigEndian c.typeSize number := by
    rw [Bytes.bigEndian_eq_map]
    apply List.map_congr_left
    intro index hindex
    exact fieldByte_of_lt hfour (List.mem_range.mp hindex)
  rw [store, Nat.sub_zero, Nat.min_eq_left hlength]
  simp only [Bytes.foldl_set hroom, hbytes]

/-- The bytes of a field that fits one of them. -/
theorem field_byte {size number index : Nat} (hnumber : number < 256) (hindex : index < size) :
    (Bytes.bigEndian size number)[index]? =
      some (if index + 1 < size then 0 else UInt8.ofNat number) := by
  rw [Bytes.bigEndian_eq_map, List.getElem?_map, List.getElem?_range hindex, Option.map_some]
  split_ifs with h
  · have hzero : number >>> (8 * (size - 1 - index)) = 0 := by
      rw [Nat.shiftRight_eq_div_pow]
      apply Nat.div_eq_of_lt
      exact hnumber.trans_le (Nat.pow_le_pow_right (by decide : 0 < 2)
        (by omega : 8 ≤ 8 * (size - 1 - index)))
    rw [hzero]
    rfl
  · rw [show 8 * (size - 1 - index) = 0 by omega, Nat.shiftRight_zero]

theorem load_field {size number : Nat} (hfour : size ≤ 4) (hnumber : number < 256)
    (stream : List UInt8) {index : Nat} (hindex : index ≤ size)
    (h : ∀ j < stream.length, index + j < size →
      stream[j]? = (Bytes.bigEndian size number)[index + j]?) :
    c.load size 0 stream index =
      (if index < size ∧ size ≤ index + stream.length then number else 0,
        min (size - index) stream.length) := by
  induction stream generalizing index with
  | nil =>
    rw [load, List.length_nil, if_neg (by omega), Nat.min_zero]
  | cons b stream ih =>
    rw [load]
    by_cases hlt : index < size
    · have hb : b = if index + 1 < size then 0 else UInt8.ofNat number := by
        have hfirst := h 0 (by simp) (by simpa using hlt)
        rw [Nat.add_zero, field_byte hnumber hlt] at hfirst
        simpa using hfirst
      rw [if_pos hlt, shiftRight, if_pos (by omega)]
      by_cases hlast : index + 1 < size
      · have hnext := ih hlast.le fun j hj hsize => by
          have hj' := h (j + 1) (by simpa using hj) (by omega)
          rw [show index + (j + 1) = index + 1 + j by omega] at hj'
          simpa using hj'
        rw [if_pos hlast] at hb
        simp only [hb, UInt8.toNat_zero, Nat.zero_shiftRight, Nat.or_zero, hnext, List.length_cons,
          hlt, hlast, true_and]
        congr 1
        · congr 1
          simp only [eq_iff_iff]
          omega
        · omega
      · rw [if_neg hlast] at hb
        have hend : index + 1 = size := by omega
        have hbyte : b.toNat = number := by
          rw [hb, UInt8.toNat_ofNat', Nat.mod_eq_of_lt hnumber]
        have hstop (n : Nat) : c.load size n stream (index + 1) = (n, 0) := by
          cases stream with
          | nil => rfl
          | cons b' stream => rw [load, if_neg (by omega)]
        rw [show 8 * (size - 1 - index) = 0 by omega, Nat.shiftRight_zero, hbyte, Nat.zero_or,
          hstop, if_pos ⟨hlt, by simp; omega⟩]
        simp only [List.length_cons]
        congr 1
        omega
    · rw [if_neg hlt, if_neg fun hboth => hlt hboth.1, show size - index = 0 by omega, Nat.zero_min]

/-! ### What the sender writes -/

/-- A request between two calls of `Serialize`. -/
structure Request.Ready (r : Request) : Prop where
  plain : c.Plain ⟨r.type, r.value⟩
  length : r.length = r.value.length
  inside : r.offset ≤ c.headerSize + r.length
  between : r.offset < c.headerSize → r.offset = 0 ∨ r.offset = c.typeSize

/-- What is left of a request. -/
def Request.pending (r : Request) : List UInt8 := (c.encode ⟨r.type, r.value⟩).drop r.offset

/-- A call of `Serialize` has written the bytes of the request from `start` on. -/
structure Serializing.Wrote (r : Request) (stream : List UInt8) (s : Serializing) : Prop where
  size : s.stream.length = stream.length
  result : s.result ≤ stream.length
  offset : s.offset = r.offset + s.result
  bytes : s.stream.take s.result = (Request.pending (c := c) r).take s.result
  inside : s.offset ≤ c.headerSize + r.length

namespace Serializing

variable {r : Request} {stream : List UInt8} {s : Serializing}

theorem Wrote.write (h : Wrote (c := c) r stream s) (bytes : List UInt8)
    (hroom : s.result + bytes.length ≤ stream.length)
    (hinside : s.offset + bytes.length ≤ c.headerSize + r.length)
    (hbytes : bytes = ((c.encode ⟨r.type, r.value⟩).drop s.offset).take bytes.length) :
    Wrote (c := c) r stream ⟨Bytes.overwrite s.stream s.result bytes, s.result + bytes.length,
      s.offset + bytes.length⟩ := by
  have hsize := h.size
  have hresult := h.result
  refine ⟨(Bytes.length_overwrite (by omega)).trans hsize, hroom, ?_, ?_, hinside⟩
  · rw [h.offset, Nat.add_assoc]
  · simp only
    rw [Bytes.take_overwrite bytes (by omega), h.bytes, List.take_add, Request.pending,
      List.drop_drop, ← h.offset, ← hbytes]

theorem Wrote.storeType (hfour : c.typeSize ≤ 4) (hr : Request.Ready (c := c) r)
    (h : Wrote (c := c) r stream s) (hstart : s.result = 0)
    (hwhole : r.offset = 0 → c.typeSize ≤ stream.length) :
    Wrote (c := c) r stream (s.storeType c r.type) ∧ c.typeSize ≤ (s.storeType c r.type).offset ∧
      (r.offset = 0 → (s.storeType c r.type).result = c.typeSize) ∧
      (r.offset ≠ 0 → (s.storeType c r.type).result = 0) := by
  have hoffset := h.offset
  have hsize := h.size
  have hreached := hr.plain.reached
  have hpos := c.typeSize_pos
  have hbetween := hr.between
  have hheader : c.headerSize = c.typeSize + c.lengthSize := rfl
  rw [Serializing.storeType]
  by_cases hfirst : r.offset = 0
  · have hroom := hwhole hfirst
    rw [if_pos (by omega), show s.offset = 0 by omega,
      store_field hfour (by omega) (by omega)]
    have hlength : (Bytes.bigEndian c.typeSize r.type).length = c.typeSize := Bytes.length_bigEndian ..
    have hwrote := h.write (Bytes.bigEndian c.typeSize r.type) (by omega) (by omega) (by
      rw [show s.offset = 0 by omega, List.drop_zero, encode, List.append_assoc, List.take_left])
    rw [hlength, hstart, show s.offset = 0 by omega] at hwrote
    simp only [Nat.zero_add] at hwrote ⊢
    rw [word_of_lt (by omega)]
    exact ⟨hwrote, le_rfl, fun _ => trivial, fun hne => absurd hfirst hne⟩
  · rw [if_neg (by omega)]
    exact ⟨h, by omega, fun hz => absurd hz hfirst, fun _ => hstart⟩

theorem Wrote.storeLength (hsame : c.typeSize = c.lengthSize) (hfour : c.typeSize ≤ 4)
    (hr : Request.Ready (c := c) r) (h : Wrote (c := c) r stream s)
    (hwhole : s.offset < c.headerSize → s.offset = c.typeSize ∧
      (s.result = stream.length ∨ s.result + c.typeSize ≤ stream.length)) :
    Wrote (c := c) r stream (s.storeLength c r.length) ∧
      ((s.storeLength c r.length).result = stream.length ∨
        c.headerSize ≤ (s.storeLength c r.length).offset) := by
  have hsize := h.size
  have hreached := hr.plain.reached
  have hlength := hr.length
  have hheader : c.headerSize = c.typeSize + c.lengthSize := rfl
  rw [Serializing.storeLength]
  split_ifs with hif
  · obtain ⟨hoffset, hroom⟩ := hwhole hif.1
    have hfits : s.result + c.typeSize ≤ stream.length := by omega
    rw [hoffset, Nat.sub_self, ← hsame, store_field hfour (by omega) (by omega)]
    have hwrote := h.write (Bytes.bigEndian c.lengthSize r.length)
      (by rw [Bytes.length_bigEndian]; omega) (by rw [Bytes.length_bigEndian]; omega) (by
        rw [hoffset, encode, List.append_assoc, List.drop_left' (Bytes.length_bigEndian ..),
          hlength, List.take_left])
    rw [Bytes.length_bigEndian, hoffset, ← hsame] at hwrote
    simp only
    rw [word_of_lt (by omega)]
    exact ⟨hwrote, .inr (by omega)⟩
  · refine ⟨h, ?_⟩
    have hresult := h.result
    omega

theorem Wrote.copyValue (hr : Request.Ready (c := c) r) (h : Wrote (c := c) r stream s)
    (hsmall : stream.length < 65536)
    (hthere : s.result = stream.length ∨ c.headerSize ≤ s.offset) :
    Wrote (c := c) r stream (s.copyValue c r.length r.value) ∧
      (s.copyValue c r.length r.value).result =
        min stream.length (Request.pending (c := c) r).length := by
  have hsize := h.size
  have hresult := h.result
  have hoffset := h.offset
  have hinside := h.inside
  have hshort : r.value.length < 256 := hr.plain.short
  have hreached : c.headerSize + r.value.length < 256 ^ c.lengthSize := hr.plain.reached
  have hlength := hr.length
  have hpending : (Request.pending (c := c) r).length = c.headerSize + r.length - r.offset := by
    rw [Request.pending, List.length_drop, encode_length, hlength]
  rw [Serializing.copyValue]
  split_ifs with hif
  · have hmin : min (u16 (r.length - (s.offset - c.headerSize)))
      (u16 (s.stream.length - s.result)) =
        min (c.headerSize + r.length - s.offset) (stream.length - s.result) := by
      rw [u16_of_lt (by omega), u16_of_lt (by omega)]
      omega
    have hbytes : ((r.value.drop (s.offset - c.headerSize)).take
        (min (c.headerSize + r.length - s.offset) (stream.length - s.result))).length =
        min (c.headerSize + r.length - s.offset) (stream.length - s.result) := by
      rw [List.length_take, List.length_drop]
      omega
    have hwrote := h.write ((r.value.drop (s.offset - c.headerSize)).take
        (min (c.headerSize + r.length - s.offset) (stream.length - s.result)))
      (by omega) (by omega) (by
        have hfront : (Bytes.bigEndian c.typeSize r.type ++
            Bytes.bigEndian c.lengthSize r.value.length).length = c.headerSize := by
          rw [List.length_append, Bytes.length_bigEndian, Bytes.length_bigEndian]
          rfl
        rw [hbytes, encode, Chunks.drop_append_of_ge (hfront.trans_le (by omega)), hfront])
    rw [hbytes] at hwrote
    simp only [hmin]
    rw [word_of_lt (by omega)]
    exact ⟨hwrote, by omega⟩
  · exact ⟨h, by omega⟩

end Serializing

namespace Request

variable {r : Request} {stream : List UInt8}

theorem Ready.pending_length (hr : Ready (c := c) r) :
    (pending (c := c) r).length = c.headerSize + r.length - r.offset := by
  rw [pending, List.length_drop, encode_length, hr.length]

/-- `Serialize` writes what the stream has room for. -/
theorem Ready.serialize (hsame : c.typeSize = c.lengthSize) (hfour : c.typeSize ≤ 4)
    (hr : Ready (c := c) r) (hsome : 0 < stream.length) (hsmall : stream.length < 65536)
    (hwhole : r.offset + stream.length < c.headerSize → r.offset + stream.length = c.typeSize) :
    ∃ stream', r.serialize c stream = (stream', min stream.length (pending (c := c) r).length,
        { r with offset := r.offset + min stream.length (pending (c := c) r).length }) ∧
      stream'.take (min stream.length (pending (c := c) r).length) =
        (pending (c := c) r).take stream.length := by
  have hheader : c.headerSize = c.typeSize + c.lengthSize := rfl
  have hbetween := hr.between
  have hstart : Serializing.Wrote (c := c) r stream ⟨stream, 0, r.offset⟩ :=
    ⟨rfl, Nat.zero_le _, rfl, rfl, hr.inside⟩
  obtain ⟨htype, hreached, hfirst, hlater⟩ := hstart.storeType hfour hr rfl fun hz => by omega
  have hoffset := htype.offset
  obtain ⟨hlength, hthere⟩ := htype.storeLength hsame hfour hr fun hlt => by
    rcases Nat.eq_zero_or_pos r.offset with hz | hpos
    · have := hfirst hz
      omega
    · have := hlater hpos.ne'
      omega
  obtain ⟨hvalue, hresult⟩ := hlength.copyValue hr hsmall hthere
  have hend := hvalue.offset
  have hbytes := hvalue.bytes
  refine ⟨(r.serialize c stream).1, ?_, ?_⟩
  · simp only [Request.serialize, hend, hresult]
  · rw [hresult] at hbytes
    rw [Request.serialize]
    simp only
    rw [hbytes, List.take_eq_take_iff]
    omega

theorem Ready.advance (hr : Ready (c := c) r)
    (hwhole : r.offset + stream.length < c.headerSize → r.offset + stream.length = c.typeSize) :
    Ready (c := c) { r with offset := r.offset + min stream.length (pending (c := c) r).length } := by
  have hpending := hr.pending_length
  have hinside := hr.inside
  refine ⟨hr.plain, hr.length, ?_, fun hlt => ?_⟩ <;> simp only at *
  · omega
  · omega

theorem pending_advance (r : Request) (n : Nat) :
    pending (c := c) { r with offset := r.offset + n } = (pending (c := c) r).drop n := by
  rw [pending, pending, List.drop_drop]

end Request

namespace Sender

variable {messages : List Message} {s : Sender} {dataFrame : List UInt8}
    {buffers : List (List UInt8)}

/-- What the requests still have to write. -/
def pending (c : TypeLengthValueType) (s : Sender) : List UInt8 :=
  s.requests.flatMap (Request.pending (c := c))

structure Sending (c : TypeLengthValueType) (messages : List Message) (s : Sender) : Prop where
  ready : ∀ r ∈ s.requests, Request.Ready (c := c) r
  stream : s.sent ++ s.pending c = c.encodeAll messages

theorem new_sending (hplain : ∀ m ∈ messages, c.Plain m) : Sending c messages (new messages) := by
  refine ⟨fun r hr => ?_, ?_⟩
  · obtain ⟨m, hm, rfl⟩ := List.mem_map.mp hr
    exact ⟨hplain m hm, rfl, Nat.zero_le _, fun _ => .inl rfl⟩
  · rw [pending, new, List.nil_append, List.flatMap_map]
    rfl

/-- A send buffer takes the next bytes of the requests, or completes the current one. -/
theorem Sending.sendData (hsame : c.typeSize = c.lengthSize) (hfour : c.typeSize ≤ 4)
    (h : Sending c messages s) (hsome : 0 < dataFrame.length) (hsmall : dataFrame.length < 65536)
    (hwhole : s.Whole c dataFrame) :
    Sending c messages (s.sendData c dataFrame) ∧
      ((s.sendData c dataFrame).pending c).length + (s.sendData c dataFrame).requests.length ≤
        (s.pending c).length + s.requests.length - 1 := by
  obtain ⟨requests, sent⟩ := s
  cases requests with
  | nil => exact ⟨h, by simp [Sender.sendData, pending]⟩
  | cons current requests =>
    have hr := h.ready current (by simp)
    have hcurrent := hwhole current rfl
    have hrest (r) (hmem : r ∈ requests) : Request.Ready (c := c) r := h.ready r (by simp [hmem])
    have hstream := h.stream
    obtain ⟨stream, hserialize, hbytes⟩ := hr.serialize hsame hfour hsome hsmall hcurrent
    rw [Sender.sendData]
    simp only [hserialize]
    rw [pending, List.flatMap_cons] at hstream
    split_ifs with hzero
    · have hempty : Request.pending (c := c) current = [] := List.length_eq_zero_iff.mp (by omega)
      rw [hempty, List.nil_append] at hstream
      refine ⟨⟨hrest, hstream⟩, ?_⟩
      simp [pending, hempty]
    · refine ⟨⟨fun r hmem => ?_, ?_⟩, ?_⟩
      · rcases List.mem_cons.mp hmem with rfl | hmem
        · exact hr.advance hcurrent
        · exact hrest r hmem
      · simp only [pending, List.flatMap_cons, Request.pending_advance]
        rw [hbytes, ← hstream, List.append_assoc, ← List.append_assoc (List.take _ _)]
        congr 2
        conv_rhs => rw [← List.take_append_drop dataFrame.length (Request.pending (c := c) current)]
        congr 1
        rcases Nat.le_total dataFrame.length (Request.pending (c := c) current).length with hle | hle
        · rw [Nat.min_eq_left hle]
        · rw [Nat.min_eq_right hle, List.drop_length, List.drop_of_length_le hle]
      · simp only [pending, List.flatMap_cons, Request.pending_advance, List.length_append,
          List.length_drop, List.length_cons]
        omega

theorem Sending.run (hsame : c.typeSize = c.lengthSize) (hfour : c.typeSize ≤ 4)
    (h : Sending c messages s)
    (hsizes : ∀ dataFrame ∈ buffers, 0 < dataFrame.length ∧ dataFrame.length < 65536)
    (hwhole : Run.Meets (Sender.sendData c) (Sender.Whole c) s buffers) :
    Sending c messages (Run.after (Sender.sendData c) s buffers) ∧
      ((Run.after (Sender.sendData c) s buffers).pending c).length +
          (Run.after (Sender.sendData c) s buffers).requests.length ≤
        (s.pending c).length + s.requests.length - buffers.length := by
  induction buffers generalizing s with
  | nil => exact ⟨h, le_rfl⟩
  | cons dataFrame buffers ih =>
    obtain ⟨hsome, hsmall⟩ := hsizes dataFrame (by simp)
    obtain ⟨hnext, hless⟩ := h.sendData hsame hfour hsome hsmall hwhole.1
    obtain ⟨hlast, hleft⟩ := ih hnext (fun b hb => hsizes b (by simp [hb])) hwhole.2
    refine ⟨hlast, hleft.trans ?_⟩
    rw [List.length_cons]
    omega

end Sender

/-! ### What the receiver reads -/

namespace Buffer

variable {m : Message} {later rest kept : List UInt8} {b b' : Buffer}

/-- The buffer has read the bytes of a message up to its offset. -/
structure Has (c : TypeLengthValueType) (m : Message) (b : Buffer) : Prop where
  size : b.value.length = 2 * c.bufferSize
  inside : b.offset ≤ c.headerSize + m.value.length
  used : b.used = 0
  type : 0 < b.offset → b.type = if b.offset < c.typeSize then 0 else m.type
  length : c.typeSize < b.offset → b.length = if b.offset < c.headerSize then 0 else m.value.length
  value : b.value.take (b.offset - c.headerSize) = m.value.take (b.offset - c.headerSize)

/-- What follows in the stream is the rest of the message and `later`. -/
def Follows (c : TypeLengthValueType) (m : Message) (later : List UInt8) (b : Buffer)
    (rest : List UInt8) : Prop :=
  rest <+: (c.encode m ++ later).drop b.offset

theorem Follows.drop (h : Follows c m later b rest) (n : Nat) (hoffset : b'.offset = b.offset + n) :
    Follows c m later b' (rest.drop n) := by
  rw [Follows, hoffset, ← List.drop_drop]
  exact List.IsPrefix.drop h n

theorem Follows.getElem? (h : Follows c m later b rest) {j : Nat} (hj : j < rest.length) :
    rest[j]? = (c.encode m ++ later)[b.offset + j]? := by
  obtain ⟨more, hmore⟩ := h
  rw [← List.getElem?_drop, ← hmore, List.getElem?_append_left hj]

theorem Has.loadType (hplain : c.Plain m) (hfour : c.typeSize ≤ 4) (h : Has c m b)
    (hnext : Follows c m later b rest) :
    ∃ n b', b.loadType c rest = (b', rest.drop n) ∧ n ≤ rest.length ∧ b'.offset = b.offset + n ∧
      Has c m b' ∧
      (n = rest.length ∨ c.typeSize ≤ b.offset + n) := by
  have hinside := h.inside
  have hreached := hplain.reached
  have hheader : c.headerSize = c.typeSize + c.lengthSize := rfl
  rw [Buffer.loadType]
  by_cases hlt : b.offset < c.typeSize
  · have hload := load_field (c := c) hfour hplain.type rest hlt.le
      fun j hj hsize => by
        rw [hnext.getElem? hj, encode, List.append_assoc, List.append_assoc,
          List.getElem?_append_left]
        rwa [Bytes.length_bigEndian]
    have hstart : (if 0 < b.offset then b.type else 0) = 0 := by
      split_ifs with hpos
      · rw [h.type hpos, if_pos hlt]
      · rfl
    rw [if_pos hlt, hstart, hload]
    simp only
    have hoffset : c.word (b.offset + min (c.typeSize - b.offset) rest.length) =
        b.offset + min (c.typeSize - b.offset) rest.length := word_of_lt (by omega)
    refine ⟨min (c.typeSize - b.offset) rest.length, _, rfl, Nat.min_le_right .., hoffset,
      ⟨h.size, ?_, h.used, fun _ => ?_, fun hlater => ?_, ?_⟩, by omega⟩
    · simp only [hoffset]
      omega
    · simp only [hoffset]
      split_ifs <;> first | rfl | omega
    · simp only [hoffset] at hlater
      omega
    · simp only [hoffset, show b.offset + min (c.typeSize - b.offset) rest.length - c.headerSize = 0 by omega,
        List.take_zero]
  · rw [if_neg hlt]
    exact ⟨0, b, rfl, Nat.zero_le _, rfl, h, .inr (by omega)⟩

theorem Has.loadLength (hplain : c.Plain m) (hsame : c.typeSize = c.lengthSize)
    (hfour : c.typeSize ≤ 4)
    (h : Has c m b) (hnext : Follows c m later b rest)
    (hthere : rest = [] ∨ c.typeSize ≤ b.offset) :
    ∃ n b', b.loadLength c rest = (b', rest.drop n) ∧ n ≤ rest.length ∧ b'.offset = b.offset + n ∧
      Has c m b' ∧
      (n = rest.length ∨ c.headerSize ≤ b.offset + n) := by
  have hinside := h.inside
  have hreached := hplain.reached
  have hheader : c.headerSize = c.typeSize + c.lengthSize := rfl
  rw [Buffer.loadLength]
  by_cases hlt : b.offset < c.headerSize ∧ 0 < rest.length
  · have htype : c.typeSize ≤ b.offset := hthere.resolve_left (List.ne_nil_of_length_pos hlt.2)
    have hload := load_field (c := c) (hsame ▸ hfour) hplain.short rest
      (by omega : b.offset - c.typeSize ≤ c.lengthSize) fun j hj hsize => by
        rw [hnext.getElem? hj, encode, List.append_assoc, List.append_assoc,
          List.getElem?_append_right, Bytes.length_bigEndian, List.getElem?_append_left]
        · congr 1
          omega
        · rw [Bytes.length_bigEndian]
          omega
        · rw [Bytes.length_bigEndian]
          omega
    have hstart : (if c.typeSize < b.offset then b.length else 0) = 0 := by
      split_ifs with hpos
      · rw [h.length hpos, if_pos hlt.1]
      · rfl
    rw [if_pos hlt, hstart, hload]
    simp only
    have hoffset : c.word (b.offset + min (c.lengthSize - (b.offset - c.typeSize)) rest.length) =
        b.offset + min (c.lengthSize - (b.offset - c.typeSize)) rest.length := word_of_lt (by omega)
    have hpos := c.typeSize_pos
    refine ⟨min (c.lengthSize - (b.offset - c.typeSize)) rest.length, _, rfl, Nat.min_le_right ..,
      hoffset, ⟨h.size, ?_, h.used, fun _ => ?_, fun _ => ?_, ?_⟩, by omega⟩
    · simp only [hoffset]
      omega
    · simp only [hoffset]
      rw [h.type (by omega), if_neg (by omega), if_neg (by omega)]
    · simp only [hoffset]
      split_ifs <;> first | rfl | omega
    · simp only [hoffset, show b.offset + min (c.lengthSize - (b.offset - c.typeSize)) rest.length -
        c.headerSize = 0 by omega, List.take_zero]
  · rw [if_neg hlt]
    exact ⟨0, b, rfl, Nat.zero_le _, rfl, h, by omega⟩

theorem copyTo_of_le {value bytes : List UInt8} {start : Nat}
    (h : start + bytes.length ≤ value.length) :
    copyTo value start bytes = some (Bytes.overwrite value start bytes) := if_pos h

theorem Has.copyValue (hplain : c.Plain m) (h : Has c m b) (hnext : Follows c m later b rest)
    (hthere : rest = [] ∨ c.headerSize ≤ b.offset)
    (hsmall : rest.length < 65536) :
    ∃ n b', b.copyValue c rest = some (b', rest.drop n) ∧ n ≤ rest.length ∧
      b'.offset = b.offset + n ∧ Has c m b' ∧
      (n = rest.length ∨ b.offset + n = c.headerSize + m.value.length) := by
  have hinside := h.inside
  have hreached := hplain.reached
  have hshort := hplain.short
  have hkept := hplain.kept
  have hpos : 0 < m.value.length := List.length_pos_iff.mpr hplain.some
  have htypePos := c.typeSize_pos
  have hlengthPos := c.lengthSize_pos
  have hheader : c.headerSize = c.typeSize + c.lengthSize := rfl
  rw [Buffer.copyValue]
  by_cases hlt : 0 < rest.length
  · have hhead : c.headerSize ≤ b.offset := hthere.resolve_left (List.ne_nil_of_length_pos hlt)
    have hlength : b.length = m.value.length := by
      rw [h.length (by omega), if_neg (by omega)]
    have hcopy : min (u16 (b.length - (b.offset - c.headerSize))) (u16 rest.length) =
        min (c.headerSize + m.value.length - b.offset) rest.length := by
      rw [hlength, u16_of_lt (by omega), u16_of_lt hsmall]
      omega
    have hbytes : rest.take (min (c.headerSize + m.value.length - b.offset) rest.length) =
        (m.value.drop (b.offset - c.headerSize)).take
          (min (c.headerSize + m.value.length - b.offset) rest.length) := by
      have hfront : (Bytes.bigEndian c.typeSize m.type ++
          Bytes.bigEndian c.lengthSize m.value.length).length = c.headerSize := by
        rw [List.length_append, Bytes.length_bigEndian, Bytes.length_bigEndian]
        rfl
      have hstart : rest.take (min (c.headerSize + m.value.length - b.offset) rest.length) =
          ((c.encode m ++ later).drop b.offset).take
            (min (c.headerSize + m.value.length - b.offset) rest.length) := by
        obtain ⟨more, hmore⟩ := hnext
        rw [← hmore, List.take_append_of_le_length (Nat.min_le_right ..)]
      rw [hstart, encode, List.append_assoc, Chunks.drop_append_of_ge (hfront.trans_le hhead),
        hfront, List.drop_append_of_le_length (by omega), List.take_append_of_le_length]
      rw [List.length_drop]
      omega
    have hcount : ((m.value.drop (b.offset - c.headerSize)).take
        (min (c.headerSize + m.value.length - b.offset) rest.length)).length =
        min (c.headerSize + m.value.length - b.offset) rest.length := by
      rw [List.length_take, List.length_drop]
      omega
    have hoffset : c.word (b.offset + min (c.headerSize + m.value.length - b.offset) rest.length) =
        b.offset + min (c.headerSize + m.value.length - b.offset) rest.length :=
      word_of_lt (by omega)
    have hsize := h.size
    rw [if_pos hlt, hcopy]
    simp only
    rw [hbytes, copyTo_of_le (by omega)]
    refine ⟨_, _, rfl, Nat.min_le_right .., hoffset,
      ⟨(Bytes.length_overwrite (by omega)).trans hsize, ?_, h.used, fun _ => ?_, fun _ => ?_, ?_⟩,
        by omega⟩
    · simp only [hoffset]
      omega
    · simp only [hoffset]
      rw [h.type (by omega), if_neg (by omega), if_neg (by omega)]
    · simp only [hoffset]
      rw [if_neg (by omega), hlength]
    · simp only [hoffset]
      have htake := Bytes.take_overwrite ((m.value.drop (b.offset - c.headerSize)).take
          (min (c.headerSize + m.value.length - b.offset) rest.length))
        (by omega : b.offset - c.headerSize ≤ b.value.length)
      rw [hcount] at htake
      rw [show b.offset + min (c.headerSize + m.value.length - b.offset) rest.length - c.headerSize =
        b.offset - c.headerSize + min (c.headerSize + m.value.length - b.offset) rest.length by omega,
        htake, h.value, List.take_add]
  · rw [if_neg hlt]
    exact ⟨0, b, rfl, Nat.zero_le _, rfl, h, by omega⟩

theorem Has.deserialize (hplain : c.Plain m) (hsame : c.typeSize = c.lengthSize)
    (hfour : c.typeSize ≤ 4)
    (h : Has c m b) (hfollows : Follows c m later b rest)
    (hsmall : rest.length < 65536) :
    ∃ b' n, b.deserialize c rest = (b'.keepRest c (rest.drop n)).map (fun b => (b, b.complete c)) ∧
      Has c m b' ∧ n ≤ rest.length ∧ b'.offset = b.offset + n ∧
      (n = rest.length ∨ b'.offset = c.headerSize + m.value.length) := by
  obtain ⟨n₁, b₁, heq₁, hle₁, hoffset₁, h₁, hend₁⟩ := h.loadType hplain hfour hfollows
  have hfollows₁ := hfollows.drop n₁ hoffset₁
  obtain ⟨n₂, b₂, heq₂, hle₂, hoffset₂, h₂, hend₂⟩ := h₁.loadLength hplain hsame hfour hfollows₁ (by
    rcases hend₁ with rfl | hle
    · exact .inl (List.drop_length ..)
    · exact .inr (hoffset₁ ▸ hle))
  have hfollows₂ := hfollows₁.drop n₂ hoffset₂
  rw [List.drop_drop] at heq₂ hfollows₂
  rw [List.length_drop] at hle₂ hend₂
  obtain ⟨n₃, b', heq₃, hle₃, hoffset₃, h₃, hend₃⟩ := h₂.copyValue hplain hfollows₂ (by
    rcases hend₂ with rfl | hle
    · exact .inl (List.drop_of_length_le (by omega))
    · exact .inr (hoffset₂ ▸ hle)) (by rw [List.length_drop]; omega)
  rw [List.drop_drop] at heq₃
  rw [List.length_drop] at hle₃ hend₃
  refine ⟨b', n₁ + n₂ + n₃, ?_, h₃, by omega, by omega, by omega⟩
  rw [Buffer.deserialize, heq₁]
  simp only [heq₂, heq₃, Option.bind_eq_bind, Option.bind_some]
  cases b'.keepRest c (rest.drop (n₁ + n₂ + n₃)) <;> simp

/-- The buffer has a message, and behind it the bytes that it has kept. -/
structure Complete (c : TypeLengthValueType) (m : Message) (kept : List UInt8) (b : Buffer) :
    Prop where
  size : b.value.length = 2 * c.bufferSize
  offset : b.offset = c.headerSize + m.value.length
  type : b.type = m.type
  length : b.length = m.value.length
  value : b.value.take m.value.length = m.value
  used : b.used = kept.length
  kept : (b.value.drop m.value.length).take kept.length = kept

theorem Complete.message (h : Complete c m kept b) : b.message = m := by
  ext1
  · exact h.type
  · show b.value.take b.length = m.value
    rw [h.length, h.value]

theorem Complete.complete (h : Complete c m kept b) : b.complete c = true := by
  rw [Buffer.complete, h.offset, h.length]
  simp

theorem Has.complete (hplain : c.Plain m) (h : Has c m b)
    (hend : b.offset = c.headerSize + m.value.length) :
    Complete c m [] b := by
  have hpos : 0 < m.value.length := List.length_pos_iff.mpr hplain.some
  have hheader : c.headerSize = c.typeSize + c.lengthSize := rfl
  have hvalue := h.value
  refine ⟨h.size, hend, ?_, ?_, ?_, h.used, rfl⟩
  · rw [h.type (by omega), if_neg (by omega)]
  · rw [h.length (by omega), if_neg (by omega)]
  · rwa [hend, Nat.add_sub_cancel_left, List.take_length] at hvalue

theorem Complete.keepRest (h : Complete c m [] b) (rest : List UInt8) (hsmall : rest.length < 65536)
    (hroom : c.Room m rest.length) :
    ∃ b', b.keepRest c rest = some b' ∧ Complete c m rest b' := by
  have hsize := h.size
  have hused : b.used = 0 := h.used
  rw [Buffer.keepRest]
  by_cases hlt : 0 < rest.length
  · obtain ⟨hle, hfits⟩ := hroom
    rw [if_pos hlt, hused, h.offset, u16_of_lt hsmall, Nat.min_eq_right hle]
    simp only
    rw [List.take_length, Nat.add_zero, Nat.add_sub_cancel_left, copyTo_of_le (by omega),
      Nat.zero_add, u16_of_lt hsmall]
    have htake := Bytes.take_overwrite rest (by omega : m.value.length ≤ b.value.length)
    refine ⟨_, rfl, (Bytes.length_overwrite (by omega)).trans hsize, rfl, h.type, h.length, ?_, rfl,
      ?_⟩
    · have hfront := congrArg (List.take m.value.length) htake
      rw [List.take_take, Nat.min_eq_left (Nat.le_add_right ..), h.value, List.take_left] at hfront
      exact hfront
    · have hback := congrArg (List.drop m.value.length) htake
      rwa [List.drop_take, Nat.add_sub_cancel_left, h.value, List.drop_left] at hback
  · obtain rfl : rest = [] := List.length_eq_zero_iff.mp (by omega)
    exact ⟨b, rfl, h⟩

/-- A chunk that ends before the message does. -/
theorem Has.part (hplain : c.Plain m) (hsame : c.typeSize = c.lengthSize) (hfour : c.typeSize ≤ 4)
    (h : Has c m b) (hfollows : Follows c m later b rest)
    (hsmall : rest.length < 65536) (hend : b.offset + rest.length < c.headerSize + m.value.length) :
    ∃ b', b.deserialize c rest = some (b', false) ∧ Has c m b' ∧ b'.offset = b.offset + rest.length := by
  obtain ⟨b', n, heq, h', hle, hoffset, hstop⟩ :=
    h.deserialize hplain hsame hfour hfollows hsmall
  obtain rfl : n = rest.length := by omega
  have hheader : c.headerSize = c.typeSize + c.lengthSize := rfl
  have hpos := c.lengthSize_pos
  have hnot : b'.complete c = false := by
    rw [Buffer.complete, decide_eq_false_iff_not]
    rintro ⟨hhead, hlength⟩
    rw [h'.length (by omega), if_neg (by omega)] at hlength
    omega
  refine ⟨b', ?_, h', hoffset⟩
  rw [heq, List.drop_length, Buffer.keepRest, List.length_nil, if_neg (Nat.lt_irrefl 0),
    Option.map_some, hnot]

/-- A chunk that has the end of the message. -/
theorem Has.whole (hplain : c.Plain m) (hsame : c.typeSize = c.lengthSize) (hfour : c.typeSize ≤ 4)
    (h : Has c m b) (hfollows : Follows c m later b rest) (hsmall : rest.length < 65536)
    (hend : c.headerSize + m.value.length ≤ b.offset + rest.length)
    (hroom : c.Room m (b.offset + rest.length - (c.headerSize + m.value.length))) :
    ∃ b', b.deserialize c rest = some (b', true) ∧
      Complete c m (rest.drop (c.headerSize + m.value.length - b.offset)) b' := by
  have hinside := h.inside
  have hfits := hroom.2
  obtain ⟨b', n, heq, h', hle, hoffset, hstop⟩ :=
    h.deserialize hplain hsame hfour hfollows hsmall
  have hinside' := h'.inside
  obtain rfl : n = c.headerSize + m.value.length - b.offset := by omega
  obtain ⟨b'', hkeep, hcomplete⟩ := (h'.complete hplain (by omega)).keepRest
    (rest.drop (c.headerSize + m.value.length - b.offset)) (by rw [List.length_drop]; omega) (by
      rw [List.length_drop]
      rwa [show rest.length - (c.headerSize + m.value.length - b.offset) =
        b.offset + rest.length - (c.headerSize + m.value.length) by omega])
  refine ⟨b'', ?_, hcomplete⟩
  rw [heq, hkeep, Option.map_some, hcomplete.complete]

theorem Complete.next_nil (hplain : c.Plain m) (h : Complete c m [] b) :
    b.next c = some ({ b with offset := 0 }, false) := by
  have hpos : 0 < m.value.length := List.length_pos_iff.mpr hplain.some
  have hoffset := h.offset
  have hlength := h.length
  have hused : b.used = 0 := h.used
  rw [Buffer.next, if_pos (by omega), if_neg (by omega)]

theorem Complete.next (hplain : c.Plain m) (hroom : c.Room m kept.length) (h : Complete c m kept b)
    (hsome : kept ≠ []) :
    ∃ b', b.next c = b'.deserialize c kept ∧ b'.offset = 0 ∧ ∀ m', Has c m' b' := by
  have hpos : 0 < m.value.length := List.length_pos_iff.mpr hplain.some
  have hkeptPos : 0 < kept.length := List.length_pos_iff.mpr hsome
  have hoffset := h.offset
  have hlength := h.length
  have hused := h.used
  have hsize := h.size
  have hfits := hroom.2
  rw [Buffer.next, if_pos (by omega), if_pos (by omega)]
  simp only
  rw [hlength, hused, h.kept, copyTo_of_le (by omega)]
  refine ⟨_, rfl, rfl, fun m' => ⟨(Bytes.length_overwrite (by omega)).trans hsize, Nat.zero_le _,
    rfl, fun hlt => absurd hlt (Nat.lt_irrefl 0), fun hlt => absurd hlt (Nat.not_lt_zero _), ?_⟩⟩
  simp

/-- Between two chunks, with these messages still to come or begun. -/
structure Between (c : TypeLengthValueType) (todo : List Message) (b : Buffer) : Prop where
  size : b.value.length = 2 * c.bufferSize
  used : b.used = 0
  fresh : todo = [] → b.offset = 0
  begun : ∀ m todo', todo = m :: todo' → Has c m b ∧ b.offset < c.headerSize + m.value.length

theorem between_of_offset (todo : List Message) (hsize : b.value.length = 2 * c.bufferSize)
    (hused : b.used = 0) (hoffset : b.offset = 0) : Between c todo b := by
  refine ⟨hsize, hused, fun _ => hoffset, fun m todo' _ => ?_⟩
  have hpos := c.typeSize_pos
  have hheader : c.headerSize = c.typeSize + c.lengthSize := rfl
  refine ⟨⟨hsize, by omega, hused, fun hlt => ?_, fun hlt => ?_, ?_⟩, by omega⟩
  · omega
  · omega
  · simp [hoffset]

theorem Has.between {todo : List Message} (h : Has c m b)
    (hlt : b.offset < c.headerSize + m.value.length) : Between c (m :: todo) b := by
  refine ⟨h.size, h.used, nofun, fun m' todo' heq => ?_⟩
  obtain ⟨rfl, rfl⟩ := List.cons_eq_cons.mp heq
  exact ⟨h, hlt⟩

/-- There is room for every message in these bytes and what follows it there. -/
def FitsIn (c : TypeLengthValueType) (todo : List Message) (start stop : Nat) : Prop :=
  ∀ before m after, todo = before ++ m :: after → start < (c.encodeAll (before ++ [m])).length →
    (c.encodeAll (before ++ [m])).length ≤ stop →
      c.Room m (stop - (c.encodeAll (before ++ [m])).length)

theorem FitsIn.tail {todo : List Message} {stop : Nat} (h : FitsIn c (m :: todo) 0 stop) :
    FitsIn c todo 0 (stop - (c.headerSize + m.value.length)) := by
  intro before m' after heq hstart hstop
  have hroom := h (m :: before) m' after (by rw [heq]; rfl)
  simp only [List.cons_append, encodeAll_cons, List.length_append, encode_length] at hroom
  have hroom' := hroom (by omega) (by omega)
  rwa [← Nat.sub_sub] at hroom'

/-- The loop of `ReceiveData`, by induction on the messages to come. -/
theorem Complete.reportAll (hsame : c.typeSize = c.lengthSize) (hfour : c.typeSize ≤ 4)
    {todo : List Message} {fuel : Nat} (hplain : ∀ m' ∈ m :: todo, c.Plain m')
    (h : Complete c m kept b)
    (hroom : c.Room m kept.length) (hstream : kept <+: c.encodeAll todo)
    (hsmall : kept.length < 65536)
    (hfits : FitsIn c todo 0 kept.length) (hfuel : kept.length < fuel) :
    ∃ b' done todo', todo = done ++ todo' ∧ b.reportAll c fuel = some (b', m :: done) ∧
      Between c todo' b' ∧ (c.encodeAll done).length + b'.offset = kept.length := by
  induction todo generalizing m b kept fuel with
  | nil =>
    obtain rfl : kept = [] := List.prefix_nil.mp hstream
    obtain ⟨fuel, rfl⟩ := Nat.exists_eq_succ_of_ne_zero hfuel.ne_bot
    refine ⟨{ b with offset := 0 }, [], [], rfl, ?_, between_of_offset _ h.size h.used rfl, rfl⟩
    rw [Buffer.reportAll, h.next_nil (hplain m (by simp))]
    simp [h.message]
  | cons m' todo ih =>
    obtain ⟨fuel, rfl⟩ := Nat.exists_eq_succ_of_ne_zero hfuel.ne_bot
    by_cases hsome : kept = []
    · subst hsome
      refine ⟨{ b with offset := 0 }, [], m' :: todo, rfl, ?_,
        between_of_offset _ h.size h.used rfl, rfl⟩
      rw [Buffer.reportAll, h.next_nil (hplain m (by simp))]
      simp [h.message]
    have hplain' := hplain m' (by simp)
    obtain ⟨b₁, hnext, hzero, hhas⟩ := h.next (hplain m (by simp)) hroom hsome
    have hfollows : Follows c m' (c.encodeAll todo) b₁ kept := by
      rw [Follows, hzero, List.drop_zero]
      exact hstream
    rcases Nat.lt_or_ge kept.length (c.headerSize + m'.value.length) with hlt | hge
    · obtain ⟨b', hpart, hhas', hoffset⟩ :=
        (hhas m').part hplain' hsame hfour hfollows hsmall (by omega)
      refine ⟨b', [], m' :: todo, rfl, ?_, hhas'.between (by omega),
        by simp [encodeAll, hoffset, hzero]⟩
      rw [Buffer.reportAll, hnext, hpart]
      simp [h.message]
    · have hroom' : c.Room m' (kept.length - (c.headerSize + m'.value.length)) := by
        have hfirst := hfits [] m' todo rfl
        simp only [List.nil_append, encodeAll, List.flatMap_singleton, encode_length] at hfirst
        have hheader : c.headerSize = c.typeSize + c.lengthSize := rfl
        have hpos := c.typeSize_pos
        exact hfirst (by omega) hge
      obtain ⟨b₂, hwhole, hcomplete⟩ := (hhas m').whole hplain' hsame hfour hfollows hsmall
        (by omega)
        (by rwa [hzero, Nat.zero_add])
      have hleft : (kept.drop (c.headerSize + m'.value.length - b₁.offset)).length =
          kept.length - (c.headerSize + m'.value.length) := by
        rw [List.length_drop, hzero, Nat.sub_zero]
      have hrest : kept.drop (c.headerSize + m'.value.length - b₁.offset) <+: c.encodeAll todo := by
        have hdrop := List.IsPrefix.drop hstream (c.encode m').length
        rwa [encodeAll_cons, List.drop_left, encode_length, ← Nat.sub_zero (_ + _),
          ← hzero] at hdrop
      have hheader : c.headerSize = c.typeSize + c.lengthSize := rfl
      have hpos := c.typeSize_pos
      obtain ⟨b', done, todo', rfl, hreport, hbetween, hcount⟩ := ih
        (fun m'' hmem => hplain m'' (by simp only [List.mem_cons] at hmem ⊢; exact .inr hmem)) hcomplete
        (by rwa [hleft]) hrest (by omega) (by rw [hleft]; exact hfits.tail)
        (by omega : _ < fuel)
      refine ⟨b', m' :: done, todo', rfl, ?_, hbetween, ?_⟩
      · rw [Buffer.reportAll, hnext, hwhole]
        simp [h.message, hreport]
      · rw [encodeAll_cons, List.length_append, encode_length]
        omega

theorem deserialize_nil (hoffset : b.offset = 0) :
    b.deserialize c [] = some ({ b with type := 0, offset := 0 }, false) := by
  have hpos := c.typeSize_pos
  have hnot : Buffer.complete c { b with type := 0, offset := 0 } = false := by
    rw [Buffer.complete, decide_eq_false_iff_not]
    rintro ⟨hle, -⟩
    have hheader : c.headerSize = c.typeSize + c.lengthSize := rfl
    have hzero : c.headerSize ≤ 0 := hle
    omega
  have htype : b.loadType c [] = ({ b with type := 0, offset := 0 }, []) := by
    rw [Buffer.loadType, if_pos (by omega), if_neg (by omega), load, hoffset]
    simp [word]
  have hlength : Buffer.loadLength c { b with type := 0, offset := 0 } [] =
      ({ b with type := 0, offset := 0 }, []) := if_neg (by simp)
  rw [Buffer.deserialize, htype]
  simp only [hlength, Buffer.copyValue, Buffer.keepRest, List.length_nil, Nat.lt_irrefl, if_false,
    Option.bind_eq_bind, Option.bind_some, hnot]
  rfl

theorem Between.receiveData (hsame : c.typeSize = c.lengthSize) (hfour : c.typeSize ≤ 4)
    {todo : List Message} {chunk : List UInt8} (hplain : ∀ m ∈ todo, c.Plain m)
    (h : Between c todo b)
    (hstream : chunk <+: (c.encodeAll todo).drop b.offset) (hsmall : chunk.length < 65536)
    (hfits : FitsIn c todo b.offset (b.offset + chunk.length)) :
    ∃ b' done todo', todo = done ++ todo' ∧ b.receiveData c chunk = some (b', done) ∧
      Between c todo' b' ∧ (c.encodeAll done).length + b'.offset = b.offset + chunk.length := by
  cases todo with
  | nil =>
    have hoffset := h.fresh rfl
    rw [hoffset] at hstream
    obtain rfl : chunk = [] := List.prefix_nil.mp hstream
    refine ⟨{ b with type := 0, offset := 0 }, [], [], rfl, ?_,
      between_of_offset _ h.size h.used rfl, by simp [encodeAll, hoffset]⟩
    rw [Buffer.receiveData, deserialize_nil hoffset]
    rfl
  | cons m todo =>
    obtain ⟨hhas, hinside⟩ := h.begun m todo rfl
    have hplain' := hplain m (by simp)
    have hfollows : Follows c m (c.encodeAll todo) b chunk := hstream
    rcases Nat.lt_or_ge (b.offset + chunk.length) (c.headerSize + m.value.length) with hlt | hge
    · obtain ⟨b', hpart, hhas', hoffset⟩ := hhas.part hplain' hsame hfour hfollows hsmall hlt
      refine ⟨b', [], m :: todo, rfl, ?_, hhas'.between (by omega), by simp [encodeAll, hoffset]⟩
      rw [Buffer.receiveData, hpart]
      rfl
    · have hroom : c.Room m (b.offset + chunk.length - (c.headerSize + m.value.length)) := by
        have hfirst := hfits [] m todo rfl
        simp only [List.nil_append, encodeAll, List.flatMap_singleton, encode_length] at hfirst
        exact hfirst hinside hge
      obtain ⟨b₁, hwhole, hcomplete⟩ := hhas.whole hplain' hsame hfour hfollows hsmall hge hroom
      have hleft : (chunk.drop (c.headerSize + m.value.length - b.offset)).length =
          b.offset + chunk.length - (c.headerSize + m.value.length) := by
        rw [List.length_drop]
        omega
      have hrest : chunk.drop (c.headerSize + m.value.length - b.offset) <+: c.encodeAll todo := by
        have hdrop := List.IsPrefix.drop hstream (c.headerSize + m.value.length - b.offset)
        rw [List.drop_drop, Nat.add_sub_cancel' hinside.le, encodeAll_cons, ← encode_length,
          List.drop_left, encode_length] at hdrop
        exact hdrop
      have hfits' : FitsIn c todo 0 (b.offset + chunk.length -
        (c.headerSize + m.value.length)) := by
        intro before m' after heq _ hstop
        have hroom' := hfits (m :: before) m' after (by rw [heq]; rfl)
        simp only [List.cons_append, encodeAll_cons, List.length_append, encode_length] at hroom'
        rw [Nat.sub_sub]
        exact hroom' (by omega) (by omega)
      obtain ⟨b', done, todo', rfl, hreport, hbetween, hcount⟩ := hcomplete.reportAll hsame hfour
        hplain (by rwa [hleft]) hrest (by omega) (by rwa [hleft]) (by omega : _ < chunk.length + 1)
      refine ⟨b', m :: done, todo', rfl, ?_, hbetween, ?_⟩
      · rw [Buffer.receiveData, hwhole]
        simp [hreport]
      · rw [encodeAll_cons, List.length_append, encode_length]
        omega

theorem Between.receiveAll (hsame : c.typeSize = c.lengthSize) (hfour : c.typeSize ≤ 4)
    {messages done todo : List Message} (chunks : List (List UInt8))
    (hplain : ∀ m ∈ messages, c.Plain m)
    (heq : messages = done ++ todo) (h : Between c todo b)
    (hstream : chunks.flatten <+: (c.encodeAll todo).drop b.offset)
    (hsmall : ∀ chunk ∈ chunks, chunk.length < 65536)
    (hfits : c.Fits messages ((c.encodeAll done).length + b.offset) chunks) :
    ∃ b' now todo', todo = now ++ todo' ∧ b.receiveAll c chunks = some (b', now) ∧
      Between c todo' b' ∧ (c.encodeAll now).length + b'.offset = b.offset + chunks.flatten.length := by
  induction chunks generalizing done todo b with
  | nil => exact ⟨b, [], todo, rfl, rfl, h, by simp [encodeAll]⟩
  | cons chunk chunks ih =>
    rw [List.flatten_cons] at hstream
    have hchunk : FitsIn c todo b.offset (b.offset + chunk.length) := by
      intro before m after htodo hstart hstop
      have hroom := hfits.1 (done ++ before) m after (by rw [heq, htodo, List.append_assoc])
      rw [List.append_assoc, encodeAll_append, List.length_append] at hroom
      have hroom' := hroom (by omega) (by omega)
      rwa [Nat.add_assoc, Nat.add_sub_add_left] at hroom'
    obtain ⟨b₁, now, todo₁, rfl, hreceive, h₁, hcount⟩ := h.receiveData hsame hfour
      (fun m hm => hplain m (by rw [heq]; exact List.mem_append_right _ hm))
      ((List.prefix_append ..).trans hstream) (hsmall chunk (by simp)) hchunk
    have hrest : chunks.flatten <+: (c.encodeAll todo₁).drop b₁.offset := by
      have hdrop := List.IsPrefix.drop hstream chunk.length
      rwa [List.drop_left, List.drop_drop, ← hcount, encodeAll_append, ← List.drop_drop,
        List.drop_left] at hdrop
    have hlater := hfits.2
    rw [show (c.encodeAll done).length + b.offset + chunk.length =
      (c.encodeAll (done ++ now)).length + b₁.offset by
        rw [encodeAll_append, List.length_append]
        omega] at hlater
    obtain ⟨b₂, more, todo₂, rfl, hreceiveAll, h₂, hcount₂⟩ :=
      ih (by rw [heq, List.append_assoc]) h₁ hrest
      (fun chunk' hmem => hsmall chunk' (by simp [hmem])) hlater
    refine ⟨b₂, now ++ more, todo₂, (List.append_assoc ..).symm, ?_, h₂, ?_⟩
    · rw [Buffer.receiveAll, hreceive]
      simp [hreceiveAll]
    · rw [encodeAll_append, List.length_append, List.flatten_cons, List.length_append]
      omega

end Buffer

theorem Fits.left {messages : List Message} {before after : List (List UInt8)} {start : Nat}
    (h : c.Fits messages start (before ++ after)) : c.Fits messages start before := by
  induction before generalizing start with
  | nil => trivial
  | cons chunk before ih => exact ⟨h.1, ih h.2⟩

theorem encode_pos (m : Message) : 0 < (c.encode m).length := by
  have hpos := c.typeSize_pos
  have hheader : c.headerSize = c.typeSize + c.lengthSize := rfl
  rw [encode_length]
  omega

theorem reports_of_fits (hsame : c.typeSize = c.lengthSize) (hfour : c.typeSize ≤ 4)
    {messages : List Message} {b : Buffer} {chunks : List (List UInt8)}
    (hplain : ∀ m ∈ messages, c.Plain m)
    (hstart : b.value.length = 2 * c.bufferSize ∧ b.used = 0 ∧ b.offset = 0)
    (hsmall : ∀ chunk ∈ chunks, chunk.length < 65536)
    (hstream : chunks.flatten = c.encodeAll messages)
    (hfits : c.Fits messages 0 chunks) : Reports c messages b chunks := by
  rintro done todo before after rfl rfl hlength
  obtain ⟨hsize, hused, hoffset⟩ := hstart
  obtain ⟨b', now, todo', hsplit, hreceive, hbetween, hcount⟩ :=
    (Buffer.between_of_offset (done ++ todo) hsize hused hoffset).receiveAll hsame hfour before hplain
      (List.nil_append _).symm (by
        rw [hoffset, List.drop_zero, ← hstream, List.flatten_append]
        exact List.prefix_append ..)
      (fun chunk hmem => hsmall chunk (by simp [hmem])) (by rw [hoffset]; exact hfits.left)
  rw [hoffset, Nat.zero_add, hlength] at hcount
  -- both `done` and `now` are fronts of the messages, and their streams end at the same message
  have hnow : now = done := by
    rcases List.append_eq_append_iff.mp hsplit with ⟨more, hmore, htodo⟩ | ⟨more, hmore, htodo⟩
    · cases more with
      | nil => simpa using hmore
      | cons m more =>
        rw [hmore, encodeAll_append, List.length_append, encodeAll_cons,
          List.length_append] at hcount
        have := encode_pos (c := c) m
        omega
    · cases more with
      | nil => simpa using hmore.symm
      | cons m more =>
        have hinside := (hbetween.begun m (more ++ todo) (by rw [htodo]; rfl)).2
        rw [hmore, encodeAll_append, List.length_append, encodeAll_cons, List.length_append,
          encode_length]
          at hcount
        omega
  rw [hnow] at hcount
  exact ⟨b', hnow ▸ hreceive, by omega, hbetween.used⟩

/-- Where both fields have the same width of at most 4 bytes, messages of which both sides have the
type, the length and the room are sent and reported as they are, if no send buffer ends inside a
field and the receiver has room for what follows a message in its chunk. -/
theorem roundTrip (c : TypeLengthValueType) (messages : List Message)
    (buffers chunks : List (List UInt8))
    (b : Buffer) (hstart : b.value.length = 2 * c.bufferSize ∧ b.used = 0 ∧ b.offset = 0)
    (hbuffers : ∀ dataFrame ∈ buffers, 0 < dataFrame.length ∧ dataFrame.length < 65536)
    (hchunks : ∀ chunk ∈ chunks, chunk.length < 65536)
    (hsame : c.typeSize = c.lengthSize) (hfour : c.typeSize ≤ 4)
    (hplain : ∀ m ∈ messages, c.Plain m)
    (hwhole : Run.Meets (Sender.sendData c) (Sender.Whole c) (Sender.new messages) buffers)
    (hfits : c.Fits messages 0 chunks) : RoundTrip c messages buffers b chunks := by
  obtain ⟨hsending, hleft⟩ := (Sender.new_sending hplain).run hsame hfour hbuffers hwhole
  have hall : (Sender.new messages).pending c = c.encodeAll messages :=
    (List.nil_append _).symm.trans (Sender.new_sending hplain).stream
  refine ⟨fun henough => ?_, fun hdone hstream => ?_⟩
  · have hcount : (Sender.new messages).requests.length = messages.length := List.length_map _
    rw [hall, hcount] at hleft
    exact List.length_eq_zero_iff.mp (by omega)
  · have hsent := hsending.stream
    rw [Sender.pending, hdone, List.flatMap_nil, List.append_nil] at hsent
    exact reports_of_fits hsame hfour hplain hstart hchunks (hstream.trans hsent) hfits

/-- Two messages, with send buffers of four bytes, and chunks cut elsewhere. -/
theorem roundTrip_two : RoundTrip ⟨2, 2, 10, fun _ _ => 0, by decide, by decide⟩
    [⟨5, [1, 2, 3]⟩, ⟨6, [7]⟩] (List.replicate 6 [9, 9, 9, 9]) ⟨77, 0, 0, 0, List.replicate 20 9⟩
    [[0, 5, 0, 3, 1, 2], [3, 0, 6, 0, 1, 7]] := by
  apply roundTrip
  · decide
  · decide
  · decide
  · rfl
  · decide
  · simp only [List.forall_mem_cons, List.not_mem_nil, false_implies, implies_true, and_true]
    exact ⟨⟨by decide, by decide, by decide, by decide, by decide⟩,
      ⟨by decide, by decide, by decide, by decide, by decide⟩⟩
  · refine ⟨?_, ?_, ?_, ?_, ?_, ?_, trivial⟩ <;> simp only [Sender.Whole] <;> decide
  · refine ⟨?_, ?_, trivial⟩
    all_goals
      intro before m after heq
      rcases before with _ | ⟨_, _ | ⟨_, _⟩⟩
      · obtain ⟨rfl, rfl⟩ := List.cons_eq_cons.mp heq
        decide
      · obtain ⟨rfl, rfl⟩ := List.cons_eq_cons.mp (List.cons_eq_cons.mp heq).2
        obtain ⟨rfl, -⟩ := List.cons_eq_cons.mp heq
        decide
      · simp at heq

/-- Of a type with more than a byte the receiver has the last byte only. -/
theorem not_roundTrip_type : ¬ RoundTrip ⟨2, 2, 10, fun _ _ => 0, by decide, by decide⟩
    [⟨0x102, [0x41]⟩] [List.replicate 16 0, List.replicate 16 0, List.replicate 16 0]
    ⟨0, 0, 0, 0, List.replicate 20 0⟩ [[0x01, 0x02, 0x00, 0x01, 0x41]] := by
  intro h
  obtain ⟨b', hreceive, -⟩ := h.2 (by decide) (by decide) [⟨0x102, [0x41]⟩] []
    [[0x01, 0x02, 0x00, 0x01, 0x41]] [] rfl rfl (by decide)
  have hrun : (Buffer.receiveAll ⟨2, 2, 10, fun _ _ => 0, by decide, by decide⟩
      ⟨0, 0, 0, 0, List.replicate 20 0⟩ [[0x01, 0x02, 0x00, 0x01, 0x41]]).map Prod.snd =
        some [⟨0x02, [0x41]⟩] := by decide
  rw [hreceive] at hrun
  simp at hrun

end

end TypeLengthValueType

end Thunder.Exchange
