import Thunder.Core.Words
import Thunder.Web.WebSocketFrame

/-! `WebSocket::Protocol` and the `ReceiveData` of a web socket link.  The decoder unmasks in place
what has arrived of a frame, and `ReceiveData` passes it on frame by frame until what is left is too
small; the socket keeps the bytes that were not consumed and puts the next ones behind them. -/

namespace Thunder.Web

open Thunder.Core (u16 u32)

/-! ### `Protocol` -/

/-- The frame types beyond those of the frames. -/
def violation : UInt8 := 0x10
def inconsistent : UInt8 := 0x30

def requestClose : UInt8 := 0x01
def requestPing : UInt8 := 0x02
def requestPong : UInt8 := 0x04

def finishingFrame : UInt8 := 0x80
def typeFrame : UInt8 := 0x0F
def maskingFrame : UInt8 := 0x80
def controlFrame : UInt8 := 0x08

structure Protocol where
  setFlags : UInt8
  progressInfo : UInt8
  pendingReceiveBytes : Nat
  frameType : UInt8
  scrambleKey : Key
  controlStatus : UInt8

namespace Protocol

def new (binary masking : Bool) : Protocol where
  setFlags := (if masking then 0x80 else 0x00) ||| (if binary then 0x02 else 0x01)
  progressInfo := 0
  pendingReceiveBytes := 0
  frameType := 0x01
  scrambleKey := fun _ => 0
  controlStatus := 0

def receiveInProgress (p : Protocol) : Bool := p.progressInfo &&& 0x80 ≠ 0

def sendInProgress (p : Protocol) : Bool := p.progressInfo &&& 0x40 ≠ 0

def ping (p : Protocol) : Protocol := { p with controlStatus := p.controlStatus ||| requestPing }

def pong (p : Protocol) : Protocol := { p with controlStatus := p.controlStatus ||| requestPong }

def close (p : Protocol) : Protocol := { p with controlStatus := p.controlStatus ||| requestClose }

/-! ### `Decoder` -/

/-- The bytes are unmasked; the last two bits of the progress say with which byte of the key. -/
def unscramble (key : Key) (next : UInt8 → UInt8) : UInt8 → List UInt8 → List UInt8 × UInt8
  | progress, [] => ([], progress)
  | progress, b :: data =>
    let (data', progress') := unscramble key next (next progress) data
    ((b ^^^ key (Fin.ofNat 4 (progress &&& 0x3).toNat)) :: data', progress')

/-- What `Decoder` leaves in the buffer, in `receivedSize` and returns. -/
structure Decoded where
  protocol : Protocol
  dataFrame : List UInt8
  receivedSize : Nat
  actualHeader : Nat

/-- More of the payload of a frame. -/
def decodeMore (p : Protocol) (dataFrame : List UInt8) : Decoded :=
  if p.progressInfo &&& 0x20 = 0x20 then
    let size := min dataFrame.length p.pendingReceiveBytes
    let (data, progress) := unscramble p.scrambleKey
      (fun info => (info + 1) &&& 0x03 ||| info &&& 0xFC) p.progressInfo (dataFrame.take size)
    ⟨{ p with progressInfo := progress, pendingReceiveBytes := p.pendingReceiveBytes - size },
      data ++ dataFrame.drop size, size, 0⟩
  else if dataFrame.length < p.pendingReceiveBytes then
    ⟨{ p with pendingReceiveBytes := p.pendingReceiveBytes - dataFrame.length }, dataFrame,
      dataFrame.length, 0⟩
  else ⟨{ p with pendingReceiveBytes := 0 }, dataFrame, p.pendingReceiveBytes, 0⟩

def byteAt (dataFrame : List UInt8) (i : Nat) : UInt8 := dataFrame.getD i 0

/-- The size of the header, from its second byte. -/
def headerSize (second : UInt8) : Nat :=
  2 + (if second &&& 0x7F = 127 then 8 else if second &&& 0x7F = 126 then 2 else 0) +
    (if second &&& maskingFrame ≠ 0 then 4 else 0)

/-- The type of a new frame, and whether a message is in progress behind it. -/
def identify (p : Protocol) (first : UInt8) : Protocol :=
  let type := first &&& typeFrame
  let p :=
    if p.receiveInProgress then
      if type = 0 then
        { p with
          frameType := typeFrame &&& p.setFlags
          progressInfo := p.progressInfo &&& (if first &&& finishingFrame = 0 then 0xFF else 0x7F) }
      else { p with frameType := type }
    else if first &&& finishingFrame = 0 then
      { p with frameType := type, progressInfo := p.progressInfo ||| 0x80 }
    else { p with frameType := type }
  let wrong : Bool := p.frameType &&& typeFrame ≠ p.setFlags &&& typeFrame
  if first &&& finishingFrame = 0 then
    if wrong then
      { p with frameType := if p.frameType &&& controlFrame = 0 then inconsistent else violation }
    else p
  else if p.frameType &&& controlFrame = 0 ∧ wrong then { p with frameType := inconsistent }
  else p

/-- The length of the payload, for the header in front of the buffer. -/
def payloadLength (dataFrame : List UInt8) : Nat :=
  let length := (byteAt dataFrame 1 &&& 0x7F).toNat
  if length = 126 then (byteAt dataFrame 2).toNat <<< 8 + (byteAt dataFrame 3).toNat
  else if length = 127 then
    [8, 7, 6, 5, 4, 3, 2].foldl (fun n i => n <<< 8 + (byteAt dataFrame i).toNat)
      (byteAt dataFrame 9).toNat
  else length

/-- The payload of a new frame, as far as it is there. -/
def unpack (p : Protocol) (dataFrame : List UInt8) (actualHeader : Nat) : Decoded :=
  let length := payloadLength dataFrame
  let (p, bytesToMove) :=
    if dataFrame.length < (actualHeader + length) % 2 ^ 64 then
      ({ p with
          pendingReceiveBytes := u32 ((actualHeader + length) % 2 ^ 64 - dataFrame.length)
          progressInfo := p.progressInfo &&& ~~~0x20 }, dataFrame.length - actualHeader)
    else (p, length)
  if byteAt dataFrame 1 &&& maskingFrame ≠ 0 then
    let key : Key := fun i => byteAt dataFrame (actualHeader - 4 + i.val)
    let (data, progress) := unscramble key (fun info => (info + 1) &&& 0xF3)
      ((p.progressInfo ||| 0x20) &&& ~~~0x03) ((dataFrame.drop actualHeader).take bytesToMove)
    ⟨{ p with progressInfo := progress, scrambleKey := key },
      dataFrame.take actualHeader ++ data ++ dataFrame.drop (actualHeader + bytesToMove),
      u16 bytesToMove, actualHeader⟩
  else ⟨p, dataFrame, u16 bytesToMove, actualHeader⟩

def decoder (p : Protocol) (dataFrame : List UInt8) : Decoded :=
  if 0 < p.pendingReceiveBytes then p.decodeMore dataFrame
  else if dataFrame.length < 2 then ⟨p, dataFrame, 0, 0⟩
  else
    let actualHeader := headerSize (byteAt dataFrame 1)
    if dataFrame.length < actualHeader then ⟨p, dataFrame, 0, 0⟩
    else
      let p := p.identify (byteAt dataFrame 0)
      if p.frameType &&& 0xF8 = 0 then p.unpack dataFrame actualHeader
      else ⟨p, dataFrame, dataFrame.length, actualHeader⟩

end Protocol

/-! ### `ReceiveData` -/

/-- A call of `ReceiveData` under way, with what the link has been passed: the bytes of the payloads,
and the types of the control frames. -/
structure Receiver where
  protocol : Protocol
  dataFrame : List UInt8
  result : Nat
  tooSmall : Bool
  passed : List UInt8
  commands : List UInt8

namespace Receiver

open Protocol

/-- The reaction to a control frame. -/
def react (p : Protocol) : Protocol :=
  if p.frameType = Opcode.ping.code then p.pong
  else if p.frameType = Opcode.close.code then p.close
  else p

/-- The length of the payload of a control frame, for the header in front of the buffer. -/
def controlPayload (dataFrame : List UInt8) (headerSize : Nat) : Nat :=
  if 1 < headerSize then
    let length := (byteAt dataFrame 1 &&& 0x7F).toNat
    if length = 126 then if 3 < headerSize then payloadLength dataFrame else 0
    else if length = 127 then if 9 < headerSize then payloadLength dataFrame else 0
    else length
  else 0

/-- The loop body of `ReceiveData`. -/
def round (s : Receiver) : Receiver :=
  let d := s.protocol.decoder (s.dataFrame.drop s.result)
  let dataFrame := s.dataFrame.take s.result ++ d.dataFrame
  let s := { s with protocol := d.protocol, dataFrame := dataFrame }
  if d.actualHeader = 0 ∧ d.receivedSize = 0 then { s with tooSmall := true }
  else if d.protocol.frameType &&& 0xF0 ≠ 0 then { s with result := s.dataFrame.length }
  else if d.protocol.frameType &&& 0x08 ≠ 0 then
    let s :=
      if d.protocol.pendingReceiveBytes = 0 then
        { s with protocol := react d.protocol, commands := s.commands ++ [d.protocol.frameType] }
      else s
    { s with result := u16 (s.result + u16 (d.actualHeader + controlPayload d.dataFrame d.actualHeader)) }
  else
    { s with
      passed := s.passed ++ (d.dataFrame.drop d.actualHeader).take d.receivedSize
      result := u16 (s.result + (d.actualHeader + d.receivedSize)) }

/-- `none` stands for a loop that has not ended after so many rounds. -/
def loop : Nat → Receiver → Option Receiver
  | 0, _ => none
  | fuel + 1, s =>
    if s.result < s.dataFrame.length ∧ s.tooSmall = false then loop fuel s.round else some s

end Receiver

/-- A link behind its handshake, with the bytes that the socket has kept.  `overrun` says that a call
has reported more bytes than it was given. -/
structure Session where
  protocol : Protocol
  kept : List UInt8
  passed : List UInt8
  commands : List UInt8
  overrun : Bool

namespace Session

def new (binary masking : Bool) : Session := ⟨.new binary masking, [], [], [], false⟩

/-- A call of `ReceiveData`. -/
def receive (fuel : Nat) (s : Session) (chunk : List UInt8) : Option Session :=
  (Receiver.loop fuel ⟨s.protocol, s.kept ++ chunk, 0, false, s.passed, s.commands⟩).map fun r =>
    ⟨r.protocol, r.dataFrame.drop r.result, r.passed, r.commands,
      s.overrun ∨ r.dataFrame.length < r.result⟩

def receiveAll (fuel : Nat) (s : Session) (chunks : List (List UInt8)) : Option Session :=
  chunks.foldlM (receive fuel) s

end Session

/-! ### What the decoder waits for -/

namespace Protocol

/-- The type of the messages. -/
def messageType (binary : Bool) : UInt8 := if binary then 0x02 else 0x01

/-- Bytes of the payload that is pending, unmasked. -/
def unmask (p : Protocol) (data : List UInt8) : List UInt8 :=
  if p.progressInfo &&& 0x20 = 0x20 then
    p.scrambleKey.mask (p.progressInfo &&& 0x3).toNat data
  else data

/-- Of the frame under way, `raw` is still to come and is the masked `rest`. -/
structure Awaits (binary inMessage : Bool) (raw rest : List UInt8) (p : Protocol) : Prop where
  type : p.setFlags &&& typeFrame = messageType binary
  message : p.receiveInProgress = inMessage
  spare : p.progressInfo &&& 0x0C = 0
  pending : p.pendingReceiveBytes = raw.length
  more : raw ≠ [] → p.frameType = messageType binary
  unmask : rest = p.unmask raw

theorem new_awaits (binary masking : Bool) : Awaits binary false [] [] (new binary masking) := by
  constructor <;> cases binary <;> cases masking <;> decide

/-- The last two bits count on, and the others stay. -/
def Counts (next : UInt8 → UInt8) : Prop :=
  ∀ i, i &&& 0x0C = 0 → next i &&& 0xFC = i &&& 0xFC ∧
    (next i &&& 0x3).toNat = ((i &&& 0x3).toNat + 1) % 4

theorem counts (i : UInt8) : i &&& 0x0C = 0 →
    (((i + 1) &&& 0x03 ||| i &&& 0xFC) &&& 0xFC = i &&& 0xFC ∧
      (((i + 1) &&& 0x03 ||| i &&& 0xFC) &&& 0x3).toNat = ((i &&& 0x3).toNat + 1) % 4) ∧
    ((i + 1) &&& 0xF3) &&& 0xFC = i &&& 0xFC ∧
      (((i + 1) &&& 0xF3) &&& 0x3).toNat = ((i &&& 0x3).toNat + 1) % 4 :=
  Core.forall_byte (P := fun i => i &&& 0x0C = 0 →
    (((i + 1) &&& 0x03 ||| i &&& 0xFC) &&& 0xFC = i &&& 0xFC ∧
      (((i + 1) &&& 0x03 ||| i &&& 0xFC) &&& 0x3).toNat = ((i &&& 0x3).toNat + 1) % 4) ∧
    ((i + 1) &&& 0xF3) &&& 0xFC = i &&& 0xFC ∧
      (((i + 1) &&& 0xF3) &&& 0x3).toNat = ((i &&& 0x3).toNat + 1) % 4) (by decide +kernel) i

theorem counts_more : Counts fun info => (info + 1) &&& 0x03 ||| info &&& 0xFC :=
  fun i hi => (counts i hi).1

theorem counts_new : Counts fun info => (info + 1) &&& 0xF3 :=
  fun i hi => (counts i hi).2

/-- The upper bits decide the spare ones. -/
theorem spare_of_upper {i j : UInt8} (h : j &&& 0xFC = i &&& 0xFC) :
    j &&& 0x0C = i &&& 0x0C ∧ j &&& 0x80 = i &&& 0x80 ∧ j &&& 0x20 = i &&& 0x20 := by
  have hbits (i : UInt8) : i &&& 0x0C = (i &&& 0xFC) &&& 0x0C ∧ i &&& 0x80 = (i &&& 0xFC) &&& 0x80 ∧
      i &&& 0x20 = (i &&& 0xFC) &&& 0x20 := by
    simp only [UInt8.and_assoc]
    exact ⟨rfl, rfl, rfl⟩
  obtain ⟨h1, h2, h3⟩ := hbits i
  obtain ⟨h1', h2', h3'⟩ := hbits j
  rw [h1, h2, h3, h1', h2', h3', h]
  exact ⟨rfl, rfl, rfl⟩

theorem unscramble_eq (key : Key) {next : UInt8 → UInt8} (hnext : Counts next) {i : UInt8}
    (hi : i &&& 0x0C = 0) (data : List UInt8) :
    (unscramble key next i data).1 = key.mask (i &&& 0x3).toNat data ∧
      (unscramble key next i data).2 &&& 0xFC = i &&& 0xFC ∧
      ((unscramble key next i data).2 &&& 0x3).toNat % 4 = ((i &&& 0x3).toNat + data.length) % 4 := by
  induction data generalizing i with
  | nil => exact ⟨rfl, rfl, rfl⟩
  | cons b data ih =>
    obtain ⟨hupper, hcount⟩ := hnext i hi
    obtain ⟨hdata, hupper', hcount'⟩ := ih (i := next i) (by rw [(spare_of_upper hupper).1, hi])
    refine ⟨?_, hupper'.trans hupper, ?_⟩
    · show _ :: (unscramble key next (next i) data).1 = _
      rw [hdata, Key.mask]
      congr 1
      exact Key.mask_congr (by rw [hcount, Nat.mod_mod]) data
    · show ((unscramble key next (next i) data).2 &&& 0x3).toNat % 4 = _
      rw [hcount', hcount, List.length_cons]
      omega

section

variable {binary inMessage : Bool} {raw rest : List UInt8} {p : Protocol}

theorem unmask_length (data : List UInt8) : (p.unmask data).length = data.length := by
  unfold Protocol.unmask
  split
  · exact Key.length_mask ..
  · rfl

@[simp] theorem unmask_nil : p.unmask [] = [] := List.length_eq_zero_iff.mp (unmask_length [])

theorem Awaits.length (h : Awaits binary inMessage raw rest p) : rest.length = raw.length := by
  rw [h.unmask, unmask_length]

/-- The bytes of a frame under way are passed on. -/
theorem Awaits.decodeMore (h : Awaits binary inMessage raw rest p) (dataFrame : List UInt8)
    (hdata : dataFrame.take (min dataFrame.length raw.length) =
      raw.take (min dataFrame.length raw.length)) :
    (p.decodeMore dataFrame).receivedSize = min dataFrame.length raw.length ∧
      (p.decodeMore dataFrame).actualHeader = 0 ∧
      (p.decodeMore dataFrame).dataFrame = rest.take (min dataFrame.length raw.length) ++
        dataFrame.drop (min dataFrame.length raw.length) ∧
      (p.decodeMore dataFrame).protocol.frameType = p.frameType ∧
      Awaits binary inMessage (raw.drop (min dataFrame.length raw.length))
        (rest.drop (min dataFrame.length raw.length)) (p.decodeMore dataFrame).protocol := by
  obtain ⟨n, hn⟩ : ∃ n, n = min dataFrame.length raw.length := ⟨_, rfl⟩
  have hle : n ≤ raw.length := by omega
  have htake : (raw.take n).length = n := by simp [hle]
  rw [← hn] at hdata ⊢
  unfold Protocol.decodeMore
  split
  case isTrue hmasked =>
    obtain ⟨hbytes, hupper, hcount⟩ := unscramble_eq p.scrambleKey counts_more h.spare (raw.take n)
    obtain ⟨hspare, hmessage, hmask⟩ := spare_of_upper hupper
    rw [h.pending, ← hn]
    dsimp only
    rw [hdata, hbytes]
    have hrest : rest = p.scrambleKey.mask (p.progressInfo &&& 0x3).toNat (raw.take n) ++
        p.scrambleKey.mask ((p.progressInfo &&& 0x3).toNat + n) (raw.drop n) := by
      rw [h.unmask, Protocol.unmask, if_pos hmasked]
      conv_lhs => rw [← List.take_append_drop n raw]
      rw [Key.mask_append, htake]
    refine ⟨rfl, rfl, ?_, rfl, h.type, ?_, ?_, ?_, ?_, ?_⟩
    · rw [hrest, List.take_left' (by simp [hle])]
    · rw [← h.message]
      simp only [receiveInProgress]
      rw [hmessage]
    · exact hspare.trans h.spare
    · simp
    · intro hmore
      apply h.more
      rintro rfl
      simp at hmore
    · rw [hrest, List.drop_left' (by simp [hle]), Protocol.unmask, if_pos (by rw [hmask, hmasked])]
      apply Key.mask_congr
      rw [htake] at hcount
      rw [hcount]
  case isFalse hplain =>
    have hrest : rest = raw := by rw [h.unmask, Protocol.unmask, if_neg hplain]
    subst hrest
    split
    case isTrue hless =>
      rw [h.pending] at hless
      obtain rfl : n = dataFrame.length := by omega
      refine ⟨rfl, rfl, ?_, rfl, h.type, h.message, h.spare, ?_, ?_, ?_⟩
      · rw [← hdata]
        simp
      · simp [h.pending]
      · exact fun hmore => h.more (by rintro rfl; simp at hmore)
      · rw [Protocol.unmask, if_neg hplain]
    case isFalse hmore =>
      rw [h.pending] at hmore
      obtain rfl : n = rest.length := by omega
      refine ⟨h.pending, rfl, ?_, rfl, h.type, h.message, h.spare, ?_, ?_, ?_⟩
      · rw [← hdata]
        simp
      · simp
      · simp
      · rw [Protocol.unmask, if_neg hplain]

end

/-! ### Headers -/

section Headers

variable {f : Frame} {dataFrame tail : List UInt8}

/-- The second byte of a header. -/
def second (f : Frame) : UInt8 := f.maskBit ||| UInt8.ofNat f.lengthCode.1

theorem lengthCode_lt (f : Frame) : f.lengthCode.1 < 128 := by
  unfold Frame.lengthCode
  split
  · dsimp only
    omega
  · split
    · exact (by decide : 126 < 128)
    · exact (by decide : 127 < 128)

theorem second_bits (f : Frame) : second f &&& 0x7F = UInt8.ofNat f.lengthCode.1 ∧
    (second f &&& maskingFrame ≠ 0 ↔ f.key.isSome) := by
  have hlow : UInt8.ofNat f.lengthCode.1 &&& 0x7F = UInt8.ofNat f.lengthCode.1 := by
    apply UInt8.toNat_inj.mp
    have hlt := lengthCode_lt f
    rw [UInt8.toNat_and, UInt8.toNat_ofNat', Nat.mod_eq_of_lt (by omega)]
    exact Nat.and_two_pow_sub_one_of_lt_two_pow (show f.lengthCode.1 < 2 ^ 7 from hlt)
  have hhigh : UInt8.ofNat f.lengthCode.1 &&& maskingFrame = 0 := by
    rw [← hlow, Bytes.and_mask_zero rfl]
  unfold second Frame.maskBit
  split
  case isTrue hkey =>
    rw [UInt8.or_comm, Bytes.or_mask_zero rfl]
    exact ⟨hlow, iff_of_true (Bytes.or_mask_ne_zero (by decide) _) hkey⟩
  case isFalse hkey =>
    rw [UInt8.zero_or]
    exact ⟨hlow, iff_of_false (not_not.mpr hhigh) hkey⟩

theorem keyBytes_length (f : Frame) : f.keyBytes.length = if f.key.isSome then 4 else 0 := by
  unfold Frame.keyBytes
  cases f.key <;> rfl

theorem headerSize_second (f : Frame) : headerSize (second f) = f.header.length := by
  obtain ⟨hlength, hmask⟩ := second_bits f
  have hkey : (if second f &&& maskingFrame ≠ 0 then 4 else 0) = f.keyBytes.length := by
    rw [keyBytes_length]
    exact if_congr hmask rfl rfl
  rw [headerSize, hlength, hkey, Frame.header, List.length_cons, List.length_cons, List.length_append]
  have hextra : (if UInt8.ofNat f.lengthCode.1 = 127 then 8
      else if UInt8.ofNat f.lengthCode.1 = 126 then 2 else 0) = f.lengthCode.2.length := by
    unfold Frame.lengthCode
    split
    case isTrue hless =>
      have hvalue : (UInt8.ofNat f.payload.length).toNat = f.payload.length := by
        rw [UInt8.toNat_ofNat', Nat.mod_eq_of_lt (by omega)]
      have hne : ∀ n : UInt8, 126 ≤ n.toNat → UInt8.ofNat f.payload.length ≠ n := by
        rintro n hn rfl
        omega
      rw [if_neg (hne 127 (by decide)), if_neg (hne 126 (by decide))]
      rfl
    case isFalse =>
      split
      · rw [Bytes.length_bigEndian]
        rfl
      · rw [Bytes.length_bigEndian]
        rfl
  rw [hextra]
  omega

theorem payloadLength_header (f : Frame) (hshort : f.payload.length < 65536) (tail : List UInt8) :
    payloadLength (f.header ++ tail) = f.payload.length := by
  obtain ⟨hlength, -⟩ := second_bits f
  have hsecond : byteAt (f.header ++ tail) 1 = second f := rfl
  unfold payloadLength
  rw [hsecond, hlength]
  unfold Frame.lengthCode
  split
  case isTrue hless =>
    have hsmall : (UInt8.ofNat f.payload.length).toNat = f.payload.length := by
      rw [UInt8.toNat_ofNat']
      exact Nat.mod_eq_of_lt (by omega)
    dsimp only
    rw [hsmall, if_neg (by omega), if_neg (by omega)]
  case isFalse hmore =>
    have hbytes : f.header ++ tail = ((if f.fin then 0x80 else 0) ||| f.opcode.code) :: second f ::
        UInt8.ofNat (f.payload.length / 256) :: UInt8.ofNat f.payload.length ::
          (f.keyBytes ++ tail) := by
      simp [Frame.header, second, Frame.lengthCode, hmore, hshort, Bytes.bigEndian]
    rw [hbytes]
    show (UInt8.ofNat (f.payload.length / 256)).toNat <<< 8 +
      (UInt8.ofNat f.payload.length).toNat = _
    rw [UInt8.toNat_ofNat', UInt8.toNat_ofNat', Nat.shiftLeft_eq]
    omega

/-- The key of a masked frame ends its header. -/
theorem byteAt_key {key : Key} (hkey : f.key = some key) (tail : List UInt8) :
    (fun i : Fin 4 => byteAt (f.header ++ tail) (f.header.length - 4 + i.val)) = key := by
  obtain ⟨start, hstart⟩ : ∃ start, f.header = start ++ key.bytes :=
    ⟨((if f.fin then 0x80 else 0) ||| f.opcode.code) :: second f :: f.lengthCode.2, by
      simp [Frame.header, Frame.keyBytes, hkey, second]⟩
  have hbytes (i : Nat) : byteAt (f.header ++ tail) (start.length + i) =
      (key.bytes ++ tail).getD i 0 := by
    rw [hstart, List.append_assoc, byteAt, List.getD_eq_getElem?_getD,
      List.getElem?_append_right (by omega), Nat.add_sub_cancel_left, List.getD_eq_getElem?_getD]
  funext i
  have hlength : f.header.length - 4 = start.length := by simp [hstart]
  rw [hlength, hbytes]
  obtain ⟨i, hi⟩ := i
  rcases i with _ | _ | _ | _ | i
  · rfl
  · rfl
  · rfl
  · rfl
  · omega

/-- The first byte of a header. -/
def first (f : Frame) : UInt8 := (if f.fin then 0x80 else 0) ||| f.opcode.code

theorem first_bits (f : Frame) : first f &&& typeFrame = f.opcode.code ∧
    (first f &&& finishingFrame = 0 ↔ f.fin = false) := by
  unfold first
  cases f.fin <;> cases f.opcode <;> decide

theorem header_eq (f : Frame) :
    f.header = first f :: second f :: (f.lengthCode.2 ++ f.keyBytes) := rfl

/-! ### The types of frames -/

theorem messageType_bits (binary : Bool) : messageType binary &&& typeFrame = messageType binary ∧
    messageType binary ≠ 0 ∧ messageType binary &&& controlFrame = 0 ∧
    messageType binary &&& 0xF8 = 0 ∧ messageType binary &&& 0xF0 = 0 := by
  cases binary <;> decide

variable {binary inMessage : Bool} {p : Protocol}

/-- A data frame has the type of the messages, or it continues one. -/
def Typed (binary : Bool) (f : Frame) : Prop :=
  f.isControl = false → f.opcode ≠ .continuation → f.opcode.code = messageType binary

/-- Between two frames nothing is pending. -/
theorem awaits_between (htype : p.setFlags &&& typeFrame = messageType binary)
    (hmessage : p.receiveInProgress = inMessage) (hspare : p.progressInfo &&& 0x0C = 0)
    (hpending : p.pendingReceiveBytes = 0) : Awaits binary inMessage [] [] p := by
  exact ⟨htype, hmessage, hspare, hpending, fun hmore => absurd rfl hmore, unmask_nil.symm⟩

/-- The bit of a message in progress is set and cleared alone. -/
theorem progress_bits (i : UInt8) : (i &&& 0x7F) &&& 0x80 = 0 ∧
    (i &&& 0x7F) &&& 0x0C = i &&& 0x0C ∧ (i ||| 0x80) &&& 0x80 ≠ 0 ∧
    (i ||| 0x80) &&& 0x0C = i &&& 0x0C ∧ i &&& 0xFF = i :=
  ⟨Bytes.and_mask_zero rfl i, Bytes.and_mask rfl i, Bytes.or_mask_ne_zero (by decide) i,
    Bytes.or_mask_zero rfl i, UInt8.and_neg_one⟩

theorem identify_data (h : Awaits binary inMessage [] [] p) (hdata : f.isControl = false)
    (hfollows : f.opcode = .continuation ↔ inMessage) (htyped : Typed binary f) :
    (p.identify (first f)).frameType = messageType binary ∧
      Awaits binary (!f.fin) [] [] (p.identify (first f)) := by
  obtain ⟨htype, hfin⟩ := first_bits f
  obtain ⟨hmask, hne, hcontrol, -, -⟩ := messageType_bits binary
  obtain ⟨hclear, hclearSpare, hset, hsetSpare, hkeep⟩ := progress_bits p.progressInfo
  have hflags : typeFrame &&& p.setFlags = messageType binary := by rw [UInt8.and_comm, h.type]
  have hpending : p.pendingReceiveBytes = 0 := h.pending
  cases inMessage with
  | true =>
    have hprogress : p.receiveInProgress = true := h.message
    have hzero : first f &&& typeFrame = 0 := by
      rw [htype, hfollows.mpr rfl]
      rfl
    cases hf : f.fin with
    | true =>
      have hlast : first f &&& finishingFrame ≠ 0 := by
        rw [Ne, hfin, hf]
        decide
      have heq : p.identify (first f) = { p with
          frameType := messageType binary, progressInfo := p.progressInfo &&& 0x7F } := by
        simp [identify, hprogress, hzero, hlast, hflags, hmask, h.type]
      rw [heq]
      exact ⟨rfl, awaits_between h.type (by simp [receiveInProgress, hclear])
        (hclearSpare.trans h.spare) hpending⟩
    | false =>
      have hmore : first f &&& finishingFrame = 0 := hfin.mpr hf
      have heq : p.identify (first f) = { p with frameType := messageType binary } := by
        simp [identify, hprogress, hzero, hmore, hflags, hmask, h.type, hkeep]
      rw [heq]
      exact ⟨rfl, awaits_between h.type hprogress h.spare hpending⟩
  | false =>
    have hprogress : p.receiveInProgress = false := h.message
    have hcode : first f &&& typeFrame = messageType binary := by
      rw [htype]
      exact htyped hdata fun hcontinues => Bool.false_ne_true (hfollows.mp hcontinues)
    cases hf : f.fin with
    | true =>
      have hlast : first f &&& finishingFrame ≠ 0 := by
        rw [Ne, hfin, hf]
        decide
      have heq : p.identify (first f) = { p with frameType := messageType binary } := by
        simp [identify, hprogress, hlast, hcode, hmask, h.type]
      rw [heq]
      exact ⟨rfl, awaits_between h.type hprogress h.spare hpending⟩
    | false =>
      have hmore : first f &&& finishingFrame = 0 := hfin.mpr hf
      have heq : p.identify (first f) = { p with
          frameType := messageType binary, progressInfo := p.progressInfo ||| 0x80 } := by
        simp [identify, hprogress, hmore, hcode, hmask, h.type]
      rw [heq]
      exact ⟨rfl, awaits_between h.type (by simp [receiveInProgress, hset])
        (hsetSpare.trans h.spare) hpending⟩

theorem control_bits {opcode : Opcode} (h : opcode.isControl) : opcode.code ≠ 0 ∧
    opcode.code &&& controlFrame ≠ 0 ∧ ¬ opcode.code &&& 0xF8 = 0 ∧ opcode.code &&& 0xF0 = 0 ∧
    opcode.code &&& 0x08 ≠ 0 := by
  cases opcode <;> revert h <;> decide

theorem identify_control (p : Protocol) (hcontrol : f.isControl) (hfin : f.fin) :
    p.identify (first f) = { p with frameType := f.opcode.code } := by
  obtain ⟨htype, hlast⟩ := first_bits f
  have hlast : first f &&& finishingFrame ≠ 0 := by
    rw [Ne, hlast, hfin]
    decide
  obtain ⟨hcode, hbit, -⟩ := control_bits hcontrol
  unfold identify
  cases p.receiveInProgress <;> simp [htype, hlast, hcode, hbit]

/-! ### The payload of a new frame -/

/-- The bits that `unpack` touches. -/
theorem unpack_bits (i : UInt8) : (i &&& ~~~0x20) &&& 0x80 = i &&& 0x80 ∧
    (i &&& ~~~0x20) &&& 0x0C = i &&& 0x0C ∧ (i &&& ~~~0x20) &&& 0x20 = 0 ∧
    ((i ||| 0x20) &&& ~~~0x03) &&& 0x80 = i &&& 0x80 ∧
    ((i ||| 0x20) &&& ~~~0x03) &&& 0x0C = i &&& 0x0C ∧
    ((i ||| 0x20) &&& ~~~0x03) &&& 0x20 = 0x20 ∧ ((i ||| 0x20) &&& ~~~0x03) &&& 0x03 = 0 :=
  ⟨Bytes.and_mask rfl i, Bytes.and_mask rfl i, Bytes.and_mask_zero rfl i,
    (Bytes.and_mask rfl _).trans (Bytes.or_mask_zero rfl i),
    (Bytes.and_mask rfl _).trans (Bytes.or_mask_zero rfl i),
    (Bytes.and_mask rfl _).trans (Bytes.or_mask_self _ i), Bytes.and_mask_zero rfl _⟩

/-- The protocol once the length of the payload is known: what is not there is pending. -/
def expecting (p : Protocol) (length there : Nat) : Protocol :=
  if there < length then
    { p with pendingReceiveBytes := length - there, progressInfo := p.progressInfo &&& ~~~0x20 }
  else p

theorem unpack_eq (p : Protocol) (hshort : f.payload.length < 65536)
    (hsize : (f.header ++ tail).length < 65536) :
    p.unpack (f.header ++ tail) f.header.length =
      if byteAt (f.header ++ tail) 1 &&& maskingFrame ≠ 0 then
        let key : Key := fun i => byteAt (f.header ++ tail) (f.header.length - 4 + i.val)
        let (data, progress) := unscramble key (fun info => (info + 1) &&& 0xF3)
          (((p.expecting f.payload.length tail.length).progressInfo ||| 0x20) &&& ~~~0x03)
          (tail.take (min tail.length f.payload.length))
        ⟨{ p.expecting f.payload.length tail.length with
            progressInfo := progress, scrambleKey := key },
          f.header ++ data ++ tail.drop (min tail.length f.payload.length),
          min tail.length f.payload.length, f.header.length⟩
      else ⟨p.expecting f.payload.length tail.length, f.header ++ tail,
        min tail.length f.payload.length, f.header.length⟩ := by
  rw [List.length_append] at hsize
  have hmod : (f.header.length + f.payload.length) % 2 ^ 64 =
      f.header.length + f.payload.length := Nat.mod_eq_of_lt (by omega)
  have hexpecting : (if (f.header ++ tail).length < f.header.length + f.payload.length then
      ({ p with
          pendingReceiveBytes := u32 (f.header.length + f.payload.length - (f.header ++ tail).length)
          progressInfo := p.progressInfo &&& ~~~0x20 }, (f.header ++ tail).length - f.header.length)
      else (p, f.payload.length)) =
      (p.expecting f.payload.length tail.length, min tail.length f.payload.length) := by
    rw [List.length_append, expecting]
    by_cases hthere : tail.length < f.payload.length
    · rw [if_pos (by omega), if_pos hthere, Core.u32_of_lt (by omega)]
      have hpending : f.header.length + f.payload.length - (f.header.length + tail.length) =
          f.payload.length - tail.length := by omega
      have hmove : f.header.length + tail.length - f.header.length = min tail.length f.payload.length := by
        omega
      rw [hpending, hmove]
    · rw [if_neg (by omega), if_neg hthere]
      congr 1
      omega
  unfold unpack
  rw [payloadLength_header f hshort]
  dsimp only
  rw [hmod, hexpecting]
  dsimp only
  have hrest : (f.header ++ tail).drop (f.header.length + min tail.length f.payload.length) =
      tail.drop (min tail.length f.payload.length) := by
    rw [← List.drop_drop, List.drop_left]
  rw [Core.u16_of_lt (by omega), List.drop_left, List.take_left, hrest]

theorem expecting_fields (p : Protocol) (length there : Nat) :
    (p.expecting length there).setFlags = p.setFlags ∧
      (p.expecting length there).frameType = p.frameType ∧
      (p.expecting length there).receiveInProgress = p.receiveInProgress ∧
      (p.expecting length there).progressInfo &&& 0x0C = p.progressInfo &&& 0x0C := by
  obtain ⟨hmessage, hspare, -⟩ := unpack_bits p.progressInfo
  unfold expecting
  split
  · exact ⟨rfl, rfl, by simp only [receiveInProgress, hmessage], hspare⟩
  · exact ⟨rfl, rfl, rfl, rfl⟩

/-- The payload of a new frame is passed on as far as it is there. -/
theorem unpack_frame (h : Awaits binary inMessage [] [] p) (htype : p.frameType = messageType binary)
    (hshort : f.payload.length < 65536) (hsize : (f.header ++ tail).length < 65536)
    (htail : tail.take (min tail.length f.payload.length) =
      f.body.take (min tail.length f.payload.length)) :
    ∃ d, p.unpack (f.header ++ tail) f.header.length = d ∧
      d.receivedSize = min tail.length f.payload.length ∧ d.actualHeader = f.header.length ∧
      d.dataFrame = f.header ++ f.payload.take (min tail.length f.payload.length) ++
        tail.drop (min tail.length f.payload.length) ∧
      d.protocol.frameType = messageType binary ∧
      Awaits binary inMessage (f.body.drop (min tail.length f.payload.length))
        (f.payload.drop (min tail.length f.payload.length)) d.protocol := by
  refine ⟨_, unpack_eq p hshort hsize, ?_⟩
  obtain ⟨k, hk⟩ : ∃ k, k = min tail.length f.payload.length := ⟨_, rfl⟩
  obtain ⟨hflags, htype', hmessage, hspare⟩ := expecting_fields p f.payload.length tail.length
  have hpending : (p.expecting f.payload.length tail.length).pendingReceiveBytes =
      (f.body.drop k).length := by
    have := h.pending
    unfold expecting
    split <;> simp only [List.length_drop, Frame.length_body] <;> simp at this <;> omega
  have hkey := (second_bits f).2
  rw [show byteAt (f.header ++ tail) 1 = second f from rfl, ← hk]
  rw [← hk] at htail
  split
  case isTrue hmasked =>
    obtain ⟨key, hkey⟩ := Option.isSome_iff_exists.mp (hkey.mp hmasked)
    obtain ⟨-, -, -, hmessage2, hspare2, hmask, hstart⟩ :=
      unpack_bits (p.expecting f.payload.length tail.length).progressInfo
    obtain ⟨hdata, hupper, hcount⟩ := unscramble_eq key counts_new
      (hspare2.trans (hspare.trans h.spare)) (f.body.take k)
    obtain ⟨hspare3, hmessage3, hmask3⟩ := spare_of_upper hupper
    have hbody : f.body = key.mask 0 f.payload := by simp [Frame.body, hkey]
    have hzero : (((p.expecting f.payload.length tail.length).progressInfo ||| 0x20) &&& ~~~0x03 &&&
        0x03).toNat = 0 := by
      rw [hstart]
      rfl
    have hplain : key.mask 0 (f.body.take k) = f.payload.take k := by
      rw [hbody, Key.mask_take, Key.mask_mask]
    rw [hzero, hplain] at hdata
    rw [byteAt_key hkey, htail]
    dsimp only
    refine ⟨rfl, rfl, by rw [hdata], htype'.trans htype, ?_, ?_, ?_, hpending,
      fun _ => htype'.trans htype, ?_⟩
    · rw [hflags, h.type]
    · rw [← h.message, ← hmessage]
      simp only [receiveInProgress]
      rw [hmessage3, hmessage2]
    · rw [hspare3, hspare2, hspare, h.spare]
    · rw [Protocol.unmask, if_pos (hmask3.trans hmask)]
      have hoffset : (f.body.take k).length = k := by
        rw [List.length_take, Frame.length_body]
        omega
      have hplace : key.mask k (f.body.drop k) = f.payload.drop k := by
        rw [hbody, Key.mask_drop, Nat.zero_add, Key.mask_mask]
      rw [hzero, hoffset, Nat.zero_add] at hcount
      exact hplace.symm.trans (Key.mask_congr hcount.symm _)
  case isFalse hplain =>
    have hnone : f.key = none := by simpa using mt hkey.mpr hplain
    have hbody : f.body = f.payload := by simp [Frame.body, hnone]
    refine ⟨rfl, rfl, ?_, htype'.trans htype, ?_, hmessage.trans h.message, ?_, hpending,
      fun _ => htype'.trans htype, ?_⟩
    · rw [← hbody, ← htail, List.append_assoc, List.take_append_drop]
    · rw [hflags, h.type]
    · rw [hspare, h.spare]
    · rw [hbody]
      by_cases hthere : tail.length < f.payload.length
      · have hclear := (unpack_bits p.progressInfo).2.2.1
        rw [expecting, if_pos hthere, Protocol.unmask, if_neg]
        simp only [hclear]
        decide
      · have hnothing : f.payload.drop k = [] := List.drop_eq_nil_of_le (by omega)
        rw [hnothing, unmask_nil]

/-! ### The decoder -/

/-- A header that is not complete is left alone. -/
theorem decoder_small (hpending : p.pendingReceiveBytes = 0) {more : List UInt8}
    (hdata : dataFrame ++ more = f.header ++ tail) (hless : dataFrame.length < f.header.length) :
    p.decoder dataFrame = ⟨p, dataFrame, 0, 0⟩ := by
  unfold decoder
  rw [if_neg (by omega)]
  split
  case isTrue => rfl
  case isFalse htwo =>
    have hsecond : byteAt dataFrame 1 = second f := by
      match dataFrame, htwo with
      | b :: c :: dataFrame, _ =>
        rw [header_eq] at hdata
        simp only [List.cons_append, List.cons.injEq] at hdata
        exact hdata.2.1
      | [], htwo => exact absurd (by simp) htwo
      | [b], htwo => exact absurd (by simp) htwo
    dsimp only
    rw [hsecond, headerSize_second, if_pos hless]

theorem decoder_header (hpending : p.pendingReceiveBytes = 0) (f : Frame) (tail : List UInt8) :
    p.decoder (f.header ++ tail) =
      if (p.identify (first f)).frameType &&& 0xF8 = 0 then
        (p.identify (first f)).unpack (f.header ++ tail) f.header.length
      else ⟨p.identify (first f), f.header ++ tail, (f.header ++ tail).length, f.header.length⟩ := by
  have htwo := f.two_le_header
  unfold decoder
  rw [if_neg (by omega), if_neg (by simp only [List.length_append]; omega)]
  rw [show byteAt (f.header ++ tail) 1 = second f from rfl, headerSize_second,
    show byteAt (f.header ++ tail) 0 = first f from rfl]
  dsimp only
  rw [if_neg (by simp only [List.length_append]; omega)]

theorem decoder_data (h : Awaits binary inMessage [] [] p) (hdata : f.isControl = false)
    (hfollows : f.opcode = .continuation ↔ inMessage) (htyped : Typed binary f)
    (hshort : f.payload.length < 65536) (hsize : (f.header ++ tail).length < 65536)
    (htail : tail.take (min tail.length f.payload.length) =
      f.body.take (min tail.length f.payload.length)) :
    (p.decoder (f.header ++ tail)).receivedSize = min tail.length f.payload.length ∧
      (p.decoder (f.header ++ tail)).actualHeader = f.header.length ∧
      (p.decoder (f.header ++ tail)).dataFrame =
        f.header ++ f.payload.take (min tail.length f.payload.length) ++
          tail.drop (min tail.length f.payload.length) ∧
      (p.decoder (f.header ++ tail)).protocol.frameType = messageType binary ∧
      Awaits binary (!f.fin) (f.body.drop (min tail.length f.payload.length))
        (f.payload.drop (min tail.length f.payload.length))
        (p.decoder (f.header ++ tail)).protocol := by
  obtain ⟨htype, hidentified⟩ := identify_data h hdata hfollows htyped
  obtain ⟨d, hd, hrest⟩ := unpack_frame hidentified htype hshort hsize htail
  rw [decoder_header h.pending, htype, if_pos (messageType_bits binary).2.2.2.1, hd]
  exact hrest

theorem decoder_control (hpending : p.pendingReceiveBytes = 0) (hcontrol : f.isControl)
    (hfin : f.fin) (tail : List UInt8) :
    p.decoder (f.header ++ tail) = ⟨{ p with frameType := f.opcode.code }, f.header ++ tail,
      (f.header ++ tail).length, f.header.length⟩ := by
  rw [decoder_header hpending, identify_control p hcontrol hfin, if_neg]
  exact (control_bits hcontrol).2.2.1

end Headers

end Protocol

/-! ### The rounds of `ReceiveData` -/

namespace Receiver

open Protocol

variable {binary inMessage : Bool} {raw rest future : List UInt8} {frames : List Frame}
  {s : Receiver}

/-- What the receiver has not consumed, with what is still to come, is the rest of a frame and
frames. -/
structure Reading (binary inMessage : Bool) (raw rest : List UInt8) (frames : List Frame)
    (future : List UInt8) (s : Receiver) : Prop where
  awaits : Awaits binary inMessage raw rest s.protocol
  valid : Valid inMessage frames
  typed : ∀ f ∈ frames, Typed binary f
  short : ∀ f ∈ frames, f.payload.length < 65536
  inside : s.result ≤ s.dataFrame.length
  size : s.dataFrame.length < 65536
  going : s.tooSmall = false
  stream : s.dataFrame.drop s.result ++ future = raw ++ encodeAll frames

/-- What one round does with `count` bytes. -/
structure Consumes (s s' : Receiver) (count : Nat) (bytes : List UInt8) (types : List UInt8) :
    Prop where
  length : s'.dataFrame.length = s.dataFrame.length
  result : s'.result = s.result + count
  left : s'.dataFrame.drop s'.result = (s.dataFrame.drop s.result).drop count
  passed : s'.passed = s.passed ++ bytes
  commands : s'.commands = s.commands ++ types
  going : s'.tooSmall = s.tooSmall

/-- The buffer behind a round. -/
theorem buffer_round (hinside : s.result ≤ s.dataFrame.length) (front : List UInt8)
    (hle : s.result + front.length ≤ s.dataFrame.length) :
    (s.dataFrame.take s.result ++ (front ++ (s.dataFrame.drop s.result).drop front.length)).length =
        s.dataFrame.length ∧
      (s.dataFrame.take s.result ++ (front ++ (s.dataFrame.drop s.result).drop front.length)).drop
        (s.result + front.length) = (s.dataFrame.drop s.result).drop front.length := by
  have htake : (s.dataFrame.take s.result).length = s.result := by simp [hinside]
  constructor
  · simp only [List.length_append, List.length_drop, htake]
    omega
  · rw [← List.append_assoc, List.drop_left']
    rw [List.length_append, htake]

/-- A round that passes on data. -/
theorem round_data (h : Reading binary inMessage raw rest frames future s)
    (header : List UInt8) {body : List UInt8} {d : Decoded} (hd : s.protocol.decoder (s.dataFrame.drop s.result) = d)
    (hheader : d.actualHeader = header.length) (hreceived : d.receivedSize = body.length)
    (hdata : d.dataFrame = header ++ body ++
      (s.dataFrame.drop s.result).drop (header.length + body.length))
    (hle : s.result + (header.length + body.length) ≤ s.dataFrame.length)
    (hcount : 0 < header.length + body.length)
    (htype : d.protocol.frameType = messageType binary) :
    s.round.protocol = d.protocol ∧ Consumes s s.round (header.length + body.length) body [] := by
  obtain ⟨-, -, hcontrol, -, hvalid⟩ := messageType_bits binary
  obtain ⟨hlength, hleft⟩ := buffer_round h.inside (header ++ body) (by simpa using hle)
  rw [show (header ++ body).length = _ from List.length_append] at hlength hleft
  have hsize := h.size
  have hround : s.round = { s with
      protocol := d.protocol
      dataFrame := s.dataFrame.take s.result ++ d.dataFrame
      passed := s.passed ++ body
      result := s.result + (header.length + body.length) } := by
    have hsmall : ¬ (d.actualHeader = 0 ∧ d.receivedSize = 0) := by omega
    have hbody : (d.dataFrame.drop d.actualHeader).take d.receivedSize = body := by
      rw [hdata, hheader, hreceived, List.append_assoc, List.drop_left, List.take_left]
    have hcontrol : ¬ messageType binary &&& 0x08 ≠ 0 := not_not.mpr hcontrol
    unfold round
    rw [hd]
    dsimp only
    rw [if_neg hsmall, htype, if_neg (not_not.mpr hvalid), if_neg hcontrol, hbody, hheader, hreceived,
      Core.u16_of_lt (by omega)]
  rw [hround, hdata]
  exact ⟨rfl, hlength, rfl, hleft, rfl, by simp, rfl⟩

/-- A round that skips a control frame. -/
theorem round_control (h : Reading binary inMessage [] [] frames future s) {f : Frame}
    {tail : List UInt8} (hcontrol : f.isControl) (hfin : f.fin) (hpayload : f.payload.length ≤ 125)
    (hleft : s.dataFrame.drop s.result = f.header ++ tail) (hthere : f.payload.length ≤ tail.length) :
    s.round.protocol = react { s.protocol with frameType := f.opcode.code } ∧
      Consumes s s.round (f.header.length + f.payload.length) [] [f.opcode.code] := by
  obtain ⟨-, -, -, hvalid, hbit⟩ := control_bits hcontrol
  have hpending : s.protocol.pendingReceiveBytes = 0 := h.awaits.pending
  have hsize := h.size
  have htwo := f.two_le_header
  have hinside : s.result + (f.header.length + tail.length) = s.dataFrame.length := by
    have := congrArg List.length hleft
    have := h.inside
    simp only [List.length_drop, List.length_append] at *
    omega
  have hlength : controlPayload (f.header ++ tail) f.header.length = f.payload.length := by
    have hsecond : (second f &&& 0x7F).toNat = f.payload.length := by
      rw [(second_bits f).1, Frame.lengthCode, if_pos (by omega), UInt8.toNat_ofNat']
      exact Nat.mod_eq_of_lt (by omega)
    rw [controlPayload, if_pos (by omega), show byteAt (f.header ++ tail) 1 = second f from rfl]
    dsimp only
    rw [hsecond, if_neg (by omega), if_neg (by omega)]
  have hround : s.round = { s with
      protocol := react { s.protocol with frameType := f.opcode.code }
      commands := s.commands ++ [f.opcode.code]
      result := s.result + (f.header.length + f.payload.length) } := by
    have hskip : u16 (f.header.length + f.payload.length) = f.header.length + f.payload.length :=
      Core.u16_of_lt (by omega)
    have hresult : u16 (s.result + (f.header.length + f.payload.length)) =
        s.result + (f.header.length + f.payload.length) := Core.u16_of_lt (by omega)
    unfold round
    rw [hleft, decoder_control hpending hcontrol hfin]
    dsimp only
    rw [if_neg (by omega), if_neg (not_not.mpr hvalid), if_pos hbit, if_pos hpending, hlength]
    dsimp only
    rw [hskip, hresult, ← hleft, List.take_append_drop]
  rw [hround]
  refine ⟨rfl, rfl, rfl, ?_, by simp, rfl, rfl⟩
  rw [List.drop_drop]

/-- What a round leaves to be done. -/
structure Round (binary : Bool) (raw rest : List UInt8) (frames : List Frame)
    (future : List UInt8) (s s' : Receiver) (count : Nat) (bytes types : List UInt8)
    (raw' rest' : List UInt8) (frames' : List Frame) : Prop where
  reading : ∃ inMessage, Reading binary inMessage raw' rest' frames' future s'
  consumes : Consumes s s' count bytes types
  count_pos : 0 < count
  count_le : s.result + count ≤ s.dataFrame.length
  payloads : bytes ++ (rest' ++ payloads frames') = rest ++ payloads frames
  controls : types ++ (controls frames').map Opcode.code = (controls frames).map Opcode.code
  cut : ∀ n, Cut frames' (n - count - raw'.length) → Cut frames (n - raw.length)

theorem Consumes.reading {s' : Receiver} {count : Nat} {bytes types : List UInt8}
    {inMessage' : Bool} {raw' rest' : List UInt8} {frames' : List Frame}
    (h : Reading binary inMessage raw rest frames future s) (hc : Consumes s s' count bytes types)
    (hle : s.result + count ≤ s.dataFrame.length)
    (hawaits : Awaits binary inMessage' raw' rest' s'.protocol) (hvalid : Valid inMessage' frames')
    (hframes : ∀ f ∈ frames', f ∈ frames)
    (hstream : (raw ++ encodeAll frames).drop count = raw' ++ encodeAll frames') :
    Reading binary inMessage' raw' rest' frames' future s' where
  awaits := hawaits
  valid := hvalid
  typed := fun f hf => h.typed f (hframes f hf)
  short := fun f hf => h.short f (hframes f hf)
  inside := by rw [hc.result, hc.length]; exact hle
  size := by rw [hc.length]; exact h.size
  going := hc.going.trans h.going
  stream := by
    have hleft : count ≤ (s.dataFrame.drop s.result).length := by
      rw [List.length_drop]
      omega
    rw [hc.left, ← hstream, ← h.stream, List.drop_append_of_le_length hleft]

/-- A round goes on with a frame under way. -/
theorem Reading.round_more (h : Reading binary inMessage raw rest frames future s)
    (hmore : s.result < s.dataFrame.length) (hraw : raw ≠ []) :
    ∃ count bytes raw' rest', Round binary raw rest frames future s s.round count bytes [] raw' rest'
      frames := by
  obtain ⟨left, hleft⟩ : ∃ left, left = s.dataFrame.drop s.result := ⟨_, rfl⟩
  have hlength : left.length = s.dataFrame.length - s.result := by rw [hleft, List.length_drop]
  have hpos : 0 < raw.length := List.length_pos_iff.mpr hraw
  have hstream := h.stream
  rw [← hleft] at hstream
  have hdata : left.take (min left.length raw.length) = raw.take (min left.length raw.length) := by
    have := congrArg (List.take (min left.length raw.length)) hstream
    rwa [List.take_append_of_le_length (by omega), List.take_append_of_le_length (by omega)] at this
  obtain ⟨hreceived, hheader, hframe, htype, hawaits⟩ := h.awaits.decodeMore left hdata
  have hd : s.protocol.decoder (s.dataFrame.drop s.result) = s.protocol.decodeMore left := by
    rw [decoder, if_pos (by rw [h.awaits.pending]; exact hpos), hleft]
  have hbody : (rest.take (min left.length raw.length)).length = min left.length raw.length := by
    rw [List.length_take, h.awaits.length]
    omega
  obtain ⟨hprotocol, hconsumes⟩ := round_data h [] hd hheader (hreceived.trans hbody.symm)
    (by rw [hframe, ← hleft, hbody]; simp) (by simp only [List.length_nil]; omega)
    (by simp only [List.length_nil]; omega) (htype.trans (h.awaits.more hraw))
  rw [List.length_nil, Nat.zero_add, hbody] at hconsumes
  refine ⟨_, _, raw.drop (min left.length raw.length), rest.drop (min left.length raw.length),
    ⟨inMessage, hconsumes.reading h (by omega) (hprotocol ▸ hawaits) h.valid (fun f hf => hf) ?_⟩,
    hconsumes, by omega, by omega, ?_, rfl, ?_⟩
  · rw [List.drop_append_of_le_length (by omega)]
  · rw [← List.append_assoc, List.take_append_drop]
  · intro n hn
    rw [List.length_drop] at hn
    rwa [show n - min left.length raw.length - (raw.length - min left.length raw.length) =
      n - raw.length by omega] at hn

/-- A round begins a frame whose header is there. -/
theorem Reading.round_frame {f : Frame} {tail : List UInt8}
    (h : Reading binary inMessage [] rest (f :: frames) future s)
    (hleft : s.dataFrame.drop s.result = f.header ++ tail)
    (hwhole : ¬ Cut (f :: frames) (s.dataFrame.drop s.result).length) :
    ∃ count bytes types raw' rest', Round binary [] rest (f :: frames) future s s.round count bytes
      types raw' rest' frames := by
  have hrest : rest = [] := by rw [h.awaits.unmask, unmask_nil]
  subst hrest
  have htwo := f.two_le_header
  have hshort := h.short f List.mem_cons_self
  have hlength : f.header.length + tail.length = s.dataFrame.length - s.result := by
    rw [← List.length_append, ← hleft, List.length_drop]
  have hstream : tail ++ future = f.body ++ encodeAll frames := by
    have := h.stream
    rw [hleft, encodeAll_cons, Frame.encode, List.nil_append, List.append_assoc,
      List.append_assoc] at this
    exact List.append_cancel_left this
  have hdrop (k : Nat) (hk : k ≤ f.payload.length) :
      ([] ++ encodeAll (f :: frames)).drop (f.header.length + k) = f.body.drop k ++ encodeAll frames := by
    rw [List.nil_append, encodeAll_cons, Frame.encode, List.append_assoc, ← List.drop_drop,
      List.drop_left, List.drop_append_of_le_length (by rw [Frame.length_body]; exact hk)]
  have hinside := h.inside
  have hvalid := h.valid
  rw [Valid] at hvalid
  split at hvalid
  case isTrue hcontrol =>
    obtain ⟨hfin, hpayload, hvalid⟩ := hvalid
    have hthere : f.payload.length ≤ tail.length := by
      by_contra hless
      apply hwhole
      rw [Cut, if_pos (by rw [hleft, f.encode_length, List.length_append]; omega)]
      exact ⟨hcontrol, by rw [hleft, List.length_append]; omega⟩
    obtain ⟨hprotocol, hconsumes⟩ := round_control h hcontrol hfin hpayload hleft hthere
    have hawaits : Awaits binary inMessage [] [] s.round.protocol := by
      rw [hprotocol]
      have hb := h.awaits
      unfold react
      repeat' split
      all_goals exact awaits_between hb.type hb.message hb.spare hb.pending
    refine ⟨_, _, _, [], [], ⟨inMessage, hconsumes.reading h (by omega) hawaits hvalid
      (fun g hg => List.mem_cons_of_mem f hg) ?_⟩, hconsumes, by omega, by omega, ?_, ?_, ?_⟩
    · rw [hdrop _ le_rfl, List.drop_eq_nil_of_le (by simp)]
    · simp [hcontrol]
    · simp [controls_cons, hcontrol]
    · intro n hn
      apply Cut.cons
      rwa [f.encode_length]
  case isFalse hdata =>
    have hdata : f.isControl = false := Bool.of_not_eq_true hdata
    obtain ⟨hfollows, -, hvalid⟩ := hvalid
    have hsize : (f.header ++ tail).length < 65536 := by
      rw [← hleft, List.length_drop]
      have := h.size
      omega
    have htail : tail.take (min tail.length f.payload.length) =
        f.body.take (min tail.length f.payload.length) := by
      have := congrArg (List.take (min tail.length f.payload.length)) hstream
      rwa [List.take_append_of_le_length (by omega),
        List.take_append_of_le_length (by rw [Frame.length_body]; omega)] at this
    obtain ⟨hreceived, hheader, hframe, htype, hawaits⟩ :=
      decoder_data h.awaits hdata hfollows (h.typed f List.mem_cons_self) hshort hsize htail
    have hbody : (f.payload.take (min tail.length f.payload.length)).length =
        min tail.length f.payload.length := by
      rw [List.length_take]
      omega
    obtain ⟨hprotocol, hconsumes⟩ := round_data h f.header
      (congrArg s.protocol.decoder hleft) hheader (hreceived.trans hbody.symm)
      (by rw [hframe, hleft, hbody, ← List.drop_drop, List.drop_left]) (by omega) (by omega) htype
    rw [hbody] at hconsumes
    refine ⟨_, _, _, _, _, ⟨!f.fin, hconsumes.reading h (by omega) (hprotocol ▸ hawaits) hvalid
      (fun g hg => List.mem_cons_of_mem f hg) (hdrop _ (by omega))⟩, hconsumes, by omega, by omega,
      ?_, ?_, ?_⟩
    · rw [← List.append_assoc, List.take_append_drop]
      simp [hdata]
    · simp [controls_cons, hdata]
    · intro n hn
      apply Cut.cons
      rw [List.length_drop, Frame.length_body] at hn
      rwa [f.encode_length, List.length_nil, Nat.sub_zero, show n - (f.header.length + f.payload.length) =
        n - (f.header.length + min tail.length f.payload.length) -
          (f.payload.length - min tail.length f.payload.length) by omega]

/-- The loop ends when nothing is left, or the header of the next frame is not complete. -/
def Waits (raw : List UInt8) (frames : List Frame) (left : List UInt8) : Prop :=
  left = [] ∨ raw = [] ∧ ∃ f more, frames = f :: more ∧ left.length < f.header.length

theorem Reading.waits_or_starts (h : Reading binary inMessage raw rest frames future s)
    (hmore : s.result < s.dataFrame.length) :
    raw ≠ [] ∨ raw = [] ∧ ∃ f more, frames = f :: more ∧
      (((s.dataFrame.drop s.result).length < f.header.length ∧ s.round = { s with tooSmall := true }) ∨
        ∃ tail, s.dataFrame.drop s.result = f.header ++ tail) := by
  by_cases hraw : raw = []
  swap
  · exact .inl hraw
  subst hraw
  have hstream := h.stream
  rw [List.nil_append] at hstream
  cases frames with
  | nil =>
    have hnothing := (List.append_eq_nil_iff.mp hstream).1
    rw [List.drop_eq_nil_iff] at hnothing
    omega
  | cons f more =>
    refine .inr ⟨rfl, f, more, rfl, ?_⟩
    rw [encodeAll_cons, Frame.encode, List.append_assoc] at hstream
    by_cases hless : (s.dataFrame.drop s.result).length < f.header.length
    · refine .inl ⟨hless, ?_⟩
      unfold round
      rw [decoder_small h.awaits.pending hstream hless]
      dsimp only
      rw [if_pos ⟨rfl, rfl⟩, List.take_append_drop]
    · refine .inr ⟨(s.dataFrame.drop s.result).drop f.header.length, ?_⟩
      have htake := congrArg (List.take f.header.length) hstream
      rw [List.take_append_of_le_length (by omega), List.take_left] at htake
      conv_lhs => rw [← List.take_append_drop f.header.length (s.dataFrame.drop s.result), htake]

/-- What a call leaves to be done. -/
structure Ended (binary : Bool) (raw rest : List UInt8) (frames : List Frame)
    (future : List UInt8) (s s' : Receiver) (raw' rest' : List UInt8) (frames' : List Frame) :
    Prop where
  reading : ∃ inMessage, Reading binary inMessage raw' rest' frames' future
    { s' with tooSmall := false }
  length : s'.dataFrame.length = s.dataFrame.length
  result : s.result ≤ s'.result
  passed : s'.passed ++ (rest' ++ payloads frames') = s.passed ++ (rest ++ payloads frames)
  commands : s'.commands ++ (controls frames').map Opcode.code =
    s.commands ++ (controls frames).map Opcode.code
  cut : ∀ n, Cut frames' (n - (s'.result - s.result) - raw'.length) → Cut frames (n - raw.length)
  waits : Waits raw' frames' (s'.dataFrame.drop s'.result)

theorem Ended.of_round {s' s'' : Receiver} {count : Nat} {bytes types : List UInt8}
    {raw' rest' raw'' rest'' : List UInt8} {frames' frames'' : List Frame}
    (hr : Round binary raw rest frames future s s' count bytes types raw' rest' frames')
    (he : Ended binary raw' rest' frames' future s' s'' raw'' rest'' frames'') :
    Ended binary raw rest frames future s s'' raw'' rest'' frames'' where
  reading := he.reading
  length := he.length.trans hr.consumes.length
  result := by
    have := he.result
    have := hr.consumes.result
    omega
  passed := by
    rw [he.passed, hr.consumes.passed, List.append_assoc, hr.payloads]
  commands := by
    rw [he.commands, hr.consumes.commands, List.append_assoc, hr.controls]
  cut := by
    intro n hn
    apply hr.cut
    apply he.cut
    have := hr.consumes.result
    have := he.result
    rwa [show n - count - (s''.result - s'.result) = n - (s''.result - s.result) by omega]
  waits := he.waits

/-- A call of `ReceiveData` returns, and what it leaves waits for the next one. -/
theorem Reading.loop (h : Reading binary inMessage raw rest frames future s)
    (hwhole : ¬ Cut frames ((s.dataFrame.drop s.result).length - raw.length)) :
    ∃ fuel s' raw' rest' frames', (∀ more, Receiver.loop (fuel + more) s = some s') ∧
      Ended binary raw rest frames future s s' raw' rest' frames' := by
  induction hn : (s.dataFrame.drop s.result).length using Nat.strong_induction_on
    generalizing s raw rest frames inMessage with
  | _ n ih =>
    by_cases hmore : s.result < s.dataFrame.length
    swap
    · refine ⟨1, s, raw, rest, frames, ?_, ⟨inMessage, ?_⟩, rfl, le_rfl, rfl, rfl, ?_, .inl ?_⟩
      · intro more
        rw [Nat.add_comm, Receiver.loop, if_neg (by omega)]
      · exact { h with going := rfl }
      · intro n
        rw [Nat.sub_self, Nat.sub_zero]
        exact id
      · exact List.drop_eq_nil_of_le (by omega)
    have hcontinue {count : Nat} {bytes types raw' rest' : List UInt8} {frames' : List Frame}
        (hr : Round binary raw rest frames future s s.round count bytes types raw' rest' frames') :
        ∃ fuel s' raw' rest' frames', (∀ more, Receiver.loop (fuel + more) s = some s') ∧
          Ended binary raw rest frames future s s' raw' rest' frames' := by
      obtain ⟨inMessage', hreading⟩ := hr.reading
      have hcount := hr.count_pos
      have hle := hr.count_le
      have hleft : (s.round.dataFrame.drop s.round.result).length =
          (s.dataFrame.drop s.result).length - count := by
        rw [hr.consumes.left, List.length_drop]
      have hlength : (s.dataFrame.drop s.result).length = s.dataFrame.length - s.result :=
        List.length_drop ..
      obtain ⟨fuel, s', raw'', rest'', frames'', hloop, hended⟩ := ih _ (by omega) hreading
        (by
          intro hcut
          apply hwhole
          apply hr.cut
          rwa [hleft] at hcut) rfl
      refine ⟨fuel + 1, s', raw'', rest'', frames'', ?_, hended.of_round hr⟩
      intro more
      rw [show fuel + 1 + more = fuel + more + 1 by omega, Receiver.loop,
        if_pos ⟨hmore, h.going⟩]
      exact hloop more
    rcases h.waits_or_starts hmore with hraw | ⟨rfl, f, more, rfl, ⟨hless, hround⟩ | ⟨tail, hleft⟩⟩
    · obtain ⟨_, _, _, _, hr⟩ := h.round_more hmore hraw
      exact hcontinue hr
    · refine ⟨2, { s with tooSmall := true }, [], rest, f :: more, ?_, ⟨inMessage, ?_⟩, rfl, le_rfl,
        rfl, rfl, ?_, .inr ⟨rfl, f, more, rfl, hless⟩⟩
      · intro fuel
        rw [show 2 + fuel = fuel + 1 + 1 by omega, Receiver.loop, if_pos ⟨hmore, h.going⟩, hround,
          Receiver.loop, if_neg (by simp)]
      · exact { h with going := rfl }
      · intro n
        rw [Nat.sub_self, Nat.sub_zero]
        exact id
    · obtain ⟨_, _, _, _, _, hr⟩ := h.round_frame hleft hwhole
      exact hcontinue hr

theorem loop_mono {fuel : Nat} {s' : Receiver} (h : Receiver.loop fuel s = some s') (more : Nat) :
    Receiver.loop (fuel + more) s = some s' := by
  induction fuel generalizing s with
  | zero => cases h
  | succ fuel ih =>
    rw [show fuel + 1 + more = fuel + more + 1 by omega]
    rw [Receiver.loop] at h ⊢
    split
    case isTrue hgoes =>
      rw [if_pos hgoes] at h
      exact ih h
    case isFalse hends => rwa [if_neg hends] at h

end Receiver

/-! ### Calls of `ReceiveData` -/

namespace Session

open Protocol Receiver

/-- The chunk fits behind the bytes that are kept: the length of a buffer has 16 bits. -/
def Fits : Session → List (List UInt8) → Prop
  | _, [] => True
  | s, chunk :: chunks => s.kept.length + chunk.length < 65536 ∧
    ∀ fuel s', s.receive fuel chunk = some s' → Fits s' chunks

/-- What is wanted of the calls for a stream of frames: no call reports more than it was given, the
payloads are passed on, each control frame is seen, and the last call ends between two frames. -/
def Decodes (binary masking : Bool) (frames : List Frame) (chunks : List (List UInt8)) : Prop :=
  ∃ fuel s, receiveAll fuel (new binary masking) chunks = some s ∧ s.overrun = false ∧
    s.passed = payloads frames ∧ s.commands = (controls frames).map Opcode.code ∧
    s.kept = [] ∧ s.protocol.pendingReceiveBytes = 0

/-- The receiver at the start of a call. -/
def receiver (s : Session) (chunk : List UInt8) : Receiver :=
  ⟨s.protocol, s.kept ++ chunk, 0, false, s.passed, s.commands⟩

variable {binary inMessage : Bool} {raw rest future : List UInt8} {frames : List Frame}
  {s s' : Session} {chunks : List (List UInt8)}

theorem receive_mono {fuel : Nat} {chunk : List UInt8} (h : s.receive fuel chunk = some s')
    (more : Nat) : s.receive (fuel + more) chunk = some s' := by
  unfold receive at h ⊢
  cases hloop : Receiver.loop fuel ⟨s.protocol, s.kept ++ chunk, 0, false, s.passed, s.commands⟩ with
  | none =>
    rw [hloop] at h
    cases h
  | some r => rwa [loop_mono hloop, ← hloop]

theorem receiveAll_mono {fuel : Nat} (h : receiveAll fuel s chunks = some s') (more : Nat) :
    receiveAll (fuel + more) s chunks = some s' := by
  induction chunks generalizing s with
  | nil => exact h
  | cons chunk chunks ih =>
    unfold receiveAll at h ih ⊢
    rw [List.foldlM_cons] at h ⊢
    cases hfirst : s.receive fuel chunk with
    | none =>
      rw [hfirst] at h
      cases h
    | some s₁ =>
      rw [hfirst] at h
      rw [receive_mono hfirst]
      exact ih h

theorem receive_unique {fuel fuel' : Nat} {chunk : List UInt8} {s₁ s₂ : Session}
    (h : s.receive fuel chunk = some s₁) (h' : s.receive fuel' chunk = some s₂) : s₁ = s₂ := by
  have h1 := receive_mono h fuel'
  have h2 := receive_mono h' fuel
  rw [Nat.add_comm] at h2
  exact Option.some.inj (h1.symm.trans h2)

theorem receiveAll_unique {fuel fuel' : Nat} {s₁ s₂ : Session}
    (h : receiveAll fuel s chunks = some s₁) (h' : receiveAll fuel' s chunks = some s₂) :
    s₁ = s₂ := by
  have h1 := receiveAll_mono h fuel'
  have h2 := receiveAll_mono h' fuel
  rw [Nat.add_comm] at h2
  exact Option.some.inj (h1.symm.trans h2)

/-- A session between two calls. -/
structure Between (binary inMessage : Bool) (raw rest : List UInt8) (frames : List Frame)
    (future : List UInt8) (s : Session) : Prop where
  reading : Reading binary inMessage raw rest frames future (s.receiver [])
  waits : Waits raw frames s.kept
  honest : s.overrun = false

theorem Between.receive {chunk : List UInt8}
    (h : Between binary inMessage raw rest frames (chunk ++ future) s)
    (hfits : s.kept.length + chunk.length < 65536)
    (hwhole : ¬ Cut frames (s.kept.length + chunk.length - raw.length)) :
    ∃ fuel s' inMessage' raw' rest' frames', (∀ more, s.receive (fuel + more) chunk = some s') ∧
      Between binary inMessage' raw' rest' frames' future s' ∧
      s'.passed ++ (rest' ++ payloads frames') = s.passed ++ (rest ++ payloads frames) ∧
      s'.commands ++ (controls frames').map Opcode.code =
        s.commands ++ (controls frames).map Opcode.code ∧
      ∀ n, Cut frames' (s'.kept.length + n - raw'.length) →
        Cut frames (s.kept.length + chunk.length + n - raw.length) := by
  have hr := h.reading
  have hreading : Reading binary inMessage raw rest frames future (s.receiver chunk) := by
    refine { hr with inside := Nat.zero_le _, size := ?_, stream := ?_ }
    · simpa [receiver] using hfits
    · simpa [receiver] using hr.stream
  obtain ⟨fuel, r, raw', rest', frames', hloop, hended⟩ := hreading.loop (by
    simpa [receiver] using hwhole)
  obtain ⟨inMessage', hlast⟩ := hended.reading
  have hinside : r.result ≤ r.dataFrame.length := hlast.inside
  refine ⟨fuel, ⟨r.protocol, r.dataFrame.drop r.result, r.passed, r.commands, false⟩, inMessage',
    raw', rest', frames', ?_, ⟨?_, hended.waits, rfl⟩, hended.passed, hended.commands, ?_⟩
  · intro more
    unfold Session.receive
    rw [show (⟨s.protocol, s.kept ++ chunk, 0, false, s.passed, s.commands⟩ : Receiver) =
      s.receiver chunk from rfl, hloop more]
    simp [h.honest, hinside]
  · have hsize := hlast.size
    refine ⟨hlast.awaits, hlast.valid, hlast.typed, hlast.short, Nat.zero_le _, ?_, rfl, ?_⟩
    · simp only [receiver, List.append_nil, List.length_drop] at hsize ⊢
      omega
    · simpa [receiver] using hlast.stream
  · intro n hn
    apply hended.cut
    have hlength : r.dataFrame.length = s.kept.length + chunk.length := by
      rw [hended.length]
      exact List.length_append
    rw [List.length_drop] at hn
    rwa [show s.kept.length + chunk.length + n - (r.result - (s.receiver chunk).result) - raw'.length =
      r.dataFrame.length - r.result + n - raw'.length by
        rw [show (s.receiver chunk).result = 0 from rfl]
        omega]

theorem Between.receiveAll (h : Between binary inMessage raw rest frames chunks.flatten s)
    (hfits : s.Fits chunks) (hwhole : ∀ chunks', chunks' <+: chunks →
      ¬ Cut frames (s.kept.length + chunks'.flatten.length - raw.length)) :
    ∃ fuel s' inMessage' raw' rest' frames', Session.receiveAll fuel s chunks = some s' ∧
      Between binary inMessage' raw' rest' frames' [] s' ∧
      s'.passed ++ (rest' ++ payloads frames') = s.passed ++ (rest ++ payloads frames) ∧
      s'.commands ++ (controls frames').map Opcode.code =
        s.commands ++ (controls frames).map Opcode.code := by
  induction chunks generalizing s inMessage raw rest frames with
  | nil => exact ⟨0, s, inMessage, raw, rest, frames, rfl, h, rfl, rfl⟩
  | cons chunk chunks ih =>
    have hfirst := hwhole [chunk] (List.cons_prefix_cons.mpr ⟨rfl, List.nil_prefix⟩)
    obtain ⟨fuel, s₁, inMessage₁, raw₁, rest₁, frames₁, hreceive, hbetween, hpassed, hcommands, hcut⟩ :=
      Between.receive (by simpa using h) hfits.1 (by simpa using hfirst)
    obtain ⟨fuel', s', inMessage', raw', rest', frames', hall, hlast, hpassed', hcommands'⟩ :=
      ih hbetween (hfits.2 fuel s₁ (hreceive 0)) (by
        intro chunks' hstart hcut'
        apply hwhole (chunk :: chunks') (List.cons_prefix_cons.mpr ⟨rfl, hstart⟩)
        have := hcut _ hcut'
        rwa [List.flatten_cons, List.length_append, ← Nat.add_assoc])
    refine ⟨fuel + fuel', s', inMessage', raw', rest', frames', ?_, hlast, hpassed'.trans hpassed,
      hcommands'.trans hcommands⟩
    have hmore := receiveAll_mono hall fuel
    rw [Nat.add_comm] at hmore
    unfold Session.receiveAll at hmore ⊢
    rw [List.foldlM_cons, hreceive fuel']
    exact hmore

theorem encodeAll_nonempty (f : Frame) (frames : List Frame) (tail : List UInt8) :
    f.header.length ≤ (encodeAll (f :: frames) ++ tail).length := by
  simp [Frame.encode]

/-- A stream of valid frames whose messages have the type of the link and whose payloads need no
length of 64 bits is decoded, when no chunk ends within a control frame behind its header. -/
theorem decodes (binary masking : Bool) (frames : List Frame) (chunks : List (List UInt8))
    (hvalid : Valid false frames) (hchunks : chunks.flatten = encodeAll frames)
    (hfits : (new binary masking).Fits chunks) (htyped : ∀ f ∈ frames, Typed binary f)
    (hshort : ∀ f ∈ frames, f.payload.length < 65536)
    (hwhole : ∀ chunks', chunks' <+: chunks → ¬ Cut frames chunks'.flatten.length) :
    Decodes binary masking frames chunks := by
  have hstart : Between binary false [] [] frames chunks.flatten (new binary masking) :=
    ⟨⟨new_awaits binary masking, hvalid, htyped, hshort, le_rfl, Nat.zero_lt_succ _, rfl, hchunks⟩,
      .inl rfl, rfl⟩
  obtain ⟨fuel, s', inMessage', raw', rest', frames', hall, hlast, hpassed, hcommands⟩ :=
    hstart.receiveAll hfits (by simpa [new] using hwhole)
  have hstream : s'.kept = raw' ++ encodeAll frames' := by
    simpa [receiver] using hlast.reading.stream
  have hnothing : raw' = [] ∧ frames' = [] := by
    have hheader (f : Frame) (more : List Frame) : 2 ≤ (encodeAll (f :: more)).length := by
      have := encodeAll_nonempty f more []
      have := f.two_le_header
      rw [List.append_nil] at *
      omega
    rcases hlast.waits with hnone | ⟨hraw, f, more, rfl, hless⟩
    · obtain ⟨hraw, hframes⟩ := List.append_eq_nil_iff.mp (hstream.symm.trans hnone)
      refine ⟨hraw, ?_⟩
      cases frames' with
      | nil => rfl
      | cons f more =>
        have := hheader f more
        rw [hframes, List.length_nil] at this
        omega
    · have := encodeAll_nonempty f more []
      rw [hstream, hraw] at hless
      rw [List.append_nil] at this
      exact absurd hless (by simpa using this)
  obtain ⟨rfl, rfl⟩ := hnothing
  have hrest : rest' = [] := by rw [hlast.reading.awaits.unmask, unmask_nil]
  subst hrest
  exact ⟨fuel, s', hall, hlast.honest, by simpa [new, payloads] using hpassed,
    by simpa [new, controls] using hcommands, by simpa using hstream, hlast.reading.awaits.pending⟩

/-- A message in two masked frames, with a ping between them. -/
def fragmented : List Frame :=
  [⟨false, .binary, some fun i => UInt8.ofNat (i + 1), [0x41, 0x42]⟩,
    ⟨true, .ping, some fun _ => 0x55, [0x43]⟩, ⟨true, .continuation, none, [0x44]⟩]

theorem decodes_fragmented : Decodes true false fragmented [encodeAll fragmented] := by
  apply decodes
  · simp [fragmented, Valid, Frame.isControl, Opcode.isControl]
  · simp
  · exact ⟨by decide, fun _ _ _ => trivial⟩
  · simp [fragmented, Typed, messageType, Frame.isControl, Opcode.isControl, Opcode.code]
  · simp [fragmented]
  · intro chunks' hstart
    rcases chunks' with _ | ⟨chunk, _ | ⟨next, rest⟩⟩
    · exact not_cut_zero _
    · obtain ⟨rfl, -⟩ := List.cons_prefix_cons.mp hstart
      decide
    · have := hstart.length_le
      simp at this

/-- A chunk that ends behind the header of a ping: the call reports its payload as consumed. -/
theorem not_decodes_ping : Valid false [⟨true, .ping, none, [0x41]⟩] ∧
    [[0x89, 0x01], [0x41]].flatten = encodeAll [⟨true, .ping, none, [0x41]⟩] ∧
    (new true false).Fits [[0x89, 0x01], [0x41]] ∧
    ¬ Decodes true false [⟨true, .ping, none, [0x41]⟩] [[0x89, 0x01], [0x41]] := by
  refine ⟨by simp [Valid, Frame.isControl, Opcode.isControl], rfl, ⟨by decide, ?_⟩, ?_⟩
  · intro fuel s' hs'
    have hrun : ((receive 5 (new true false) [0x89, 0x01]).map fun s => s.kept.length) = some 0 := by
      decide
    obtain ⟨s₁, hs₁, hkept⟩ := Option.map_eq_some_iff.mp hrun
    cases receive_unique hs' hs₁
    exact ⟨by rw [hkept]; decide, fun _ _ _ => trivial⟩
  · rintro ⟨fuel, s, hall, hhonest, -⟩
    have hrun : ((receiveAll 5 (new true false) [[0x89, 0x01], [0x41]]).map fun s => s.overrun) =
        some true := by decide
    obtain ⟨s₁, hs₁, hoverrun⟩ := Option.map_eq_some_iff.mp hrun
    cases receiveAll_unique hall hs₁
    rw [hoverrun] at hhonest
    cases hhonest

end Session

end Thunder.Web
