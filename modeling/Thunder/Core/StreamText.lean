import Mathlib.Data.List.Infix
import Thunder.Core.Metadata
import Thunder.Library.Run
import Mathlib.Algebra.Group.Nat.Defs

/-! `StreamTextType`: texts that are written to a stream with a marker behind each of them, and read
back.  The sender keeps one offset for a text and its marker; all ones stand for a text that is
written and still to be reported.  The offset within the marker is taken the wrong way round, which
only shows where a call of `SendData` ends inside the marker. -/

namespace Thunder.Core.StreamText

open Run

/-- `TerminatorNull`, `TerminatorCarriageReturn` and `TerminatorCarriageReturnLineFeed`. -/
inductive Terminator
  | null
  | carriageReturn
  | carriageReturnLineFeed
  deriving DecidableEq, Repr

namespace Terminator

def sizeOf : Terminator → Nat
  | null => 1
  | carriageReturn => 1
  | carriageReturnLineFeed => 2

def marker : Terminator → Text
  | null => [0]
  | carriageReturn => [0x0A]
  | carriageReturnLineFeed => [0x0A, 0x0D]

/-- `IsTerminated`: its answer, and `_triggered` behind it. -/
def isTerminated (terminator : Terminator) (triggered character : UInt8) : UInt8 × UInt8 :=
  match terminator with
  | null => (if character = 0 then 0x80 ||| 0x00 else 0x00, triggered)
  | carriageReturn => (if character = 0x0A then 0x80 ||| 0x00 else 0x00, triggered)
  | carriageReturnLineFeed =>
    if triggered &&& 0x03 = 0x00 then
      let triggered : UInt8 :=
        (if character = 0x0A then 0x01 else 0x00) ||| (if character = 0x0D then 0x02 else 0x00)
      (if triggered &&& 0x03 ≠ 0 then 0x40 ||| 0x00 else 0x00, triggered)
    else
      let triggered : UInt8 := triggered |||
        ((if character = 0x0A then 0x04 else 0x00) ||| (if character = 0x0D then 0x08 else 0x00))
      if triggered = 0x09 ∨ triggered = 0x06 then (0x80 ||| 0x00 ||| 0x01, 0)
      else if triggered = 0x10 ∨ triggered = 0x20 then (0x00, 0)
      else (0x00 ||| 0x40 ||| 0x00, triggered &&& 0x03)

end Terminator

/-! ### The sender -/

/-- The offset of a text that is written and still to be reported. -/
def allOnes : Nat := 4294967295

structure Sender where
  sendQueue : List Text
  offset : Nat
  deriving DecidableEq, Repr

/-- A call of `SendData`: what it wrote to the frame, and the text that it reported. -/
structure Sent where
  sender : Sender
  dataFrame : Text
  reported : Option Text
  deriving DecidableEq, Repr

namespace Sender

/-- The report at the start of `SendData`. -/
def ready (s : Sender) : Option Text × Sender :=
  if s.offset = allOnes then (s.sendQueue.head?, ⟨s.sendQueue.tail, 0⟩) else (none, s)

/-- `SendCharacters` from the marker, a literal with a closing NUL; a copy that leaves the literal
or the frame has no result. -/
def sendMarker (terminator : Terminator) (markerOffset size room : Nat) : Option Text :=
  if markerOffset + size ≤ terminator.sizeOf + 1 ∧ size ≤ room then
    some (((terminator.marker ++ [0]).drop markerOffset).take size)
  else none

def sendData (terminator : Terminator) (s : Sender) (maxSendSize : Nat) : Option Sent :=
  let (reported, s) := s.ready
  match s.sendQueue with
  | [] => some ⟨s, [], reported⟩
  | text :: _ =>
    let result := if s.offset < text.length then min (text.length - s.offset) maxSendSize else 0
    let body := (text.drop s.offset).take result
    let offset := (s.offset + result) % 2 ^ 32
    if maxSendSize ≠ result ∧ text.length ≤ offset ∧ offset < text.length + terminator.sizeOf then
      -- both are bytes; in front of the second character of a marker the offset is 255
      let markerSize := terminator.sizeOf
      let markerOffset := (((text.length : Int) - offset) % 256).toNat
      let left : Int := (markerSize : Int) - markerOffset
      let room : Int := (maxSendSize : Int) - result
      let size := ((if left > room then room else left) % 65536).toNat
      (sendMarker terminator markerOffset size (maxSendSize - result)).map fun marker =>
        let offset := if size + markerOffset = markerSize then allOnes else (offset + size) % 2 ^ 32
        ⟨{ s with offset := offset }, body ++ marker, reported⟩
    else some ⟨{ s with offset := offset }, body, reported⟩

end Sender

/-! ### The receiver -/

structure Receiver where
  receiver : Text
  triggered : UInt8
  deriving DecidableEq, Repr

namespace Receiver

/-- A turn of the loop of `ReceiveData`, with the text that it reports. -/
def receiveCharacter (terminator : Terminator) (r : Receiver) (character : UInt8) :
    Receiver × Option Text :=
  let (terminated, triggered) := terminator.isTerminated r.triggered character
  if terminated &&& 0x80 = 0 then (⟨r.receiver ++ [character], triggered⟩, none)
  else (⟨[], triggered⟩, some (r.receiver.take (r.receiver.length - (terminated &&& 0x03).toNat)))

def receiveData (terminator : Terminator) (r : Receiver) : Text → Receiver × List Text
  | [] => (r, [])
  | character :: dataFrame =>
    let (r, reported) := receiveCharacter terminator r character
    let (r, texts) := receiveData terminator r dataFrame
    (r, reported.toList ++ texts)

end Receiver

/-! ### The link -/

/-- A text without a character of the terminator. -/
structure Line (terminator : Terminator) where
  text : Text
  clean : ∀ c ∈ terminator.marker, c ∉ text

/-- The size of a buffer. -/
structure BufferSize where
  size : Nat
  pos : 1 ≤ size
  narrow : size < 65536

/-- A call of `SendData`, and whether there was a text left to write. -/
structure Call where
  maxSendSize : Nat
  result : Nat
  left : Bool
  deriving DecidableEq, Repr

/-- A sender and a receiver; `wire` is what is written and not yet received.  The other fields are
the history: what was received of the stream, the texts that were submitted, reported as sent and
reported as received, and the calls of `SendData`. -/
structure Link where
  sender : Sender
  receiver : Receiver
  wire : Text
  consumed : Text
  submitted : List Text
  sent : List Text
  received : List Text
  calls : List Call
  fault : Bool
  deriving DecidableEq, Repr

inductive Op (terminator : Terminator)
  | submit (line : Line terminator)
  | send (maxSendSize : BufferSize)
  | receive (size : BufferSize)

namespace Link

variable {terminator : Terminator}

def new : Link where
  sender := ⟨[], 0⟩
  receiver := ⟨[], 0⟩
  wire := []
  consumed := []
  submitted := []
  sent := []
  received := []
  calls := []
  fault := false

/-- `Submit` on an open channel. -/
def submit (s : Link) (element : Text) : Link :=
  { s with
    sender := { s.sender with sendQueue := s.sender.sendQueue ++ [element] }
    submitted := s.submitted ++ [element] }

def send (terminator : Terminator) (s : Link) (maxSendSize : Nat) : Link :=
  match s.sender.sendData terminator maxSendSize with
  | none => { s with fault := true }
  | some sent =>
    { s with
      sender := sent.sender
      wire := s.wire ++ sent.dataFrame
      sent := s.sent ++ sent.reported.toList
      calls := s.calls ++
        [⟨maxSendSize, sent.dataFrame.length, !s.sender.ready.2.sendQueue.isEmpty⟩] }

def receive (terminator : Terminator) (s : Link) (size : Nat) : Link :=
  let (receiver, texts) := s.receiver.receiveData terminator (s.wire.take size)
  { s with
    receiver := receiver
    wire := s.wire.drop size
    consumed := s.consumed ++ s.wire.take size
    received := s.received ++ texts }

def step (s : Link) : Op terminator → Link
  | .submit line => s.submit line.text
  | .send maxSendSize => s.send terminator maxSendSize.size
  | .receive size => s.receive terminator size.size

end Link

/-- A text with its marker. -/
def frame (terminator : Terminator) (text : Text) : Text := text ++ terminator.marker

def frames (terminator : Terminator) (texts : List Text) : Text := texts.flatMap (frame terminator)

/-- What is still to be written. -/
def Sender.pending (terminator : Terminator) (s : Sender) : Text :=
  if s.offset = allOnes then frames terminator s.sendQueue.tail
  else
    match s.sendQueue with
    | [] => []
    | text :: rest => (frame terminator text).drop s.offset ++ frames terminator rest

/-- The receiver has seen the frames of all texts but the `later` ones, and `part` of the frame of
the first of these. -/
def Amid (terminator : Terminator) (later : List Text) (part : Text) : Prop :=
  match later with
  | [] => part = []
  | text :: _ => part <+: frame terminator text ∧ part ≠ frame terminator text

/-- What is written and what is still to be written are the texts with their markers; the texts that
are reported as sent are the submitted ones but for those in the queue; every call of `SendData`
kept to its buffer and wrote something if there was something left; and the receiver has reported
exactly the texts whose frames have arrived. -/
structure Link.Faithful (terminator : Terminator) (s : Link) : Prop where
  intact : s.fault = false
  stream : s.consumed ++ s.wire ++ s.sender.pending terminator = frames terminator s.submitted
  once : s.sent ++ s.sender.sendQueue = s.submitted
  calls : ∀ call ∈ s.calls,
    call.result ≤ call.maxSendSize ∧ (call.left = true → 1 ≤ call.result)
  received : ∃ later part, s.submitted = s.received ++ later ∧
    s.consumed = frames terminator s.received ++ part ∧ Amid terminator later part

/-- `SendData` is not called in front of the second character of a marker, and does not leave an
offset of all ones or more in a text that it does not complete. -/
def Link.KeepsMarker (s : Link) : Op terminator → Prop
  | .send maxSendSize =>
    match s.sender.ready.2.sendQueue with
    | [] => True
    | text :: _ =>
      s.sender.ready.2.offset ≤ text.length ∧
      (s.sender.ready.2.offset + maxSendSize.size < allOnes ∨
        text.length + terminator.sizeOf ≤ s.sender.ready.2.offset + maxSendSize.size ∧
          text.length < 2 ^ 32)
  | _ => True

/-! ### A call of `SendData` -/

namespace Terminator

variable (terminator : Terminator)

theorem length_marker : terminator.marker.length = terminator.sizeOf := by
  cases terminator <;> rfl

theorem sizeOf_bounds : 1 ≤ terminator.sizeOf ∧ terminator.sizeOf ≤ 2 := by
  cases terminator <;> decide

end Terminator

section Sending

variable {terminator : Terminator} {s s' : Sender} {reported : Option Text} {text : Text}
  {rest : List Text} {max : Nat}

@[simp] theorem length_frame (terminator : Terminator) (text : Text) :
    (frame terminator text).length = text.length + terminator.sizeOf := by
  rw [frame, List.length_append, Terminator.length_marker]

/-- In front of the marker the whole marker is copied as far as there is room. -/
theorem sendMarker_start (size room : Nat) (hsize : size ≤ terminator.sizeOf)
    (hroom : size ≤ room) :
    Sender.sendMarker terminator 0 size room = some (terminator.marker.take size) := by
  have hlen := terminator.length_marker
  rw [Sender.sendMarker, if_pos ⟨by omega, hroom⟩, List.drop_zero, List.take_append_of_le_length]
  omega

/-- A copy from far behind the marker. -/
theorem sendMarker_outside (terminator : Terminator) (size room : Nat) :
    Sender.sendMarker terminator 255 size room = none := by
  have hbounds := terminator.sizeOf_bounds
  rw [Sender.sendMarker, if_neg (by omega)]

/-- The part of the text that a call takes. -/
theorem result_eq {o n : Nat} (hoffset : o ≤ n) :
    (if o < n then min (n - o) max else 0) = min (n - o) max := by
  split_ifs
  · rfl
  · omega

/-- The offset within the marker, in front of it. -/
theorem markerOffset_start (n : Nat) : (((n : Int) - n) % 256).toNat = 0 := by
  simp

/-- The size of the copy in front of the marker. -/
theorem markerSize_start {k room : Nat} (hk : k ≤ 2) (n r : Nat) (hroom : n - r = room)
    (hr : r ≤ n) (h : n < 65536) :
    ((if ((k : Int) - (0 : Nat)) > (n : Int) - r then (n : Int) - r else (k : Int) - (0 : Nat)) %
      65536).toNat = min k room := by
  split_ifs <;> omega

theorem sendData_nil (hready : s.ready = (reported, s')) (hqueue : s'.sendQueue = []) :
    s.sendData terminator max = some ⟨s', [], reported⟩ := by
  simp only [Sender.sendData, hready, hqueue]

/-- A call that does not come to the end of the marker. -/
theorem sendData_part (hready : s.ready = (reported, s')) (hqueue : s'.sendQueue = text :: rest)
    (hoffset : s'.offset ≤ text.length) (hnarrow : max < 65536)
    (hpart : s'.offset + max < text.length + terminator.sizeOf)
    (hwide : text.length < 2 ^ 32 ∨ max ≤ text.length - s'.offset) :
    s.sendData terminator max = some ⟨⟨text :: rest, (s'.offset + max) % 2 ^ 32⟩,
      ((frame terminator text).drop s'.offset).take max, reported⟩ := by
  obtain ⟨queue, o⟩ := s'
  dsimp only at hqueue hoffset hpart hwide ⊢
  subst hqueue
  have hbounds := terminator.sizeOf_bounds
  have hframe : (frame terminator text).drop o = text.drop o ++ terminator.marker :=
    List.drop_append_of_le_length hoffset
  simp only [Sender.sendData, hready, result_eq hoffset, hframe]
  by_cases hbody : max ≤ text.length - o
  · have htake : (text.drop o ++ terminator.marker).take max = (text.drop o).take max :=
      List.take_append_of_le_length (by rw [List.length_drop]; exact hbody)
    rw [Nat.min_eq_right hbody, if_neg fun h => h.1 rfl, htake]
  · have hmin : min (text.length - o) max = text.length - o := Nat.min_eq_left (by omega)
    have hend : o + (text.length - o) = text.length := by omega
    have hmod : text.length % 2 ^ 32 = text.length :=
      Nat.mod_eq_of_lt (hwide.resolve_right hbody)
    have hroom : max - (text.length - o) = 1 := by omega
    have hcond : max ≠ text.length - o ∧ text.length ≤ text.length ∧
        text.length < text.length + terminator.sizeOf := by omega
    have hsize := markerSize_start hbounds.2 max (text.length - o) hroom (by omega) hnarrow
    have hone : min terminator.sizeOf 1 = 1 := by omega
    rw [hone] at hsize
    have htake : (text.drop o ++ terminator.marker).take max =
        text.drop o ++ terminator.marker.take 1 := by
      rw [List.take_append, List.length_drop, hroom, List.take_of_length_le]
      rw [List.length_drop]
      omega
    have hall : (text.drop o).take (text.length - o) = text.drop o :=
      List.take_of_length_le (Nat.le_of_eq List.length_drop)
    rw [hmin, hend, hmod, if_pos hcond, markerOffset_start, hsize, hroom,
      sendMarker_start 1 1 hbounds.1 (Nat.le_refl 1), htake, hall]
    have hmore : ¬ 1 + 0 = terminator.sizeOf := by omega
    have hsum : text.length + 1 = o + max := by omega
    rw [Option.map_some, if_neg hmore, hsum]

/-- A call that completes the text and its marker. -/
theorem sendData_whole (hready : s.ready = (reported, s')) (hqueue : s'.sendQueue = text :: rest)
    (hoffset : s'.offset ≤ text.length) (hnarrow : max < 65536)
    (hwhole : text.length + terminator.sizeOf ≤ s'.offset + max) (hwide : text.length < 2 ^ 32) :
    s.sendData terminator max = some ⟨⟨text :: rest, allOnes⟩,
      (frame terminator text).drop s'.offset, reported⟩ := by
  obtain ⟨queue, o⟩ := s'
  dsimp only at hqueue hoffset hwhole ⊢
  subst hqueue
  have hbounds := terminator.sizeOf_bounds
  have hframe : (frame terminator text).drop o = text.drop o ++ terminator.marker :=
    List.drop_append_of_le_length hoffset
  have hmin : min (text.length - o) max = text.length - o := Nat.min_eq_left (by omega)
  have hend : o + (text.length - o) = text.length := by omega
  have hmod : text.length % 2 ^ 32 = text.length := Nat.mod_eq_of_lt hwide
  have hcond : max ≠ text.length - o ∧ text.length ≤ text.length ∧
      text.length < text.length + terminator.sizeOf := by omega
  have hsize := markerSize_start hbounds.2 max (text.length - o) rfl (by omega) hnarrow
  have hfull : min terminator.sizeOf (max - (text.length - o)) = terminator.sizeOf := by omega
  rw [hfull] at hsize
  have hmarker : terminator.marker.take terminator.sizeOf = terminator.marker :=
    List.take_of_length_le (Nat.le_of_eq terminator.length_marker)
  have hall : (text.drop o).take (text.length - o) = text.drop o :=
    List.take_of_length_le (Nat.le_of_eq List.length_drop)
  simp only [Sender.sendData, hready, result_eq hoffset, hframe]
  rw [hmin, hend, hmod, if_pos hcond, markerOffset_start, hsize,
    sendMarker_start _ _ (Nat.le_refl _) (by omega), hmarker, hall, Option.map_some,
    if_pos (Nat.add_zero _)]

/-- A text of 2^32 characters or more: the offset wraps, and the marker is not found. -/
theorem sendData_wrapped (hready : s.ready = (reported, s')) (hqueue : s'.sendQueue = text :: rest)
    (hoffset : s'.offset ≤ text.length) (hend : text.length - s'.offset < max)
    (hwide : 2 ^ 32 ≤ text.length) :
    s.sendData terminator max = some ⟨⟨text :: rest, text.length % 2 ^ 32⟩,
      text.drop s'.offset, reported⟩ := by
  obtain ⟨queue, o⟩ := s'
  dsimp only at hqueue hoffset hend ⊢
  subst hqueue
  have hmin : min (text.length - o) max = text.length - o := Nat.min_eq_left (by omega)
  have hsum : o + (text.length - o) = text.length := by omega
  have hcond : ¬ (max ≠ text.length - o ∧ text.length ≤ text.length % 2 ^ 32 ∧
      text.length % 2 ^ 32 < text.length + terminator.sizeOf) := by omega
  have hall : (text.drop o).take (text.length - o) = text.drop o :=
    List.take_of_length_le (Nat.le_of_eq List.length_drop)
  simp only [Sender.sendData, hready, result_eq hoffset]
  rw [hmin, hsum, if_neg hcond, hall]

/-- A call in front of the second character of a marker. -/
theorem sendData_half (hready : s.ready = (reported, s')) (hqueue : s'.sendQueue = text :: rest)
    (hoffset : s'.offset = text.length + 1) (htwo : terminator.sizeOf = 2)
    (hsmall : s'.offset < allOnes) (hpos : 1 ≤ max) : s.sendData terminator max = none := by
  obtain ⟨queue, o⟩ := s'
  dsimp only at hqueue hoffset hsmall
  subst hqueue hoffset
  rw [allOnes] at hsmall
  have hmod : (text.length + 1 + 0) % 2 ^ 32 = text.length + 1 := Nat.mod_eq_of_lt (by omega)
  have hmarkerOffset : (((text.length : Int) - (text.length + 1 : Nat)) % 256).toNat = 255 := by
    omega
  have hcond : max ≠ 0 ∧ text.length ≤ text.length + 1 ∧ text.length + 1 < text.length + 2 := by
    omega
  have hsize : ((if ((2 : Nat) : Int) - (255 : Nat) > (max : Int) - (0 : Nat) then
      (max : Int) - (0 : Nat) else ((2 : Nat) : Int) - (255 : Nat)) % 65536).toNat = 65283 := by
    split_ifs <;> omega
  simp only [Sender.sendData, hready]
  rw [if_neg (show ¬ text.length + 1 < text.length by omega), hmod, htwo, if_pos hcond,
    hmarkerOffset, hsize, sendMarker_outside, Option.map_none]

/-! ### What a call leaves -/

theorem zero_ne_allOnes : 0 ≠ allOnes := by decide

theorem ready_cases (s : Sender) :
    (s.offset = allOnes ∧ s.ready = (s.sendQueue.head?, ⟨s.sendQueue.tail, 0⟩)) ∨
    s.offset ≠ allOnes ∧ s.ready = (none, s) := by
  by_cases h : s.offset = allOnes
  · exact .inl ⟨h, by rw [Sender.ready, if_pos h]⟩
  · exact .inr ⟨h, by rw [Sender.ready, if_neg h]⟩

/-- The report changes nothing of what is still to be written. -/
theorem pending_ready (s : Sender) : s.ready.2.pending terminator = s.pending terminator := by
  rcases ready_cases s with ⟨h, heq⟩ | ⟨-, heq⟩
  · rw [heq, Sender.pending, Sender.pending, if_pos h, if_neg zero_ne_allOnes]
    cases s.sendQueue.tail with
    | nil => rfl
    | cons text rest => simp [frames]
  · rw [heq]

theorem once_ready {s : Sender} (h : s.offset = allOnes → s.sendQueue ≠ []) :
    s.ready.1.toList ++ s.ready.2.sendQueue = s.sendQueue := by
  rcases ready_cases s with ⟨hoffset, heq⟩ | ⟨-, heq⟩
  · obtain ⟨text, rest, hqueue⟩ := List.exists_cons_of_ne_nil (h hoffset)
    rw [heq, hqueue]
    rfl
  · rw [heq]
    rfl

theorem pending_at {o : Nat} (h : o ≠ allOnes) :
    Sender.pending terminator ⟨text :: rest, o⟩ =
      (frame terminator text).drop o ++ frames terminator rest := by
  rw [Sender.pending, if_neg h]

theorem pending_done : Sender.pending terminator ⟨text :: rest, allOnes⟩ =
    frames terminator rest := by
  rw [Sender.pending, if_pos rfl]
  rfl

/-- Where a sender may be between two calls: it has completed the first text, or it is in front of a
character of the frame of this text. -/
structure Placed (terminator : Terminator) (s : Sender) : Prop where
  done : s.offset = allOnes → s.sendQueue ≠ []
  idle : s.offset ≠ allOnes → s.sendQueue = [] → s.offset = 0
  amid : ∀ text rest, s.offset ≠ allOnes → s.sendQueue = text :: rest →
    s.offset < text.length + terminator.sizeOf
  small : s.offset ≤ allOnes

/-- Behind the report the sender is in front of a character, or idle. -/
theorem Placed.ready (h : Placed terminator s) : s.ready.2.offset < allOnes ∧
    (s.ready.2.sendQueue = [] → s.ready.2.offset = 0) ∧
    ∀ text rest, s.ready.2.sendQueue = text :: rest →
      s.ready.2.offset < text.length + terminator.sizeOf := by
  have hbounds := terminator.sizeOf_bounds
  rcases ready_cases s with ⟨-, heq⟩ | ⟨hne, heq⟩
  · rw [heq]
    exact ⟨Nat.pos_of_ne_zero zero_ne_allOnes.symm, fun _ => rfl,
      fun text rest _ => show 0 < text.length + _ by omega⟩
  · rw [heq]
    exact ⟨Nat.lt_of_le_of_ne h.small hne, h.idle hne, fun text rest => h.amid text rest hne⟩

/-- The next bytes of what is to be written go out, as many as the buffer takes, but never those of
a second text. -/
structure Moves (terminator : Terminator) (s : Sender) (max : Nat) (sent : Sent) : Prop where
  placed : Placed terminator sent.sender
  stream : sent.dataFrame ++ sent.sender.pending terminator = s.pending terminator
  queue : sent.sender.sendQueue = s.ready.2.sendQueue
  reported : sent.reported = s.ready.1
  short : sent.dataFrame.length ≤ max
  some : s.ready.2.sendQueue ≠ [] → 1 ≤ sent.dataFrame.length

theorem sendData_moves (h : Placed terminator s) (hpos : 1 ≤ max) (hnarrow : max < 65536)
    (hok : ∀ text rest, s.ready.2.sendQueue = text :: rest →
      s.ready.2.offset ≤ text.length ∧ (s.ready.2.offset + max < allOnes ∨
        text.length + terminator.sizeOf ≤ s.ready.2.offset + max ∧ text.length < 2 ^ 32)) :
    ∃ sent, s.sendData terminator max = some sent ∧ Moves terminator s max sent := by
  obtain ⟨hsmall, hidle, -⟩ := h.ready
  have hready : s.ready = (s.ready.1, s.ready.2) := rfl
  cases hqueue : s.ready.2.sendQueue with
  | nil =>
    have hstay : Placed terminator s.ready.2 := by
      refine ⟨fun hdone => ?_, fun _ => hidle, fun text rest _ hcons => ?_, Nat.le_of_lt hsmall⟩
      · exact absurd hdone (Nat.ne_of_lt hsmall)
      · rw [hqueue] at hcons
        cases hcons
    refine ⟨_, sendData_nil hready hqueue, hstay, ?_, rfl, rfl, Nat.zero_le _, ?_⟩
    · exact pending_ready s
    · exact fun hne => absurd hqueue hne
  | cons text rest =>
    obtain ⟨hoffset, hfit⟩ := hok text rest hqueue
    have hpending : s.pending terminator =
        (frame terminator text).drop s.ready.2.offset ++ frames terminator rest := by
      rw [← pending_ready, ← pending_at (Nat.ne_of_lt hsmall), ← hqueue]
    have hlength : ((frame terminator text).drop s.ready.2.offset).length =
        text.length + terminator.sizeOf - s.ready.2.offset := by
      rw [List.length_drop, length_frame]
    have hbounds := terminator.sizeOf_bounds
    rw [allOnes] at hsmall hfit
    by_cases hwhole : text.length + terminator.sizeOf ≤ s.ready.2.offset + max
    · have hwide : text.length < 2 ^ 32 := by omega
      refine ⟨_, sendData_whole hready hqueue hoffset hnarrow hwhole hwide,
        ⟨fun _ => List.cons_ne_nil _ _, fun hne => absurd rfl hne, fun _ _ hne => absurd rfl hne,
          Nat.le_refl _⟩, ?_, hqueue.symm, rfl, ?_, ?_⟩
      · rw [pending_done, hpending]
      · rw [hlength]
        omega
      · intro _
        rw [hlength]
        omega
    · have hmod : (s.ready.2.offset + max) % 2 ^ 32 = s.ready.2.offset + max :=
        Nat.mod_eq_of_lt (by omega)
      have hne : s.ready.2.offset + max ≠ allOnes := by
        rw [allOnes]
        omega
      refine ⟨_, sendData_part hready hqueue hoffset hnarrow (by omega) (by omega), ?_, ?_,
        hqueue.symm, rfl, ?_, ?_⟩
      · rw [hmod]
        refine ⟨fun _ => List.cons_ne_nil _ _, fun _ hnil => absurd hnil (List.cons_ne_nil _ _),
          ?_, Nat.le_of_lt (Nat.lt_of_le_of_ne ?_ hne)⟩
        · rintro text' rest' - hcons
          obtain ⟨rfl, rfl⟩ := List.cons.inj hcons
          exact Nat.lt_of_not_le hwhole
        · show s.ready.2.offset + max ≤ allOnes
          rw [allOnes]
          omega
      · rw [hmod, pending_at hne, hpending, ← List.append_assoc, ← List.drop_drop,
          List.take_append_drop]
      · exact List.length_take_le _ _
      · intro _
        rw [List.length_take, hlength]
        omega

theorem length_pending_at {o : Nat} (h : o ≠ allOnes) :
    (Sender.pending terminator ⟨text :: rest, o⟩).length =
      text.length + terminator.sizeOf - o + (frames terminator rest).length := by
  rw [pending_at h, List.length_append, List.length_drop, length_frame]

/-- A call that does not meet the conditions is an error, or leaves the wrong offset. -/
theorem sendData_needs (h : Placed terminator s) (hpos : 1 ≤ max) (hnarrow : max < 65536)
    (hqueue : s.ready.2.sendQueue = text :: rest)
    (hstream : ∃ sent, s.sendData terminator max = some sent ∧
      sent.dataFrame ++ sent.sender.pending terminator = s.pending terminator) :
    s.ready.2.offset ≤ text.length ∧ (s.ready.2.offset + max < allOnes ∨
      text.length + terminator.sizeOf ≤ s.ready.2.offset + max ∧ text.length < 2 ^ 32) := by
  obtain ⟨sent, hsent, hstream⟩ := hstream
  obtain ⟨hsmall, -, hamid⟩ := h.ready
  have hready : s.ready = (s.ready.1, s.ready.2) := rfl
  have hbounds := terminator.sizeOf_bounds
  have hbefore := hamid text rest hqueue
  have hoffset : s.ready.2.offset ≤ text.length := by
    by_contra hbeyond
    have hnone : s.sendData terminator max = none :=
      sendData_half hready hqueue (by omega) (by omega) hsmall hpos
    rw [hnone] at hsent
    cases hsent
  have hlength : sent.dataFrame.length + (sent.sender.pending terminator).length =
      text.length + terminator.sizeOf - s.ready.2.offset + (frames terminator rest).length := by
    rw [← length_pending_at (Nat.ne_of_lt hsmall), ← hqueue, ← List.length_append, hstream,
      ← pending_ready]
  refine ⟨hoffset, ?_⟩
  by_contra hwrong
  rw [allOnes] at hsmall hwrong
  by_cases hcase : s.ready.2.offset + max < text.length + terminator.sizeOf ∧
      (text.length < 2 ^ 32 ∨ max ≤ text.length - s.ready.2.offset)
  · rw [sendData_part hready hqueue hoffset hnarrow hcase.1 hcase.2] at hsent
    obtain rfl := Option.some.inj hsent
    rw [List.length_take, List.length_drop, length_frame] at hlength
    by_cases hdone : s.ready.2.offset + max = 4294967295
    · have hmod : (s.ready.2.offset + max) % 2 ^ 32 = allOnes := by
        rw [hdone]
        rfl
      rw [hmod, pending_done] at hlength
      omega
    · have hne : (s.ready.2.offset + max) % 2 ^ 32 ≠ allOnes := by
        rw [allOnes]
        omega
      rw [length_pending_at hne] at hlength
      omega
  · rw [sendData_wrapped hready hqueue hoffset (by omega) (by omega)] at hsent
    obtain rfl := Option.some.inj hsent
    have hne : text.length % 2 ^ 32 ≠ allOnes := by
      rw [allOnes]
      omega
    rw [List.length_drop, length_pending_at hne] at hlength
    omega

end Sending

/-! ### What the receiver sees -/

section Receiving

variable {terminator : Terminator} {r : Receiver} {text part chunk before behind : Text}
  {rest later : List Text} {character : UInt8}

/-- `_triggered` behind `before`, a part of the marker. -/
def triggeredBehind (before : Text) : UInt8 := if before = [] then 0 else 1

/-- `_triggered` behind `part` of the frame of the first of the `later` texts. -/
def triggeredIn (later : List Text) (part : Text) : UInt8 :=
  match later with
  | [] => 0
  | text :: _ => triggeredBehind (part.drop text.length)

theorem triggeredIn_text (h : part.length ≤ text.length) : triggeredIn (text :: rest) part = 0 := by
  rw [triggeredIn, List.drop_eq_nil_of_le h]
  rfl

theorem triggeredIn_marker (text before : Text) (rest : List Text) :
    triggeredIn (text :: rest) (text ++ before) = triggeredBehind before := by
  rw [triggeredIn, List.drop_left]

/-- The receiver has `part` of the frame of the first of the `later` texts. -/
structure At (terminator : Terminator) (r : Receiver) (later : List Text) (part : Text) : Prop where
  amid : Amid terminator later part
  receiver : r.receiver = part
  triggered : r.triggered = triggeredIn later part

theorem isTerminated_clean (hclean : character ∉ terminator.marker) :
    terminator.isTerminated 0 character = (0, 0) := by
  cases terminator <;> simp_all [Terminator.marker, Terminator.isTerminated]

theorem isTerminated_marker (h : terminator.marker = before ++ character :: behind) :
    terminator.isTerminated (triggeredBehind before) character =
      if behind = [] then (0x80 ||| UInt8.ofNat before.length, 0) else (0x40, 1) := by
  have hone : ∀ (c : UInt8) (before : Text), [c] = before ++ character :: behind →
      before = [] ∧ character = c ∧ behind = [] := by
    intro c before hc
    rcases List.append_eq_singleton_iff.mp hc.symm with ⟨hnil, hcons⟩ | ⟨-, hcons⟩
    · exact ⟨hnil, (List.cons.inj hcons).1, (List.cons.inj hcons).2⟩
    · cases hcons
  cases terminator with
  | null =>
    obtain ⟨rfl, rfl, rfl⟩ := hone _ _ h
    decide
  | carriageReturn =>
    obtain ⟨rfl, rfl, rfl⟩ := hone _ _ h
    decide
  | carriageReturnLineFeed =>
    cases before with
    | nil =>
      obtain ⟨rfl, rfl⟩ := List.cons.inj h
      decide
    | cons first before =>
      obtain ⟨rfl, hrest⟩ := List.cons.inj h
      obtain ⟨rfl, rfl, rfl⟩ := hone _ _ hrest
      decide

theorem receiveCharacter_text (hclean : character ∉ terminator.marker) :
    Receiver.receiveCharacter terminator ⟨part, 0⟩ character =
      (⟨part ++ [character], 0⟩, none) := by
  simp only [Receiver.receiveCharacter, isTerminated_clean hclean]
  rfl

theorem receiveCharacter_marker (h : terminator.marker = before ++ character :: behind) :
    Receiver.receiveCharacter terminator ⟨text ++ before, triggeredBehind before⟩ character =
      if behind = [] then (⟨[], 0⟩, some text)
      else (⟨text ++ before ++ [character], 1⟩, none) := by
  have hbefore : before.length = 0 ∨ before.length = 1 := by
    have hlength := congrArg List.length h
    have hbounds := terminator.sizeOf_bounds
    rw [Terminator.length_marker, List.length_append, List.length_cons] at hlength
    omega
  simp only [Receiver.receiveCharacter, isTerminated_marker h]
  by_cases hbehind : behind = []
  · rw [if_pos hbehind, if_pos hbehind]
    have hmask : (0x80 ||| UInt8.ofNat before.length) &&& 0x80 ≠ 0 ∧
        ((0x80 ||| UInt8.ofNat before.length) &&& 0x03).toNat = before.length := by
      rcases hbefore with hlen | hlen <;> rw [hlen] <;> decide
    rw [if_neg hmask.1, hmask.2, List.length_append, Nat.add_sub_cancel, List.take_left]
  · rw [if_neg hbehind, if_neg hbehind]
    rfl

/-- The next character is one of the text, or one of the marker. -/
theorem character_cases (h : part ++ [character] <+: frame terminator text) :
    part ++ [character] <+: text ∨
    ∃ before behind, part = text ++ before ∧ terminator.marker = before ++ character :: behind := by
  obtain ⟨behind, h⟩ := h
  rcases List.append_eq_append_iff.mp h with ⟨left, htext, -⟩ | ⟨before, hpart, hmarker⟩
  · exact .inl ⟨left, htext.symm⟩
  · rcases List.eq_nil_or_concat before with rfl | ⟨before, last, rfl⟩
    · rw [List.append_nil] at hpart
      exact .inl (hpart ▸ List.prefix_rfl)
    · rw [List.concat_eq_append, ← List.append_assoc] at hpart
      obtain ⟨hbefore, hlast⟩ := List.append_inj' hpart rfl
      obtain rfl := List.singleton_inj.mp hlast
      refine .inr ⟨before, behind, hbefore, ?_⟩
      rw [hmarker, List.concat_eq_append, List.append_assoc]
      rfl

theorem marker_ne_nil (terminator : Terminator) : terminator.marker ≠ [] := by
  cases terminator <;> decide

theorem amid_nil (terminator : Terminator) (later : List Text) : Amid terminator later [] := by
  cases later with
  | nil => rfl
  | cons text rest =>
    refine ⟨List.nil_prefix, fun h => ?_⟩
    exact marker_ne_nil terminator (List.append_eq_nil_iff.mp h.symm).2

theorem at_start (terminator : Terminator) (later : List Text) :
    At terminator ⟨[], 0⟩ later [] := by
  refine ⟨amid_nil terminator later, rfl, ?_⟩
  cases later with
  | nil => rfl
  | cons text rest => exact (triggeredIn_text (Nat.zero_le _)).symm

/-- A turn of the loop: the frame grows, or it is complete and its text is reported. -/
theorem At.receiveCharacter (h : At terminator r (text :: rest) part)
    (hclean : ∀ c ∈ terminator.marker, c ∉ text)
    (hpre : part ++ [character] <+: frame terminator text) :
    (∃ r', r.receiveCharacter terminator character = (r', none) ∧
      At terminator r' (text :: rest) (part ++ [character])) ∨
    ∃ r', r.receiveCharacter terminator character = (r', some text) ∧
      part ++ [character] = frame terminator text ∧ At terminator r' rest [] := by
  obtain ⟨receiver, triggered⟩ := r
  obtain ⟨-, hreceiver, htriggered⟩ := h
  dsimp only at hreceiver htriggered
  subst htriggered
  subst hreceiver
  rcases character_cases hpre with htext | ⟨before, behind, rfl, hmarker⟩
  · have hmem : character ∈ text := htext.subset (by simp)
    have hlength : receiver.length + 1 ≤ text.length := by
      have := htext.length_le
      rwa [List.length_append] at this
    rw [triggeredIn_text (by omega)]
    refine .inl ⟨_, receiveCharacter_text fun hmem' => hclean _ hmem' hmem,
      ⟨hpre, fun heq => ?_⟩, rfl, ?_⟩
    · have hbounds := terminator.sizeOf_bounds
      have := congrArg List.length heq
      rw [length_frame, List.length_append, List.length_singleton] at this
      omega
    · rw [triggeredIn_text (by rwa [List.length_append])]
  · rw [triggeredIn_marker, receiveCharacter_marker hmarker]
    by_cases hbehind : behind = []
    · rw [if_pos hbehind]
      refine .inr ⟨_, rfl, ?_, at_start terminator rest⟩
      rw [frame, hmarker, hbehind, List.append_assoc]
    · rw [if_neg hbehind]
      refine .inl ⟨_, rfl, ⟨hpre, fun heq => ?_⟩, rfl, ?_⟩
      · rw [frame, hmarker, List.append_assoc, List.append_cancel_left_eq,
          List.append_cancel_left_eq] at heq
        exact hbehind (List.cons.inj heq).2.symm
      · rw [List.append_assoc, triggeredIn_marker, triggeredBehind, if_neg (by simp)]

theorem frames_cons (terminator : Terminator) (text : Text) (rest : List Text) :
    frames terminator (text :: rest) = frame terminator text ++ frames terminator rest := rfl

theorem frames_append (terminator : Terminator) (texts later : List Text) :
    frames terminator (texts ++ later) = frames terminator texts ++ frames terminator later :=
  List.flatMap_append

/-- A chunk of the stream: the texts whose frames it completes are reported. -/
theorem At.receiveData (h : At terminator r later part)
    (hclean : ∀ text ∈ later, ∀ c ∈ terminator.marker, c ∉ text)
    (hpre : part ++ chunk <+: frames terminator later) :
    ∃ texts later' part', (r.receiveData terminator chunk).2 = texts ∧
      later = texts ++ later' ∧ part ++ chunk = frames terminator texts ++ part' ∧
      At terminator (r.receiveData terminator chunk).1 later' part' := by
  induction chunk generalizing r later part with
  | nil => exact ⟨[], later, part, rfl, rfl, by simp [frames], h⟩
  | cons character chunk ih =>
    cases later with
    | nil =>
      have hnil := List.prefix_nil.mp hpre
      simp at hnil
    | cons text rest =>
      have hamid := h.amid
      have hlength : part.length < (frame terminator text).length := by
        refine Nat.lt_of_le_of_ne hamid.1.length_le fun heq => hamid.2 ?_
        exact hamid.1.eq_of_length heq
      rw [← List.singleton_append, ← List.append_assoc] at hpre
      have hfirst : part ++ [character] <+: frame terminator text := by
        refine List.prefix_of_prefix_length_le ((List.prefix_append _ chunk).trans hpre)
          (List.prefix_append _ _) ?_
        rw [List.length_append]
        exact hlength
      rcases h.receiveCharacter (hclean text (List.mem_cons_self ..)) hfirst with
        ⟨r', hr', hat⟩ | ⟨r', hr', hwhole, hat⟩
      · obtain ⟨texts, later', part', htexts, hlater, hpart, hat'⟩ := ih hat hclean hpre
        refine ⟨texts, later', part', ?_, hlater, ?_, ?_⟩
        · simpa only [Receiver.receiveData, hr', Option.toList_none, List.nil_append] using htexts
        · rw [← hpart, List.append_assoc]
          rfl
        · simpa only [Receiver.receiveData, hr'] using hat'
      · rw [hwhole, frames_cons, List.prefix_append_right_inj] at hpre
        obtain ⟨texts, later', part', htexts, hlater, hpart, hat'⟩ := ih hat
          (fun text' hmem => hclean text' (List.mem_cons_of_mem _ hmem)) hpre
        refine ⟨text :: texts, later', part', ?_, ?_, ?_, ?_⟩
        · simp only [Receiver.receiveData, hr', htexts]
          rfl
        · rw [hlater]
          rfl
        · rw [← List.singleton_append, ← List.append_assoc, hwhole, frames_cons, List.append_assoc,
            ← hpart]
          rfl
        · simpa only [Receiver.receiveData, hr'] using hat'

end Receiving

/-! ### Runs -/

section Runs

variable {terminator : Terminator} {s : Link} {size : Nat}

/-- What every call keeps. -/
structure Inv (terminator : Terminator) (s : Link) : Prop where
  intact : s.fault = false
  clean : ∀ text ∈ s.submitted, ∀ c ∈ terminator.marker, c ∉ text
  placed : Placed terminator s.sender
  stream : s.consumed ++ s.wire ++ s.sender.pending terminator = frames terminator s.submitted
  once : s.sent ++ s.sender.sendQueue = s.submitted
  calls : ∀ call ∈ s.calls, call.result ≤ call.maxSendSize ∧ (call.left = true → 1 ≤ call.result)
  received : ∃ later part, s.submitted = s.received ++ later ∧
    s.consumed = frames terminator s.received ++ part ∧ At terminator s.receiver later part

theorem Inv.faithful (h : Inv terminator s) : s.Faithful terminator := by
  obtain ⟨later, part, hsubmitted, hconsumed, hat⟩ := h.received
  exact ⟨h.intact, h.stream, h.once, h.calls, later, part, hsubmitted, hconsumed, hat.amid⟩

theorem inv_new (terminator : Terminator) : Inv terminator .new := by
  refine ⟨rfl, ?_, ⟨?_, fun _ _ => rfl, ?_, Nat.zero_le _⟩, rfl, rfl, ?_, [], [], rfl, rfl,
    at_start terminator []⟩
  · rintro _ ⟨⟩
  · exact fun h => absurd h zero_ne_allOnes
  · rintro _ _ - ⟨⟩
  · rintro _ ⟨⟩

theorem Placed.submit {s : Sender} (h : Placed terminator s) (element : Text) :
    Placed terminator ⟨s.sendQueue ++ [element], s.offset⟩ := by
  have hbounds := terminator.sizeOf_bounds
  refine ⟨fun _ => by simp, fun _ hnil => absurd hnil (by simp), ?_, h.small⟩
  intro text rest hne hqueue
  dsimp only at hne hqueue ⊢
  cases hold : s.sendQueue with
  | nil =>
    rw [h.idle hne hold]
    omega
  | cons first others =>
    rw [hold] at hqueue
    obtain ⟨rfl, -⟩ := List.cons.inj hqueue
    exact h.amid _ _ hne hold

/-- A text that is submitted is to be written behind all others. -/
theorem pending_submit {s : Sender} (h : Placed terminator s) (element : Text) :
    Sender.pending terminator ⟨s.sendQueue ++ [element], s.offset⟩ =
      s.pending terminator ++ frame terminator element := by
  have hlast : ∀ texts, frames terminator (texts ++ [element]) =
      frames terminator texts ++ frame terminator element := by
    intro texts
    rw [frames_append, frames_cons]
    simp [frames]
  obtain ⟨queue, offset⟩ := s
  by_cases hoffset : offset = allOnes
  · subst hoffset
    obtain ⟨text, rest, hqueue⟩ := List.exists_cons_of_ne_nil (h.done rfl)
    dsimp only at hqueue
    rw [hqueue, List.cons_append, pending_done, pending_done, hlast]
  · cases queue with
    | nil =>
      have hzero : offset = 0 := h.idle hoffset rfl
      rw [List.nil_append, pending_at hoffset, hzero]
      simp [Sender.pending, frames]
    | cons text rest =>
      rw [List.cons_append, pending_at hoffset, pending_at hoffset, hlast, List.append_assoc]

theorem At.submit {r : Receiver} {later : List Text} {part : Text} (h : At terminator r later part)
    (element : Text) : At terminator r (later ++ [element]) part := by
  cases later with
  | nil =>
    obtain ⟨receiver, triggered⟩ := r
    obtain ⟨hpart, hreceiver, htriggered⟩ := h
    obtain rfl : part = [] := hpart
    dsimp only at hreceiver htriggered
    rw [hreceiver, htriggered]
    exact at_start terminator [element]
  | cons text rest => exact ⟨h.amid, h.receiver, h.triggered⟩

theorem Inv.submit (h : Inv terminator s) (line : Line terminator) :
    Inv terminator (s.submit line.text) := by
  obtain ⟨later, part, hsubmitted, hconsumed, hat⟩ := h.received
  refine ⟨h.intact, ?_, h.placed.submit line.text, ?_, ?_, h.calls, later ++ [line.text], part, ?_,
    hconsumed, hat.submit line.text⟩
  · intro text hmem
    rcases List.mem_append.mp hmem with hold | hnew
    · exact h.clean text hold
    · obtain rfl := List.mem_singleton.mp hnew
      exact line.clean
  · show s.consumed ++ s.wire ++ Sender.pending terminator ⟨_, _⟩ = frames terminator (_ ++ [_])
    rw [pending_submit h.placed, ← List.append_assoc, h.stream, frames_append]
    simp [frames]
  · show s.sent ++ (s.sender.sendQueue ++ [line.text]) = s.submitted ++ [line.text]
    rw [← List.append_assoc, h.once]
  · show s.submitted ++ [line.text] = s.received ++ (later ++ [line.text])
    rw [hsubmitted, List.append_assoc]

theorem Inv.send (h : Inv terminator s) (max : BufferSize)
    (hok : s.KeepsMarker (.send max : Op terminator)) :
    Inv terminator (s.send terminator max.size) := by
  have hfits : ∀ text rest, s.sender.ready.2.sendQueue = text :: rest →
      s.sender.ready.2.offset ≤ text.length ∧ (s.sender.ready.2.offset + max.size < allOnes ∨
        text.length + terminator.sizeOf ≤ s.sender.ready.2.offset + max.size ∧
          text.length < 2 ^ 32) := by
    intro text rest hqueue
    simpa only [Link.KeepsMarker, hqueue] using hok
  obtain ⟨sent, hsent, hmoves⟩ := sendData_moves h.placed max.pos max.narrow hfits
  have heq : s.send terminator max.size = { s with
      sender := sent.sender
      wire := s.wire ++ sent.dataFrame
      sent := s.sent ++ sent.reported.toList
      calls := s.calls ++
        [⟨max.size, sent.dataFrame.length, !s.sender.ready.2.sendQueue.isEmpty⟩] } := by
    rw [Link.send, hsent]
  rw [heq]
  refine ⟨h.intact, h.clean, hmoves.placed, ?_, ?_, ?_, h.received⟩
  · rw [← h.stream, ← hmoves.stream]
    simp only [List.append_assoc]
  · rw [List.append_assoc, hmoves.reported, hmoves.queue, once_ready h.placed.done]
    exact h.once
  · intro call hmem
    rcases List.mem_append.mp hmem with hold | hnew
    · exact h.calls call hold
    · obtain rfl := List.mem_singleton.mp hnew
      refine ⟨hmoves.short, fun hleft => hmoves.some fun hnil => ?_⟩
      rw [hnil] at hleft
      cases hleft

theorem Inv.receive (h : Inv terminator s) (size : Nat) :
    Inv terminator (s.receive terminator size) := by
  obtain ⟨later, part, hsubmitted, hconsumed, hat⟩ := h.received
  have hclean : ∀ text ∈ later, ∀ c ∈ terminator.marker, c ∉ text := by
    intro text hmem
    exact h.clean text (hsubmitted ▸ List.mem_append_right _ hmem)
  have hstream : part ++ (s.wire ++ s.sender.pending terminator) = frames terminator later := by
    have hall := h.stream
    rw [hconsumed, hsubmitted, frames_append] at hall
    simpa only [List.append_assoc, List.append_cancel_left_eq] using hall
  have hpre : part ++ s.wire.take size <+: frames terminator later := by
    rw [← hstream, List.prefix_append_right_inj]
    exact (List.take_prefix size s.wire).trans (List.prefix_append _ _)
  obtain ⟨texts, later', part', htexts, hlater, hpart, hat'⟩ := hat.receiveData hclean hpre
  refine ⟨h.intact, h.clean, h.placed, ?_, h.once, h.calls, later', part', ?_, ?_, hat'⟩
  · show s.consumed ++ s.wire.take size ++ s.wire.drop size ++ _ = _
    rw [List.append_assoc s.consumed, List.take_append_drop]
    exact h.stream
  · show s.submitted = s.received ++ (s.receiver.receiveData terminator _).2 ++ later'
    rw [htexts, hsubmitted, hlater, List.append_assoc]
  · show s.consumed ++ s.wire.take size = frames terminator (s.received ++
      (s.receiver.receiveData terminator _).2) ++ part'
    rw [htexts, frames_append, hconsumed, List.append_assoc, hpart, List.append_assoc]

/-- A call keeps the link as it should be only if it meets the condition. -/
theorem Inv.keepsMarker (h : Inv terminator s) (op : Op terminator)
    (hafter : (s.step op).Faithful terminator) : s.KeepsMarker op := by
  cases op with
  | submit line => trivial
  | receive size => trivial
  | send max =>
    cases hqueue : s.sender.ready.2.sendQueue with
    | nil => simp only [Link.KeepsMarker, hqueue]
    | cons text rest =>
      simp only [Link.KeepsMarker, hqueue]
      refine sendData_needs h.placed max.pos max.narrow hqueue ?_
      cases hsent : s.sender.sendData terminator max.size with
      | none =>
        have hfault := hafter.intact
        simp [Link.step, Link.send, hsent] at hfault
      | some sent =>
        refine ⟨sent, rfl, ?_⟩
        have hstream := hafter.stream
        simp only [Link.step, Link.send, hsent] at hstream
        rw [← h.stream] at hstream
        simpa only [List.append_assoc, List.append_cancel_left_eq] using hstream

/-- A link is as it should be at every moment exactly when every call of `SendData` is made where
the offset within the marker is right, and leaves an offset that fits. -/
theorem always_faithful_iff (terminator : Terminator) (ops : List (Op terminator)) :
    Always Link.step (Link.Faithful terminator) Link.new ops ↔
      Meets Link.step Link.KeepsMarker Link.new ops := by
  refine always_iff_of_invariant (I := Inv terminator) ?_ (fun _ => Inv.faithful)
    (fun s op h => h.keepsMarker op) (inv_new terminator)
  intro s op h hok
  cases op with
  | submit line => exact h.submit line
  | send max => exact h.send max hok
  | receive size => exact h.receive size.size

/-- The buffer is full between the two characters of a marker. -/
theorem not_always_faithful : ¬ ∀ (terminator : Terminator) (ops : List (Op terminator)),
    Always Link.step (Link.Faithful terminator) Link.new ops := by
  intro h
  let line : Line .carriageReturnLineFeed := ⟨[0x61], by simp [Terminator.marker]⟩
  have hlast := (h .carriageReturnLineFeed
    [.submit line, .send ⟨2, by decide, by decide⟩, .send ⟨2, by decide, by decide⟩]).last
  exact Bool.false_ne_true (hlast.intact.symm.trans (by decide))

end Runs

end Thunder.Core.StreamText
