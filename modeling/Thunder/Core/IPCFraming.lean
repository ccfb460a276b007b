import Thunder.Core.IPCConnector
import Mathlib.Data.List.Induction

/-! The receiver of an IPC stream: `Deserialize` works through its chunks as a machine that takes one
byte at a time, and this machine recovers the frames of the sender. -/

namespace Thunder.Core

open Chunks

/-! ### What a package takes -/

namespace Package

variable {package : Package} {offset : Nat}

theorem deserialize_le (package : Package) (n offset : Nat) : package.deserialize n offset ≤ n := by
  cases package with
  | growing => exact le_refl n
  | plain size =>
    rw [deserialize]
    split <;> omega
  | text LENGTH =>
    rw [deserialize]
    split <;> omega

theorem deserialize_succ (h : package.deserialize 1 offset = 1) (n : Nat) :
    package.deserialize (n + 1) offset = package.deserialize n (offset + 1) + 1 := by
  cases package with
  | growing => rfl
  | plain size =>
    rw [deserialize] at h ⊢
    rw [deserialize]
    split_ifs at h ⊢ <;> omega
  | text LENGTH =>
    rw [deserialize] at h ⊢
    rw [deserialize]
    split_ifs at h ⊢ <;> omega

theorem deserialize_full (h : package.deserialize 1 offset ≠ 1) (n : Nat) :
    package.deserialize n offset = 0 := by
  cases package with
  | growing => exact absurd rfl h
  | plain size =>
    rw [deserialize] at h ⊢
    split_ifs at h ⊢ <;> omega
  | text LENGTH =>
    rw [deserialize] at h ⊢
    split_ifs at h ⊢ <;> omega

/-- A package takes one more byte as long as it has not all it takes. -/
theorem deserialize_one (h : ∀ capacity ∈ package.capacity, offset ≤ capacity) :
    package.deserialize 1 offset = 1 ↔ ∀ capacity ∈ package.capacity, offset < capacity := by
  cases package with
  | growing => exact ⟨fun _ => nofun, fun _ => rfl⟩
  | plain size =>
    have hle : offset ≤ size % 2 ^ 16 := h _ rfl
    simp only [deserialize, capacity, Option.mem_def, Option.some.injEq, forall_eq']
    by_cases hless : offset < size
    · rw [if_pos hless]
      omega
    · rw [if_neg hless]
      omega
  | text LENGTH =>
    have hle : offset ≤ (LENGTH - 1) % 2 ^ 16 := h _ rfl
    simp only [deserialize, capacity, Option.mem_def, Option.some.injEq, forall_eq']
    by_cases hless : offset < LENGTH
    · rw [if_pos hless]
      omega
    · rw [if_neg hless]
      omega

end Package

/-! ### The deserializer, byte by byte -/

namespace Deserializer

variable {factory : IPCFactory} {s s' : Deserializer} {b : UInt8} {stream : List UInt8}

/-- The end of a frame, when its last byte is there. -/
def settle (s : Deserializer) : Deserializer := if 8 ≤ s.offset then s.close else s

/-- One byte of the stream; `none` where the current message has no room for it. -/
def step (factory : IPCFactory) (s : Deserializer) (b : UInt8) : Option Deserializer :=
  if s.offset < 4 then some (s.readLength b)
  else if s.offset < 8 then some ((s.readLabel b).lookUp factory).settle
  else if s.handled 1 = 1 then some (s.handle [b]).settle
  else none

/-- Between two bytes: no message is current before its label is read, and a frame that has got all
its bytes is finished. -/
structure Between (s : Deserializer) : Prop where
  header : s.offset < 8 → s.current = none
  payload : 8 ≤ s.offset → s.offset - 8 < s.length
  held : ∀ element ∈ s.current, element.payload.length = s.offset - 8

theorem readPiece_le (number position : Nat) (b : UInt8) (h : position < 4) :
    (readPiece number position b).2 ≤ 4 := by
  unfold readPiece
  simp only
  split <;> omega

theorem settle_between (hheader : s.offset < 8 → s.current = none)
    (hpayload : 8 ≤ s.offset → s.offset - 8 ≤ s.length)
    (hheld : ∀ element ∈ s.current, element.payload.length = s.offset - 8) :
    s.settle.Between := by
  unfold settle close
  split
  case isTrue h8 =>
    split
    case isTrue => exact ⟨fun _ => rfl, fun h => absurd h (by simp [finish]), nofun⟩
    case isFalse => exact ⟨hheader, fun _ => by have := hpayload h8; omega, hheld⟩
  case isFalse h8 => exact ⟨hheader, fun h => absurd h h8, hheld⟩

@[simp] theorem lookUp_offset (s : Deserializer) : (s.lookUp factory).offset = s.offset := by
  unfold lookUp
  split <;> rfl

@[simp] theorem lookUp_log (s : Deserializer) : (s.lookUp factory).log = s.log := by
  unfold lookUp
  split <;> rfl

theorem lookUp_of_ne (h : s.offset ≠ 8) : s.lookUp factory = s := if_neg h

theorem element_payload {label : Nat} {element : Inbound}
    (h : element ∈ factory.element label) : element.payload = [] := by
  obtain ⟨package, -, rfl⟩ := Option.map_eq_some_iff.mp h
  rfl

theorem readLabel_offset_le (h : s.offset < 8) : (s.readLabel b).offset ≤ 8 := by
  have hle := readPiece_le s.label (s.offset - 4) b (by omega)
  simp only [readLabel]
  omega

theorem readLength_between (h : s.Between) (h4 : s.offset < 4) : (s.readLength b).Between := by
  have hle := readPiece_le s.length s.offset b h4
  have hnone := h.header (by omega)
  exact ⟨fun _ => hnone, fun h8 => absurd h8 (by simp only [readLength]; omega),
    fun element he => absurd he (by simp [readLength, hnone])⟩

theorem label_between (h : s.Between) (h8 : s.offset < 8) :
    ((s.readLabel b).lookUp factory).settle.Between := by
  have hle := readLabel_offset_le (b := b) h8
  have hnone : (s.readLabel b).current = none := by
    simp only [readLabel]
    exact h.header h8
  apply settle_between
  · intro hlt
    rw [lookUp_offset] at hlt
    rw [lookUp_of_ne (Nat.ne_of_lt hlt)]
    exact hnone
  · intro h8'
    rw [lookUp_offset] at h8' ⊢
    omega
  · intro element he
    unfold lookUp at he ⊢
    split at he
    case isTrue hlabel =>
      rw [if_pos hlabel]
      simp [element_payload he, hlabel]
    case isFalse hlabel =>
      rw [hnone] at he
      exact nomatch he

theorem handle_between (h : s.Between) (h8 : 8 ≤ s.offset) : (s.handle [b]).settle.Between := by
  have hless := h.payload h8
  apply settle_between
  · intro hlt
    exact absurd hlt (by simp only [handle, List.length_singleton]; omega)
  · intro _
    simp only [handle, List.length_singleton]
    omega
  · intro element he
    obtain ⟨element', he', rfl⟩ := Option.map_eq_some_iff.mp he
    have hheld := h.held element' he'
    simp only [handle, List.length_append, List.length_singleton]
    omega

theorem step_between (h : s.Between) (hstep : step factory s b = some s') : s'.Between := by
  unfold step at hstep
  split at hstep
  case isTrue h4 =>
    obtain rfl := Option.some.inj hstep
    exact readLength_between h h4
  case isFalse h4 =>
    split at hstep
    case isTrue h8 =>
      obtain rfl := Option.some.inj hstep
      exact label_between h h8
    case isFalse h8 =>
      split at hstep
      case isFalse => nomatch hstep
      case isTrue hroom =>
        obtain rfl := Option.some.inj hstep
        exact handle_between h (by omega)

/-! ### One byte of a chunk -/

@[simp] theorem handle_nil (s : Deserializer) : s.handle [] = s := by
  obtain ⟨length, offset, label, current, log⟩ := s
  cases current <;> simp [handle]

theorem handle_cons (s : Deserializer) (b : UInt8) (bytes : List UInt8) :
    s.handle (b :: bytes) = (s.handle [b]).handle bytes := by
  obtain ⟨length, offset, label, current, log⟩ := s
  cases current <;> simp [handle] <;> omega

theorem handled_le (s : Deserializer) (n : Nat) : s.handled n ≤ n := by
  unfold handled
  split
  · exact le_refl n
  · exact Package.deserialize_le _ n _

theorem handled_succ (h8 : 8 ≤ s.offset) (hroom : s.handled 1 = 1) (n : Nat) :
    s.handled (n + 1) = (s.handle [b]).handled n + 1 := by
  unfold handled handle at *
  cases hcurrent : s.current with
  | none => rfl
  | some element =>
    simp only [hcurrent, Option.map_some, List.length_singleton] at hroom ⊢
    rw [Package.deserialize_succ hroom, show s.offset + 1 - 8 = s.offset - 8 + 1 by omega]

theorem handled_of_full (hroom : s.handled 1 ≠ 1) (n : Nat) : s.handled n = 0 := by
  unfold handled at *
  cases hcurrent : s.current with
  | none => simp [hcurrent] at hroom
  | some element =>
    simp only [hcurrent] at hroom ⊢
    exact Package.deserialize_full hroom n

theorem close_of_ne (h : s.offset - 8 ≠ s.length) : s.close = s := if_neg h

theorem readPayload_cons (h8 : 8 ≤ s.offset) (hless : s.offset - 8 < s.length)
    (hroom : s.handled 1 = 1) (b : UInt8) (stream : List UInt8) :
    s.readPayload (b :: stream) =
      if (s.handle [b]).offset - 8 = s.length then ((s.handle [b]).close, stream)
      else (s.handle [b]).readPayload stream := by
  have hoffset : (s.handle [b]).offset = s.offset + 1 := rfl
  have hlength : (s.handle [b]).length = s.length := rfl
  have hmin : min (b :: stream).length (s.length - (s.offset - 8)) =
      min stream.length ((s.handle [b]).length - ((s.handle [b]).offset - 8)) + 1 := by
    rw [hoffset, hlength, List.length_cons]
    omega
  conv => lhs; unfold readPayload
  rw [if_pos hless, hmin, handled_succ (b := b) h8 hroom]
  simp only [List.take_succ_cons, List.drop_succ_cons]
  rw [handle_cons]
  split
  case isTrue hend =>
    have hnone : (s.handle [b]).handled (min stream.length
        ((s.handle [b]).length - ((s.handle [b]).offset - 8))) = 0 := by
      have hle := (s.handle [b]).handled_le (min stream.length
        ((s.handle [b]).length - ((s.handle [b]).offset - 8)))
      omega
    rw [hnone, List.take_zero, handle_nil, List.drop_zero]
  case isFalse hend =>
    unfold readPayload
    rw [if_pos (show (s.handle [b]).offset - 8 < (s.handle [b]).length by omega)]

theorem readPayload_full (hless : s.offset - 8 < s.length) (hroom : s.handled 1 ≠ 1)
    (stream : List UInt8) : s.readPayload stream = (s, stream) := by
  unfold readPayload
  rw [if_pos hless, handled_of_full hroom]
  show ((s.handle []).close, stream) = _
  rw [handle_nil, close_of_ne (by omega)]

/-- A round that takes no byte of the payload changes nothing. -/
theorem readPayload_shorter (hless : s.offset - 8 < s.length) (stream : List UInt8) :
    (s.readPayload stream).2.length < stream.length ∨ s.readPayload stream = (s, stream) := by
  unfold readPayload
  rw [if_pos hless]
  have hle := s.handled_le (min stream.length (s.length - (s.offset - 8)))
  generalize s.handled (min stream.length (s.length - (s.offset - 8))) = taken at *
  cases taken with
  | zero =>
    right
    show ((s.handle []).close, stream) = _
    rw [handle_nil, close_of_ne (by omega)]
  | succ taken =>
    left
    simp only [List.length_drop]
    omega

theorem readField_length (bound : Nat) (read : Deserializer → UInt8 → Deserializer)
    (s : Deserializer) (stream : List UInt8) :
    (readField bound read s stream).2.length ≤ stream.length := by
  induction stream generalizing s with
  | nil => exact le_refl _
  | cons b stream ih =>
    rw [readField]
    split
    · exact Nat.le_succ_of_le (ih (read s b))
    · exact le_refl _

theorem readField_of_le {bound : Nat} {read : Deserializer → UInt8 → Deserializer}
    (h : bound ≤ s.offset) (stream : List UInt8) : readField bound read s stream = (s, stream) := by
  cases stream with
  | nil => rfl
  | cons b stream => rw [readField, if_neg (by omega)]

theorem readField_cons {bound : Nat} {read : Deserializer → UInt8 → Deserializer}
    (h : s.offset < bound) (b : UInt8) (stream : List UInt8) :
    readField bound read s (b :: stream) = readField bound read (read s b) stream := by
  rw [readField, if_pos h]

theorem round_header (factory : IPCFactory) (h : s.Between) (h8 : s.offset < 8)
    (stream : List UInt8) :
    s.round factory stream =
      let next := s.readHeader factory stream
      if 8 ≤ next.1.offset then next.1.readPayload next.2 else next := by
  unfold round
  rw [if_pos ⟨by rw [h.header h8]; rfl, h8⟩]

theorem round_payload (h8 : 8 ≤ s.offset) (stream : List UInt8) :
    s.round factory stream = s.readPayload stream := by
  unfold round
  rw [if_neg (by omega)]
  exact if_pos h8

theorem readHeader_length (h4 : s.offset < 4) (b : UInt8) (stream : List UInt8) :
    s.readHeader factory (b :: stream) = (s.readLength b).readHeader factory stream := by
  unfold readHeader
  rw [readField_cons h4]

theorem readLabel_offset_ge (s : Deserializer) (b : UInt8) : 4 ≤ (s.readLabel b).offset :=
  Nat.le_add_right 4 _

theorem readHeader_label (h4 : 4 ≤ s.offset) (h8 : s.offset < 8)
    (stream : List UInt8) :
    s.readHeader factory (b :: stream) = (s.readLabel b).readHeader factory stream := by
  unfold readHeader
  rw [readField_of_le h4, readField_of_le (readLabel_offset_ge s b)]
  simp only
  rw [readField_cons h8]

theorem readHeader_last (h4 : 4 ≤ s.offset) (h8 : s.offset < 8)
    (hlast : 8 ≤ (s.readLabel b).offset) (stream : List UInt8) :
    s.readHeader factory (b :: stream) = ((s.readLabel b).lookUp factory, stream) := by
  unfold readHeader
  rw [readField_of_le h4]
  simp only
  rw [readField_cons h8, readField_of_le hlast]

theorem readHeader_shorter (factory : IPCFactory) (h8 : s.offset < 8) (b : UInt8)
    (stream : List UInt8) :
    (s.readHeader factory (b :: stream)).2.length ≤ stream.length := by
  unfold readHeader
  simp only
  by_cases h4 : s.offset < 4
  · rw [readField_cons h4]
    exact le_trans (readField_length _ _ _ _) (readField_length _ _ _ _)
  · rw [readField_of_le (Nat.le_of_not_lt h4)]
    simp only
    rw [readField_cons h8]
    exact readField_length _ _ _ _

theorem readHeader_nil (h8 : s.offset < 8) : s.readHeader factory [] = (s, []) := by
  show (s.lookUp factory, []) = _
  rw [lookUp_of_ne (by omega)]

theorem readPayload_length (s : Deserializer) (stream : List UInt8) :
    (s.readPayload stream).2.length ≤ stream.length := by
  unfold readPayload
  split
  · simp
  · exact le_refl _

/-- A round that takes no byte changes nothing. -/
theorem round_shorter (factory : IPCFactory) (h : s.Between) (stream : List UInt8) :
    (s.round factory stream).2.length < stream.length ∨
      s.round factory stream = (s, stream) := by
  by_cases h8 : s.offset < 8
  · rw [round_header factory h h8]
    cases stream with
    | nil =>
      right
      rw [readHeader_nil h8]
      exact if_neg (Nat.not_le_of_lt h8)
    | cons b stream =>
      left
      have hle := readHeader_shorter factory h8 b stream
      simp only [List.length_cons]
      split
      · have hle' := readPayload_length (s.readHeader factory (b :: stream)).1
          (s.readHeader factory (b :: stream)).2
        omega
      · omega
  · rw [round_payload (by omega)]
    exact readPayload_shorter (h.payload (by omega)) stream

/-- When the rounds for a chunk and for its rest agree, so do the calls. -/
theorem deserialize_of_round (h : s'.Between)
    (hround : s.round factory (b :: stream) = s'.round factory stream) :
    s.deserialize factory (b :: stream) = s'.deserialize factory stream := by
  conv => lhs; unfold deserialize
  rw [if_neg (by simp), hround]
  rcases round_shorter factory h stream with hless | hsame
  · rw [if_pos (by simp only [List.length_cons]; omega)]
    conv => rhs; unfold deserialize
    rw [if_neg (by rintro rfl; simp at hless), if_pos hless]
  · rw [hsame, if_pos (by simp)]

theorem deserialize_of_round_eq (hround : s.round factory (b :: stream) = (s', stream)) :
    s.deserialize factory (b :: stream) = s'.deserialize factory stream := by
  conv => lhs; unfold deserialize
  rw [if_neg (by simp), hround, if_pos (by simp)]

theorem deserialize_cons (h : s.Between) (b : UInt8) (stream : List UInt8) :
    s.deserialize factory (b :: stream) =
      (s.step factory b).bind fun s' => s'.deserialize factory stream := by
  unfold step
  split
  case isTrue h4 =>
    have hbetween : (s.readLength b).Between := readLength_between h h4
    have hle : (s.readLength b).offset ≤ 4 := readPiece_le s.length s.offset b h4
    apply deserialize_of_round hbetween
    rw [round_header factory h (by omega), round_header factory hbetween (by omega),
      readHeader_length h4]
  case isFalse h4 =>
    split
    case isTrue h8 =>
      have hbetween : ((s.readLabel b).lookUp factory).settle.Between := label_between h h8
      by_cases hmore : (s.readLabel b).offset < 8
      · have hsettle : ((s.readLabel b).lookUp factory).settle = s.readLabel b := by
          rw [lookUp_of_ne (by omega)]
          exact if_neg (by omega)
        rw [hsettle] at hbetween ⊢
        apply deserialize_of_round hbetween
        rw [round_header factory h h8, round_header factory hbetween hmore,
          readHeader_label (by omega) h8]
      · have hround := round_header factory h h8 (b :: stream)
        have h8' : 8 ≤ ((s.readLabel b).lookUp factory).offset := by
          rw [lookUp_offset]
          omega
        rw [readHeader_last (by omega) h8 (by omega)] at hround
        simp only [if_pos h8'] at hround
        have hsettle : ((s.readLabel b).lookUp factory).settle =
            ((s.readLabel b).lookUp factory).close := if_pos h8'
        rw [hsettle] at hbetween ⊢
        by_cases hend : ((s.readLabel b).lookUp factory).offset - 8 =
            ((s.readLabel b).lookUp factory).length
        · apply deserialize_of_round_eq
          rw [hround]
          exact if_neg (by omega)
        · rw [close_of_ne hend] at hbetween ⊢
          apply deserialize_of_round hbetween
          rw [hround, round_payload h8']
    case isFalse h8 =>
      have hless := h.payload (by omega)
      have hround : s.round factory (b :: stream) = s.readPayload (b :: stream) :=
        round_payload (by omega) _
      split
      case isTrue hroom =>
        have hbetween : (s.handle [b]).settle.Between := handle_between h (by omega)
        have h8' : 8 ≤ (s.handle [b]).offset := by
          simp only [handle]
          omega
        have hsettle : (s.handle [b]).settle = (s.handle [b]).close := if_pos h8'
        rw [readPayload_cons (by omega) hless hroom] at hround
        rw [hsettle] at hbetween ⊢
        by_cases hend : (s.handle [b]).offset - 8 = s.length
        · rw [if_pos hend] at hround
          exact deserialize_of_round_eq hround
        · rw [if_neg hend] at hround
          rw [close_of_ne hend] at hbetween ⊢
          apply deserialize_of_round hbetween
          rw [hround, round_payload h8']
      case isFalse hfull =>
        rw [readPayload_full hless hfull] at hround
        unfold deserialize
        rw [if_neg (by simp), hround]
        exact if_neg (by simp)

/-- A call for a chunk does what the machine does for its bytes, one after another. -/
theorem deserialize_eq_foldlM (h : s.Between) (stream : List UInt8) :
    s.deserialize factory stream = stream.foldlM (step factory) s := by
  induction stream generalizing s with
  | nil =>
    unfold deserialize
    rfl
  | cons b stream ih =>
    rw [deserialize_cons h, List.foldlM_cons]
    cases hstep : s.step factory b with
    | none => rfl
    | some s' => exact ih (step_between h hstep)

theorem initial_between : initial.Between := ⟨fun _ => rfl, nofun, nofun⟩

/-- The cuts between the chunks leave no trace. -/
theorem readAll_deserialize (h : s.Between) (chunks : List (List UInt8)) :
    readAll (deserialize factory) s chunks = chunks.flatten.foldlM (step factory) s :=
  readAll_eq_foldlM (fun _ bytes hs => deserialize_eq_foldlM hs bytes)
    (fun _ _ _ hs hstep => step_between hs hstep) h chunks

/-! ### The header of a frame -/

theorem readPiece_pieceByte {number position : Nat} (hnumber : number < 2 ^ (7 * position))
    (value : Nat) : readPiece number position (pieceByte value) =
      (number + (if position = 3 then (pieceByte value).toNat else value % 0x80) *
        2 ^ (7 * position), if 0x80 ≤ value then position + 1 else 4) := by
  have hor (part : Nat) : number ||| part <<< (7 * position) =
      number + part * 2 ^ (7 * position) := by
    rw [Nat.or_comm, ← Nat.shiftLeft_add_eq_or_of_lt hnumber, Nat.shiftLeft_eq, Nat.add_comm]
  unfold readPiece
  rw [hor]
  congr 1
  · congr 2
    split
    · exact byte_all _
    · rw [byte_low, pieceByte_toNat]
      split <;> omega
  · exact if_congr (pieceByte_flag value) rfl rfl

theorem fieldValue_one (value : Nat) : fieldValue 1 value = (pieceByte value).toNat := by
  rw [pieceByte_toNat]
  simp only [fieldValue, if_true]
  split <;> split <;> omega

theorem fieldValue_next {n value : Nat} (h : 0x80 ≤ value) :
    fieldValue (n + 2) value = value % 0x80 + 0x80 * fieldValue (n + 1) (value / 0x80) := by
  rw [fieldValue, if_neg (by omega), if_neg (by omega)]

/-- Reading a number, for the length and the label alike: `place number position count` is the state
at a position after `count` bytes. -/
theorem run_field {place : Nat → Nat → Nat → Deserializer}
    (hplace : ∀ number position b, position < 4 →
      step factory (place number position position) b = some
        (place (readPiece number position b).1 (readPiece number position b).2 (position + 1)))
    (n value number position : Nat) (hposition : position + (n + 1) = 4)
    (hnumber : number < 2 ^ (7 * position)) :
    (fieldBytes (n + 1) value).foldlM (step factory) (place number position position) =
      some (place (number + fieldValue (n + 1) value * 2 ^ (7 * position)) 4
        (position + (fieldBytes (n + 1) value).length)) := by
  induction n generalizing value number position with
  | zero =>
    have hlast : (fieldBytes 1 value) = [pieceByte value] := by
      rw [fieldBytes]
      split <;> rfl
    rw [hlast, List.foldlM_cons, hplace _ _ _ (by omega), readPiece_pieceByte hnumber,
      fieldValue_one, if_pos (by omega)]
    have hstop : (if 0x80 ≤ value then position + 1 else 4) = 4 := by split <;> omega
    rw [hstop]
    rfl
  | succ n ih =>
    rw [fieldBytes, List.foldlM_cons, hplace _ _ _ (by omega), readPiece_pieceByte hnumber,
      if_neg (by omega)]
    by_cases hmore : 0x80 ≤ value
    · rw [if_pos hmore, if_pos hmore]
      have hpow : 2 ^ (7 * (position + 1)) = 2 ^ (7 * position) * 0x80 := by
        rw [Nat.mul_add, pow_add, Nat.mul_one]
        rfl
      have hnumber' : number + value % 0x80 * 2 ^ (7 * position) < 2 ^ (7 * (position + 1)) := by
        have hle : value % 0x80 ≤ 0x7F := by omega
        have hmul := Nat.mul_le_mul_right (2 ^ (7 * position)) hle
        rw [hpow]
        omega
      have hrest := ih (value / 0x80) (number + value % 0x80 * 2 ^ (7 * position)) (position + 1)
        (by omega) hnumber'
      rw [fieldValue_next hmore, List.length_cons]
      show List.foldlM (step factory) _ _ = _
      rw [hrest, hpow]
      congr 2
      · ring
      · omega
    · have hless : value < 0x80 := by omega
      rw [if_neg hmore, if_neg hmore, fieldValue, if_pos hless, Nat.mod_eq_of_lt hless]
      rfl

/-- `_length` after `count` bytes of the label. -/
def shrink (length count : Nat) : Nat :=
  if count ≤ length then length - count else 2 ^ 32 + length - count

/-- The receiver inside the length of a frame. -/
def inLength (log : List Received) (number position _count : Nat) : Deserializer :=
  ⟨number, position, 0, none, log⟩

/-- The receiver inside the label of a frame, and behind it. -/
def inLabel (factory : IPCFactory) (length : Nat) (log : List Received)
    (number position count : Nat) : Deserializer :=
  (lookUp factory ⟨shrink length count, 4 + position, number, none, log⟩).settle

theorem step_inLength (factory : IPCFactory) (log : List Received) (number position : Nat)
    (b : UInt8) (h : position < 4) : step factory (inLength log number position position) b =
      some (inLength log (readPiece number position b).1 (readPiece number position b).2
        (position + 1)) := by
  have h4 : (inLength log number position position).offset < 4 := h
  unfold step
  rw [if_pos h4]
  rfl

theorem shrink_succ (length : Nat) {count : Nat} (h : count < 4) :
    (if shrink length count = 0 then 0xFFFFFFFF else shrink length count - 1) =
      shrink length (count + 1) := by
  unfold shrink
  split <;> split <;> split <;> omega

theorem step_inLabel (factory : IPCFactory) (length : Nat) (log : List Received)
    (number position : Nat) (b : UInt8) (h : position < 4) :
    step factory (inLabel factory length log number position position) b =
      some (inLabel factory length log (readPiece number position b).1
        (readPiece number position b).2 (position + 1)) := by
  have hplain : inLabel factory length log number position position =
      ⟨shrink length position, 4 + position, number, none, log⟩ := by
    unfold inLabel
    rw [lookUp_of_ne (show 4 + position ≠ 8 by omega)]
    exact if_neg (show ¬8 ≤ 4 + position by omega)
  rw [hplain]
  unfold step
  rw [if_neg (show ¬4 + position < 4 by omega), if_pos (show 4 + position < 8 by omega)]
  unfold readLabel inLabel
  simp only [Nat.add_sub_cancel_left]
  rw [shrink_succ length h]

/-- The receiver when it has read the header of a frame. -/
def opened (factory : IPCFactory) (element : IMessage) (log : List Received) : Deserializer :=
  ⟨shrink (fieldValue 4 (element.length + commandSize element.label))
    (fieldBytes 4 element.label).length, 8, 0, factory.element element.label, log⟩

theorem fieldValue_lt (value : Nat) : fieldValue 4 value < 2 ^ 29 := by
  simp only [fieldValue]
  split_ifs <;> first | contradiction | omega

theorem fieldValue_le (value : Nat) : fieldValue 4 value ≤ value := by
  simp only [fieldValue]
  split_ifs <;> first | contradiction | omega

theorem fieldValue_eq {value : Nat} (h : value ≤ 0x1FFFFFFF) : fieldValue 4 value = value := by
  simp only [fieldValue]
  split_ifs <;> first | contradiction | omega

theorem fieldBytes_length {value : Nat} (h : value ≤ 0x1FFFFFFF) :
    (fieldBytes 4 value).length = if 0x1FFFFF < value then 4 else if 0x3FFF < value then 3
      else if 0x7F < value then 2 else 1 := by
  simp only [fieldBytes]
  split_ifs <;> first | contradiction | omega | rfl

end Deserializer

namespace IMessage

theorem label_eq (element : IMessage) :
    element.label = 2 * element.identifier + element.response.toNat := by
  have hor : element.identifier <<< 1 + element.response.toNat = element.label :=
    Nat.shiftLeft_add_eq_or_of_lt (by cases element.response <;> decide) _
  rw [← hor, Nat.shiftLeft_eq]
  omega

theorem label_le (element : IMessage) : element.label ≤ 0x1FFFFFFF := by
  have hle := element.identifier_le
  have hbit : element.response.toNat ≤ 1 := Bool.toNat_le _
  rw [label_eq]
  omega

theorem commandSize_le (label : Nat) : commandSize label ≤ 4 := by
  unfold commandSize
  split_ifs <;> omega

theorem frame_eq (element : IMessage) : element.frame =
    fieldBytes 4 (element.length + commandSize element.label) ++
      (fieldBytes 4 element.label ++ element.payload) := by
  have hle := element.payload_le
  have hsize := commandSize_le element.label
  have hu32 : u32 (element.length + commandSize element.label) =
      element.length + commandSize element.label := Nat.mod_eq_of_lt (by unfold length; omega)
  simp only [frame, rest, header, fieldAt, hu32, List.append_assoc]
  rfl

end IMessage

theorem IPCFactory.element_label (factory : IPCFactory) (element : IMessage) :
    factory.element element.label = (factory element.response element.identifier).map
      fun package => ⟨element.identifier, element.response, package, []⟩ := by
  have hshift : element.label >>> 1 = element.identifier := by
    have hbit : element.response.toNat ≤ 1 := Bool.toNat_le _
    rw [Nat.shiftRight_eq_div_pow, IMessage.label_eq]
    omega
  have hflag : decide (element.label &&& 1 ≠ 0) = element.response := by
    have hand : element.label &&& 1 = element.label % 2 := Nat.and_one_is_mod _
    rw [hand, IMessage.label_eq]
    cases element.response <;> simp
  show (factory (decide (element.label &&& 1 ≠ 0)) (element.label >>> 1)).map _ = _
  rw [hshift, hflag]

/-- The number of payload bytes of a frame that has ended. -/
def Received.length : Received → Nat
  | .deserialized _ _ payload => payload.length
  | .skipped length => length

namespace Deserializer

variable {factory : IPCFactory} {s s' : Deserializer} {b : UInt8}

theorem run_header (element : IMessage) (log : List Received) :
    (fieldBytes 4 (element.length + commandSize element.label) ++
        fieldBytes 4 element.label).foldlM (step factory) { initial with log := log } =
      some (opened factory element log).settle := by
  have hlength := run_field (step_inLength factory log) 3
    (element.length + commandSize element.label) 0 0 rfl (by decide)
  have hlabel := run_field (step_inLabel factory
    (fieldValue 4 (element.length + commandSize element.label)) log) 3 element.label 0 0 rfl
    (by decide)
  simp only [Nat.mul_zero, Nat.pow_zero, Nat.mul_one, Nat.zero_add] at hlength hlabel
  have hbetween : inLength log (fieldValue 4 (element.length + commandSize element.label)) 4
        (fieldBytes 4 (element.length + commandSize element.label)).length =
      inLabel factory (fieldValue 4 (element.length + commandSize element.label)) log 0 0 0 := rfl
  rw [List.foldlM_append]
  show (List.foldlM (step factory) (inLength log 0 0 0) _).bind _ = _
  rw [hlength, Option.bind_some, hbetween, hlabel, fieldValue_eq element.label_le]
  rfl

/-! ### The payload of a frame -/

theorem settle_of_ne (hne : s.offset - 8 ≠ s.length) : s.settle = s := by
  unfold settle
  rw [close_of_ne hne]
  exact ite_self s

theorem step_payload (h8 : 8 ≤ s.offset) (hne : s.offset - 8 ≠ s.length) :
    step factory s.settle b =
      if s.handled 1 = 1 then some (s.handle [b]).settle else none := by
  rw [settle_of_ne hne]
  unfold step
  rw [if_neg (by omega), if_neg (by omega)]

theorem handled_one (hroom : ∀ element ∈ s.current, ∀ capacity ∈ element.package.capacity,
    s.offset - 8 < capacity) : s.handled 1 = 1 := by
  unfold handled
  cases hcurrent : s.current with
  | none => rfl
  | some element =>
    have hless := hroom element hcurrent
    exact (Package.deserialize_one fun _ h => Nat.le_of_lt (hless _ h)).mpr hless

/-- A frame whose payload has room ends with its last byte. -/
theorem run_payload (bytes : List UInt8) (h8 : 8 ≤ s.offset)
    (hlength : s.offset - 8 + bytes.length = s.length)
    (hroom : ∀ element ∈ s.current, ∀ capacity ∈ element.package.capacity, s.length ≤ capacity) :
    bytes.foldlM (step factory) s.settle = some (s.handle bytes).finish := by
  induction bytes generalizing s with
  | nil =>
    have hend : s.offset - 8 = s.length := hlength
    rw [handle_nil]
    show some s.settle = _
    unfold settle close
    rw [if_pos h8, if_pos hend]
  | cons b bytes ih =>
    rw [List.length_cons] at hlength
    have hone : s.handled 1 = 1 := by
      apply handled_one
      intro element helement capacity hcapacity
      have hle := hroom element helement capacity hcapacity
      omega
    rw [List.foldlM_cons, step_payload h8 (by omega), if_pos hone, handle_cons s b bytes]
    apply ih
    · simp only [handle]
      omega
    · simp only [handle, List.length_singleton]
      omega
    · intro element helement
      obtain ⟨element', helement', rfl⟩ := Option.map_eq_some_iff.mp helement
      exact hroom element' helement'

theorem step_log (hstep : step factory s b = some s') : s.log <+: s'.log := by
  have hclose : ∀ s : Deserializer, s.log <+: s.settle.log := by
    intro s
    unfold settle close
    split_ifs
    · exact List.prefix_append _ _
    · exact List.prefix_rfl
    · exact List.prefix_rfl
  unfold step at hstep
  split_ifs at hstep
  · obtain rfl := Option.some.inj hstep
    exact List.prefix_rfl
  · obtain rfl := Option.some.inj hstep
    have hlog : ((s.readLabel b).lookUp factory).log = s.log := lookUp_log _
    rw [← hlog]
    exact hclose _
  · obtain rfl := Option.some.inj hstep
    exact hclose (s.handle [b])

theorem run_log {bytes : List UInt8} (hrun : bytes.foldlM (step factory) s = some s') :
    s.log <+: s'.log := by
  have hkeep : ∀ t b t', s.log <+: t.log → step factory t b = some t' → s.log <+: t'.log :=
    fun _ _ _ h hstep => h.trans (step_log hstep)
  exact foldlM_inv hkeep List.prefix_rfl hrun

theorem finish_log (hheld : ∀ element ∈ s.current, element.payload.length = s.offset - 8) :
    ∃ frame : Received, frame.length = s.offset - 8 ∧ s.finish.log = s.log ++ [frame] := by
  refine ⟨_, ?_, rfl⟩
  cases hcurrent : s.current with
  | none => rfl
  | some element => exact hheld element hcurrent

/-- The next frame that ends has as many bytes as its length says. -/
theorem run_ends {bytes : List UInt8} (h8 : 8 ≤ s.offset) (hle : s.offset - 8 ≤ s.length)
    (hheld : ∀ element ∈ s.current, element.payload.length = s.offset - 8)
    (hrun : bytes.foldlM (step factory) s.settle = some s') :
    s'.log = s.log ∨ ∃ frame : Received, frame.length = s.length ∧ s.log ++ [frame] <+: s'.log := by
  induction bytes generalizing s with
  | nil =>
    obtain rfl := Option.some.inj hrun
    by_cases hend : s.offset - 8 = s.length
    · obtain ⟨frame, hframe, hlog⟩ := finish_log hheld
      refine Or.inr ⟨frame, by omega, ?_⟩
      unfold settle close
      rw [if_pos h8, if_pos hend]
      exact hlog ▸ List.prefix_rfl
    · rw [settle_of_ne hend]
      exact Or.inl rfl
  | cons b bytes ih =>
    by_cases hend : s.offset - 8 = s.length
    · obtain ⟨frame, hframe, hlog⟩ := finish_log hheld
      unfold settle close at hrun
      rw [if_pos h8, if_pos hend] at hrun
      exact Or.inr ⟨frame, by omega, hlog ▸ run_log hrun⟩
    · rw [List.foldlM_cons, step_payload h8 hend] at hrun
      split at hrun
      case isTrue hroom =>
        have hoffset : (s.handle [b]).offset = s.offset + 1 := rfl
        apply ih (s := s.handle [b]) _ _ _ hrun
        · omega
        · show (s.handle [b]).offset - 8 ≤ s.length
          omega
        · intro element helement
          obtain ⟨element', helement', rfl⟩ := Option.map_eq_some_iff.mp helement
          have hheld' := hheld element' helement'
          simp only [List.length_append, List.length_singleton]
          omega
      case isFalse => nomatch hrun

/-- A frame never ends when its package has no room for the payload. -/
theorem run_full {bytes : List UInt8} {element : Inbound} {capacity : Nat} (h8 : 8 ≤ s.offset)
    (hcurrent : s.current = some element) (hcapacity : element.package.capacity = some capacity)
    (hinside : s.offset - 8 ≤ capacity) (hshort : capacity < s.length)
    (hrun : bytes.foldlM (step factory) s.settle = some s') : s'.log = s.log := by
  induction bytes generalizing s element with
  | nil =>
    obtain rfl := Option.some.inj hrun
    rw [settle_of_ne (by omega)]
  | cons b bytes ih =>
    rw [List.foldlM_cons, step_payload h8 (by omega)] at hrun
    split at hrun
    case isFalse => nomatch hrun
    case isTrue hroom =>
      have hless : s.offset - 8 < capacity := by
        unfold handled at hroom
        simp only [hcurrent] at hroom
        refine (Package.deserialize_one ?_).mp hroom capacity hcapacity
        intro capacity' hcapacity'
        rw [hcapacity] at hcapacity'
        obtain rfl := Option.some.inj hcapacity'
        exact hinside
      have hoffset : (s.handle [b]).offset = s.offset + 1 := rfl
      have hmap : (s.handle [b]).current =
          some { element with payload := element.payload ++ [b] } := by
        simp only [handle, hcurrent, Option.map_some]
      exact ih (s := s.handle [b]) (by omega) hmap hcapacity (by omega) hshort hrun

end Deserializer

/-! ### Delivery -/

/-- What a receiver makes of a message: it is handed out when its label is known, and skipped in
full when not. -/
def IPCFactory.receives (factory : IPCFactory) (element : IMessage) : Received :=
  match factory element.response element.identifier with
  | none => .skipped element.length
  | some _ => .deserialized element.identifier element.response element.payload

/-- However the sender's buffers and the receiver's chunks cut the stream, the receiver has got
exactly the messages and is back where it started. -/
def Delivers (factory : IPCFactory) (messages : List IMessage) : Prop :=
  ∀ (sizes : List Nat) (chunks : List (List UInt8)),
    let sent := writeAll Serializer.serialize (Serializer.idle.submitAll messages) sizes
    sent.2.queue = [] → chunks.flatten = sent.1 →
      readAll (Deserializer.deserialize factory) .initial chunks =
        some { Deserializer.initial with log := messages.map factory.receives }

/-- `CommandSize` counts the bytes of the label, the length of the frame can be written, and the
package on the other side holds the payload. -/
structure IMessage.Framed (factory : IPCFactory) (element : IMessage) : Prop where
  counted : ¬(0x4000 ≤ element.label ∧ element.label ≤ 0xCFFF)
  length : element.length + commandSize element.label ≤ 0x1FFFFFFF
  room : ∀ package ∈ factory element.response element.identifier,
    ∀ capacity ∈ package.capacity, element.length ≤ capacity

namespace Deserializer

variable {factory : IPCFactory} {element : IMessage} {log : List Received}

theorem opened_length_iff : (opened factory element log).length = element.length ↔
    ¬(0x4000 ≤ element.label ∧ element.label ≤ 0xCFFF) ∧
      element.length + commandSize element.label ≤ 0x1FFFFFFF := by
  have hlabel := element.label_le
  have hpayload : element.length ≤ 0x1FFFFFFF := element.payload_le
  have hlt := fieldValue_lt (element.length + commandSize element.label)
  have hle := fieldValue_le (element.length + commandSize element.label)
  have heq : element.length + commandSize element.label ≤ 0x1FFFFFFF →
      fieldValue 4 (element.length + commandSize element.label) =
        element.length + commandSize element.label := fieldValue_eq
  unfold opened shrink
  simp only
  rw [fieldBytes_length hlabel]
  unfold commandSize at *
  split_ifs at * <;> omega

theorem current_opened {inbound : Inbound}
    (h : inbound ∈ (opened factory element log).current) :
    inbound.package ∈ factory element.response element.identifier ∧ inbound.payload = [] := by
  change inbound ∈ factory.element element.label at h
  rw [factory.element_label] at h
  obtain ⟨package, hpackage, rfl⟩ := Option.map_eq_some_iff.mp h
  exact ⟨hpackage, rfl⟩

theorem run_frame (element : IMessage) (log : List Received) :
    element.frame.foldlM (step factory) { initial with log := log } =
      element.payload.foldlM (step factory) (opened factory element log).settle := by
  rw [element.frame_eq, ← List.append_assoc, List.foldlM_append, run_header]
  rfl

theorem finish_opened (element : IMessage) (log : List Received) :
    ((opened factory element log).handle element.payload).finish =
      { initial with log := log ++ [factory.receives element] } := by
  unfold finish handle opened IPCFactory.receives
  rw [factory.element_label]
  cases factory element.response element.identifier with
  | none => simp [initial, IMessage.length]
  | some package => simp [initial]

/-- One frame is received as its message exactly when it is well framed. -/
theorem run_frame_iff : element.frame.foldlM (step factory) { initial with log := log } =
    some { initial with log := log ++ [factory.receives element] } ↔ element.Framed factory := by
  rw [run_frame]
  constructor
  · intro hrun
    have hlog : (opened factory element log).log = log := rfl
    have hlength : (opened factory element log).length = element.length := by
      rcases run_ends (le_refl 8) (Nat.zero_le _)
        (fun inbound h => by rw [(current_opened h).2]; rfl) hrun with hsame | ⟨frame, hframe, hpre⟩
      · exact absurd hsame (by simp [hlog])
      · rw [hlog] at hpre
        have hsame : [frame] = [factory.receives element] :=
          List.append_cancel_left (hpre.eq_of_length (by simp))
        obtain rfl := List.singleton_inj.mp hsame
        rw [← hframe]
        unfold IPCFactory.receives
        cases factory element.response element.identifier <;> rfl
    have hopened := hlength
    rw [opened_length_iff] at hopened
    obtain ⟨hcounted, hfits⟩ := hopened
    refine ⟨hcounted, hfits, fun package hpackage capacity hcapacity => ?_⟩
    by_contra hshort
    have hcurrent : (opened factory element log).current =
        some ⟨element.identifier, element.response, package, []⟩ := by
      show factory.element element.label = _
      rw [factory.element_label, Option.mem_def.mp hpackage]
      rfl
    have hsame := run_full (le_refl 8) hcurrent hcapacity (Nat.zero_le _) (by omega) hrun
    exact absurd hsame (by simp [hlog])
  · intro hframed
    have hlength : (opened factory element log).length = element.length := by
      rw [opened_length_iff]
      exact ⟨hframed.counted, hframed.length⟩
    rw [← finish_opened]
    apply run_payload
    · exact le_refl 8
    · rw [hlength]
      show 0 + element.payload.length = _
      exact Nat.zero_add _
    · intro inbound hinbound capacity hcapacity
      rw [hlength]
      exact hframed.room inbound.package (current_opened hinbound).1 capacity hcapacity

/-- The frames of well framed messages are received one after another. -/
theorem run_frames (messages : List IMessage) (h : ∀ element ∈ messages, element.Framed factory)
    (log : List Received) :
    (messages.flatMap IMessage.frame).foldlM (step factory) { initial with log := log } =
      some { initial with log := log ++ messages.map factory.receives } := by
  induction messages generalizing log with
  | nil => simp
  | cons element messages ih =>
    rw [List.flatMap_cons, List.foldlM_append, Iff.mpr run_frame_iff (h element (by simp))]
    show List.foldlM _ _ _ = _
    rw [ih (fun next hnext => h next (by simp [hnext])), List.map_cons, List.append_assoc]
    rfl

/-- A stream is the frames of one sequence of messages only, as far as the receiver sees them. -/
theorem received_of_frames {messages messages' : List IMessage}
    (h : ∀ element ∈ messages, element.Framed factory)
    (h' : ∀ element ∈ messages', element.Framed factory)
    (hsame : messages.flatMap IMessage.frame = messages'.flatMap IMessage.frame) :
    messages.map factory.receives = messages'.map factory.receives := by
  have hrun := run_frames messages h []
  rw [hsame, run_frames messages' h' [], Option.some.injEq] at hrun
  exact (congrArg Deserializer.log hrun).symm

theorem received_of_frames_one :
    [(⟨1, false, [7], by decide, by decide⟩ : IMessage)].map
        (IPCFactory.receives fun _ _ => some .growing) =
      [⟨1, false, [7], by decide, by decide⟩].map
        (IPCFactory.receives fun _ _ => some .growing) := by
  have hframed : ∀ element ∈ [(⟨1, false, [7], by decide, by decide⟩ : IMessage)],
      element.Framed fun _ _ => some .growing := by
    intro element helement
    obtain rfl := List.mem_singleton.mp helement
    exact ⟨by decide, by decide, fun _ hpackage _ hcapacity => by
      obtain rfl := Option.some.inj hpackage
      cases hcapacity⟩
  exact received_of_frames hframed hframed rfl

end Deserializer

end Thunder.Core
