import Thunder.Library.Bytes

/-! The frames of a web socket stream, as RFC 6455 has them: a byte with the FIN bit and the type, the
length of the payload in seven, 16 or 64 bits, the key of a masked frame, and the payload.  Control
frames may stand between the frames of a message. -/

namespace Thunder.Web

/-- The four bytes of a masking key. -/
abbrev Key := Fin 4 → UInt8

namespace Key

theorem neZero_four : NeZero 4 := ⟨by decide⟩

attribute [local instance] neZero_four in
def bytes (key : Key) : List UInt8 := [key 0, key 1, key 2, key 3]

attribute [local instance] neZero_four in
/-- The payload from its place `offset` on, masked or unmasked. -/
def mask (key : Key) : Nat → List UInt8 → List UInt8
  | _, [] => []
  | offset, b :: payload => (b ^^^ key (Fin.ofNat 4 offset)) :: mask key (offset + 1) payload

variable {key : Key}

@[simp] theorem length_bytes : key.bytes.length = 4 := rfl

@[simp] theorem length_mask (offset : Nat) (payload : List UInt8) :
    (key.mask offset payload).length = payload.length := by
  induction payload generalizing offset with
  | nil => rfl
  | cons b payload ih => simp [mask, ih]

@[simp] theorem mask_mask (offset : Nat) (payload : List UInt8) :
    key.mask offset (key.mask offset payload) = payload := by
  induction payload generalizing offset with
  | nil => rfl
  | cons b payload ih => simp [mask, ih, UInt8.xor_assoc]

theorem mask_append (offset : Nat) (payload payload' : List UInt8) :
    key.mask offset (payload ++ payload') =
      key.mask offset payload ++ key.mask (offset + payload.length) payload' := by
  induction payload generalizing offset with
  | nil => rfl
  | cons b payload ih =>
    simp only [mask, List.cons_append, ih, List.length_cons]
    rw [show offset + 1 + payload.length = offset + (payload.length + 1) by omega]

theorem mask_take (offset n : Nat) (payload : List UInt8) :
    (key.mask offset payload).take n = key.mask offset (payload.take n) := by
  induction payload generalizing offset n with
  | nil => simp [mask]
  | cons b payload ih => cases n <;> simp [mask, ih]

theorem mask_drop (offset n : Nat) (payload : List UInt8) :
    (key.mask offset payload).drop n = key.mask (offset + n) (payload.drop n) := by
  induction payload generalizing offset n with
  | nil => simp [mask]
  | cons b payload ih =>
    cases n with
    | zero => rfl
    | succ n =>
      rw [mask, List.drop_succ_cons, List.drop_succ_cons, ih]
      congr 1
      omega

theorem mask_congr {offset offset' : Nat} (h : offset % 4 = offset' % 4) (payload : List UInt8) :
    key.mask offset payload = key.mask offset' payload := by
  induction payload generalizing offset offset' with
  | nil => rfl
  | cons b payload ih =>
    have hnext : (offset + 1) % 4 = (offset' + 1) % 4 := by omega
    rw [mask, mask, ih hnext,
      show Fin.ofNat 4 offset = Fin.ofNat 4 offset' from Fin.ext h]

end Key

inductive Opcode
  | continuation
  | text
  | binary
  | close
  | ping
  | pong
  deriving DecidableEq, Repr

namespace Opcode

def code : Opcode → UInt8
  | continuation => 0x00
  | text => 0x01
  | binary => 0x02
  | close => 0x08
  | ping => 0x09
  | pong => 0x0A

def isControl : Opcode → Bool
  | close => true
  | ping => true
  | pong => true
  | _ => false

end Opcode

structure Frame where
  fin : Bool
  opcode : Opcode
  key : Option Key
  payload : List UInt8

namespace Frame

def isControl (f : Frame) : Bool := f.opcode.isControl

def maskBit (f : Frame) : UInt8 := if f.key.isSome then 0x80 else 0

/-- The length in seven bits, and the bytes behind them. -/
def lengthCode (f : Frame) : Nat × List UInt8 :=
  if f.payload.length < 126 then (f.payload.length, [])
  else if f.payload.length < 65536 then (126, Bytes.bigEndian 2 f.payload.length)
  else (127, Bytes.bigEndian 8 f.payload.length)

def keyBytes (f : Frame) : List UInt8 :=
  match f.key with
  | some key => key.bytes
  | none => []

def header (f : Frame) : List UInt8 :=
  ((if f.fin then 0x80 else 0) ||| f.opcode.code) :: (f.maskBit ||| UInt8.ofNat f.lengthCode.1) ::
    (f.lengthCode.2 ++ f.keyBytes)

/-- The payload as it is sent. -/
def body (f : Frame) : List UInt8 :=
  match f.key with
  | some key => key.mask 0 f.payload
  | none => f.payload

def encode (f : Frame) : List UInt8 := f.header ++ f.body

@[simp] theorem length_body (f : Frame) : f.body.length = f.payload.length := by
  unfold body
  split
  · exact Key.length_mask ..
  · rfl

theorem two_le_header (f : Frame) : 2 ≤ f.header.length := by
  simp [header]

theorem encode_length (f : Frame) : f.encode.length = f.header.length + f.payload.length := by
  simp [encode]

end Frame

/-! ### Streams -/

def encodeAll (frames : List Frame) : List UInt8 := frames.flatMap Frame.encode

/-- The payloads of the data frames. -/
def payloads (frames : List Frame) : List UInt8 :=
  frames.flatMap fun f => if f.isControl then [] else f.payload

/-- The types of the control frames. -/
def controls (frames : List Frame) : List Opcode :=
  frames.filterMap fun f => if f.isControl then some f.opcode else none

/-- Frames may follow one another, behind a message that is complete or not.  A control frame is not
fragmented and has at most 125 bytes of payload. -/
def Valid : Bool → List Frame → Prop
  | _, [] => True
  | inMessage, f :: frames =>
    if f.isControl then f.fin ∧ f.payload.length ≤ 125 ∧ Valid inMessage frames
    else (f.opcode = .continuation ↔ inMessage) ∧ f.payload.length < 2 ^ 63 ∧ Valid (!f.fin) frames

/-- The first `n` bytes of the stream end behind the header of a control frame and before the end of
its payload. -/
def Cut : List Frame → Nat → Prop
  | [], _ => False
  | f :: frames, n =>
    if n < f.encode.length then f.isControl ∧ f.header.length ≤ n else Cut frames (n - f.encode.length)

instance decidableCut : (frames : List Frame) → (n : Nat) → Decidable (Cut frames n)
  | [], _ => inferInstanceAs (Decidable False)
  | f :: frames, n =>
    have := decidableCut frames (n - f.encode.length)
    inferInstanceAs (Decidable (if n < f.encode.length then f.isControl ∧ f.header.length ≤ n
      else Cut frames (n - f.encode.length)))

@[simp] theorem encodeAll_nil : encodeAll [] = [] := rfl

@[simp] theorem encodeAll_cons (f : Frame) (frames : List Frame) :
    encodeAll (f :: frames) = f.encode ++ encodeAll frames := rfl

@[simp] theorem payloads_cons (f : Frame) (frames : List Frame) :
    payloads (f :: frames) = (if f.isControl then [] else f.payload) ++ payloads frames := rfl

theorem controls_cons (f : Frame) (frames : List Frame) :
    controls (f :: frames) = (if f.isControl then [f.opcode] else []) ++ controls frames := by
  unfold controls
  cases h : f.isControl <;> simp [h]

/-- Whether a message is in progress behind the frames. -/
def after : Bool → List Frame → Bool
  | inMessage, [] => inMessage
  | inMessage, f :: frames => after (if f.isControl then inMessage else !f.fin) frames

theorem after_append (inMessage : Bool) (frames frames' : List Frame) :
    after inMessage (frames ++ frames') = after (after inMessage frames) frames' := by
  induction frames generalizing inMessage with
  | nil => rfl
  | cons f frames ih => exact ih _

theorem valid_append {inMessage : Bool} {frames frames' : List Frame}
    (h : Valid inMessage frames) (h' : Valid (after inMessage frames) frames') :
    Valid inMessage (frames ++ frames') := by
  induction frames generalizing inMessage with
  | nil => exact h'
  | cons f frames ih =>
    rw [List.cons_append, Valid]
    rw [Valid] at h
    rw [after] at h'
    split at h
    case isTrue hcontrol =>
      rw [if_pos hcontrol] at h' ⊢
      exact ⟨h.1, h.2.1, ih h.2.2 h'⟩
    case isFalse hdata =>
      rw [if_neg hdata] at h' ⊢
      exact ⟨h.1, h.2.1, ih h.2.2 h'⟩

theorem encodeAll_append (frames frames' : List Frame) :
    encodeAll (frames ++ frames') = encodeAll frames ++ encodeAll frames' := List.flatMap_append

theorem payloads_append (frames frames' : List Frame) :
    payloads (frames ++ frames') = payloads frames ++ payloads frames' := List.flatMap_append

theorem controls_append (frames frames' : List Frame) :
    controls (frames ++ frames') = controls frames ++ controls frames' := List.filterMap_append ..

/-- Control frames without a payload. -/
def Bare (frames : List Frame) : Prop := ∀ f ∈ frames, f.isControl ∧ f.fin ∧ f.payload = []

theorem Bare.keeps {frames : List Frame} (h : Bare frames) (inMessage : Bool) :
    Valid inMessage frames ∧ after inMessage frames = inMessage ∧ payloads frames = [] := by
  induction frames with
  | nil => exact ⟨trivial, rfl, rfl⟩
  | cons f frames ih =>
    obtain ⟨hcontrol, hfin, hpayload⟩ := h f List.mem_cons_self
    obtain ⟨hvalid, hafter, hpayloads⟩ := ih fun g hg => h g (List.mem_cons_of_mem f hg)
    refine ⟨?_, ?_, ?_⟩
    · rw [Valid, if_pos hcontrol, hpayload]
      exact ⟨hfin, by simp, hvalid⟩
    · rw [after, if_pos hcontrol, hafter]
    · rw [payloads_cons, if_pos hcontrol, hpayloads, List.append_nil]

theorem not_cut_zero (frames : List Frame) : ¬ Cut frames 0 := by
  cases frames with
  | nil => exact id
  | cons f frames =>
    have htwo := f.two_le_header
    rw [Cut, if_pos (by rw [f.encode_length]; omega)]
    omega

/-- A control frame without a payload has nothing to be cut. -/
theorem not_cut_of_empty {frames : List Frame}
    (h : ∀ f ∈ frames, f.isControl → f.payload = []) (n : Nat) : ¬ Cut frames n := by
  induction frames generalizing n with
  | nil => exact id
  | cons f frames ih =>
    rw [Cut]
    split
    case isTrue hless =>
      rintro ⟨hcontrol, hheader⟩
      rw [f.encode_length, h f List.mem_cons_self hcontrol, List.length_nil] at hless
      omega
    case isFalse => exact ih (fun g hg => h g (List.mem_cons_of_mem f hg)) _

/-- Behind a frame that is no control frame cut short, the rest of the stream is cut or not. -/
theorem Cut.cons {f : Frame} {frames : List Frame} {n : Nat}
    (h : Cut frames (n - f.encode.length)) : Cut (f :: frames) n := by
  by_cases hless : n < f.encode.length
  · rw [Nat.sub_eq_zero_of_le hless.le] at h
    exact absurd h (not_cut_zero frames)
  · rwa [Cut, if_neg hless]

end Thunder.Web
