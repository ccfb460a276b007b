import Thunder.Library.Run
import Thunder.Web.WebSocketProtocol

/-! The `Encoder` of `WebSocket::Protocol` and the `SendData` of a web socket link, against the
`ReceiveData` of the peer.  The encoder writes its header in front of a block, and behind it the
control frames that were asked for.  Every byte of the buffer is written once, so the bytes are put
one behind the other here. -/

namespace Thunder.Web

namespace Protocol

/-- `_setFlags & MASKING_FRAME`. -/
def masking (p : Protocol) : UInt8 := p.setFlags &&& maskingFrame

/-- The frame of a block of data; a block that fills the buffer is not the last of its message. -/
def encodeData (p : Protocol) (maxSendSize : Nat) (data : List UInt8) (maskKey : Key) :
    Protocol × List UInt8 :=
  if data ≠ [] ∨ p.sendInProgress then
    let type := if p.sendInProgress then 0 else typeFrame &&& p.setFlags
    let length :=
      if data.length ≤ 125 then [p.masking ||| UInt8.ofNat data.length]
      else [p.masking ||| 126, UInt8.ofNat (data.length >>> 8), UInt8.ofNat (data.length &&& 0xFF)]
    let body := if p.masking = 0 then data else maskKey.bytes ++ maskKey.mask 0 data
    if data.length < maxSendSize then
      ({ p with progressInfo := p.progressInfo &&& ~~~0x40 },
        (finishingFrame ||| type) :: (length ++ body))
    else ({ p with progressInfo := p.progressInfo ||| 0x40 }, type :: (length ++ body))
  else (p, [])

/-- The header of a control frame, where it was asked for and there is room. -/
def encodeControl (request : UInt8) (opcode : Opcode) (room : Nat → Bool)
    (s : Protocol × List UInt8) : Protocol × List UInt8 :=
  if s.1.controlStatus &&& request ≠ 0 ∧ room s.2.length then
    ({ s.1 with controlStatus := s.1.controlStatus &&& ~~~request },
      s.2 ++ [finishingFrame ||| opcode.code, s.1.masking])
  else s

/-- The control frames; one key is written behind all of them. -/
def encodeControls (maxSendSize : Nat) (maskKey : Key) (s : Protocol × List UInt8) :
    Protocol × List UInt8 :=
  if s.1.controlStatus &&& (requestClose ||| requestPing ||| requestPong) ≠ 0 ∧
      s.2.length + (if s.1.masking ≠ 0 then 6 else 2) < maxSendSize then
    let s := encodeControl requestClose .close (fun _ => true) s
    let s := encodeControl requestPing .ping (fun result => result + 1 < maxSendSize) s
    let s := encodeControl requestPong .pong (fun result => result + 1 < maxSendSize) s
    if s.1.masking ≠ 0 then (s.1, s.2 ++ maskKey.bytes) else s
  else s

def encoder (p : Protocol) (maxSendSize : Nat) (data : List UInt8) (maskKey maskKey' : Key) :
    Protocol × List UInt8 :=
  encodeControls maxSendSize maskKey' (p.encodeData maxSendSize data maskKey)

/-- The requests that wait for the encoder. -/
def requests (p : Protocol) : List Opcode :=
  (if p.controlStatus &&& requestClose ≠ 0 then [.close] else []) ++
    (if p.controlStatus &&& requestPing ≠ 0 then [.ping] else []) ++
      (if p.controlStatus &&& requestPong ≠ 0 then [.pong] else [])

end Protocol

/-- A link that sends, with what it was given: the bytes of the blocks, and the control frames that
were asked for. -/
structure Sender where
  protocol : Protocol
  stream : List UInt8
  blocks : List UInt8
  requested : List Opcode

/-- What is asked of a link.  `SendData` keeps 8 bytes of its buffer for the encoder, and gets a block
for the others. -/
inductive Request
  | send (maxSendSize : Nat) (data : List UInt8) (maskKey maskKey' : Key)
      (fits : data.length + 8 ≤ maxSendSize) (size : maxSendSize < 65536)
  | ping
  | pong
  | close

namespace Sender

def new (binary masking : Bool) : Sender := ⟨.new binary masking, [], [], []⟩

/-- `SendData`, `Ping`, `Pong` and `Close`. -/
def step (s : Sender) : Request → Sender
  | .send maxSendSize data maskKey maskKey' _ _ =>
    if 8 < maxSendSize then
      let (p, bytes) := s.protocol.encoder (maxSendSize - 8) data maskKey maskKey'
      { s with protocol := p, stream := s.stream ++ bytes, blocks := s.blocks ++ data }
    else s
  | .ping => { s with protocol := s.protocol.ping, requested := s.requested ++ [.ping] }
  | .pong => { s with protocol := s.protocol.pong, requested := s.requested ++ [.pong] }
  | .close => { s with protocol := s.protocol.close, requested := s.requested ++ [.close] }

/-- The peer is passed the blocks and sees the control frames that were asked for, but for those that
still wait; it ends between two frames. -/
def Received (binary : Bool) (s : Sender) : Prop :=
  ∀ masking chunks, chunks.flatten = s.stream → (Session.new binary masking).Fits chunks →
    ∃ fuel r, Session.receiveAll fuel (.new binary masking) chunks = some r ∧ r.overrun = false ∧
      r.passed = s.blocks ∧
      (r.commands ++ s.protocol.requests.map Opcode.code).Perm (s.requested.map Opcode.code) ∧
      r.kept = [] ∧ r.protocol.pendingReceiveBytes = 0

/-- Nothing is asked for twice before it is sent, and a link that masks sends one control frame at a
time. -/
def Single (s : Sender) : Request → Prop
  | .send maxSendSize data maskKey _ _ _ =>
    s.protocol.masking ≠ 0 →
      (s.protocol.encodeData (maxSendSize - 8) data maskKey).2.length + 6 < maxSendSize - 8 →
        s.protocol.requests.length ≤ 1
  | .ping => .ping ∉ s.protocol.requests
  | .pong => .pong ∉ s.protocol.requests
  | .close => .close ∉ s.protocol.requests

end Sender

/-! ### The frames that the encoder writes -/

namespace Protocol

section

variable {binary : Bool} {p : Protocol}

theorem masking_bit (p : Protocol) : p.masking = 0 ∨ p.masking = 0x80 :=
  Bytes.and_bit (by decide : (0x80 : UInt8).toNat = 2 ^ 7) p.setFlags

/-- The key of a frame, where the link masks. -/
def keyFor (p : Protocol) (maskKey : Key) : Option Key := if p.masking = 0 then none else some maskKey

theorem maskBit_keyFor (maskKey : Key) (fin : Bool) (opcode : Opcode) (payload : List UInt8) :
    Frame.maskBit ⟨fin, opcode, p.keyFor maskKey, payload⟩ = p.masking := by
  unfold Frame.maskBit keyFor
  rcases masking_bit p with h | h
  · simp [h]
  · simp [h]

/-- The frame of a block. -/
def dataFrame (p : Protocol) (binary : Bool) (maxSendSize : Nat) (data : List UInt8) (maskKey : Key) :
    Frame where
  fin := data.length < maxSendSize
  opcode := if p.sendInProgress then .continuation else if binary then .binary else .text
  key := p.keyFor maskKey
  payload := data

theorem encode_dataFrame (htype : p.setFlags &&& typeFrame = messageType binary) (maxSendSize : Nat)
    (data : List UInt8) (hdata : data.length < 65536) (maskKey : Key) :
    (p.dataFrame binary maxSendSize data maskKey).encode =
      ((if data.length < maxSendSize then 0x80 else 0) |||
        (if p.sendInProgress then 0 else typeFrame &&& p.setFlags)) ::
      ((if data.length ≤ 125 then [p.masking ||| UInt8.ofNat data.length]
        else [p.masking ||| 126, UInt8.ofNat (data.length >>> 8), UInt8.ofNat (data.length &&& 0xFF)]) ++
      if p.masking = 0 then data else maskKey.bytes ++ maskKey.mask 0 data) := by
  have hcode : (p.dataFrame binary maxSendSize data maskKey).opcode.code =
      if p.sendInProgress then 0 else typeFrame &&& p.setFlags := by
    rw [UInt8.and_comm, htype]
    unfold dataFrame
    cases p.sendInProgress <;> cases binary <;> rfl
  have hlength : (Frame.maskBit (p.dataFrame binary maxSendSize data maskKey) |||
      UInt8.ofNat (p.dataFrame binary maxSendSize data maskKey).lengthCode.1) ::
        (p.dataFrame binary maxSendSize data maskKey).lengthCode.2 =
      if data.length ≤ 125 then [p.masking ||| UInt8.ofNat data.length]
      else [p.masking ||| 126, UInt8.ofNat (data.length >>> 8), UInt8.ofNat (data.length &&& 0xFF)] := by
    rw [show Frame.maskBit (p.dataFrame binary maxSendSize data maskKey) = p.masking from
      maskBit_keyFor ..]
    unfold Frame.lengthCode dataFrame
    dsimp only
    by_cases hless : data.length ≤ 125
    · rw [if_pos hless, if_pos (by omega)]
    · rw [if_neg hless, if_neg (by omega), if_pos hdata]
      have hlow : UInt8.ofNat (data.length &&& 0xFF) = UInt8.ofNat data.length := by
        apply UInt8.toNat_inj.mp
        rw [UInt8.toNat_ofNat', UInt8.toNat_ofNat', Nat.and_two_pow_sub_one_eq_mod _ 8]
        omega
      rw [hlow, Nat.shiftRight_eq_div_pow]
      rfl
  have hbody : (p.dataFrame binary maxSendSize data maskKey).keyBytes ++
      (p.dataFrame binary maxSendSize data maskKey).body =
        if p.masking = 0 then data else maskKey.bytes ++ maskKey.mask 0 data := by
    unfold Frame.keyBytes Frame.body dataFrame keyFor
    by_cases hmasking : p.masking = 0 <;> simp [hmasking]
  rw [← hlength, ← hbody, ← hcode]
  simp [Frame.encode, Frame.header, dataFrame]

/-- A block is sent in one data frame, and an empty one only to end a message. -/
theorem encodeData_frames (htype : p.setFlags &&& typeFrame = messageType binary)
    (maxSendSize : Nat) {data : List UInt8} (hdata : data.length < 65536) (maskKey : Key) :
    ∃ frames, (p.encodeData maxSendSize data maskKey).2 = encodeAll frames ∧
      Valid p.sendInProgress frames ∧
      after p.sendInProgress frames = (p.encodeData maxSendSize data maskKey).1.sendInProgress ∧
      payloads frames = data ∧ controls frames = [] ∧
      (∀ f ∈ frames, f.isControl = false ∧ Typed binary f ∧ f.payload.length < 65536) ∧
      (p.encodeData maxSendSize data maskKey).1.setFlags = p.setFlags ∧
      (p.encodeData maxSendSize data maskKey).1.controlStatus = p.controlStatus := by
  by_cases hactive : data ≠ [] ∨ p.sendInProgress
  swap
  · have hnothing : p.encodeData maxSendSize data maskKey = (p, []) := if_neg hactive
    rw [hnothing]
    have hempty : data = [] := by
      by_contra hne
      exact hactive (.inl hne)
    exact ⟨[], rfl, trivial, rfl, hempty.symm, rfl, nofun, rfl, rfl⟩
  · have hcontrol : (p.dataFrame binary maxSendSize data maskKey).isControl = false := by
      unfold Frame.isControl dataFrame
      cases p.sendInProgress <;> cases binary <;> rfl
    have hbits (i : UInt8) : (i &&& ~~~0x40) &&& 0x40 = 0 ∧ (i ||| 0x40) &&& 0x40 ≠ 0 :=
      ⟨Bytes.and_mask_zero rfl i, Bytes.or_mask_ne_zero (by decide) i⟩
    refine ⟨[p.dataFrame binary maxSendSize data maskKey], ?_, ?_, ?_, ?_, ?_, ?_, ?_⟩
    · rw [encodeAll_cons, encode_dataFrame htype maxSendSize data hdata maskKey, encodeData,
        if_pos hactive]
      by_cases hless : data.length < maxSendSize <;> simp [hless, finishingFrame]
    · rw [Valid, if_neg (by simp [hcontrol])]
      refine ⟨?_, ?_, trivial⟩
      · unfold dataFrame
        cases p.sendInProgress <;> cases binary <;> simp
      · show data.length < _
        omega
    · rw [after, if_neg (by simp [hcontrol]), encodeData, if_pos hactive]
      show (!decide (data.length < maxSendSize)) = _
      by_cases hless : data.length < maxSendSize <;> simp [hless, sendInProgress, hbits]
    · rw [payloads_cons, if_neg (by simp [hcontrol])]
      exact List.append_nil data
    · rw [controls_cons, if_neg (by simp [hcontrol])]
      rfl
    · intro f hf
      rw [List.mem_singleton.mp hf]
      refine ⟨hcontrol, ?_, hdata⟩
      intro _
      unfold dataFrame
      cases p.sendInProgress <;> cases binary <;> simp [messageType, Opcode.code]
    · rw [encodeData, if_pos hactive]
      by_cases hless : data.length < maxSendSize <;> simp [hless]

/-- Clearing a request leaves the others. -/
theorem request_bits (i : UInt8) :
    ((i &&& ~~~requestClose) &&& requestClose = 0 ∧
      (i &&& ~~~requestClose) &&& requestPing = i &&& requestPing ∧
      (i &&& ~~~requestClose) &&& requestPong = i &&& requestPong) ∧
    ((i &&& ~~~requestPing) &&& requestPing = 0 ∧
      (i &&& ~~~requestPing) &&& requestClose = i &&& requestClose ∧
      (i &&& ~~~requestPing) &&& requestPong = i &&& requestPong) ∧
    ((i &&& ~~~requestPong) &&& requestPong = 0 ∧
      (i &&& ~~~requestPong) &&& requestClose = i &&& requestClose ∧
      (i &&& ~~~requestPong) &&& requestPing = i &&& requestPing) :=
  ⟨⟨Bytes.and_mask_zero rfl i, Bytes.and_mask rfl i, Bytes.and_mask rfl i⟩,
    ⟨Bytes.and_mask_zero rfl i, Bytes.and_mask rfl i, Bytes.and_mask rfl i⟩,
    Bytes.and_mask_zero rfl i, Bytes.and_mask rfl i, Bytes.and_mask rfl i⟩

/-- A control frame of the link. -/
def controlFrameFor (key : Option Key) (opcode : Opcode) : Frame := ⟨true, opcode, key, []⟩

theorem encode_controlFrameFor (maskKey : Key) (opcode : Opcode) :
    (controlFrameFor (p.keyFor maskKey) opcode).encode =
      [finishingFrame ||| opcode.code, p.masking] ++
        if p.masking = 0 then [] else maskKey.bytes := by
  have hmask : Frame.maskBit (controlFrameFor (p.keyFor maskKey) opcode) = p.masking :=
    maskBit_keyFor ..
  have hkey : (controlFrameFor (p.keyFor maskKey) opcode).keyBytes ++
      (controlFrameFor (p.keyFor maskKey) opcode).body =
        if p.masking = 0 then [] else maskKey.bytes := by
    unfold Frame.keyBytes Frame.body controlFrameFor keyFor
    by_cases hmasking : p.masking = 0 <;> simp [hmasking, Key.mask]
  rw [← hkey, Frame.encode, Frame.header, hmask]
  simp [Frame.lengthCode, controlFrameFor, finishingFrame]

/-- What the requests that are served become, and which stay. -/
structure Serves (s s' : Protocol × List UInt8) (opcodes : List Opcode) : Prop where
  bytes : s'.2 = s.2 ++ opcodes.flatMap fun opcode => [finishingFrame ||| opcode.code, s.1.masking]
  requests : (opcodes ++ s'.1.requests).Perm s.1.requests
  setFlags : s'.1.setFlags = s.1.setFlags
  progressInfo : s'.1.progressInfo = s.1.progressInfo
  control : ∀ opcode ∈ opcodes, opcode.isControl

theorem Serves.refl (s : Protocol × List UInt8) : Serves s s [] :=
  ⟨by simp, .refl _, rfl, rfl, nofun⟩

theorem Serves.trans {s s' s'' : Protocol × List UInt8} {opcodes opcodes' : List Opcode}
    (h : Serves s s' opcodes) (h' : Serves s' s'' opcodes') : Serves s s'' (opcodes ++ opcodes') where
  bytes := by
    have hmasking : s'.1.masking = s.1.masking := by rw [masking, h.setFlags, masking]
    rw [h'.bytes, h.bytes, hmasking, List.flatMap_append, List.append_assoc]
  requests := by
    rw [List.append_assoc]
    exact (h'.requests.append_left opcodes).trans h.requests
  setFlags := h'.setFlags.trans h.setFlags
  progressInfo := h'.progressInfo.trans h.progressInfo
  control := by
    intro opcode ho
    rcases List.mem_append.mp ho with ho | ho
    · exact h.control opcode ho
    · exact h'.control opcode ho

theorem encodeControl_serves {request : UInt8} {opcode : Opcode}
    (ho : (request, opcode) ∈ [(requestClose, Opcode.close), (requestPing, .ping), (requestPong, .pong)])
    (room : Nat → Bool) (s : Protocol × List UInt8) :
    ∃ opcodes, Serves s (encodeControl request opcode room s) opcodes ∧
      (opcodes = [] → encodeControl request opcode room s = s ∧
        (room s.2.length → s.1.controlStatus &&& request = 0)) := by
  unfold encodeControl
  split
  case isFalse hnot =>
    refine ⟨[], .refl s, fun _ => ⟨rfl, fun hroom => ?_⟩⟩
    by_contra hset
    exact hnot ⟨hset, hroom⟩
  case isTrue hserved =>
    obtain ⟨hset, -⟩ := hserved
    obtain ⟨⟨h1, h2, h3⟩, ⟨h4, h5, h6⟩, h7, h8, h9⟩ := request_bits s.1.controlStatus
    refine ⟨[opcode], ⟨by simp, ?_, rfl, rfl, ?_⟩, nofun⟩
    · simp only [List.mem_cons, Prod.mk.injEq, List.not_mem_nil, or_false] at ho
      unfold Protocol.requests
      rcases ho with ⟨rfl, rfl⟩ | ⟨rfl, rfl⟩ | ⟨rfl, rfl⟩
      · dsimp only
        rw [h1, h2, h3, if_pos hset]
        simp
      · dsimp only
        rw [h4, h5, h6, if_pos hset]
        simp only [ne_eq, not_true_eq_false, if_false]
        split_ifs <;> decide
      · dsimp only
        rw [h7, h8, h9, if_pos hset]
        simp only [ne_eq, not_true_eq_false, if_false]
        split_ifs <;> decide
    · simp only [List.mem_singleton, forall_eq]
      simp only [List.mem_cons, Prod.mk.injEq, List.not_mem_nil, or_false] at ho
      rcases ho with ⟨-, rfl⟩ | ⟨-, rfl⟩ | ⟨-, rfl⟩ <;> rfl

/-- The frames for the requests that are served. -/
theorem frames_of_opcodes (key : Option Key) {opcodes : List Opcode}
    (h : ∀ opcode ∈ opcodes, opcode.isControl) :
    Bare (opcodes.map (controlFrameFor key)) ∧
      controls (opcodes.map (controlFrameFor key)) = opcodes := by
  constructor
  · intro f hf
    obtain ⟨opcode, ho, rfl⟩ := List.mem_map.mp hf
    exact ⟨h opcode ho, rfl, rfl⟩
  · induction opcodes with
    | nil => rfl
    | cons opcode opcodes ih =>
      rw [List.map_cons, controls_cons, ih fun o ho => h o (List.mem_cons_of_mem _ ho),
        show (controlFrameFor key opcode).isControl = true from h opcode List.mem_cons_self]
      rfl

/-- The requests one by one, as the encoder serves them. -/
def serve (maxSendSize : Nat) (s : Protocol × List UInt8) : Protocol × List UInt8 :=
  encodeControl requestPong .pong (fun result => result + 1 < maxSendSize)
    (encodeControl requestPing .ping (fun result => result + 1 < maxSendSize)
      (encodeControl requestClose .close (fun _ => true) s))

theorem serve_serves (maxSendSize : Nat) (s : Protocol × List UInt8) :
    ∃ opcodes, Serves s (serve maxSendSize s) opcodes ∧
      (opcodes = [] → s.2.length + 1 < maxSendSize →
        s.1.controlStatus &&& requestClose = 0 ∧ s.1.controlStatus &&& requestPing = 0 ∧
          s.1.controlStatus &&& requestPong = 0) := by
  obtain ⟨o1, h1, hnone1⟩ := encodeControl_serves (by simp : (requestClose, Opcode.close) ∈ _)
    (fun _ => true) s
  obtain ⟨o2, h2, hnone2⟩ := encodeControl_serves (by simp : (requestPing, Opcode.ping) ∈ _)
    (fun result => result + 1 < maxSendSize) (encodeControl requestClose .close (fun _ => true) s)
  obtain ⟨o3, h3, hnone3⟩ := encodeControl_serves (by simp : (requestPong, Opcode.pong) ∈ _)
    (fun result => result + 1 < maxSendSize) (encodeControl requestPing .ping
      (fun result => result + 1 < maxSendSize) (encodeControl requestClose .close (fun _ => true) s))
  refine ⟨_, (h1.trans h2).trans h3, ?_⟩
  intro hnone hroom
  obtain ⟨hnone', ho3⟩ := List.append_eq_nil_iff.mp hnone
  obtain ⟨ho1, ho2⟩ := List.append_eq_nil_iff.mp hnone'
  obtain ⟨hs1, hclose⟩ := hnone1 ho1
  obtain ⟨hs2, hping⟩ := hnone2 ho2
  obtain ⟨-, hpong⟩ := hnone3 ho3
  rw [hs1] at hs2 hping
  rw [hs1, hs2] at hpong
  exact ⟨hclose rfl, hping (by simpa using hroom), hpong (by simpa using hroom)⟩

/-- One request alone is served when there is room. -/
theorem serve_single {maxSendSize : Nat} {s : Protocol × List UInt8}
    (hsingle : s.1.requests.length ≤ 1)
    (hsome : s.1.controlStatus &&& (requestClose ||| requestPing ||| requestPong) ≠ 0)
    (hroom : s.2.length + 6 < maxSendSize) :
    ∃ opcode, Serves s (serve maxSendSize s) [opcode] := by
  obtain ⟨opcodes, h, hnone⟩ := serve_serves maxSendSize s
  have hlength := h.requests.length_eq
  rw [List.length_append] at hlength
  match opcodes, h, hlength with
  | [], _, _ =>
    obtain ⟨hclose, hping, hpong⟩ := hnone rfl (by omega)
    exact absurd (Bytes.and_or_eq_zero (Bytes.and_or_eq_zero hclose hping) hpong) hsome
  | [opcode], h, _ => exact ⟨opcode, h⟩
  | _ :: _ :: _, _, hlength =>
    simp only [List.length_cons] at hlength
    omega

/-- Where there are requests and room for them, each is served that has room. -/
theorem encodeControls_frames (maxSendSize : Nat) (maskKey : Key) (s : Protocol × List UInt8)
    (hsingle : s.1.masking ≠ 0 → s.2.length + 6 < maxSendSize → s.1.requests.length ≤ 1) :
    ∃ frames, (encodeControls maxSendSize maskKey s).2 = s.2 ++ encodeAll frames ∧ Bare frames ∧
      (controls frames ++ (encodeControls maxSendSize maskKey s).1.requests).Perm s.1.requests ∧
      (encodeControls maxSendSize maskKey s).1.setFlags = s.1.setFlags ∧
      (encodeControls maxSendSize maskKey s).1.progressInfo = s.1.progressInfo := by
  by_cases hserved : s.1.controlStatus &&& (requestClose ||| requestPing ||| requestPong) ≠ 0 ∧
      s.2.length + (if s.1.masking ≠ 0 then 6 else 2) < maxSendSize
  swap
  · have hnothing : encodeControls maxSendSize maskKey s = s := if_neg hserved
    rw [hnothing]
    exact ⟨[], by simp, nofun, .refl _, rfl, rfl⟩
  obtain ⟨hsome, hroom⟩ := hserved
  have heq : encodeControls maxSendSize maskKey s =
      if (serve maxSendSize s).1.masking ≠ 0 then
        ((serve maxSendSize s).1, (serve maxSendSize s).2 ++ maskKey.bytes)
      else serve maxSendSize s := if_pos ⟨hsome, hroom⟩
  rw [heq]
  by_cases hmasking : s.1.masking = 0
  · obtain ⟨opcodes, h, -⟩ := serve_serves maxSendSize s
    obtain ⟨hbare, hcontrols⟩ := frames_of_opcodes (s.1.keyFor maskKey) h.control
    have hplain : (serve maxSendSize s).1.masking = 0 := by
      rw [masking, h.setFlags]
      exact hmasking
    rw [if_neg (not_not.mpr hplain)]
    refine ⟨_, ?_, hbare, hcontrols.symm ▸ h.requests, h.setFlags, h.progressInfo⟩
    rw [h.bytes, encodeAll, List.flatMap_map]
    simp only [encode_controlFrameFor, hmasking, if_true, List.append_nil]
  · rw [if_pos hmasking] at hroom
    obtain ⟨opcode, h⟩ := serve_single (hsingle hmasking hroom) hsome hroom
    obtain ⟨hbare, hcontrols⟩ := frames_of_opcodes (s.1.keyFor maskKey) h.control
    have hmasked : (serve maxSendSize s).1.masking ≠ 0 := by
      rw [masking, h.setFlags]
      exact hmasking
    rw [if_pos hmasked]
    refine ⟨_, ?_, hbare, hcontrols.symm ▸ h.requests, h.setFlags, h.progressInfo⟩
    rw [h.bytes, List.map_singleton, encodeAll_cons, encode_controlFrameFor, if_neg hmasking]
    simp

end

end Protocol

/-! ### Runs of a sender -/

namespace Sender

open Protocol

/-- What was sent is a stream of frames. -/
structure Sent (binary : Bool) (s : Sender) (frames : List Frame) : Prop where
  stream : s.stream = encodeAll frames
  valid : Valid false frames
  message : after false frames = s.protocol.sendInProgress
  each : ∀ f ∈ frames, Typed binary f ∧ f.payload.length < 65536 ∧ (f.isControl → f.payload = [])
  blocks : payloads frames = s.blocks
  requested : (controls frames ++ s.protocol.requests).Perm s.requested
  type : s.protocol.setFlags &&& typeFrame = messageType binary

theorem new_sent (binary masking : Bool) : Sent binary (new binary masking) [] := by
  refine ⟨rfl, trivial, ?_, nofun, rfl, ?_, (new_awaits binary masking).type⟩
  · cases binary <;> cases masking <;> decide
  · cases binary <;> cases masking <;> decide

theorem requests_congr {p p' : Protocol} (h : p'.controlStatus = p.controlStatus) :
    p'.requests = p.requests := by
  rw [requests, requests, h]

variable {binary : Bool} {s : Sender} {frames : List Frame}

theorem Sent.send (h : Sent binary s frames) {maxSendSize : Nat} {data : List UInt8}
    {maskKey maskKey' : Key} (hfits : data.length + 8 ≤ maxSendSize) (hsize : maxSendSize < 65536)
    (hsingle : s.Single (.send maxSendSize data maskKey maskKey' hfits hsize)) :
    ∃ frames', Sent binary (s.step (.send maxSendSize data maskKey maskKey' hfits hsize)) frames' := by
  simp only [step]
  split
  case isFalse hsmall =>
    exact ⟨frames, h⟩
  case isTrue hroom =>
    obtain ⟨data₁, hbytes₁, hvalid₁, hafter₁, hpayloads₁, hcontrols₁, hdata₁, hflags₁, hstatus₁⟩ :=
      encodeData_frames h.type (maxSendSize - 8) (by omega : data.length < 65536) maskKey
    obtain ⟨controls₂, hbytes₂, hbare, hrequests, hflags₂, hprogress⟩ :=
      encodeControls_frames (maxSendSize - 8) maskKey'
        (s.protocol.encodeData (maxSendSize - 8) data maskKey) (by
          intro hmasking hroom
          rw [masking, hflags₁] at hmasking
          rw [requests_congr hstatus₁]
          exact hsingle hmasking hroom)
    obtain ⟨hvalid₂, hafter₂, hpayloads₂⟩ :=
      hbare.keeps (after s.protocol.sendInProgress data₁)
    refine ⟨frames ++ (data₁ ++ controls₂), ?_, ?_, ?_, ?_, ?_, ?_, ?_⟩
    · show s.stream ++ _ = _
      rw [encodeAll_append, encodeAll_append, ← h.stream, ← hbytes₁]
      exact congrArg (s.stream ++ ·) hbytes₂
    · refine valid_append h.valid ?_
      rw [h.message]
      exact valid_append hvalid₁ hvalid₂
    · rw [after_append, after_append, h.message, hafter₂, hafter₁]
      exact (congrArg (fun info => decide (info &&& 0x40 ≠ 0)) hprogress).symm
    · intro f hf
      rcases List.mem_append.mp hf with hf | hf
      · exact h.each f hf
      rcases List.mem_append.mp hf with hf | hf
      · obtain ⟨hcontrol, htyped, hshort⟩ := hdata₁ f hf
        exact ⟨htyped, hshort, fun hyes => absurd hyes (by simp [hcontrol])⟩
      · obtain ⟨hcontrol, -, hpayload⟩ := hbare f hf
        refine ⟨fun hno => absurd hcontrol (by simp [hno]), by simp [hpayload], fun _ => hpayload⟩
    · rw [payloads_append, payloads_append, hpayloads₁, hpayloads₂, List.append_nil, h.blocks]
    · rw [controls_append, controls_append, hcontrols₁, List.nil_append, List.append_assoc]
      refine (List.Perm.append_left _ ?_).trans h.requested
      exact hrequests.trans (requests_congr hstatus₁ ▸ .refl _)
    · show (encodeControls _ _ _).1.setFlags &&& typeFrame = _
      rw [hflags₂, hflags₁, h.type]

/-- A request that does not wait yet is added. -/
theorem Sent.request (h : Sent binary s frames) (request : UInt8) {opcode : Opcode}
    (ho : (request, opcode) ∈ [(requestClose, Opcode.close), (requestPing, .ping), (requestPong, .pong)])
    (hnew : opcode ∉ s.protocol.requests) :
    Sent binary { s with
      protocol := { s.protocol with controlStatus := s.protocol.controlStatus ||| request }
      requested := s.requested ++ [opcode] } frames := by
  refine { h with requested := ?_ }
  have hadded : (requests { s.protocol with
      controlStatus := s.protocol.controlStatus ||| request }).Perm (s.protocol.requests ++ [opcode]) := by
    have hbits (i : UInt8) : ((i ||| requestClose) &&& requestClose ≠ 0 ∧
        (i ||| requestClose) &&& requestPing = i &&& requestPing ∧
        (i ||| requestClose) &&& requestPong = i &&& requestPong) ∧
      ((i ||| requestPing) &&& requestPing ≠ 0 ∧
        (i ||| requestPing) &&& requestClose = i &&& requestClose ∧
        (i ||| requestPing) &&& requestPong = i &&& requestPong) ∧
      ((i ||| requestPong) &&& requestPong ≠ 0 ∧
        (i ||| requestPong) &&& requestClose = i &&& requestClose ∧
        (i ||| requestPong) &&& requestPing = i &&& requestPing) :=
      ⟨⟨Bytes.or_mask_ne_zero (by decide) i, Bytes.or_mask_zero rfl i, Bytes.or_mask_zero rfl i⟩,
        ⟨Bytes.or_mask_ne_zero (by decide) i, Bytes.or_mask_zero rfl i, Bytes.or_mask_zero rfl i⟩,
        Bytes.or_mask_ne_zero (by decide) i, Bytes.or_mask_zero rfl i, Bytes.or_mask_zero rfl i⟩
    obtain ⟨⟨h1, h2, h3⟩, ⟨h4, h5, h6⟩, h7, h8, h9⟩ := hbits s.protocol.controlStatus
    simp only [List.mem_cons, Prod.mk.injEq, List.not_mem_nil, or_false] at ho
    unfold requests at hnew ⊢
    rcases ho with ⟨rfl, rfl⟩ | ⟨rfl, rfl⟩ | ⟨rfl, rfl⟩
    · dsimp only
      rw [h2, h3, if_pos h1]
      revert hnew
      split_ifs <;> decide
    · dsimp only
      rw [h5, h6, if_pos h4]
      revert hnew
      split_ifs <;> decide
    · dsimp only
      rw [h8, h9, if_pos h7]
      revert hnew
      split_ifs <;> decide
  refine (List.Perm.append_left _ hadded).trans ?_
  rw [← List.append_assoc]
  exact h.requested.append_right [opcode]

theorem Sent.step (h : Sent binary s frames) (r : Request) (hsingle : s.Single r) :
    ∃ frames', Sent binary (s.step r) frames' := by
  cases r with
  | send maxSendSize data maskKey maskKey' hfits hsize => exact h.send hfits hsize hsingle
  | ping => exact ⟨frames, h.request requestPing (by simp) hsingle⟩
  | pong => exact ⟨frames, h.request requestPong (by simp) hsingle⟩
  | close => exact ⟨frames, h.request requestClose (by simp) hsingle⟩

theorem Sent.received (h : Sent binary s frames) : Received binary s := by
  intro masking chunks hchunks hfits
  obtain ⟨fuel, r, hall, hhonest, hpassed, hcommands, hkept, hpending⟩ :=
    Session.decodes binary masking frames chunks h.valid (hchunks.trans h.stream) hfits
      (fun f hf => (h.each f hf).1) (fun f hf => (h.each f hf).2.1)
      (fun _ _ => not_cut_of_empty (fun f hf => (h.each f hf).2.2) _)
  refine ⟨fuel, r, hall, hhonest, hpassed.trans h.blocks, ?_, hkept, hpending⟩
  rw [hcommands, ← List.map_append]
  exact h.requested.map _

/-- In a run without double requests, and with one control frame at a time where the link masks, the
peer receives what was sent, whatever the chunks are. -/
theorem received_of_single (binary masking : Bool) (requests : List Request)
    (h : Run.Meets step Single (new binary masking) requests) :
    Run.Always step (Received binary) (new binary masking) requests := by
  have hstep (s : Sender) (r : Request) (hs : ∃ frames, Sent binary s frames) (hr : s.Single r) :
      ∃ frames, Sent binary (s.step r) frames := hs.elim fun _ hs => hs.step r hr
  exact (h.always hstep ⟨[], new_sent binary masking⟩).mono fun _ hs => hs.elim fun _ hs => hs.received

/-- A block that fills the buffer, a ping between, and the rest. -/
theorem received_blocks : Run.Always step (Received true) (new true true)
    [.send 10 [0x41, 0x42] (fun _ => 0x11) (fun _ => 0x22) (by decide) (by decide), .ping,
      .send 30 [0x43] (fun _ => 0x33) (fun _ => 0x44) (by decide) (by decide)] := by
  apply received_of_single
  exact ⟨fun _ _ => by decide, by simp only [Single]; decide, fun _ _ => by decide, trivial⟩

/-- A link that masks and sends two control frames at once writes one key for both. -/
theorem not_received_masked : ¬ Run.Always step (Received true) (new true true)
    [.ping, .pong, .send 30 [] (fun _ => 0) (fun _ => 0) (by decide) (by decide)] := by
  intro h
  obtain ⟨fuel, r, hall, -, -, hcommands, -⟩ :=
    h.last false [[0x89, 0x80, 0x8A, 0x80, 0, 0, 0, 0]] (by decide) ⟨by decide, fun _ _ _ => trivial⟩
  have hrun : ((Session.receiveAll 5 (.new true false) [[0x89, 0x80, 0x8A, 0x80, 0, 0, 0, 0]]).map
      fun r => r.commands) = some [0x09] := by decide
  obtain ⟨r', hr', hseen⟩ := Option.map_eq_some_iff.mp hrun
  cases Session.receiveAll_unique hall hr'
  rw [hseen] at hcommands
  exact absurd hcommands (by decide)

end Sender

end Thunder.Web
