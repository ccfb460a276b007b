import Thunder.Core.Metadata
import Thunder.Core.Words
import Thunder.Library.Bytes
import Thunder.Library.Run

/-! `Web::WebSocketLinkType`: the state of a link that starts as a web service, is upgraded by a
handshake and is suspended by `Close`.  Every method holds the lock of the link, so events follow
one another; only in the callback of a server for an upgrade request does the parent call the link
before an event is over. -/

namespace Thunder.Web

open Thunder.Core (Text)

/-! ### `EnumlinkState` -/

def webservice : UInt8 := 0x01
def upgrading : UInt8 := 0x02
def websocket : UInt8 := 0x04
def suspended : UInt8 := 0x08
def readActivity : UInt8 := 0x10
def writeActivity : UInt8 := 0x20
def pinged : UInt8 := 0x40

/-! ### `WebStatus` -/

def statusOk : Nat := 200
def statusSwitchProtocol : Nat := 101
def statusForbidden : Nat := 403
def statusInternalServerError : Nat := 500

/-- A server receives requests, a client responses. -/
inductive Role
  | server
  | client
  deriving DecidableEq, Repr

/-- `_webSocketMessage`: of a server the response to an upgrade, of a client the request for it. -/
structure Message where
  errorCode : Nat
  webSocketAccept : Text
  webSocketKey : Text
  deriving DecidableEq, Repr

/-- The queue of the serializer says of each message whether it is the link's own.  `written` is the
own message as it was when its bytes were written, `requested` the key of the request that a server
answers with it. -/
structure Link where
  state : UInt8
  message : Message
  queue : List Bool
  sending : Bool
  written : Option Message
  requested : Text
  receiving : Bool
  pingFired : Bool
  linkOpen : Bool
  linkSuspended : Bool
  deriving DecidableEq, Repr

/-- A call of a public method, or of `AbortUpgrade`, which asserts that the status is another one. -/
inductive Call
  | upgrade (key : Text)
  | abortUpgrade (status : Nat) (h : status ≠ statusSwitchProtocol)
  | submit
  | ping
  | pong
  | resetActivity
  | close

/-- What a server or a client can receive. -/
inductive Received
  | request (upgrade : Bool) (key : Text)
  | response (errorCode : Nat) (accept : Text)

inductive Event
  | call (c : Call)
  /-- A message begins to arrive. -/
  | element
  /-- A message has arrived; for an upgrade the parent calls the link from its `StateChange`. -/
  | deserialized (message : Received) (reactions : List Call)
  /-- The first bytes of the message in front of the queue are written. -/
  | serializing
  | serialized
  | sendData
  | receiveData (pong : Bool)
  | stateChange (isOpen isSuspended isClosed : Bool)

namespace Link

/-- A new link on a connection that is open. -/
def new : Link :=
  ⟨webservice, ⟨statusOk, [], []⟩, [], false, none, [], false, false, true, false⟩

/-- A bit of the state. -/
def has (l : Link) (bit : UInt8) : Bool := l.state &&& bit ≠ 0

def isSuspended (l : Link) : Bool := l.linkSuspended ∨ l.has suspended

def isOpen (l : Link) : Bool := l.linkOpen ∧ l.has suspended = false

/-- The mode is replaced: `(_state & 0xF0) | mode`. -/
def enter (l : Link) (mode : UInt8) : Link := { l with state := l.state &&& 0xF0 ||| mode }

/-- `SerializerImpl::Submit`. -/
def enqueue (l : Link) (own : Bool) : Link :=
  { l with queue := l.queue ++ [own], sending := l.sending ∨ l.queue = [] }

def close (l : Link) : Link :=
  if l.isSuspended then l else { l with state := l.state ||| suspended }

def call (role : Role) (l : Link) : Call → Link
  | .upgrade key =>
    if role = .client ∧ l.has webservice then
      { l.enter upgrading with message.webSocketKey := key }.enqueue true
    else l
  | .abortUpgrade status _ =>
    if role = .server then { l with message.errorCode := status } else l
  | .submit => if l.isSuspended = false ∧ l.isOpen then l.enqueue false else l
  | .ping => { l with state := l.state ||| pinged, pingFired := true }
  | .pong => { l with pingFired := true }
  | .resetActivity => { l with state := l.state &&& ~~~(readActivity ||| writeActivity) }
  | .close => l.close

/-- The state of a server in the callback for an upgrade request. -/
def during (l : Link) (key : Text) (reactions : List Call) : Link :=
  reactions.foldl (call .server)
    { l.enter upgrading with message.errorCode := statusSwitchProtocol, requested := key }

section Handshake

-- `Protocol::ResponseKey`
variable (responseKey : Text → Text)

/-- `ReceivedWebSocket` of a server, for an upgrade request. -/
def receivedUpgrade (l : Link) (key : Text) (reactions : List Call) : Link :=
  (if l.has webservice = false then { l with message.errorCode := statusInternalServerError }
  else
    let l := l.during key reactions
    if l.message.errorCode ≠ statusSwitchProtocol then l.enter webservice
    else { l with message.webSocketAccept := responseKey key }).enqueue true

/-- The handshake of a client is complete. -/
def accepted (l : Link) (errorCode : Nat) (accept : Text) : Bool :=
  errorCode = statusSwitchProtocol ∧ accept = responseKey l.message.webSocketKey

/-- `ReceivedWebSocket`. -/
def received (role : Role) (l : Link) (message : Received) (reactions : List Call) : Link :=
  match role, message with
  | .server, .request true key => l.receivedUpgrade responseKey key reactions
  | .client, .response errorCode accept =>
    if l.accepted responseKey errorCode accept then l.enter websocket
    else if errorCode = statusForbidden then l.close
    else l
  | _, _ => l

/-- `UpgradeCompleted`. -/
def upgradeCompleted (role : Role) (l : Link) : Link :=
  if role = .server ∧ l.message.errorCode = statusSwitchProtocol then l.enter websocket else l

/-- Whether the serializer is asked for the rest of a message. -/
def serializes (l : Link) : Bool := l.has websocket = false ∧ l.sending ∧ l.written.isSome

/-- `SerializerImpl::Serialized`. -/
def serialized (role : Role) (l : Link) : Link :=
  match l.queue with
  | [] => l
  | own :: queue =>
    let l := { l with queue := queue, written := none }
    let l := if own then l.upgradeCompleted role else l
    { l with sending := l.isSuspended = false ∧ queue ≠ [] }

/-- Events that cannot happen change nothing. -/
def step (role : Role) (l : Link) : Event → Link
  | .call c => l.call role c
  | .element => if l.isSuspended then l else { l with receiving := true }
  | .deserialized message reactions =>
    if l.receiving then { l.received responseKey role message reactions with receiving := false }
    else l
  | .serializing =>
    if l.has websocket = false ∧ l.sending ∧ l.written = none then
      { l with written := some l.message }
    else l
  | .serialized => if l.serializes then l.serialized role else l
  | .sendData => if l.has pinged then { l with state := l.state ||| writeActivity } else l
  | .receiveData pong =>
    let l := { l with state := l.state ||| readActivity }
    if l.has websocket ∧ pong ∧ l.pingFired then
      { l with state := l.state &&& ~~~pinged, pingFired := false }
    else l
  | .stateChange isOpen isSuspended isClosed =>
    let l := { l with linkOpen := isOpen, linkSuspended := isSuspended }
    if isClosed then { l with queue := [], sending := false, written := none } else l

/-- The states that a link passes in an event; a server has two in the callback for an upgrade. -/
def passed (role : Role) (l : Link) (e : Event) : List Link :=
  match role, e with
  | .server, .deserialized (.request true key) reactions =>
    if l.receiving ∧ l.has webservice then
      [l.during key [], l.during key reactions, l.step responseKey role e]
    else [l.step responseKey role e]
  | _, _ => [l.step responseKey role e]

/-- The event completes a handshake: a server has written a 101 with the key that goes with the
request, a client receives one. -/
def Handshake (role : Role) (l : Link) (e : Event) : Prop :=
  match role, e with
  | .server, .serialized => ∃ m, l.written = some m ∧ m.errorCode = statusSwitchProtocol ∧
      m.webSocketAccept = responseKey l.requested
  | .client, .deserialized (.response errorCode accept) _ =>
    errorCode = statusSwitchProtocol ∧ accept = responseKey l.message.webSocketKey
  | _, _ => False

/-- What is wanted of an event: one mode, a link that becomes a web socket only through a handshake,
and a suspension that stays and keeps messages out. -/
structure Sound (role : Role) (l : Link) (e : Event) : Prop where
  mode : ∀ l' ∈ l.passed responseKey role e, l'.state &&& 0x07 ∈ [webservice, upgrading, websocket]
  enters : l.has websocket = false → (l.step responseKey role e).has websocket →
    l.has upgrading ∧ Handshake responseKey role l e
  suspends : (l :: l.passed responseKey role e).IsChain fun l l' => l.has suspended → l'.has suspended
  rejects : l.has suspended → (l.step responseKey role (.call .submit)).queue = l.queue ∧
    (l.step responseKey role .element).receiving = l.receiving

/-- No event replaces the mode of a suspended link, a server does not abort an upgrade and close the
link in one callback, the answer to an upgrade has been written as the 101 it is at the end, and a
client that has not asked for an upgrade is not sent the answer to one. -/
def Orderly (role : Role) (l : Link) (e : Event) : Prop :=
  match role, e with
  | .client, .call (.upgrade _) => l.has webservice → l.has suspended = false
  | .client, .deserialized (.response errorCode accept) _ =>
    l.receiving → l.accepted responseKey errorCode accept →
      l.has suspended = false ∧ l.has webservice = false
  | .server, .deserialized (.request true _) reactions =>
    l.receiving → l.has webservice → l.has suspended = false ∧
      ((∃ status h, Call.abortUpgrade status h ∈ reactions) → .close ∈ reactions → l.linkSuspended)
  | .server, .serialized =>
    l.serializes → l.queue.head? = some true → l.message.errorCode = statusSwitchProtocol →
      l.has suspended = false ∧ l.written.map Message.errorCode = some statusSwitchProtocol
  | _, _ => True

end Handshake

/-! ### The bits of the state -/

/-- The bits of the mode. -/
def mode (l : Link) : UInt8 := l.state &&& 0x07

def modes : List UInt8 := [webservice, upgrading, websocket]

section Bits

variable {l : Link} {m bit : UInt8}

theorem has_iff : l.has bit ↔ l.state &&& bit ≠ 0 :=
  decide_eq_true_iff

theorem has_mode (hm : l.mode ∈ modes) (hbit : bit ∈ modes) : l.has bit = decide (l.mode = bit) := by
  simp only [modes, List.mem_cons, List.not_mem_nil, or_false] at hm hbit
  have hlow : l.state &&& bit = l.mode &&& bit := by
    have hmask : 0x07 &&& bit = bit := by rcases hbit with rfl | rfl | rfl <;> rfl
    exact (Bytes.and_mask hmask l.state).symm
  have hiff : l.state &&& bit ≠ 0 ↔ l.mode = bit := by
    rw [hlow]
    rcases hm with hm | hm | hm <;> rcases hbit with rfl | rfl | rfl <;> rw [hm] <;> decide
  exact decide_eq_decide.mpr hiff

theorem enter_mode (hm : m ∈ modes) :
    (l.enter m).mode = m ∧ (l.enter m).has suspended = false := by
  have hbits : m &&& 0x07 = m ∧ m &&& suspended = 0 := by
    simp only [modes, List.mem_cons, List.not_mem_nil, or_false] at hm
    rcases hm with rfl | rfl | rfl <;> decide
  have h : (l.state &&& 0xF0 ||| m) &&& 0x07 = m := by
    rw [Bytes.or_mask hbits.1, Bytes.and_mask_zero rfl, UInt8.zero_or]
  have h' : (l.state &&& 0xF0 ||| m) &&& suspended = 0 := by
    rw [Bytes.or_mask_zero hbits.2, Bytes.and_mask_zero rfl]
  exact ⟨h, by simp [has, enter, h']⟩

theorem set_bits (x bit : UInt8) (hbit : bit ∈ [suspended, readActivity, writeActivity, pinged]) :
    (x ||| bit) &&& 0x07 = x &&& 0x07 ∧
      ((x ||| bit) &&& suspended ≠ 0 ↔ x &&& suspended ≠ 0 ∨ bit = suspended) := by
  simp only [List.mem_cons, List.not_mem_nil, or_false] at hbit
  rcases hbit with rfl | hbit
  · exact ⟨Bytes.or_mask_zero rfl x, iff_of_true (Bytes.or_mask_ne_zero (by decide) x) (.inr rfl)⟩
  · have hother : bit &&& 0x07 = 0 ∧ bit &&& suspended = 0 ∧ bit ≠ suspended := by
      rcases hbit with rfl | rfl | rfl <;> decide
    refine ⟨Bytes.or_mask_zero hother.1 x, ?_⟩
    rw [Bytes.or_mask_zero hother.2.1, or_iff_left hother.2.2]

theorem reset_bits (x bit : UInt8) (hbit : bit ∈ [readActivity ||| writeActivity, pinged]) :
    (x &&& ~~~bit) &&& 0x07 = x &&& 0x07 ∧ (x &&& ~~~bit) &&& suspended = x &&& suspended := by
  simp only [List.mem_cons, List.not_mem_nil, or_false] at hbit
  rcases hbit with rfl | rfl <;> exact ⟨Bytes.and_mask rfl x, Bytes.and_mask rfl x⟩

end Bits

/-! ### Calls of a server -/

/-- What calls do to the link of a server. -/
structure Called (l : Link) (calls : List Call) (l' : Link) : Prop where
  mode : l'.mode = l.mode
  suspends : l'.has suspended ↔ l.has suspended ∨ .close ∈ calls ∧ l.linkSuspended = false
  linkSuspended : l'.linkSuspended = l.linkSuspended
  written : l'.written = l.written
  requested : l'.requested = l.requested
  accept : l'.message.webSocketAccept = l.message.webSocketAccept
  errorCode : l'.message.errorCode = statusSwitchProtocol ↔
    l.message.errorCode = statusSwitchProtocol ∧ ∀ status h, .abortUpgrade status h ∉ calls

theorem Called.refl (l : Link) : Called l [] l :=
  ⟨rfl, by simp, rfl, rfl, rfl, rfl, by simp⟩

theorem Called.trans {l l' l'' : Link} {calls calls' : List Call} (h : Called l calls l')
    (h' : Called l' calls' l'') : Called l (calls ++ calls') l'' where
  mode := h'.mode.trans h.mode
  suspends := by
    rw [h'.suspends, h.suspends, h.linkSuspended, List.mem_append]
    tauto
  linkSuspended := h'.linkSuspended.trans h.linkSuspended
  written := h'.written.trans h.written
  requested := h'.requested.trans h.requested
  accept := h'.accept.trans h.accept
  errorCode := by
    simp only [h'.errorCode, h.errorCode, List.mem_append, not_or]
    exact ⟨fun ⟨⟨hcode, h1⟩, h2⟩ => ⟨hcode, fun status hs => ⟨h1 status hs, h2 status hs⟩⟩,
      fun ⟨hcode, hboth⟩ => ⟨⟨hcode, fun status hs => (hboth status hs).1⟩,
        fun status hs => (hboth status hs).2⟩⟩

theorem called_close (l : Link) : Called l [.close] l.close := by
  unfold close
  split
  case isTrue h =>
    have hbefore : l.linkSuspended = true ∨ l.has suspended := by simpa [isSuspended] using h
    refine ⟨rfl, ?_, rfl, rfl, rfl, rfl, by simp⟩
    rcases hbefore with h | h <;> simp [h]
  case isFalse h =>
    have hbits := set_bits l.state suspended (by simp)
    refine ⟨hbits.1, ?_, rfl, rfl, rfl, rfl, by simp⟩
    have hlink : l.linkSuspended = false := by
      simp only [isSuspended, decide_eq_true_eq, not_or] at h
      simpa using h.1
    simp [has, hbits.2, hlink]

theorem called_call (l : Link) (c : Call) : Called l [c] (l.call .server c) := by
  cases c with
  | upgrade key => exact ⟨rfl, by simp [call], rfl, rfl, rfl, rfl, by simp [call]⟩
  | abortUpgrade status h =>
    refine ⟨rfl, ?_, rfl, rfl, rfl, rfl, ?_⟩
    · simp [call, has_iff]
    · simp [call, h]
  | submit =>
    show Called l [.submit] (if l.isSuspended = false ∧ l.isOpen then l.enqueue false else l)
    split <;> exact ⟨rfl, by simp [enqueue, has_iff], rfl, rfl, rfl, rfl, by simp [enqueue]⟩
  | ping =>
    have hbits := set_bits l.state pinged (by simp)
    refine ⟨hbits.1, ?_, rfl, rfl, rfl, rfl, by simp [call]⟩
    simp [call, has_iff, hbits.2, show pinged ≠ suspended from by decide]
  | pong => exact ⟨rfl, by simp [call, has_iff], rfl, rfl, rfl, rfl, by simp [call]⟩
  | resetActivity =>
    have hbits := reset_bits l.state (readActivity ||| writeActivity) (by simp)
    exact ⟨hbits.1, by simp [call, has_iff, hbits.2], rfl, rfl, rfl, rfl, by simp [call]⟩
  | close => exact called_close l

theorem called_foldl (l : Link) (calls : List Call) :
    Called l calls (calls.foldl (call .server) l) := by
  induction calls generalizing l with
  | nil => exact Called.refl l
  | cons c calls ih => exact (called_call l c).trans (ih _)

theorem called_during (l : Link) (key : Text) (calls : List Call) :
    Called { l.enter upgrading with message.errorCode := statusSwitchProtocol, requested := key }
      calls (l.during key calls) :=
  called_foldl _ calls

/-! ### Runs -/

section Runs

variable (responseKey : Text → Text)

/-- A 101 has the key that goes with the request, and the link is past the web service. -/
def Answers (l : Link) (m : Message) : Prop :=
  m.errorCode = statusSwitchProtocol →
    m.webSocketAccept = responseKey l.requested ∧ l.mode ≠ webservice

structure Inv (l : Link) : Prop where
  mode : l.mode ∈ modes
  message : l.Answers responseKey l.message
  written : ∀ m, l.written = some m → l.Answers responseKey m

theorem new_inv : Inv responseKey new where
  mode := by decide
  message := by intro h; cases h
  written := by intro m h; cases h

variable {responseKey} {l l' : Link}

theorem Inv.frame (h : Inv responseKey l) (hmode : l'.mode = l.mode ∨ l'.mode ∈ [upgrading, websocket])
    (hrequested : l'.requested = l.requested)
    (hmessage : l'.message.errorCode = statusSwitchProtocol →
      l.message.errorCode = statusSwitchProtocol ∧
        l'.message.webSocketAccept = l.message.webSocketAccept)
    (hwritten : ∀ m, l'.written = some m → l.written = some m ∨ m = l.message) :
    Inv responseKey l' := by
  have hpast : l.mode ≠ webservice → l'.mode ≠ webservice := by
    intro hl
    rcases hmode with hmode | hmode
    · rwa [hmode]
    · rcases (by simpa using hmode : l'.mode = upgrading ∨ l'.mode = websocket) with h | h <;>
        rw [h] <;> decide
  refine ⟨?_, ?_, ?_⟩
  · rcases hmode with hmode | hmode
    · rw [hmode]
      exact h.mode
    · exact List.mem_cons_of_mem _ hmode
  · intro hcode
    obtain ⟨hcode, haccept⟩ := hmessage hcode
    obtain ⟨hkey, hl⟩ := h.message hcode
    exact ⟨by rw [haccept, hrequested, hkey], hpast hl⟩
  · intro m hm hcode
    have hanswers : l.Answers responseKey m := by
      rcases hwritten m hm with hm | rfl
      · exact h.written m hm
      · exact h.message
    obtain ⟨hkey, hl⟩ := hanswers hcode
    exact ⟨by rw [hrequested, hkey], hpast hl⟩

theorem Inv.called {calls : List Call} (h : Inv responseKey l) (hcalled : Called l calls l') :
    Inv responseKey l' :=
  h.frame (.inl hcalled.mode) hcalled.requested
    (fun hcode => ⟨(hcalled.errorCode.mp hcode).1, hcalled.accept⟩)
    (fun _ hm => .inl (hcalled.written ▸ hm))

/-- Only the state changes, and in it the mode stays or goes on. -/
theorem Inv.state {state : UInt8} (h : Inv responseKey l)
    (hmode : state &&& 0x07 = l.mode ∨ state &&& 0x07 ∈ [upgrading, websocket]) :
    Inv responseKey { l with state := state } :=
  h.frame hmode rfl (fun hcode => ⟨hcode, rfl⟩) (fun _ hm => .inl hm)

theorem Inv.enter {m : UInt8} (h : Inv responseKey l) (hm : m ∈ [upgrading, websocket]) :
    Inv responseKey (l.enter m) := by
  apply h.state
  right
  have := (enter_mode (l := l) (List.mem_cons_of_mem webservice hm)).1
  exact (congrArg (· ∈ [upgrading, websocket]) this).mpr hm

theorem Inv.call (role : Role) (c : Call) (h : Inv responseKey l) :
    Inv responseKey (l.call role c) := by
  cases role with
  | server => exact h.called (called_call l c)
  | client =>
    cases c with
    | upgrade key =>
      show Inv responseKey (if Role.client = .client ∧ l.has webservice then _ else l)
      split
      · exact (h.enter (by simp : upgrading ∈ _)).frame (.inl rfl) rfl (fun hcode => ⟨hcode, rfl⟩)
          (fun _ hm => .inl hm)
      · exact h
    | abortUpgrade status hstatus => exact h
    | submit => exact h.called (called_call l .submit)
    | ping => exact h.called (called_call l .ping)
    | pong => exact h.called (called_call l .pong)
    | resetActivity => exact h.called (called_call l .resetActivity)
    | close => exact h.called (called_call l .close)

theorem Inv.receivedUpgrade (key : Text) (reactions : List Call) (h : Inv responseKey l) :
    Inv responseKey (l.receivedUpgrade responseKey key reactions) := by
  have henqueue {l' : Link} (h' : Inv responseKey l') : Inv responseKey (l'.enqueue true) :=
    h'.frame (.inl rfl) rfl (fun hcode => ⟨hcode, rfl⟩) (fun _ hm => .inl hm)
  apply henqueue
  have hduring := called_during l key reactions
  have hmode : (l.during key reactions).mode = upgrading :=
    hduring.mode.trans (enter_mode (by decide)).1
  split
  case isTrue hservice =>
    refine h.frame (.inl rfl) rfl ?_ (fun _ hm => .inl hm)
    intro hcode
    cases hcode
  case isFalse hservice =>
    -- No 101 has been written: the link is still a web service.
    have hwritten : ∀ m, (l.during key reactions).written = some m →
        m.errorCode ≠ statusSwitchProtocol := by
      intro m hm hcode
      rw [hduring.written] at hm
      obtain ⟨_, hpast⟩ := h.written m hm hcode
      rw [has_mode h.mode (by decide)] at hservice
      simp [hpast] at hservice
    dsimp only
    split
    case isTrue hcode =>
      refine ⟨?_, fun hcode' => absurd hcode' hcode, fun m hm hcode' => absurd hcode' (hwritten m hm)⟩
      rw [(enter_mode (by decide)).1]
      decide
    case isFalse hcode =>
      refine ⟨?_, fun _ => ⟨?_, ?_⟩, fun m hm hcode' => absurd hcode' (hwritten m hm)⟩
      · show (l.during key reactions).mode ∈ modes
        rw [hmode]
        decide
      · exact congrArg responseKey hduring.requested.symm
      · show (l.during key reactions).mode ≠ webservice
        rw [hmode]
        decide

theorem Inv.received (role : Role) (message : Received) (reactions : List Call)
    (h : Inv responseKey l) : Inv responseKey (l.received responseKey role message reactions) := by
  unfold Link.received
  split
  · exact h.receivedUpgrade _ _
  · split
    · exact h.enter (by simp)
    · split
      · exact h.called (called_close l)
      · exact h
  · exact h

theorem Inv.serialized (role : Role) (h : Inv responseKey l) :
    Inv responseKey (l.serialized role) := by
  unfold Link.serialized
  split
  · exact h
  · rename_i own queue _
    have hnone : Inv responseKey { l with queue := queue, written := none } :=
      h.frame (.inl rfl) rfl (fun hcode => ⟨hcode, rfl⟩) (by simp)
    have hcompleted {l' : Link} (hl : Inv responseKey l') :
        Inv responseKey (l'.upgradeCompleted role) := by
      unfold upgradeCompleted
      split
      · exact hl.enter (by simp)
      · exact hl
    refine Inv.frame (l := if own then _ else _) ?_ (.inl rfl) rfl (fun hcode => ⟨hcode, rfl⟩)
      (fun _ hm => .inl hm)
    split
    · exact hcompleted hnone
    · exact hnone

theorem Inv.step (role : Role) (e : Event) (h : Inv responseKey l) :
    Inv responseKey (l.step responseKey role e) := by
  have hsame {l' : Link} (hstate : l'.state = l.state) (hrequested : l'.requested = l.requested)
      (hmessage : l'.message = l.message)
      (hwritten : ∀ m, l'.written = some m → l.written = some m ∨ m = l.message) :
      Inv responseKey l' :=
    h.frame (.inl (congrArg (· &&& 0x07) hstate)) hrequested
      (fun hcode => ⟨hmessage ▸ hcode, by rw [hmessage]⟩) hwritten
  cases e with
  | call c => exact h.call role c
  | element =>
    simp only [Link.step]
    split
    · exact h
    · exact hsame rfl rfl rfl (fun _ hm => .inl hm)
  | deserialized message reactions =>
    simp only [Link.step]
    split
    · exact (h.received role message reactions).frame (.inl rfl) rfl (fun hcode => ⟨hcode, rfl⟩)
        (fun _ hm => .inl hm)
    · exact h
  | serializing =>
    simp only [Link.step]
    split
    · exact hsame rfl rfl rfl (by simp)
    · exact h
  | serialized =>
    simp only [Link.step]
    split
    · exact h.serialized role
    · exact h
  | sendData =>
    simp only [Link.step]
    split
    · exact h.state (.inl (set_bits l.state writeActivity (by simp)).1)
    · exact h
  | receiveData pong =>
    have hread := h.state (.inl (set_bits l.state readActivity (by simp)).1)
    simp only [Link.step]
    split
    · exact (hread.state (.inl (reset_bits _ pinged (by simp)).1)).frame (.inl rfl) rfl
        (fun hcode => ⟨hcode, rfl⟩) (fun _ hm => .inl hm)
    · exact hread
  | stateChange isOpen isSuspended isClosed =>
    simp only [Link.step]
    split
    · exact hsame rfl rfl rfl (by simp)
    · exact hsame rfl rfl rfl (fun _ hm => .inl hm)

/-! ### What is wanted of an event -/

/-- The mode stays, and so does a suspension. -/
structure Kept (l l' : Link) : Prop where
  mode : l'.mode = l.mode
  suspends : l.has suspended → l'.has suspended

theorem kept_of_state (h : l'.state = l.state) : Kept l l' :=
  ⟨congrArg (· &&& 0x07) h, by simp [has_iff, h]⟩

theorem Kept.congr {l'' : Link} (hk : Kept l l') (h : l''.state = l'.state) : Kept l l'' :=
  ⟨(congrArg (· &&& 0x07) h).trans hk.mode, by simpa [has_iff, h] using hk.suspends⟩

theorem entered {m : UInt8} (hm : m ∈ modes) (h : l'.state = (l.enter m).state) :
    l'.mode = m ∧ l'.has suspended = false := by
  have hentered := enter_mode (l := l) hm
  exact ⟨(congrArg (· &&& 0x07) h).trans hentered.1, by
    rw [← hentered.2, has, has, h]⟩

theorem Called.kept {calls : List Call} (h : Called l calls l') : Kept l l' :=
  ⟨h.mode, fun hs => h.suspends.mpr (.inl hs)⟩

variable {role : Role} {e : Event}

theorem rejects (hs : l.has suspended) :
    (l.step responseKey role (.call .submit)).queue = l.queue ∧
      (l.step responseKey role .element).receiving = l.receiving := by
  have hsuspended : l.isSuspended = true := by simp [isSuspended, hs]
  constructor
  · simp [step, call, hsuspended]
  · simp [step, hsuspended]

theorem mode_passed (h : Inv responseKey l) :
    ∀ l' ∈ l.passed responseKey role e, l'.mode ∈ modes := by
  have hstep := (h.step role e).mode
  have hduring (key : Text) (calls : List Call) : (l.during key calls).mode ∈ modes := by
    rw [(called_during l key calls).mode]
    show (l.enter upgrading).mode ∈ modes
    rw [(enter_mode (by decide)).1]
    decide
  unfold passed
  split
  · split
    · simp only [List.forall_mem_cons]
      exact ⟨hduring _ _, hduring _ _, hstep, by simp⟩
    · simpa using hstep
  · simpa using hstep

theorem Kept.sound (hk : Kept l (l.step responseKey role e)) (h : Inv responseKey l)
    (hpassed : l.passed responseKey role e = [l.step responseKey role e]) :
    Sound responseKey role l e where
  mode := mode_passed h
  enters := by
    intro hbefore hafter
    rw [has_mode (h.step role e).mode (by decide), hk.mode, ← has_mode h.mode (by decide),
      hbefore] at hafter
    cases hafter
  suspends := by
    rw [hpassed, List.isChain_cons_cons]
    exact ⟨hk.suspends, List.IsChain.singleton _⟩
  rejects := rejects

theorem sound_entered_iff (role : Role) (e : Event) {m : UInt8} (h : Inv responseKey l)
    (hpassed : l.passed responseKey role e = [l.step responseKey role e])
    (hentered : (l.step responseKey role e).mode = m ∧
      (l.step responseKey role e).has suspended = false) :
    Sound responseKey role l e ↔ l.has suspended = false ∧
      (m = websocket → l.has websocket = false → l.has upgrading ∧ Handshake responseKey role l e) := by
  obtain ⟨rfl, hopen⟩ := hentered
  have hmode : (l.step responseKey role e).has websocket =
      decide ((l.step responseKey role e).mode = websocket) := has_mode (h.step role e).mode (by decide)
  constructor
  · intro hsound
    have hchain := hsound.suspends
    rw [hpassed, List.isChain_cons_cons, hopen] at hchain
    refine ⟨by simpa using hchain.1, fun hm hbefore => hsound.enters hbefore ?_⟩
    rw [hmode, hm]
    decide
  · rintro ⟨hbefore, henters⟩
    refine ⟨mode_passed h, fun hno hafter => henters ?_ hno, ?_, rejects⟩
    · rw [hmode] at hafter
      exact of_decide_eq_true hafter
    · rw [hpassed, List.isChain_cons_cons, hbefore]
      exact ⟨by simp, List.IsChain.singleton _⟩

theorem has_upgrading_iff (h : Inv responseKey l) (hno : l.has websocket = false) :
    l.has upgrading ↔ l.has webservice = false := by
  have hmodes := h.mode
  rw [has_mode h.mode (by decide)] at hno ⊢
  rw [has_mode h.mode (by decide)]
  rcases (by simpa [modes] using hmodes : l.mode = webservice ∨ l.mode = upgrading ∨ l.mode = websocket)
    with hm | hm | hm <;> rw [hm] at hno ⊢ <;> revert hno <;> decide

theorem sound_upgrade_iff (h : Inv responseKey l) (key : Text) :
    Sound responseKey .client l (.call (.upgrade key)) ↔
      Orderly responseKey .client l (.call (.upgrade key)) := by
  by_cases hservice : l.has webservice
  · have hentered := sound_entered_iff .client (.call (.upgrade key)) (m := upgrading)
      h rfl (entered (l := l) (by decide) (by simp [step, call, hservice, enqueue]))
    rw [hentered]
    simp [Orderly, hservice, show upgrading ≠ websocket from by decide]
  · refine iff_of_true (Kept.sound ?_ h rfl) (by simp [Orderly, hservice])
    exact kept_of_state (by simp [step, call, hservice])

theorem sound_response_iff (h : Inv responseKey l) (errorCode : Nat) (accept : Text)
    (reactions : List Call) :
    Sound responseKey .client l (.deserialized (.response errorCode accept) reactions) ↔
      Orderly responseKey .client l (.deserialized (.response errorCode accept) reactions) := by
  by_cases hreceiving : l.receiving
  swap
  · refine iff_of_true (Kept.sound ?_ h rfl) (by simp [Orderly, hreceiving])
    exact kept_of_state (by simp [step, hreceiving])
  by_cases haccepted : l.accepted responseKey errorCode accept
  · have hentered := sound_entered_iff .client
      (.deserialized (.response errorCode accept) reactions) (m := websocket) h rfl
      (entered (l := l) (by decide) (by simp [step, received, hreceiving, haccepted]))
    have hanswer : errorCode = statusSwitchProtocol ∧ accept = responseKey l.message.webSocketKey :=
      of_decide_eq_true haccepted
    rw [hentered]
    simp only [Orderly, hreceiving, haccepted, forall_const, and_congr_right_iff]
    intro _
    constructor
    · intro henters
      cases hsocket : l.has websocket with
      | true =>
        rw [has_mode h.mode (by decide)] at hsocket ⊢
        rw [of_decide_eq_true hsocket]
        decide
      | false => exact (has_upgrading_iff h hsocket).mp (henters hsocket).1
    · exact fun hservice hsocket => ⟨(has_upgrading_iff h hsocket).mpr hservice, hanswer⟩
  · refine iff_of_true (Kept.sound ?_ h rfl) (by simp [Orderly, haccepted])
    by_cases hforbidden : errorCode = statusForbidden
    · subst hforbidden
      exact (called_close l).kept.congr (by simp [step, received, hreceiving, haccepted])
    · exact kept_of_state (by simp [step, received, hreceiving, haccepted, hforbidden])

theorem sound_serialized_iff (h : Inv responseKey l) :
    Sound responseKey .server l .serialized ↔ Orderly responseKey .server l .serialized := by
  by_cases hcompletes : l.serializes ∧ l.queue.head? = some true ∧
      l.message.errorCode = statusSwitchProtocol
  · obtain ⟨hserializes, hhead, hcode⟩ := hcompletes
    obtain ⟨queue, hqueue⟩ : ∃ queue, l.queue = true :: queue := by
      cases hq : l.queue with
      | nil => simp [hq] at hhead
      | cons own queue => exact ⟨queue, by simpa [hq] using hhead⟩
    have hentered := sound_entered_iff .server .serialized (m := websocket) h rfl
      (entered (l := l) (by decide)
        (by simp [step, serialized, hserializes, hqueue, upgradeCompleted, hcode, enter]))
    obtain ⟨hsocket, -, hwritten⟩ : l.has websocket = false ∧ l.sending ∧ l.written.isSome :=
      of_decide_eq_true hserializes
    obtain ⟨m, hm⟩ := Option.isSome_iff_exists.mp hwritten
    have hupgrading : l.has upgrading := by
      rw [has_upgrading_iff h hsocket, has_mode h.mode (by decide)]
      exact decide_eq_false (h.message hcode).2
    rw [hentered]
    simp only [Orderly, hserializes, hhead, hcode, forall_const, and_congr_right_iff, hm,
      Option.map_some, Option.some.injEq]
    intro _
    constructor
    · intro henters
      obtain ⟨_, m', hm', hcode', _⟩ := henters hsocket
      cases hm.symm.trans hm'
      exact hcode'
    · exact fun hcode' _ => ⟨hupgrading, m, hm, hcode', (h.written m hm hcode').1⟩
  · refine iff_of_true (Kept.sound (kept_of_state ?_) h rfl) ?_
    · by_cases hserializes : l.serializes
      swap
      · simp [step, hserializes]
      cases hq : l.queue with
      | nil => simp [step, hserializes, serialized, hq]
      | cons own queue =>
        cases own with
        | false => simp [step, hserializes, serialized, hq]
        | true =>
          have hcode : l.message.errorCode ≠ statusSwitchProtocol := by
            intro hcode
            exact hcompletes ⟨hserializes, by simp [hq], hcode⟩
          simp [step, hserializes, serialized, hq, upgradeCompleted, hcode]
    · intro hserializes hhead hcode
      exact absurd ⟨hserializes, hhead, hcode⟩ hcompletes

theorem kept_set (bit : UInt8) (hbit : bit ∈ [suspended, readActivity, writeActivity, pinged])
    (h : l'.state = l.state ||| bit) : Kept l l' := by
  obtain ⟨hmode, hsuspended⟩ := set_bits l.state bit hbit
  refine ⟨(congrArg (· &&& 0x07) h).trans hmode, fun hs => ?_⟩
  rw [has_iff, h]
  exact hsuspended.mpr (.inl (has_iff.mp hs))

theorem kept_reset (bit : UInt8) (hbit : bit ∈ [readActivity ||| writeActivity, pinged])
    (h : l'.state = l.state &&& ~~~bit) : Kept l l' := by
  obtain ⟨hmode, hsuspended⟩ := reset_bits l.state bit hbit
  refine ⟨(congrArg (· &&& 0x07) h).trans hmode, fun hs => ?_⟩
  rw [has_iff, h, hsuspended]
  exact has_iff.mp hs

theorem Kept.trans {l'' : Link} (h : Kept l l') (h' : Kept l' l'') : Kept l l'' :=
  ⟨h'.mode.trans h.mode, h'.suspends ∘ h.suspends⟩

theorem kept_call (c : Call) (h : role = .server ∨ ∀ key, c ≠ .upgrade key) :
    Kept l (l.call role c) := by
  cases role with
  | server => exact (called_call l c).kept
  | client =>
    cases c with
    | upgrade key =>
      rcases h with h | h
      · cases h
      · exact absurd rfl (h key)
    | abortUpgrade status hstatus => exact kept_of_state rfl
    | submit => exact (called_call l .submit).kept
    | ping => exact (called_call l .ping).kept
    | pong => exact (called_call l .pong).kept
    | resetActivity => exact (called_call l .resetActivity).kept
    | close => exact (called_call l .close).kept

/-- The state after a server has answered an upgrade request, seen from the callback. -/
theorem receivedUpgrade_state (key : Text) (reactions : List Call) (hservice : l.has webservice) :
    (l.receivedUpgrade responseKey key reactions).state =
      if (l.during key reactions).message.errorCode ≠ statusSwitchProtocol
      then ((l.during key reactions).enter webservice).state else (l.during key reactions).state := by
  simp only [receivedUpgrade, hservice, Bool.true_eq_false, if_false]
  split <;> rfl

theorem sound_request_iff (h : Inv responseKey l) (key : Text) (reactions : List Call) :
    Sound responseKey .server l (.deserialized (.request true key) reactions) ↔
      Orderly responseKey .server l (.deserialized (.request true key) reactions) := by
  by_cases hstarts : l.receiving ∧ l.has webservice
  swap
  · refine iff_of_true (Kept.sound (kept_of_state ?_) h (by simp [passed, hstarts])) ?_
    · by_cases hreceiving : l.receiving
      · have hservice : l.has webservice = false := by simpa [hreceiving] using hstarts
        simp [step, received, hreceiving, receivedUpgrade, hservice, enqueue]
      · simp [step, hreceiving]
    · intro hreceiving hservice
      exact absurd ⟨hreceiving, hservice⟩ hstarts
  obtain ⟨hreceiving, hservice⟩ := hstarts
  have hduring := called_during l key reactions
  have hopen : { l.enter upgrading with
      message.errorCode := statusSwitchProtocol, requested := key : Link }.has suspended = false :=
    (enter_mode (l := l) (by decide)).2
  have hbetween : (l.during key reactions).has suspended ↔
      .close ∈ reactions ∧ l.linkSuspended = false := by
    rw [hduring.suspends, hopen]
    simp [enter]
  have habort : (l.during key reactions).message.errorCode ≠ statusSwitchProtocol ↔
      ∃ status hs, Call.abortUpgrade status hs ∈ reactions := by
    rw [Ne, hduring.errorCode]
    simp
  have hstate : (l.step responseKey .server (.deserialized (.request true key) reactions)).state =
      (l.receivedUpgrade responseKey key reactions).state := by
    simp [step, received, hreceiving]
  rw [receivedUpgrade_state key reactions hservice] at hstate
  have hafter : (l.step responseKey .server (.deserialized (.request true key) reactions)).has
      suspended ↔ (¬ ∃ status hs, Call.abortUpgrade status hs ∈ reactions) ∧
        (l.during key reactions).has suspended := by
    rw [has_iff, hstate, ← habort]
    split
    case isTrue hcode =>
      have hleaves := (enter_mode (l := l.during key reactions) (m := webservice) (by decide)).2
      rw [← has_iff, hleaves]
      simp [hcode]
    case isFalse hcode => simp [hcode, has_iff]
  have hno : (l.step responseKey .server (.deserialized (.request true key) reactions)).has
      websocket = false := by
    rw [has_mode (h.step _ _).mode (by decide), mode, hstate]
    split
    · rw [← mode, (enter_mode (by decide)).1]
      decide
    · rw [← mode, hduring.mode]
      show decide ((l.enter upgrading).mode = websocket) = false
      rw [(enter_mode (by decide)).1]
      decide
  have hchain : (l :: l.passed responseKey .server (.deserialized (.request true key) reactions)).IsChain
      (fun l l' => l.has suspended → l'.has suspended) ↔
      l.has suspended = false ∧ ((∃ status hs, Call.abortUpgrade status hs ∈ reactions) →
        .close ∈ reactions → l.linkSuspended) := by
    have hfirst : (l.during key []).has suspended = false := hopen
    simp only [passed, hreceiving, hservice, and_self, if_true, List.isChain_cons_cons, hfirst,
      hafter, hbetween, List.IsChain.singleton]
    cases l.linkSuspended <;> cases l.has suspended <;> simp
    tauto
  constructor
  · exact fun hsound _ _ => hchain.mp hsound.suspends
  · intro horderly
    refine ⟨mode_passed h, ?_, hchain.mpr (horderly hreceiving hservice), rejects⟩
    intro _ hsocket
    rw [hno] at hsocket
    cases hsocket

/-- The events in which a link can change its mode. -/
def Changes : Role → Event → Prop
  | .client, .call (.upgrade _) => True
  | .client, .deserialized (.response _ _) _ => True
  | .server, .deserialized (.request true _) _ => True
  | .server, .serialized => True
  | _, _ => False

theorem kept_step (he : ¬ Changes role e) : Kept l (l.step responseKey role e) := by
  cases e with
  | call c => exact kept_call c (by cases role <;> cases c <;> simp_all [Changes])
  | element =>
    apply kept_of_state
    simp only [step]
    split <;> rfl
  | deserialized message reactions =>
    apply kept_of_state
    have hreceived : l.received responseKey role message reactions = l := by
      unfold received
      split <;> simp_all [Changes]
    simp only [step, hreceived]
    split <;> rfl
  | serializing =>
    apply kept_of_state
    simp only [step]
    split <;> rfl
  | serialized =>
    cases role with
    | server => exact absurd trivial he
    | client =>
      apply kept_of_state
      simp only [step, serialized, upgradeCompleted]
      split
      · split
        · rfl
        · split <;> rfl
      · rfl
  | sendData =>
    simp only [step]
    split
    · exact kept_set writeActivity (by simp) rfl
    · exact kept_of_state rfl
  | receiveData pong =>
    have hread : Kept l { l with state := l.state ||| readActivity } :=
      kept_set readActivity (by simp) rfl
    simp only [step]
    split
    · exact hread.trans (kept_reset pinged (by simp) rfl)
    · exact hread
  | stateChange isOpen isSuspended isClosed =>
    apply kept_of_state
    simp only [step]
    split <;> rfl

theorem sound_iff_orderly (role : Role) (e : Event) (h : Inv responseKey l) :
    Sound responseKey role l e ↔ Orderly responseKey role l e := by
  by_cases he : Changes role e
  · match role, e, he with
    | .client, .call (.upgrade key), _ => exact sound_upgrade_iff h key
    | .client, .deserialized (.response errorCode accept) reactions, _ =>
      exact sound_response_iff h errorCode accept reactions
    | .server, .deserialized (.request true key) reactions, _ =>
      exact sound_request_iff h key reactions
    | .server, .serialized, _ => exact sound_serialized_iff h
  · refine iff_of_true (Kept.sound (kept_step he) h ?_) ?_
    · unfold passed
      split
      · exact absurd trivial he
      · rfl
    · unfold Orderly
      split
      case h_5 => trivial
      all_goals exact absurd trivial he

/-- The link keeps its promises in exactly the runs of orderly events. -/
theorem sound_iff (responseKey : Text → Text) (role : Role) (events : List Event) :
    Run.Meets (step responseKey role) (Sound responseKey role) new events ↔
      Run.Meets (step responseKey role) (Orderly responseKey role) new events :=
  Run.meets_iff_of_invariant (fun _ e h => h.step role e)
    (fun _ e h => sound_iff_orderly role e h) (new_inv responseKey)

/-- A server that closes the link and is then asked for an upgrade is open again. -/
theorem not_sound_closed :
    ¬ Run.Meets (step id .server) (Sound id .server) new
      [.element, .call .close, .deserialized (.request true []) []] := by
  rintro ⟨_, _, hsound, _⟩
  exact absurd hsound.suspends (by decide)

end Runs

end Link

end Thunder.Web
