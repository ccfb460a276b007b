import Thunder.Library.Run
import Mathlib.Data.List.Basic
import Mathlib.Data.List.Count
import Mathlib.Data.List.Nodup
import Mathlib.Logic.Function.Basic
import Mathlib.Tactic.SplitIfs

/-! `SynchronousChannelType`: requests and responses over one channel, one after another.  Frames
go by the order in which they entered the queue, messages by their addresses.  A response is what
its answers are: as many bytes each, and behind all but the last one the request is sent again. -/

namespace Thunder.Core

open Function

inductive SynchronousChannel.State
  | idle
  | inbound
  | complete
  deriving DecidableEq

/-- ERROR_NONE, ERROR_TIMEDOUT and ERROR_ASYNC_ABORTED. -/
inductive SynchronousChannel.Code
  | none
  | timedOut
  | asyncAborted
  deriving DecidableEq

/-- `expires` is missing where `_expired` is 0.  `updated` are the calls of the callback. -/
structure SynchronousChannel.Frame (μ : Type) where
  message : μ
  response : Option (List Nat)
  expires : Option Nat := none
  callback : Bool := false
  state : SynchronousChannel.State := .idle
  updated : List SynchronousChannel.Code := []

/-- How far a thread is in `Exchange` or `Send`: behind the first `Reload`, between the locks around
`Trigger`, at the event with `waitCount` raised, or behind the event with what it has returned. -/
inductive SynchronousChannel.Call (μ : Type)
  | exchanging (message : μ) (response : Option (List Nat)) (waitTime : Nat)
  | sending (message : μ) (response : Option (List Nat)) (callback : Bool) (waitTime : Nat)
  | triggering (frame : Nat) (now endTime : Nat)
  | waiting (frame : Nat) (endTime : Nat)
  | woken (frame : Nat) (endTime : Nat) (result : SynchronousChannel.Code)

/-- `offsets` says how much of a message is serialized.  The peer has completely received the
requests in `received` and not answered them yet; `answers` are the bytes on the way back, each
with the frame that it answers.  For the claims: `wire` are the bytes sent and `requests` the
requests that were begun, `strays` the frames that were offered bytes that they do not await,
`returned` the ends of the exchanges, each with whether the response is complete, and `used` the
frames that were used when they were not in the queue any more. -/
structure SynchronousChannel (τ μ : Type) where
  clock : Nat
  isOpen : Bool
  queue : List Nat
  next : Nat
  frames : Nat → SynchronousChannel.Frame μ
  offsets : μ → Nat
  calls : τ → Option (SynchronousChannel.Call μ)
  received : List Nat
  answers : List Nat
  wire : List UInt8
  requests : List (List UInt8)
  strays : List Nat
  returned : List (Nat × SynchronousChannel.Code × Bool)
  used : List Nat

namespace SynchronousChannel

/-- Time passes, the channel closes and tells so, a thread calls `Exchange` or `Send`, goes on into
the lock or has waited long enough, `Revoke`, `SendData` with a buffer and `ReceiveData` with a
chunk of some size, and the peer answers. -/
inductive Action (τ μ : Type)
  | pass (ticks : Nat)
  | close
  | stateChange
  | exchange (t : τ) (message : μ) (response : Option (List Nat)) (waitTime : Nat)
  | send (t : τ) (message : μ) (response : Option (List Nat)) (callback : Bool) (waitTime : Nat)
  | lock (t : τ)
  | timeOut (t : τ)
  | revoke (message : μ)
  | sendData (maxSendSize : Nat)
  | receiveData (availableData : Nat)
  | answer

variable {τ μ : Type}

section

variable [DecidableEq τ] [DecidableEq μ]

def new (τ : Type) (message : μ) : SynchronousChannel τ μ where
  clock := 0
  isOpen := true
  queue := []
  next := 0
  frames _ := { message, response := none }
  offsets _ := 0
  calls _ := none
  received := []
  answers := []
  wire := []
  requests := []
  strays := []
  returned := []
  used := []

def change (s : SynchronousChannel τ μ) (f : Nat) (g : Frame μ → Frame μ) :
    SynchronousChannel τ μ :=
  { s with frames := update s.frames f (g (s.frames f)) }

def goes (s : SynchronousChannel τ μ) (t : τ) (call : Option (Call μ)) : SynchronousChannel τ μ :=
  { s with calls := update s.calls t call }

/-- `Reload` of a message. -/
def reload (s : SynchronousChannel τ μ) (message : μ) : SynchronousChannel τ μ :=
  { s with offsets := update s.offsets message 0 }

def use (s : SynchronousChannel τ μ) (f : Nat) : SynchronousChannel τ μ :=
  { s with used := if f ∈ s.queue then s.used else f :: s.used }

/-- `Updated` of the callback, where there is one. -/
def report (s : SynchronousChannel τ μ) (f : Nat) (code : Code) : SynchronousChannel τ μ :=
  s.change f fun frame =>
    if frame.callback then { frame with updated := code :: frame.updated } else frame

def erase (s : SynchronousChannel τ μ) (f : Nat) : SynchronousChannel τ μ :=
  { s with queue := s.queue.erase f }

def isExpired (s : SynchronousChannel τ μ) (f : Nat) : Bool :=
  match (s.frames f).expires with
  | none => false
  | some expires => expires < s.clock

/-- The loop of `Cleanup` over what is left of the queue. -/
def cleanupFrom : List Nat → SynchronousChannel τ μ → SynchronousChannel τ μ
  | [], s => s
  | f :: queue, s =>
    if s.isExpired f then cleanupFrom queue ((s.report f .timedOut).erase f) else s

def cleanup (s : SynchronousChannel τ μ) : SynchronousChannel τ μ := cleanupFrom s.queue s

/-- The event lets everyone go who waits for it. -/
def reevaluate (s : SynchronousChannel τ μ) : SynchronousChannel τ μ :=
  { s with
    calls := fun t =>
      match s.calls t with
      | some (.waiting f endTime) => some (.woken f endTime .none)
      | call => call }

/-- `emplace_back`, with the `Reload` of the constructor. -/
def emplace (s : SynchronousChannel τ μ) (frame : Frame μ) : SynchronousChannel τ μ :=
  { s.reload frame.message with
    queue := s.queue ++ [s.next]
    frames := update s.frames s.next frame
    next := s.next + 1 }

/-- The first frame in the queue with a message. -/
def findMessage (s : SynchronousChannel τ μ) (message : μ) : Option Nat :=
  s.queue.find? fun f => (s.frames f).message = message

def isComplete (s : SynchronousChannel τ μ) (f : Nat) : Bool := (s.frames f).state = .complete

/-- What `Completed` does behind its loop. -/
def leave (s : SynchronousChannel τ μ) (t : τ) (f : Nat) (result : Code) : SynchronousChannel τ μ :=
  let r := s.goes t none
  match s.findMessage (s.frames f).message with
  | none => { r with returned := (f, result, s.isComplete f) :: s.returned }
  | some g =>
    { r.erase g with
      returned := (f, if s.isComplete f then .none else result, s.isComplete f) :: s.returned }

/-- The condition of the loop in `Completed`. -/
def staysIn (s : SynchronousChannel τ μ) (f : Nat) (now endTime : Nat) : Bool :=
  s.isOpen ∧ s.isComplete f = false ∧ now < endTime

/-- A turn of the loop in `Completed`. -/
def check (s : SynchronousChannel τ μ) (t : τ) (f : Nat) (now endTime : Nat) (result : Code) :
    SynchronousChannel τ μ :=
  let s := s.use f
  if s.staysIn f now endTime then s.goes t (some (.waiting f endTime)) else s.leave t f result

/-- `Exchange` in the lock, up to the `Unlock` in `Completed` or to the event. -/
def exchange (s : SynchronousChannel τ μ) (t : τ) (message : μ) (response : Option (List Nat))
    (waitTime : Nat) : SynchronousChannel τ μ :=
  let s := s.cleanup
  let r := s.emplace { message, response }
  if s.queue = [] then r.goes t (some (.triggering s.next s.clock (s.clock + waitTime)))
  else r.check t s.next s.clock (s.clock + waitTime) .asyncAborted

/-- `Send` in the lock. -/
def send (s : SynchronousChannel τ μ) (t : τ) (message : μ) (response : Option (List Nat))
    (callback : Bool) (waitTime : Nat) : SynchronousChannel τ μ :=
  let s := s.cleanup
  (s.emplace { message, response, callback, expires := some (s.clock + waitTime) }).goes t none

def revoke (s : SynchronousChannel τ μ) (message : μ) : SynchronousChannel τ μ :=
  let s := s.cleanup
  match s.findMessage message with
  | none => s
  | some f => (s.report f .asyncAborted).erase f

/-- A frame that can be removed is taken from the queue and used for its callback then. -/
def popFront (s : SynchronousChannel τ μ) (f : Nat) : SynchronousChannel τ μ :=
  ((s.erase f).use f).report f .none

def canBeRemoved (s : SynchronousChannel τ μ) (f : Nat) : Bool :=
  (s.frames f).state = .complete ∧ (s.frames f).expires ≠ none

/-- What is left to be serialized of the message of a frame. -/
def rest (content : μ → List UInt8) (s : SynchronousChannel τ μ) (f : Nat) : List UInt8 :=
  (content (s.frames f).message).drop (s.offsets (s.frames f).message)

/-- `Serialize` has nothing left to do: the request is sent. -/
def sent (s : SynchronousChannel τ μ) (f : Nat) : SynchronousChannel τ μ :=
  let s := s.change f fun frame =>
    { frame with state := if frame.response = none then .complete else .inbound }
  (if s.canBeRemoved f then s.popFront f else s).reevaluate

/-- `Serialize` of some bytes.  With the last one of them the peer has the request, and answers it
where there is a response. -/
def serialize (content : μ → List UInt8) (s : SynchronousChannel τ μ) (f : Nat)
    (maxSendSize : Nat) : SynchronousChannel τ μ :=
  let message := (s.frames f).message
  let bytes := (s.rest content f).take maxSendSize
  { s with
    offsets := update s.offsets message (s.offsets message + bytes.length)
    wire := s.wire ++ bytes
    requests := if s.offsets message = 0 then s.requests ++ [content message] else s.requests
    received :=
      if (s.rest content f).length ≤ maxSendSize ∧ (s.frames f).response.isSome then
        s.received ++ [f]
      else s.received }

def sendData (content : μ → List UInt8) (s : SynchronousChannel τ μ) (maxSendSize : Nat) :
    SynchronousChannel τ μ :=
  let s := s.cleanup
  match s.queue with
  | [] => s
  | f :: _ =>
    if (s.frames f).state ≠ .idle then s
    else if s.rest content f = [] then s.sent f
    else s.serialize content f maxSendSize

/-- `Deserialize` and `IsCompleted` of a response: what it still has to get, and the state of the
frame if it changes.  Nothing is consumed behind the last answer. -/
def deserialize (response : List Nat) (availableData : Nat) : List Nat × Option State :=
  match response with
  | [] => ([], some .complete)
  | n :: answers =>
    if availableData < n then ((n - availableData) :: answers, none)
    else (answers, some (if answers = [] then .complete else .idle))

/-- `ReceiveData` of a frame. -/
def receive (s : SynchronousChannel τ μ) (f : Nat) (availableData : Nat) : SynchronousChannel τ μ :=
  match (s.frames f).response with
  | none => s
  | some response =>
    let r := deserialize response availableData
    let received := s.change f fun frame =>
      { frame with response := some r.1, state := r.2.getD frame.state }
    if r.2 = some .idle then received.reload (s.frames f).message else received

/-- A frame awaits bytes whose request was sent up to its end and that is not complete, and they are
those of its own answer. -/
def Awaits (content : μ → List UInt8) (s : SynchronousChannel τ μ) (f : Nat) (bytes : List Nat) :
    Prop :=
  s.rest content f = [] ∧ (s.frames f).state ≠ .complete ∧ (s.frames f).response ≠ none ∧
    ∀ g ∈ bytes, g = f

instance (content : μ → List UInt8) (s : SynchronousChannel τ μ) (f : Nat) (bytes : List Nat) :
    Decidable (s.Awaits content f bytes) := inferInstanceAs (Decidable (_ ∧ _))

def receiveData (content : μ → List UInt8) (s : SynchronousChannel τ μ) (availableData : Nat) :
    SynchronousChannel τ μ :=
  let bytes := s.answers.take availableData
  let s := { s.cleanup with answers := s.answers.drop availableData }
  match s.queue with
  | [] => s
  | f :: _ =>
    let s := { s with strays := if s.Awaits content f bytes then s.strays else f :: s.strays }
    let s := s.receive f availableData
    if s.canBeRemoved f then s.popFront f
    else if s.isComplete f then s.reevaluate
    else s

/-- The peer answers the request that it has received first. -/
def answer (s : SynchronousChannel τ μ) : Option (SynchronousChannel τ μ) :=
  match s.received with
  | [] => none
  | f :: received =>
    some { s with
      received
      answers := s.answers ++ List.replicate (((s.frames f).response.getD []).headD 0) f }

def step (content : μ → List UInt8) (s : SynchronousChannel τ μ) :
    Action τ μ → Option (SynchronousChannel τ μ)
  | .pass ticks => some { s with clock := s.clock + ticks }
  | .close => some { s with isOpen := false }
  | .stateChange => some s.reevaluate
  | .exchange t message response waitTime =>
    if s.calls t = none then
      some ((s.reload message).goes t (some (.exchanging message response waitTime)))
    else none
  | .send t message response callback waitTime =>
    if s.calls t = none then
      some ((s.reload message).goes t (some (.sending message response callback waitTime)))
    else none
  | .lock t =>
    match s.calls t with
    | some (.exchanging message response waitTime) => some (s.exchange t message response waitTime)
    | some (.sending message response callback waitTime) =>
      some (s.send t message response callback waitTime)
    | some (.triggering f now endTime) => some (s.check t f now endTime .asyncAborted)
    | some (.woken f endTime result) => some (s.check t f s.clock endTime result)
    | _ => none
  | .timeOut t =>
    match s.calls t with
    | some (.waiting f endTime) => some (s.goes t (some (.woken f endTime .timedOut)))
    | _ => none
  | .revoke message => some (s.revoke message)
  | .sendData maxSendSize =>
    if s.isOpen = true ∧ 0 < maxSendSize then some (s.sendData content maxSendSize) else none
  | .receiveData availableData =>
    if s.isOpen = true ∧ 0 < availableData ∧ availableData ≤ s.answers.length then
      some (s.receiveData content availableData)
    else none
  | .answer => s.answer

end

/-! ### What is claimed of it -/

/-- What keeps to its own frame: the requests are on the wire one after another and whole but for
the last one, which is cut at some place; bytes are offered to the frame that awaits them, and what
an exchange returns, and what a callback is told, is as it was. -/
structure InOrder (s : SynchronousChannel τ μ) : Prop where
  whole : ∃ left, s.wire ++ left = s.requests.flatten ∧
    ∀ request, s.requests.getLast? = some request → left <:+ request
  offered : s.strays = []
  returned : ∀ r ∈ s.returned, r.2.1 = .none → r.2.2 = true
  updated : ∀ f < s.next, (s.frames f).callback = true →
    (s.frames f).updated.length = if f ∈ s.queue then 0 else 1

/-- All that is claimed: no frame is used behind its removal either. -/
structure Kept (s : SynchronousChannel τ μ) : Prop extends s.InOrder where
  used : s.used = []

/-! ### Conditions on a run -/

/-- The message of a call that has not entered the queue yet. -/
def Call.handed : Call μ → Option μ
  | .exchanging message .. | .sending message .. => some message
  | _ => none

/-- The frame that a call waits for. -/
def Call.owner : Call μ → Option Nat
  | .triggering f .. | .waiting f _ | .woken f .. => some f
  | _ => none

def handed (s : SynchronousChannel τ μ) (t : τ) : Option μ := (s.calls t).bind Call.handed

def owner (s : SynchronousChannel τ μ) (t : τ) : Option Nat := (s.calls t).bind Call.owner

/-- No other call has the message. -/
def Unused (s : SynchronousChannel τ μ) (message : μ) : Prop :=
  (∀ f ∈ s.queue, (s.frames f).message ≠ message) ∧ ∀ t, s.handed t ≠ some message

/-- A message is handed to one call at a time.  An exchange whose last wait was ended by the event
does not leave with an incomplete frame, for the channel is open and there is time left.  The
message of an exchange is not revoked.  No request is begun behind one that was cut short.  Bytes
that answer a frame that is gone come when the queue is empty. -/
def Orderly [DecidableEq μ] (content : μ → List UInt8) (s : SynchronousChannel τ μ) :
    Action τ μ → Prop
  | .exchange _ message .. | .send _ message .. => s.Unused message
  | .lock t => ∀ f endTime, s.calls t = some (.woken f endTime .none) →
    s.isComplete f = false → s.isOpen = true ∧ s.clock < endTime
  | .revoke message => ∀ f ∈ s.queue, (s.frames f).message = message → (s.frames f).expires ≠ none
  | .sendData _ => ∀ f, s.cleanup.queue.head? = some f → (s.cleanup.frames f).state = .idle →
    s.cleanup.rest content f ≠ [] → s.cleanup.offsets (s.cleanup.frames f).message = 0 →
    s.wire = s.requests.flatten
  | .receiveData availableData => ∀ f, s.cleanup.queue.head? = some f →
    ∀ g ∈ s.answers.take availableData, g = f
  | _ => True

/-- No request of a `Send` is completed. -/
def Lasting [DecidableEq μ] (content : μ → List UInt8) (s : SynchronousChannel τ μ) :
    Action τ μ → Prop
  | .sendData _ => ∀ f, s.cleanup.queue.head? = some f → (s.cleanup.frames f).state = .idle →
    s.cleanup.rest content f = [] → (s.cleanup.frames f).expires ≠ none →
    (s.cleanup.frames f).response ≠ none
  | .receiveData availableData => ∀ f response, s.cleanup.queue.head? = some f →
    (s.cleanup.frames f).expires ≠ none → (s.cleanup.frames f).response = some response →
    (deserialize response availableData).2 ≠ some .complete
  | _ => True

/-- What is right in every state of an orderly run.  Behind the head of the queue nothing is begun,
and what is outstanding is the answer to the head or to a frame that is gone. -/
structure Inv (content : μ → List UInt8) (s : SynchronousChannel τ μ) : Prop where
  nodup : s.queue.Nodup
  fresh : ∀ f ∈ s.queue, f < s.next
  messages : ∀ f ∈ s.queue, ∀ g ∈ s.queue, (s.frames f).message = (s.frames g).message → f = g
  behind : ∀ f ∈ s.queue.tail,
    (s.frames f).state = .idle ∧ s.offsets (s.frames f).message = 0
  outstanding : ∀ f, f ∈ s.received ∨ f ∈ s.answers → f < s.next ∧
    (f ∈ s.queue → s.queue.head? = some f ∧ s.rest content f = [] ∧
      (s.frames f).state ≠ .complete)
  received : ∀ f ∈ s.queue, f ∈ s.received →
    s.received.count f = 1 ∧ f ∉ s.answers ∧ (s.frames f).response ≠ none
  answers : ∀ f ∈ s.queue, f ∈ s.answers →
    ∃ n more, (s.frames f).response = some (n :: more) ∧ s.answers.count f = n
  begun : ∀ f, s.queue.head? = some f → (s.frames f).state = .idle →
    0 < s.offsets (s.frames f).message →
    s.wire ++ s.rest content f = s.requests.flatten ∧
      s.requests.getLast? = some (content (s.frames f).message)
  whole : ∃ left, s.wire ++ left = s.requests.flatten ∧
    ∀ request, s.requests.getLast? = some request → left <:+ request
  handed : ∀ t message, s.handed t = some message →
    (∀ f ∈ s.queue, (s.frames f).message ≠ message) ∧ ∀ t', s.handed t' = some message → t' = t
  owned : ∀ t f, s.owner t = some f →
    (f ∈ s.queue ∧ (s.frames f).expires = none ∧ (s.frames f).callback = false) ∧
      ∀ t', s.owner t' = some f → t' = t
  offered : s.strays = []
  returned : ∀ r ∈ s.returned, r.2.1 = .none → r.2.2 = true
  updated : ∀ f < s.next, (s.frames f).callback = true →
    (s.frames f).updated.length = if f ∈ s.queue then 0 else 1

/-! ### Frames leave -/

section

variable {content : μ → List UInt8} {s s' : SynchronousChannel τ μ} {f : Nat} {t : τ}

/-- Frames that differ in the calls of the callback alone. -/
structure Frame.Same (frame frame' : Frame μ) : Prop where
  message : frame.message = frame'.message
  response : frame.response = frame'.response
  expires : frame.expires = frame'.expires
  callback : frame.callback = frame'.callback
  state : frame.state = frame'.state

/-- A frame leaves the queue that nobody waits for any more. -/
theorem Inv.leaves (h : s.Inv content) (hf : f ∈ s.queue) (hqueue : s'.queue = s.queue.erase f)
    (hnext : s'.next = s.next) (hframes : ∀ g, (s'.frames g).Same (s.frames g))
    (hoffsets : s'.offsets = s.offsets) (hreceived : s'.received = s.received)
    (hanswers : s'.answers = s.answers) (hwire : s'.wire = s.wire)
    (hrequests : s'.requests = s.requests) (hstrays : s'.strays = s.strays)
    (hhanded : ∀ t message, s'.handed t = some message → s.handed t = some message)
    (howner : ∀ t g, s'.owner t = some g → s.owner t = some g ∧ g ≠ f)
    (hreturned : ∀ r ∈ s'.returned, r.2.1 = .none → r.2.2 = true)
    (hupdated : (s.frames f).callback = true → (s'.frames f).updated.length = 1)
    (hothers : ∀ g, g ≠ f → (s'.frames g).updated = (s.frames g).updated) : s'.Inv content := by
  have hmem : ∀ g, g ∈ s'.queue ↔ g ≠ f ∧ g ∈ s.queue := by
    intro g
    rw [hqueue, h.nodup.mem_erase_iff]
  have hrest : ∀ g, s'.rest content g = s.rest content g := by
    intro g
    rw [rest, rest, (hframes g).message, hoffsets]
  -- the new head is the old one, or it has stood behind it
  have hhead : ∀ g, s'.queue.head? = some g → s.queue.head? = some g ∨ g ∈ s.queue.tail := by
    intro g hg
    rw [hqueue] at hg
    cases hq : s.queue with
    | nil =>
      rw [hq] at hg
      cases hg
    | cons a queue =>
      rw [hq, List.erase_cons] at hg
      split_ifs at hg
      · exact .inr (List.mem_of_head? hg)
      · exact .inl hg
  have htail : ∀ g ∈ s'.queue.tail, g ∈ s.queue.tail := by
    intro g hg
    rw [hqueue] at hg
    cases hq : s.queue with
    | nil =>
      rw [hq] at hg
      cases hg
    | cons a queue =>
      rw [hq, List.erase_cons] at hg
      split_ifs at hg
      · exact List.mem_of_mem_tail hg
      · exact List.mem_of_mem_erase hg
  have hkept : ∀ g, g ≠ f → s.queue.head? = some g → s'.queue.head? = some g := by
    intro g hne hg
    rw [hqueue]
    cases hq : s.queue with
    | nil =>
      rw [hq] at hg
      cases hg
    | cons a queue =>
      rw [hq, List.head?_cons, Option.some.injEq] at hg
      rw [List.erase_cons_tail (by simpa [hg] using hne), hg]
      rfl
  constructor
  · rw [hqueue]
    exact h.nodup.erase f
  · intro g hg
    rw [hnext]
    exact h.fresh g ((hmem g).mp hg).2
  · intro g hg g' hg' heq
    rw [(hframes g).message, (hframes g').message] at heq
    exact h.messages g ((hmem g).mp hg).2 g' ((hmem g').mp hg').2 heq
  · intro g hg
    rw [(hframes g).state, (hframes g).message, hoffsets]
    exact h.behind g (htail g hg)
  · intro g hg
    rw [hreceived, hanswers] at hg
    obtain ⟨hlt, hqueued⟩ := h.outstanding g hg
    rw [hnext, hrest, (hframes g).state]
    refine ⟨hlt, fun hin => ?_⟩
    obtain ⟨hne, hin⟩ := (hmem g).mp hin
    obtain ⟨hfirst, hsent⟩ := hqueued hin
    exact ⟨hkept g hne hfirst, hsent⟩
  · intro g hg hin
    rw [hreceived] at hin ⊢
    rw [hanswers, (hframes g).response]
    exact h.received g ((hmem g).mp hg).2 hin
  · intro g hg hin
    rw [hanswers] at hin ⊢
    rw [(hframes g).response]
    exact h.answers g ((hmem g).mp hg).2 hin
  · intro g hg hstate hoffset
    rw [(hframes g).state] at hstate
    rw [(hframes g).message, hoffsets] at hoffset
    rw [hwire, hrequests, hrest, (hframes g).message]
    obtain hfirst | hbehind := hhead g hg
    · exact h.begun g hfirst hstate hoffset
    · rw [(h.behind g hbehind).2] at hoffset
      exact absurd hoffset (Nat.lt_irrefl 0)
  · rw [hwire, hrequests]
    exact h.whole
  · intro t message hsome
    obtain ⟨hunused, hunique⟩ := h.handed t message (hhanded t message hsome)
    refine ⟨fun g hg => ?_, fun t' ht' => hunique t' (hhanded t' message ht')⟩
    rw [(hframes g).message]
    exact hunused g ((hmem g).mp hg).2
  · intro t g hsome
    obtain ⟨hbefore, hne⟩ := howner t g hsome
    obtain ⟨⟨hin, hexpires, hcallback⟩, hunique⟩ := h.owned t g hbefore
    rw [(hframes g).expires, (hframes g).callback]
    exact ⟨⟨(hmem g).mpr ⟨hne, hin⟩, hexpires, hcallback⟩,
      fun t' ht' => hunique t' (howner t' g ht').1⟩
  · rw [hstrays]
    exact h.offered
  · exact hreturned
  · intro g hlt hcallback
    rw [hnext] at hlt
    rw [(hframes g).callback] at hcallback
    by_cases heq : g = f
    · subst heq
      rw [if_neg fun hin => ((hmem g).mp hin).1 rfl]
      exact hupdated hcallback
    · rw [hothers g heq, h.updated g hlt hcallback]
      exact if_congr (by simp [hmem, heq]) rfl rfl

theorem Inv.unowned (h : s.Inv content) (hexpires : (s.frames f).expires ≠ none) (t : τ) :
    s.owner t ≠ some f := fun howner => hexpires (h.owned t f howner).1.2.1

theorem report_same (code : Code) (g : Nat) : ((s.report f code).frames g).Same (s.frames g) := by
  rw [report, change]
  by_cases heq : g = f
  · subst heq
    simp only [update_self]
    split_ifs <;> exact ⟨rfl, rfl, rfl, rfl, rfl⟩
  · simp only [update_of_ne heq]
    exact ⟨rfl, rfl, rfl, rfl, rfl⟩

/-- A frame leaves the queue, and its callback is told so. -/
theorem Inv.report_erase (h : s.Inv content) (hf : f ∈ s.queue) (hunowned : ∀ t, s.owner t ≠ some f)
    (code : Code) : ((s.report f code).erase f).Inv content := by
  refine h.leaves hf rfl rfl (report_same code) rfl rfl rfl rfl rfl rfl (fun _ _ => id)
    (fun t g hg => ⟨hg, ?_⟩) h.returned ?_ ?_
  · rintro rfl
    exact hunowned t hg
  · intro hcallback
    have hupdated := h.updated f (h.fresh f hf) hcallback
    rw [if_pos hf] at hupdated
    change ((s.report f code).frames f).updated.length = 1
    simp only [report, change, update_self, if_pos hcallback, List.length_cons, hupdated]
  · intro g hne
    change ((s.report f code).frames g).updated = _
    simp only [report, change, update_of_ne hne]

/-- What `Cleanup` leaves alone. -/
structure Tidied (s s' : SynchronousChannel τ μ) : Prop where
  clock : s'.clock = s.clock
  isOpen : s'.isOpen = s.isOpen
  next : s'.next = s.next
  offsets : s'.offsets = s.offsets
  calls : s'.calls = s.calls
  received : s'.received = s.received
  answers : s'.answers = s.answers
  wire : s'.wire = s.wire
  requests : s'.requests = s.requests
  strays : s'.strays = s.strays
  returned : s'.returned = s.returned
  used : s'.used = s.used
  frames : ∀ g, (s'.frames g).Same (s.frames g)
  queue : ∀ g ∈ s'.queue, g ∈ s.queue

theorem Frame.Same.trans {frame frame' frame'' : Frame μ} (h : frame.Same frame')
    (h' : frame'.Same frame'') : frame.Same frame'' :=
  ⟨h.message.trans h'.message, h.response.trans h'.response, h.expires.trans h'.expires,
    h.callback.trans h'.callback, h.state.trans h'.state⟩

theorem cleanupFrom_inv (queue : List Nat) (h : s.Inv content) (hqueue : s.queue = queue) :
    (cleanupFrom queue s).Inv content ∧ s.Tidied (cleanupFrom queue s) := by
  induction queue generalizing s with
  | nil =>
    refine ⟨h, ?_⟩
    constructor <;> first | exact rfl | exact fun _ => ⟨rfl, rfl, rfl, rfl, rfl⟩ | exact fun _ => id
  | cons f queue ih =>
    rw [cleanupFrom]
    split_ifs with hexpired
    · have hf : f ∈ s.queue := hqueue ▸ List.mem_cons_self
      have hexpires : (s.frames f).expires ≠ none := by
        intro hnone
        simp [isExpired, hnone] at hexpired
      have hqueue' : ((s.report f .timedOut).erase f).queue = queue := by
        change s.queue.erase f = queue
        rw [hqueue, List.erase_cons_head]
      obtain ⟨hinv, htidied⟩ := ih (h.report_erase hf (h.unowned hexpires) .timedOut) hqueue'
      refine ⟨hinv, ?_⟩
      exact { htidied with
        frames := fun g => (htidied.frames g).trans (report_same _ g)
        queue := fun g hg => List.mem_of_mem_erase (htidied.queue g hg) }
    · refine ⟨h, ?_⟩
      constructor <;>
        first | exact rfl | exact fun _ => ⟨rfl, rfl, rfl, rfl, rfl⟩ | exact fun _ => id

theorem Inv.cleanup (h : s.Inv content) : s.cleanup.Inv content := (cleanupFrom_inv _ h rfl).1

theorem Inv.tidied (h : s.Inv content) : s.Tidied s.cleanup := (cleanupFrom_inv _ h rfl).2

end

/-! ### Calls -/

section

variable {content : μ → List UInt8} {s s' : SynchronousChannel τ μ} {f : Nat} {t : τ}

theorem Inv.withCalls (h : s.Inv content) (hcalls : s' = { s with calls := s'.calls })
    (hhanded : ∀ t message, s'.handed t = some message →
      (∀ f ∈ s.queue, (s.frames f).message ≠ message) ∧ ∀ t', s'.handed t' = some message → t' = t)
    (howned : ∀ t f, s'.owner t = some f →
      (f ∈ s.queue ∧ (s.frames f).expires = none ∧ (s.frames f).callback = false) ∧
        ∀ t', s'.owner t' = some f → t' = t) : s'.Inv content := by
  rw [hcalls] at hhanded howned ⊢
  exact { h with handed := hhanded, owned := howned }

/-- The event changes nothing of what the calls have. -/
theorem Inv.reevaluate (h : s.Inv content) : s.reevaluate.Inv content := by
  have hhanded : ∀ t, s.reevaluate.handed t = s.handed t := by
    intro t
    cases hcall : s.calls t with
    | none => simp [SynchronousChannel.handed, SynchronousChannel.reevaluate, hcall]
    | some call =>
      cases call <;>
        simp [SynchronousChannel.handed, SynchronousChannel.reevaluate, hcall, Call.handed]
  have howner : ∀ t, s.reevaluate.owner t = s.owner t := by
    intro t
    cases hcall : s.calls t with
    | none => simp [SynchronousChannel.owner, SynchronousChannel.reevaluate, hcall]
    | some call =>
      cases call <;>
        simp [SynchronousChannel.owner, SynchronousChannel.reevaluate, hcall, Call.owner]
  refine h.withCalls rfl ?_ ?_
  · simp only [hhanded]
    exact h.handed
  · simp only [howner]
    exact h.owned

variable [DecidableEq τ]

@[simp] theorem handed_goes (call : Option (Call μ)) :
    (s.goes t call).handed t = call.bind Call.handed := by
  change (update s.calls t call t).bind Call.handed = _
  rw [update_self]

theorem handed_goes_of_ne {t' : τ} (hne : t' ≠ t) (call : Option (Call μ)) :
    (s.goes t call).handed t' = s.handed t' := by
  change (update s.calls t call t').bind Call.handed = (s.calls t').bind Call.handed
  rw [update_of_ne hne]

@[simp] theorem owner_goes (call : Option (Call μ)) :
    (s.goes t call).owner t = call.bind Call.owner := by
  change (update s.calls t call t).bind Call.owner = _
  rw [update_self]

theorem owner_goes_of_ne {t' : τ} (hne : t' ≠ t) (call : Option (Call μ)) :
    (s.goes t call).owner t' = s.owner t' := by
  change (update s.calls t call t').bind Call.owner = (s.calls t').bind Call.owner
  rw [update_of_ne hne]

/-- A thread goes on with the frame that it waits for. -/
theorem Inv.goes (h : s.Inv content) {call : Option (Call μ)}
    (hhanded : call.bind Call.handed = none)
    (howner : call.bind Call.owner = s.owner t) : (s.goes t call).Inv content := by
  refine h.withCalls rfl ?_ ?_
  · intro t' message hsome
    have hhas : ∀ t', (s.goes t call).handed t' = some message → s.handed t' = some message := by
      intro t' ht'
      rcases eq_or_ne t' t with rfl | hne
      · rw [handed_goes, hhanded] at ht'
        cases ht'
      · rwa [handed_goes_of_ne hne] at ht'
    obtain ⟨hunused, hunique⟩ := h.handed t' message (hhas t' hsome)
    exact ⟨hunused, fun t'' ht'' => hunique t'' (hhas t'' ht'')⟩
  · have hsame : ∀ t', (s.goes t call).owner t' = s.owner t' := by
      intro t'
      rcases eq_or_ne t' t with rfl | hne
      · rw [owner_goes, howner]
      · exact owner_goes_of_ne hne call
    simp only [hsame]
    exact h.owned

/-- A thread is handed a message that no other call has. -/
theorem Inv.handing [DecidableEq μ] (h : s.Inv content) {message : μ} {call : Call μ}
    (hunused : s.Unused message) (hhanded : call.handed = some message)
    (howner : call.owner = none) :
    ((s.reload message).goes t (some call)).Inv content := by
  have hoffsets : ∀ f ∈ s.queue,
      (s.reload message).offsets (s.frames f).message = s.offsets (s.frames f).message :=
    fun f hf => update_of_ne (hunused.1 f hf) ..
  have hrest : ∀ f ∈ s.queue, (s.reload message).rest content f = s.rest content f := by
    intro f hf
    change (content (s.frames f).message).drop
      ((s.reload message).offsets (s.frames f).message) = _
    rw [hoffsets f hf, rest]
  have hreload : (s.reload message).Inv content :=
    { h with
      behind := fun f hf => by
        change _ ∧ (s.reload message).offsets (s.frames f).message = 0
        rw [hoffsets f (List.mem_of_mem_tail hf)]
        exact h.behind f hf
      outstanding := fun f hf => by
        obtain ⟨hlt, hqueued⟩ := h.outstanding f hf
        refine ⟨hlt, fun hin => ?_⟩
        rw [hrest f hin]
        exact hqueued hin
      begun := fun f hf => by
        change _ → 0 < (s.reload message).offsets (s.frames f).message → _
        rw [hoffsets f (List.mem_of_head? hf), hrest f (List.mem_of_head? hf)]
        exact h.begun f hf }
  refine hreload.withCalls rfl ?_ ?_
  · intro t' message' hsome
    rcases eq_or_ne t' t with rfl | hne
    · rw [handed_goes, Option.bind_some, hhanded] at hsome
      obtain rfl := Option.some.inj hsome
      refine ⟨hunused.1, fun t'' ht'' => ?_⟩
      by_contra hne
      rw [handed_goes_of_ne hne] at ht''
      exact hunused.2 t'' ht''
    · rw [handed_goes_of_ne hne] at hsome
      obtain ⟨hfree, hunique⟩ := h.handed t' message' hsome
      refine ⟨hfree, fun t'' ht'' => ?_⟩
      rcases eq_or_ne t'' t with rfl | hne'
      · rw [handed_goes, Option.bind_some, hhanded] at ht''
        obtain rfl := Option.some.inj ht''
        exact absurd hsome (hunused.2 t')
      · rw [handed_goes_of_ne hne'] at ht''
        exact hunique t'' ht''
  · intro t' f hsome
    have hhas : ∀ t', ((s.reload message).goes t (some call)).owner t' = some f →
        s.owner t' = some f := by
      intro t' ht'
      rcases eq_or_ne t' t with rfl | hne
      · rw [owner_goes, Option.bind_some, howner] at ht'
        cases ht'
      · rwa [owner_goes_of_ne hne] at ht'
    obtain ⟨hin, hunique⟩ := h.owned t' f (hhas t' hsome)
    exact ⟨hin, fun t'' ht'' => hunique t'' (hhas t'' ht'')⟩

variable [DecidableEq μ]

/-- A frame enters the queue, and its thread waits for it or not. -/
theorem Inv.emplace (h : s.Inv content) {frame : Frame μ} {call : Option (Call μ)}
    (hmessage : s.handed t = some frame.message) (hstate : frame.state = .idle)
    (hupdated : frame.updated = []) (hhanded : call.bind Call.handed = none)
    (howner : ∀ f, call.bind Call.owner = some f →
      f = s.next ∧ frame.expires = none ∧ frame.callback = false) :
    ((s.emplace frame).goes t call).Inv content := by
  obtain ⟨hunused, hunique⟩ := h.handed t frame.message hmessage
  have hne : ∀ f, f < s.next → f ≠ s.next := fun f hf => Nat.ne_of_lt hf
  have hframes : ∀ f, f < s.next → (s.emplace frame).frames f = s.frames f :=
    fun f hf => update_of_ne (hne f hf) ..
  have hnew : (s.emplace frame).frames s.next = frame := update_self ..
  have hoffsets : ∀ f ∈ s.queue,
      (s.emplace frame).offsets (s.frames f).message = s.offsets (s.frames f).message :=
    fun f hf => update_of_ne (hunused f hf) ..
  have hzero : (s.emplace frame).offsets frame.message = 0 := update_self ..
  have hrest : ∀ f ∈ s.queue, (s.emplace frame).rest content f = s.rest content f := by
    intro f hf
    rw [rest, rest, hframes f (h.fresh f hf), hoffsets f hf]
  have hmem : ∀ f, f ∈ s.queue ++ [s.next] ↔ f ∈ s.queue ∨ f = s.next := by simp
  have hnot : s.next ∉ s.queue := fun hin => hne _ (h.fresh _ hin) rfl
  have hemplaced : ∀ t', t' ≠ t → s.handed t' ≠ some frame.message :=
    fun t' hne' hsome => hne' (hunique t' hsome)
  constructor
  · exact h.nodup.append (List.nodup_singleton _) (by simpa using hnot)
  · intro f hf
    obtain hf | rfl := (hmem f).mp hf
    · exact Nat.lt_succ_of_lt (h.fresh f hf)
    · exact Nat.lt_succ_self _
  · intro f hf g hg heq
    change ((s.emplace frame).frames f).message = ((s.emplace frame).frames g).message at heq
    obtain hf | rfl := (hmem f).mp hf <;> obtain hg | rfl := (hmem g).mp hg
    · rw [hframes f (h.fresh f hf), hframes g (h.fresh g hg)] at heq
      exact h.messages f hf g hg heq
    · rw [hframes f (h.fresh f hf), hnew] at heq
      exact absurd heq (hunused f hf)
    · rw [hframes g (h.fresh g hg), hnew] at heq
      exact absurd heq.symm (hunused g hg)
    · rfl
  · intro f hf
    change ((s.emplace frame).frames f).state = .idle ∧
      (s.emplace frame).offsets ((s.emplace frame).frames f).message = 0
    have hin : f ∈ s.queue.tail ∨ f = s.next := by
      change f ∈ (s.queue ++ [s.next]).tail at hf
      cases hq : s.queue with
      | nil =>
        rw [hq] at hf
        cases hf
      | cons a queue =>
        rw [hq] at hf
        simpa using hf
    obtain hin | rfl := hin
    · rw [hframes f (h.fresh f (List.mem_of_mem_tail hin)), hoffsets f (List.mem_of_mem_tail hin)]
      exact h.behind f hin
    · rw [hnew]
      exact ⟨hstate, hzero⟩
  · intro f hf
    obtain ⟨hlt, hqueued⟩ := h.outstanding f hf
    refine ⟨Nat.lt_succ_of_lt hlt, fun hin => ?_⟩
    have hin : f ∈ s.queue := ((hmem f).mp hin).resolve_right (hne f hlt)
    obtain ⟨hfirst, hsent, hincomplete⟩ := hqueued hin
    refine ⟨?_, (hrest f hin).trans hsent, ?_⟩
    · change (s.queue ++ [s.next]).head? = some f
      rw [List.head?_append, hfirst]
      rfl
    · change ((s.emplace frame).frames f).state ≠ .complete
      rwa [hframes f hlt]
  · intro f hf hreceived
    have hlt := (h.outstanding f (.inl hreceived)).1
    have hin : f ∈ s.queue := ((hmem f).mp hf).resolve_right (hne f hlt)
    change _ ∧ _ ∧ ((s.emplace frame).frames f).response ≠ none
    rw [hframes f hlt]
    exact h.received f hin hreceived
  · intro f hf hanswers
    have hlt := (h.outstanding f (.inr hanswers)).1
    have hin : f ∈ s.queue := ((hmem f).mp hf).resolve_right (hne f hlt)
    change ∃ n more, ((s.emplace frame).frames f).response = some (n :: more) ∧ _
    rw [hframes f hlt]
    exact h.answers f hin hanswers
  · intro f hfirst
    change (s.queue ++ [s.next]).head? = some f at hfirst
    change ((s.emplace frame).frames f).state = .idle →
      0 < (s.emplace frame).offsets ((s.emplace frame).frames f).message →
      s.wire ++ (s.emplace frame).rest content f = s.requests.flatten ∧
        s.requests.getLast? = some (content ((s.emplace frame).frames f).message)
    cases hq : s.queue with
    | nil =>
      rw [hq] at hfirst
      obtain rfl := Option.some.inj hfirst
      rw [hnew, hzero]
      exact fun _ hpos => absurd hpos (Nat.lt_irrefl 0)
    | cons a queue =>
      have hhead : s.queue.head? = some f := by
        rw [hq] at hfirst ⊢
        exact hfirst
      have hin := List.mem_of_head? hhead
      rw [hframes f (h.fresh f hin), hoffsets f hin, hrest f hin]
      exact h.begun f hhead
  · exact h.whole
  · intro t' message hsome
    rcases eq_or_ne t' t with rfl | hne'
    · rw [handed_goes, hhanded] at hsome
      cases hsome
    · rw [handed_goes_of_ne hne'] at hsome
      obtain ⟨hfree, hone⟩ := h.handed t' message hsome
      refine ⟨fun f hf heq => ?_, fun t'' ht'' => ?_⟩
      · change ((s.emplace frame).frames f).message = message at heq
        obtain hf | rfl := (hmem f).mp hf
        · rw [hframes f (h.fresh f hf)] at heq
          exact hfree f hf heq
        · rw [hnew] at heq
          exact hemplaced t' hne' (heq ▸ hsome)
      · rcases eq_or_ne t'' t with rfl | hne''
        · rw [handed_goes, hhanded] at ht''
          cases ht''
        · rw [handed_goes_of_ne hne''] at ht''
          exact hone t'' ht''
  · intro t' f hsome
    change (f ∈ s.queue ++ [s.next] ∧ ((s.emplace frame).frames f).expires = none ∧
      ((s.emplace frame).frames f).callback = false) ∧ _
    rcases eq_or_ne t' t with rfl | hne'
    · rw [owner_goes] at hsome
      obtain ⟨rfl, hexpires, hcallback⟩ := howner f hsome
      rw [hnew]
      refine ⟨⟨(hmem _).mpr (.inr rfl), hexpires, hcallback⟩, fun t'' ht'' => ?_⟩
      by_contra hne''
      rw [owner_goes_of_ne hne''] at ht''
      exact hnot (h.owned t'' _ ht'').1.1
    · rw [owner_goes_of_ne hne'] at hsome
      obtain ⟨⟨hin, hexpires, hcallback⟩, hone⟩ := h.owned t' f hsome
      rw [hframes f (h.fresh f hin)]
      refine ⟨⟨(hmem _).mpr (.inl hin), hexpires, hcallback⟩, fun t'' ht'' => ?_⟩
      rcases eq_or_ne t'' t with rfl | hne''
      · rw [owner_goes] at ht''
        exact absurd (howner f ht'').1 (hne f (h.fresh f hin))
      · rw [owner_goes_of_ne hne''] at ht''
        exact hone t'' ht''
  · exact h.offered
  · exact h.returned
  · intro f hlt hcallback
    change ((s.emplace frame).frames f).callback = true at hcallback
    change ((s.emplace frame).frames f).updated.length = if f ∈ s.queue ++ [s.next] then 0 else 1
    obtain hlt | rfl := Nat.lt_succ_iff_lt_or_eq.mp hlt
    · rw [hframes f hlt] at hcallback ⊢
      rw [h.updated f hlt hcallback]
      exact if_congr (by simp [hmem, hne f hlt]) rfl rfl
    · rw [hnew, hupdated, if_pos ((hmem _).mpr (.inr rfl))]
      rfl

end

/-! ### Leaving the loop -/

section

variable {content : μ → List UInt8} {s s' : SynchronousChannel τ μ} {f : Nat} {t : τ}
  {result : Code}
  {now endTime : Nat}

theorem use_of_mem (hf : f ∈ s.queue) : s.use f = s := by
  rw [use, if_pos hf]

variable [DecidableEq μ]

/-- By its message a frame finds itself. -/
theorem Inv.findMessage (h : s.Inv content) (hf : f ∈ s.queue) :
    s.findMessage (s.frames f).message = some f := by
  cases hfind : s.findMessage (s.frames f).message with
  | none =>
    rw [SynchronousChannel.findMessage, List.find?_eq_none] at hfind
    simpa using hfind f hf
  | some g =>
    have hmessage := List.find?_some hfind
    have hg := List.mem_of_find?_eq_some hfind
    rw [h.messages g hg f hf (by simpa using hmessage)]

variable [DecidableEq τ]

/-- An exchange leaves with its frame. -/
theorem Inv.leave (h : s.Inv content) (howner : s.owner t = some f)
    (hresult : result = .none → s.isComplete f = true) : (s.leave t f result).Inv content := by
  obtain ⟨⟨hf, hexpires, hcallback⟩, hunique⟩ := h.owned t f howner
  rw [SynchronousChannel.leave, h.findMessage hf]
  refine h.leaves hf rfl rfl (fun _ => ⟨rfl, rfl, rfl, rfl, rfl⟩) rfl rfl rfl rfl rfl rfl ?_ ?_ ?_ ?_
    fun _ _ => rfl
  · intro t' message hsome
    change (s.goes t none).handed t' = some message at hsome
    rcases eq_or_ne t' t with rfl | hne
    · rw [handed_goes] at hsome
      cases hsome
    · rwa [handed_goes_of_ne hne] at hsome
  · intro t' g hsome
    change (s.goes t none).owner t' = some g at hsome
    rcases eq_or_ne t' t with rfl | hne
    · rw [owner_goes] at hsome
      cases hsome
    · rw [owner_goes_of_ne hne] at hsome
      refine ⟨hsome, ?_⟩
      rintro rfl
      exact hne (hunique t' hsome)
  · intro r hr hnone
    obtain rfl | hr := List.mem_cons.mp hr
    · change s.isComplete f = true
      cases hcomplete : s.isComplete f with
      | true => rfl
      | false =>
        simp only [hcomplete, Bool.false_eq_true, if_false] at hnone
        rw [← hcomplete, hresult hnone]
    · exact h.returned r hr hnone
  · intro htrue
    rw [hcallback] at htrue
    cases htrue

/-- A thread in the loop stays with its frame or leaves with it. -/
theorem Inv.check (h : s.Inv content) (howner : s.owner t = some f)
    (hresult : result = .none → s.isComplete f = false → s.staysIn f now endTime = true) :
    (s.check t f now endTime result).Inv content := by
  rw [SynchronousChannel.check, use_of_mem (h.owned t f howner).1.1]
  split_ifs with hstays
  · exact h.goes rfl howner.symm
  · refine h.leave howner fun hnone => ?_
    cases hcomplete : s.isComplete f with
    | true => rfl
    | false => exact absurd (hresult hnone hcomplete) hstays

theorem Inv.check_used (h : s.Inv content) (howner : s.owner t = some f) :
    (s.check t f now endTime result).used = s.used := by
  have hf := (h.owned t f howner).1.1
  rw [SynchronousChannel.check, use_of_mem hf]
  split_ifs
  · rfl
  · rw [SynchronousChannel.leave, h.findMessage hf]
    rfl

/-- What a thread did before does not matter to the loop. -/
theorem check_goes (call : Option (Call μ)) :
    (s.goes t call).check t f now endTime result = s.check t f now endTime result := by
  have hgoes : ∀ (s : SynchronousChannel τ μ) (call' : Option (Call μ)),
      (s.goes t call).goes t call' = s.goes t call' := by
    intro s call'
    simp only [goes, update_idem]
  have huse : (s.goes t call).use f = (s.use f).goes t call := rfl
  have hstays : ((s.use f).goes t call).staysIn f now endTime = (s.use f).staysIn f now endTime :=
    rfl
  have hleave : ((s.use f).goes t call).leave t f result = (s.use f).leave t f result := by
    simp only [SynchronousChannel.leave, hgoes]
    rfl
  rw [SynchronousChannel.check, SynchronousChannel.check, huse]
  rw [hstays, hgoes, hleave]

theorem Inv.exchange (h : s.Inv content) {message : μ} {response : Option (List Nat)}
    {waitTime : Nat}
    (hcall : s.calls t = some (.exchanging message response waitTime)) :
    (s.exchange t message response waitTime).Inv content ∧
      (s.exchange t message response waitTime).used = s.used := by
  have hmessage : s.cleanup.handed t = some message := by
    rw [SynchronousChannel.handed, h.tidied.calls, hcall]
    rfl
  have hemplaced : ∀ call : Call μ, call.handed = none → call.owner = some s.cleanup.next →
      ((s.cleanup.emplace { message, response }).goes t (some call)).Inv content := by
    intro call hhanded howner
    refine h.cleanup.emplace hmessage rfl rfl hhanded fun f hf => ?_
    rw [Option.bind_some, howner] at hf
    exact ⟨(Option.some.inj hf).symm, rfl, rfl⟩
  rw [SynchronousChannel.exchange]
  split_ifs
  · exact ⟨hemplaced _ rfl rfl, h.tidied.used⟩
  · have hwoken :=
      hemplaced (.woken s.cleanup.next (s.cleanup.clock + waitTime) .asyncAborted) rfl rfl
    rw [← check_goes (some (.woken s.cleanup.next (s.cleanup.clock + waitTime) .asyncAborted))]
    refine ⟨hwoken.check (owner_goes _) (fun hnone => by cases hnone), ?_⟩
    rw [hwoken.check_used (owner_goes _)]
    exact h.tidied.used

theorem Inv.send (h : s.Inv content) {message : μ} {response : Option (List Nat)} {callback : Bool}
    {waitTime : Nat} (hcall : s.calls t = some (.sending message response callback waitTime)) :
    (s.send t message response callback waitTime).Inv content := by
  have hmessage : s.cleanup.handed t = some message := by
    rw [SynchronousChannel.handed, h.tidied.calls, hcall]
    rfl
  exact h.cleanup.emplace hmessage rfl rfl rfl fun f hf => by cases hf

omit [DecidableEq τ] in
theorem Inv.revoke (h : s.Inv content) {message : μ}
    (hexpires : ∀ f ∈ s.queue, (s.frames f).message = message → (s.frames f).expires ≠ none) :
    (s.revoke message).Inv content ∧ (s.revoke message).used = s.used := by
  rw [SynchronousChannel.revoke]
  cases hfind : s.cleanup.findMessage message with
  | none => exact ⟨h.cleanup, h.tidied.used⟩
  | some f =>
    have hf : f ∈ s.cleanup.queue := List.mem_of_find?_eq_some hfind
    have hmessage := List.find?_some hfind
    have hframe := h.tidied.frames f
    refine ⟨h.cleanup.report_erase hf (h.cleanup.unowned ?_) .asyncAborted, h.tidied.used⟩
    rw [hframe.expires]
    refine hexpires f (h.tidied.queue f hf) ?_
    rw [← hframe.message]
    simpa using hmessage

end

/-! ### The head of the queue -/

section

variable {content : μ → List UInt8} {s s' : SynchronousChannel τ μ} {f : Nat}

/-- What is done with the frame at the head: the others stay as they are, and of them nothing is
outstanding. -/
theorem Inv.atHead (h : s.Inv content) (hhead : s.queue.head? = some f)
    (hqueue : s'.queue = s.queue)
    (hnext : s'.next = s.next) (hcalls : s'.calls = s.calls) (hreturned : s'.returned = s.returned)
    (hstrays : s'.strays = s.strays) (hframes : ∀ g, g ≠ f → s'.frames g = s.frames g)
    (hmessage : (s'.frames f).message = (s.frames f).message)
    (hexpires : (s'.frames f).expires = (s.frames f).expires)
    (hcallback : (s'.frames f).callback = (s.frames f).callback)
    (hupdated : (s'.frames f).updated = (s.frames f).updated)
    (hoffsets : ∀ message, message ≠ (s.frames f).message → s'.offsets message = s.offsets message)
    (houtstanding : ∀ g, g ≠ f → g ∈ s'.received ∨ g ∈ s'.answers → g ∈ s.received ∨ g ∈ s.answers)
    (hsent : f ∈ s'.received ∨ f ∈ s'.answers →
      s'.rest content f = [] ∧ (s'.frames f).state ≠ .complete)
    (hreceived : f ∈ s'.received →
      s'.received.count f = 1 ∧ f ∉ s'.answers ∧ (s'.frames f).response ≠ none)
    (hanswers : f ∈ s'.answers →
      ∃ n more, (s'.frames f).response = some (n :: more) ∧ s'.answers.count f = n)
    (hbegun : (s'.frames f).state = .idle → 0 < s'.offsets (s.frames f).message →
      s'.wire ++ s'.rest content f = s'.requests.flatten ∧
        s'.requests.getLast? = some (content (s.frames f).message))
    (hwhole : ∃ left, s'.wire ++ left = s'.requests.flatten ∧
      ∀ request, s'.requests.getLast? = some request → left <:+ request) : s'.Inv content := by
  have hf : f ∈ s.queue := List.mem_of_head? hhead
  have hmessages : ∀ g, (s'.frames g).message = (s.frames g).message := by
    intro g
    by_cases heq : g = f
    · rw [heq, hmessage]
    · rw [hframes g heq]
  have hexpires' : ∀ g, (s'.frames g).expires = (s.frames g).expires := by
    intro g
    by_cases heq : g = f
    · rw [heq, hexpires]
    · rw [hframes g heq]
  have hcallback' : ∀ g, (s'.frames g).callback = (s.frames g).callback := by
    intro g
    by_cases heq : g = f
    · rw [heq, hcallback]
    · rw [hframes g heq]
  have hupdated' : ∀ g, (s'.frames g).updated = (s.frames g).updated := by
    intro g
    by_cases heq : g = f
    · rw [heq, hupdated]
    · rw [hframes g heq]
  -- what is outstanding and in the queue is the head
  have hfirst : ∀ g ∈ s.queue, g ∈ s'.received ∨ g ∈ s'.answers → g = f := by
    intro g hg hout
    by_contra hne
    obtain ⟨hhead', -⟩ := (h.outstanding g (houtstanding g hne hout)).2 hg
    rw [hhead, Option.some.injEq] at hhead'
    exact hne hhead'.symm
  have hbehind : ∀ g ∈ s.queue.tail, g ≠ f := by
    rintro g hg rfl
    cases hq : s.queue with
    | nil =>
      rw [hq] at hg
      cases hg
    | cons a queue =>
      have hnodup := h.nodup
      rw [hq] at hg hhead hnodup
      obtain rfl := Option.some.inj hhead
      exact (List.nodup_cons.mp hnodup).1 hg
  constructor
  · rw [hqueue]
    exact h.nodup
  · rw [hqueue, hnext]
    exact h.fresh
  · intro g hg g' hg' heq
    rw [hqueue] at hg hg'
    rw [hmessages, hmessages] at heq
    exact h.messages g hg g' hg' heq
  · intro g hg
    rw [hqueue] at hg
    have hne := hbehind g hg
    rw [hframes g hne, hoffsets _ fun heq => hne (h.messages g (List.mem_of_mem_tail hg) f hf heq)]
    exact h.behind g hg
  · intro g hg
    rw [hqueue, hnext]
    by_cases heq : g = f
    · rw [heq] at hg ⊢
      exact ⟨h.fresh f hf, fun _ => ⟨hhead, hsent hg⟩⟩
    · exact ⟨(h.outstanding g (houtstanding g heq hg)).1, fun hin => absurd (hfirst g hin hg) heq⟩
  · intro g hg hin
    rw [hqueue] at hg
    obtain rfl := hfirst g hg (.inl hin)
    exact hreceived hin
  · intro g hg hin
    rw [hqueue] at hg
    obtain rfl := hfirst g hg (.inr hin)
    exact hanswers hin
  · intro g hg
    rw [hqueue, hhead, Option.some.injEq] at hg
    rw [← hg, hmessage]
    exact hbegun
  · exact hwhole
  · intro t message hsome
    have hsame : ∀ t, s'.handed t = s.handed t := by
      intro t
      rw [SynchronousChannel.handed, hcalls, SynchronousChannel.handed]
    rw [hsame] at hsome
    obtain ⟨hfree, hunique⟩ := h.handed t message hsome
    refine ⟨fun g hg => ?_, fun t' ht' => hunique t' (hsame t' ▸ ht')⟩
    rw [hqueue] at hg
    rw [hmessages]
    exact hfree g hg
  · intro t g hsome
    have hsame : ∀ t, s'.owner t = s.owner t := by
      intro t
      rw [owner, hcalls, owner]
    rw [hsame] at hsome
    obtain ⟨hin, hunique⟩ := h.owned t g hsome
    rw [hqueue, hexpires', hcallback']
    exact ⟨hin, fun t' ht' => hunique t' (hsame t' ▸ ht')⟩
  · rw [hstrays]
    exact h.offered
  · rw [hreturned]
    exact h.returned
  · intro g hlt hcalls
    rw [hnext] at hlt
    rw [hcallback'] at hcalls
    rw [hupdated', hqueue]
    exact h.updated g hlt hcalls

/-- Nothing is outstanding of a head of whose message something is left. -/
theorem Inv.notOutstanding (h : s.Inv content) (hf : f ∈ s.queue) (hrest : s.rest content f ≠ []) :
    f ∉ s.received ∧ f ∉ s.answers :=
  ⟨fun hin => hrest ((h.outstanding f (.inl hin)).2 hf).2.1,
    fun hin => hrest ((h.outstanding f (.inr hin)).2 hf).2.1⟩

theorem canBeRemoved_iff :
    s.canBeRemoved f = true ↔ (s.frames f).state = .complete ∧ (s.frames f).expires ≠ none := by
  rw [canBeRemoved, decide_eq_true_iff]

variable [DecidableEq μ]

/-- Some bytes of the request at the head are serialized. -/
theorem Inv.serialize (h : s.Inv content) (hhead : s.queue.head? = some f)
    (hstate : (s.frames f).state = .idle) (hrest : s.rest content f ≠ [])
    (hbegins : s.offsets (s.frames f).message = 0 → s.wire = s.requests.flatten)
    (maxSendSize : Nat) :
    (s.serialize content f maxSendSize).Inv content := by
  have hf := List.mem_of_head? hhead
  obtain ⟨hnotReceived, hnotAnswers⟩ := h.notOutstanding hf hrest
  have hnew : (s.serialize content f maxSendSize).rest content f =
      (s.rest content f).drop maxSendSize := by
    have hoffset : (s.serialize content f maxSendSize).offsets (s.frames f).message =
        s.offsets (s.frames f).message + ((s.rest content f).take maxSendSize).length := update_self ..
    change (content (s.frames f).message).drop
      ((s.serialize content f maxSendSize).offsets (s.frames f).message) = _
    rw [hoffset, ← List.drop_drop, ← rest, List.length_take]
    obtain hle | hle := le_total maxSendSize (s.rest content f).length
    · rw [min_eq_left hle]
    · rw [min_eq_right hle, List.drop_length, List.drop_eq_nil_of_le hle]
  have hin : f ∈ (s.serialize content f maxSendSize).received →
      (s.rest content f).length ≤ maxSendSize ∧ (s.frames f).response.isSome := by
    intro hin
    by_contra hnot
    change f ∈ ite _ _ _ at hin
    rw [if_neg hnot] at hin
    exact hnotReceived hin
  have hwire : (s.serialize content f maxSendSize).wire ++
      (s.serialize content f maxSendSize).rest content f =
        (s.serialize content f maxSendSize).requests.flatten ∧
      (s.serialize content f maxSendSize).requests.getLast? =
        some (content (s.frames f).message) := by
    change (s.wire ++ (s.rest content f).take maxSendSize) ++ _ = List.flatten (ite _ _ _) ∧
      List.getLast? (ite _ _ _) = _
    rw [hnew, List.append_assoc, List.take_append_drop]
    split_ifs with hzero
    · rw [hbegins hzero, rest, hzero, List.drop_zero]
      simp
    · exact h.begun f hhead hstate (Nat.pos_of_ne_zero hzero)
  refine h.atHead hhead rfl rfl rfl rfl rfl (fun _ _ => rfl) rfl rfl rfl rfl ?_ ?_ ?_ ?_ ?_ ?_ ?_
  · exact fun message hne => update_of_ne hne ..
  · intro g hne hout
    refine hout.imp_left fun hg => ?_
    change g ∈ ite _ _ _ at hg
    split_ifs at hg
    · simpa [hne] using hg
    · exact hg
  · intro hout
    have hlength := (hin (hout.resolve_right hnotAnswers)).1
    refine ⟨?_, ?_⟩
    · rw [hnew, List.drop_eq_nil_of_le hlength]
    · change (s.frames f).state ≠ .complete
      rw [hstate]
      nofun
  · intro hout
    obtain ⟨hlength, hresponse⟩ := hin hout
    refine ⟨?_, hnotAnswers, Option.isSome_iff_ne_none.mp hresponse⟩
    change List.count f (ite _ _ _) = 1
    rw [if_pos ⟨hlength, hresponse⟩, List.count_append, List.count_eq_zero.mpr hnotReceived]
    simp
  · exact fun hout => absurd hout hnotAnswers
  · exact fun _ _ => hwire
  · refine ⟨_, hwire.1, fun request hlast => ?_⟩
    rw [hwire.2] at hlast
    obtain rfl := Option.some.inj hlast
    exact List.drop_suffix ..

omit [DecidableEq μ] in
/-- A complete frame of a `Send` is taken from the queue. -/
theorem Inv.popFront (h : s.Inv content) (hf : f ∈ s.queue)
    (hexpires : (s.frames f).expires ≠ none) :
    (s.popFront f).Inv content := by
  refine h.leaves hf rfl rfl (fun g => report_same (s := (s.erase f).use f) .none g) rfl rfl rfl rfl
    rfl rfl (fun _ _ => id) (fun t g hg => ⟨hg, ?_⟩) h.returned ?_ ?_
  · rintro rfl
    exact h.unowned hexpires t hg
  · intro hcallback
    have hupdated := h.updated f (h.fresh f hf) hcallback
    rw [if_pos hf] at hupdated
    change (update s.frames f _ f).updated.length = 1
    rw [update_self]
    change (ite ((s.frames f).callback = true) _ _ : Frame μ).updated.length = 1
    rw [if_pos hcallback]
    exact congrArg (· + 1) hupdated
  · intro g hne
    change (update s.frames f _ g).updated = _
    rw [update_of_ne hne]

end

/-! ### Sending and receiving -/

section

variable {content : μ → List UInt8} {s s' : SynchronousChannel τ μ} {f availableData : Nat}

theorem Inv.remove (h : s.Inv content) (hf : f ∈ s.queue) :
    (if s.canBeRemoved f then s.popFront f else s).Inv content := by
  split_ifs with hremoved
  · exact h.popFront hf (canBeRemoved_iff.mp hremoved).2
  · exact h

/-- The request at the head is sent. -/
theorem Inv.sent (h : s.Inv content) (hhead : s.queue.head? = some f) : (s.sent f).Inv content := by
  have hf := List.mem_of_head? hhead
  have hnew : ∀ frame' : Frame μ → Frame μ, (s.change f frame').frames f = frame' (s.frames f) :=
    fun _ => update_self ..
  refine Inv.reevaluate (Inv.remove ?_ hf)
  refine h.atHead hhead rfl rfl rfl rfl rfl (fun g hne => update_of_ne hne ..) ?_ ?_ ?_ ?_
    (fun _ _ => rfl) (fun _ _ => id) ?_ ?_ ?_ ?_ h.whole
  iterate 4 rw [hnew]
  · intro hout
    obtain ⟨-, hsent, hstate⟩ := (h.outstanding f hout).2 hf
    have hresponse : (s.frames f).response ≠ none := by
      obtain hout | hout := hout
      · exact (h.received f hf hout).2.2
      · obtain ⟨n, more, hmore, -⟩ := h.answers f hf hout
        rw [hmore]
        nofun
    rw [rest, hnew, if_neg hresponse]
    exact ⟨hsent, nofun⟩
  · intro hout
    rw [hnew]
    exact h.received f hf hout
  · intro hout
    rw [hnew]
    exact h.answers f hf hout
  · intro hstate
    rw [hnew] at hstate
    change (if (s.frames f).response = none then State.complete else State.inbound) = .idle at hstate
    split_ifs at hstate

theorem sent_used (hkept : (s.frames f).expires ≠ none → (s.frames f).response ≠ none) :
    (s.sent f).used = s.used := by
  rw [SynchronousChannel.sent]
  split_ifs with hremoved
  · obtain ⟨hstate, hexpires⟩ := canBeRemoved_iff.mp hremoved
    simp only [change, update_self] at hstate hexpires
    rw [if_neg (hkept hexpires)] at hstate
    cases hstate
  · rfl

variable [DecidableEq μ]

theorem Inv.sendData (h : s.Inv content) {maxSendSize : Nat}
    (hwhole : ∀ f, s.cleanup.queue.head? = some f → (s.cleanup.frames f).state = .idle →
      s.cleanup.rest content f ≠ [] → s.cleanup.offsets (s.cleanup.frames f).message = 0 →
      s.wire = s.requests.flatten) : (s.sendData content maxSendSize).Inv content := by
  rw [SynchronousChannel.sendData]
  cases hqueue : s.cleanup.queue with
  | nil => exact h.cleanup
  | cons f queue =>
    have hhead : s.cleanup.queue.head? = some f := by rw [hqueue, List.head?_cons]
    dsimp only
    split_ifs with hidle hrest
    · exact h.cleanup
    · exact h.cleanup.sent hhead
    · rw [not_not] at hidle
      refine h.cleanup.serialize hhead hidle hrest (fun hzero => ?_) maxSendSize
      rw [h.tidied.wire, h.tidied.requests]
      exact hwhole f hhead hidle hrest hzero

theorem Inv.sendData_used (h : s.Inv content) {maxSendSize : Nat}
    (hkept : ∀ f, s.cleanup.queue.head? = some f → (s.cleanup.frames f).state = .idle →
      s.cleanup.rest content f = [] → (s.cleanup.frames f).expires ≠ none →
      (s.cleanup.frames f).response ≠ none) : (s.sendData content maxSendSize).used = s.used := by
  rw [SynchronousChannel.sendData]
  cases hqueue : s.cleanup.queue with
  | nil => exact h.tidied.used
  | cons f queue =>
    have hhead : s.cleanup.queue.head? = some f := by rw [hqueue, List.head?_cons]
    dsimp only
    split_ifs with hidle hrest
    · exact h.tidied.used
    · rw [not_not] at hidle
      rw [sent_used (hkept f hhead hidle hrest)]
      exact h.tidied.used
    · exact h.tidied.used

omit [DecidableEq μ] in
/-- Bytes that answer the head are bytes that it awaits, and they do not go on behind its answer. -/
theorem Inv.awaits (h : s.Inv content) (hhead : s.queue.head? = some f) (hpos : 0 < availableData)
    (hlength : availableData ≤ s.answers.length)
    (hbytes : ∀ g ∈ s.answers.take availableData, g = f) :
    ∃ n more, (s.frames f).response = some (n :: more) ∧ availableData ≤ n ∧
      (s.answers.drop availableData).count f = n - availableData ∧ f ∉ s.received ∧
      s.rest content f = [] ∧ (s.frames f).state ≠ .complete := by
  have hf := List.mem_of_head? hhead
  have htake : (s.answers.take availableData).count f = availableData := by
    rw [List.count_eq_length.mpr fun g hg => (hbytes g hg).symm, List.length_take,
      min_eq_left hlength]
  have hin : f ∈ s.answers := by
    refine List.mem_of_mem_take (i := availableData) (List.count_pos_iff.mp ?_)
    rw [htake]
    exact hpos
  obtain ⟨n, more, hresponse, hcount⟩ := h.answers f hf hin
  have hsplit : (s.answers.take availableData).count f +
    (s.answers.drop availableData).count f = n := by
    rw [← List.count_append, List.take_append_drop, hcount]
  rw [htake] at hsplit
  obtain ⟨-, hsent, hstate⟩ := (h.outstanding f (.inr hin)).2 hf
  exact ⟨n, more, hresponse, by omega, by omega,
    fun hreceived => (h.received f hf hreceived).2.1 hin, hsent, hstate⟩

/-- The frame at the head gets a part of its answer. -/
theorem Inv.receive (h : s.Inv content) (hhead : s.queue.head? = some f) (hpos : 0 < availableData)
    (hlength : availableData ≤ s.answers.length)
    (hbytes : ∀ g ∈ s.answers.take availableData, g = f) :
    (({ s with answers := s.answers.drop availableData } : SynchronousChannel τ μ).receive f
      availableData).Inv content := by
  have hf := List.mem_of_head? hhead
  obtain ⟨n, more, hresponse, hle, hcount, hreceived, hsent, hstate⟩ :=
    h.awaits hhead hpos hlength hbytes
  have hdropped : ∀ g, g ∈ s.answers.drop availableData → g ∈ s.answers :=
    fun g hg => List.mem_of_mem_drop hg
  -- the state behind it, with or without the message sent again
  have hgoes : ∀ (response : List Nat) (state : State) (offsets : μ → Nat),
      (∀ message, message ≠ (s.frames f).message → offsets message = s.offsets message) →
      (f ∈ s.answers.drop availableData → offsets (s.frames f).message = s.offsets
        (s.frames f).message ∧
        state = (s.frames f).state ∧ response = (n - availableData) :: more) →
      (state = .idle → 0 < offsets (s.frames f).message →
        offsets (s.frames f).message = s.offsets (s.frames f).message ∧
          (s.frames f).state = .idle) →
      ({ s with
        answers := s.answers.drop availableData
        offsets
        frames := update s.frames f { s.frames f with response := some response, state } } :
        SynchronousChannel τ μ).Inv content := by
    intro response state offsets hoffsets hmore hidle
    refine h.atHead hhead rfl rfl rfl rfl rfl (fun g hne => update_of_ne hne ..) ?_ ?_ ?_ ?_ hoffsets
      (fun g _ hg => hg.imp_right (hdropped g)) ?_ ?_ ?_ ?_ h.whole
    iterate 4 simp only [update_self]
    · intro hout
      obtain ⟨hoffset, hsame, -⟩ := hmore (hout.resolve_left hreceived)
      simp only [rest, update_self, hoffset, hsame]
      exact ⟨hsent, hstate⟩
    · exact fun hout => absurd hout hreceived
    · intro hout
      simp only [update_self]
      exact ⟨_, more, congrArg some (hmore hout).2.2, hcount⟩
    · simp only [rest, update_self]
      intro hstate' hoffset
      obtain ⟨hsame, hbefore⟩ := hidle hstate' hoffset
      rw [hsame] at hoffset ⊢
      exact h.begun f hhead hbefore hoffset
  have hgone : availableData = n → f ∉ s.answers.drop availableData := by
    intro heq
    rw [← List.count_eq_zero, hcount, heq, Nat.sub_self]
  by_cases hpart : availableData < n
  · simp only [SynchronousChannel.receive, hresponse, deserialize, if_pos hpart, reduceCtorEq,
      if_false]
    exact hgoes _ _ s.offsets (fun _ _ => rfl) (fun _ => ⟨rfl, rfl, rfl⟩) fun hidle _ => ⟨rfl,
      hidle⟩
  by_cases hlast : more = []
  · simp only [SynchronousChannel.receive, hresponse, deserialize, if_neg hpart, if_pos hlast,
      Option.some.injEq, reduceCtorEq, if_false]
    refine hgoes _ _ s.offsets (fun _ _ => rfl) (fun hin => absurd hin (hgone (by omega))) ?_
    intro hidle
    cases hidle
  · simp only [SynchronousChannel.receive, hresponse, deserialize, if_neg hpart, if_neg hlast,
      if_true]
    refine hgoes _ _ (update s.offsets (s.frames f).message 0) (fun _ hne => update_of_ne hne ..)
      (fun hin => absurd hin (hgone (by omega))) fun _ hoffset => ?_
    rw [update_self] at hoffset
    exact absurd hoffset (Nat.lt_irrefl 0)

end

/-! ### Every step -/

section

variable {content : μ → List UInt8} {s s' : SynchronousChannel τ μ} {availableData : Nat}

/-- Bytes are dropped when the queue is empty. -/
theorem Inv.drop (h : s.Inv content) (hqueue : s.queue = []) (availableData : Nat) :
    ({ s with answers := s.answers.drop availableData } : SynchronousChannel τ μ).Inv content :=
  { h with
    outstanding := fun f hf =>
      ⟨(h.outstanding f (hf.imp_right fun hin => List.mem_of_mem_drop hin)).1,
        fun hin => absurd (hqueue ▸ hin) List.not_mem_nil⟩
    received := fun _ hf => absurd (hqueue ▸ hf) List.not_mem_nil
    answers := fun _ hf => absurd (hqueue ▸ hf) List.not_mem_nil }

/-- The request that the peer has received first is answered. -/
theorem Inv.answer (h : s.Inv content) (hanswer : s.answer = some s') : s'.Inv content := by
  cases hreceived : s.received with
  | nil =>
    rw [SynchronousChannel.answer, hreceived] at hanswer
    cases hanswer
  | cons f received =>
    rw [SynchronousChannel.answer, hreceived] at hanswer
    obtain rfl := Option.some.inj hanswer
    have hf : f ∈ s.received := hreceived ▸ List.mem_cons_self
    have hmem : ∀ g, g ∈ received → g ∈ s.received := fun g hg => hreceived ▸ List.mem_cons_of_mem f hg
    have hnotAgain : f ∈ s.queue → f ∉ received := by
      intro hin hagain
      have hcount := (h.received f hin hf).1
      rw [hreceived, List.count_cons_self] at hcount
      have hpos := List.count_pos_iff.mpr hagain
      omega
    refine { h with outstanding := ?_, received := ?_, answers := ?_ }
    · intro g hg
      refine h.outstanding g ?_
      obtain hg | hg := hg
      · exact .inl (hmem g hg)
      · obtain hg | hg := List.mem_append.mp hg
        · exact .inr hg
        · exact .inl (List.eq_of_mem_replicate hg ▸ hf)
    · intro g hg hin
      have hne : g ≠ f := by
        rintro rfl
        exact hnotAgain hg hin
      obtain ⟨hcount, hnot, hresponse⟩ := h.received g hg (hmem g hin)
      rw [hreceived, List.count_cons_of_ne hne.symm] at hcount
      refine ⟨hcount, fun hin' => ?_, hresponse⟩
      obtain hin' | hin' := List.mem_append.mp hin'
      · exact hnot hin'
      · exact hne (List.eq_of_mem_replicate hin')
    · intro g hg hin
      by_cases hne : g = f
      · subst hne
        obtain ⟨-, hnot, hresponse⟩ := h.received g hg hf
        have hcount := List.count_eq_zero.mpr hnot
        obtain hin | hin := List.mem_append.mp hin
        · exact absurd hin hnot
        · obtain ⟨response, hresponse⟩ := Option.ne_none_iff_exists'.mp hresponse
          cases response with
          | nil =>
            rw [hresponse] at hin
            cases hin
          | cons n more =>
            refine ⟨n, more, hresponse, ?_⟩
            rw [List.count_append, hcount, hresponse]
            simp
      · have hold : g ∈ s.answers := by
          obtain hin | hin := List.mem_append.mp hin
          · exact hin
          · exact absurd (List.eq_of_mem_replicate hin) hne
        obtain ⟨n, more, hresponse, hcount⟩ := h.answers g hg hold
        refine ⟨n, more, hresponse, ?_⟩
        rw [List.count_append, hcount, List.count_replicate, if_neg (by simpa using Ne.symm hne)]
        rfl

variable [DecidableEq μ]

/-- What `ReceiveData` of a frame leaves alone, and where its state comes from. -/
theorem receive_kept (s : SynchronousChannel τ μ) (f availableData : Nat) :
    (s.receive f availableData).queue = s.queue ∧ (s.receive f availableData).used = s.used ∧
      ((s.receive f availableData).frames f).expires = (s.frames f).expires ∧
      ∀ response, (s.frames f).response = some response →
        ((s.receive f availableData).frames f).state =
          (deserialize response availableData).2.getD (s.frames f).state := by
  cases hresponse : (s.frames f).response with
  | none =>
    simp only [SynchronousChannel.receive, hresponse]
    exact ⟨trivial, trivial, trivial, nofun⟩
  | some response =>
    by_cases hagain : (deserialize response availableData).2 = some .idle <;>
      simp [SynchronousChannel.receive, hresponse, hagain, change, reload]

/-- What is received where the queue is not empty, and what is done with the frame then. -/
theorem Inv.receiveData_head (h : s.Inv content) {f : Nat} (hhead : s.cleanup.queue.head? = some f)
    (hpos : 0 < availableData) (hlength : availableData ≤ s.answers.length)
    (hbytes : ∀ g ∈ s.answers.take availableData, g = f) :
    ∃ r : SynchronousChannel τ μ, r.Inv content ∧ f ∈ r.queue ∧ r.used = s.used ∧
      s.receiveData content availableData =
        (if r.canBeRemoved f then r.popFront f else if r.isComplete f then r.reevaluate else r) ∧
      ((∀ response, (s.cleanup.frames f).expires ≠ none →
        (s.cleanup.frames f).response = some response →
        (deserialize response availableData).2 ≠ some .complete) → ¬r.canBeRemoved f = true) := by
  have hanswers := h.tidied.answers
  rw [← hanswers] at hlength hbytes
  obtain ⟨n, more, hresponse, -, -, -, hsent, hstate⟩ := h.cleanup.awaits hhead hpos hlength hbytes
  have hawaits : s.cleanup.Awaits content f (s.answers.take availableData) :=
    ⟨hsent, hstate, by rw [hresponse]; nofun, hanswers ▸ hbytes⟩
  obtain ⟨hqueue, hused, hexpires, hstate'⟩ := receive_kept
    { s.cleanup with answers := s.cleanup.answers.drop availableData } f availableData
  refine ⟨_, h.cleanup.receive hhead hpos hlength hbytes, ?_, ?_, ?_, ?_⟩
  · rw [hqueue]
    exact List.mem_of_head? hhead
  · rw [hused]
    exact h.tidied.used
  · have hawaits : ({ s.cleanup with answers := s.answers.drop availableData } :
        SynchronousChannel τ μ).Awaits content f (s.answers.take availableData) := hawaits
    rw [SynchronousChannel.receiveData, hanswers]
    split
    · next heq =>
      change s.cleanup.queue = [] at heq
      rw [heq] at hhead
      cases hhead
    · next g _ heq =>
      change s.cleanup.queue = g :: _ at heq
      rw [heq] at hhead
      obtain rfl := Option.some.inj hhead
      rw [if_pos hawaits]
  · rintro hlasting hremoved
    obtain ⟨hcomplete, hnone⟩ := canBeRemoved_iff.mp hremoved
    rw [hexpires] at hnone
    have hnot := hlasting _ hnone hresponse
    rw [hstate' _ hresponse] at hcomplete
    cases hnew : (deserialize (n :: more) availableData).2 with
    | none =>
      rw [hnew] at hcomplete
      exact hstate hcomplete
    | some state =>
      rw [hnew] at hcomplete hnot
      exact hnot (congrArg some hcomplete)

theorem Inv.receiveData (h : s.Inv content) (hpos : 0 < availableData)
    (hlength : availableData ≤ s.answers.length)
    (hbytes : ∀ f, s.cleanup.queue.head? = some f → ∀ g ∈ s.answers.take availableData, g = f) :
    (s.receiveData content availableData).Inv content := by
  cases hhead : s.cleanup.queue.head? with
  | none =>
    have hqueue := List.head?_eq_none_iff.mp hhead
    have hdrop := h.cleanup.drop hqueue availableData
    rw [h.tidied.answers, hqueue] at hdrop
    simp only [SynchronousChannel.receiveData, hqueue]
    exact hdrop
  | some f =>
    obtain ⟨r, hr, hf, -, heq, -⟩ := h.receiveData_head hhead hpos hlength (hbytes f hhead)
    rw [heq]
    split_ifs with hremoved
    · exact hr.popFront hf (canBeRemoved_iff.mp hremoved).2
    · exact hr.reevaluate
    · exact hr

theorem Inv.receiveData_used (h : s.Inv content) (hpos : 0 < availableData)
    (hlength : availableData ≤ s.answers.length)
    (hbytes : ∀ f, s.cleanup.queue.head? = some f → ∀ g ∈ s.answers.take availableData, g = f)
    (hlasting : ∀ f response, s.cleanup.queue.head? = some f → (s.cleanup.frames f).expires ≠ none →
      (s.cleanup.frames f).response = some response →
      (deserialize response availableData).2 ≠ some .complete) :
    (s.receiveData content availableData).used = s.used := by
  cases hhead : s.cleanup.queue.head? with
  | none =>
    simp only [SynchronousChannel.receiveData, List.head?_eq_none_iff.mp hhead]
    exact h.tidied.used
  | some f =>
    obtain ⟨r, -, -, hused, heq, hstays⟩ := h.receiveData_head hhead hpos hlength (hbytes f hhead)
    rw [heq, if_neg (hstays fun response => hlasting f response hhead), ← hused]
    split_ifs <;> rfl

variable [DecidableEq τ]

/-- A step keeps the invariant, and no frame is used behind its removal unless the request of a
`Send` is completed. -/
theorem Inv.step (h : s.Inv content) {a : Action τ μ} (hok : s.Orderly content a)
    (hstep : step content s a = some s') :
    s'.Inv content ∧ (s.Lasting content a → s'.used = s.used) := by
  cases a with
  | pass ticks =>
    obtain rfl := Option.some.inj hstep
    exact ⟨{ h with }, fun _ => rfl⟩
  | close =>
    obtain rfl := Option.some.inj hstep
    exact ⟨{ h with }, fun _ => rfl⟩
  | stateChange =>
    obtain rfl := Option.some.inj hstep
    exact ⟨h.reevaluate, fun _ => rfl⟩
  | exchange t message response waitTime =>
    rw [SynchronousChannel.step] at hstep
    split_ifs at hstep
    obtain rfl := Option.some.inj hstep
    exact ⟨h.handing hok rfl rfl, fun _ => rfl⟩
  | send t message response callback waitTime =>
    rw [SynchronousChannel.step] at hstep
    split_ifs at hstep
    obtain rfl := Option.some.inj hstep
    exact ⟨h.handing hok rfl rfl, fun _ => rfl⟩
  | lock t =>
    rw [SynchronousChannel.step] at hstep
    split at hstep
    · next hcall =>
      obtain rfl := Option.some.inj hstep
      exact ⟨(h.exchange hcall).1, fun _ => (h.exchange hcall).2⟩
    · next hcall =>
      obtain rfl := Option.some.inj hstep
      exact ⟨h.send hcall, fun _ => h.tidied.used⟩
    · next f now endTime hcall =>
      obtain rfl := Option.some.inj hstep
      have howner : s.owner t = some f := by
        rw [owner, hcall]
        rfl
      exact ⟨h.check howner (fun hnone => by cases hnone), fun _ => h.check_used howner⟩
    · next f endTime result hcall =>
      obtain rfl := Option.some.inj hstep
      have howner : s.owner t = some f := by
        rw [owner, hcall]
        rfl
      refine ⟨h.check howner ?_, fun _ => h.check_used howner⟩
      rintro rfl hincomplete
      obtain ⟨hopen, htime⟩ := hok f endTime hcall hincomplete
      simp [staysIn, hopen, hincomplete, htime]
    · cases hstep
  | timeOut t =>
    rw [SynchronousChannel.step] at hstep
    split at hstep
    · next f endTime hcall =>
      obtain rfl := Option.some.inj hstep
      refine ⟨h.goes rfl ?_, fun _ => rfl⟩
      rw [owner, hcall]
      rfl
    · cases hstep
  | revoke message =>
    obtain rfl := Option.some.inj hstep
    exact ⟨(h.revoke hok).1, fun _ => (h.revoke hok).2⟩
  | sendData maxSendSize =>
    rw [SynchronousChannel.step] at hstep
    split_ifs at hstep
    obtain rfl := Option.some.inj hstep
    exact ⟨h.sendData hok, fun hlasting => h.sendData_used hlasting⟩
  | receiveData availableData =>
    rw [SynchronousChannel.step] at hstep
    split_ifs at hstep with hready
    obtain rfl := Option.some.inj hstep
    obtain ⟨-, hpos, hlength⟩ := hready
    exact ⟨h.receiveData hpos hlength hok,
      fun hlasting => h.receiveData_used hpos hlength hok hlasting⟩
  | answer =>
    refine ⟨h.answer hstep, fun _ => ?_⟩
    cases hreceived : s.received with
    | nil => simp [SynchronousChannel.step, SynchronousChannel.answer, hreceived] at hstep
    | cons f received =>
      simp only [SynchronousChannel.step, SynchronousChannel.answer, hreceived,
        Option.some.injEq] at hstep
      rw [← hstep]

omit [DecidableEq μ] [DecidableEq τ] in
theorem inv_new (content : μ → List UInt8) (message : μ) :
    (SynchronousChannel.new τ message).Inv content where
  nodup := List.nodup_nil
  fresh := nofun
  messages := nofun
  behind := nofun
  outstanding := nofun
  received := nofun
  answers := nofun
  begun := nofun
  whole := ⟨[], rfl, nofun⟩
  handed := nofun
  owned := nofun
  offered := rfl
  returned := nofun
  updated := nofun

end

end SynchronousChannel

end Thunder.Core
