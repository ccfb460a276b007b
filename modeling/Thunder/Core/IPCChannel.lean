import Thunder.Library.Run
import Mathlib.Data.List.Count

/-! `IPCChannelType`: invocations of a peer.  One slot of the factory, `_outbound` and `_callback`,
holds the invocation in progress; `Execute` holds `_serialize` from its start to its end, so one
thread at a time is in it, and everything that happens in between on other threads takes the lock
of the factory.  The peer answers the requests that reach it once and in order. -/

namespace Thunder.Core

/-- An object that is an `IIPC`. -/
structure Command where
  object : Nat
  label : Nat
  deriving DecidableEq, Repr

/-- One call of `Execute`. -/
structure Invocation where
  number : Nat
  command : Command
  sync : Bool
  deriving DecidableEq, Repr

/-- What `Execute` returns. -/
inductive Status
  | none
  | inProgress
  | connectionClosed
  | asyncFailed
  | timedOut
  deriving DecidableEq, Repr

/-- How far the thread in `Execute` is. -/
inductive Progress
  | idle
  | entered (i : Invocation)
  | registered (i : Invocation)
  | linkOpen (i : Invocation)
  | linkClosed (i : Invocation)
  | waiting (i : Invocation)
  | woken (i : Invocation) (status : Status)
  deriving DecidableEq, Repr

/-- A message that has begun to arrive: the answer to an invocation and the response that `Element`
has given for it, that of a command, or a request of the peer. -/
inductive Incoming
  | answer (i : Invocation) (element : Option Command)
  | request (known : Bool)
  deriving DecidableEq, Repr

/-- `queue` holds the requests that are not written yet, `sent` those that the peer has not answered
yet.  The last four fields are history: `delivered` pairs an invocation with the one whose answer it
was given. -/
structure IPCChannel where
  outbound : Option Invocation
  callback : Option Invocation
  inbound : Option Nat
  abort : Bool
  isOpen : Bool
  queue : List Invocation
  sent : List Invocation
  incoming : Option Incoming
  execute : Progress
  signalled : Bool
  halted : Bool
  invoked : Nat
  returned : List (Invocation × Status)
  dispatched : List Invocation
  delivered : List (Invocation × Invocation)
  deriving DecidableEq, Repr

namespace IPCChannel

inductive Event
  | invoke (command : Command) (sync : Bool)
  /-- The thread in `Execute` goes on; where it waits for the signal, its time may be over. -/
  | advance (timedOut : Bool)
  /-- The first request of the queue is written. -/
  | write
  /-- The next answer of the peer begins to arrive. -/
  | answer
  | request (label : Nat) (known : Bool)
  /-- The message has arrived.  A completion handler that is called may call `Execute` itself. -/
  | deserialized (reaction : Option (Command × Bool))
  | opened
  | closed
  | stateChange (reaction : Option (Command × Bool))

/-- A channel that is open. -/
def new : IPCChannel :=
  ⟨none, none, none, false, true, [], [], none, .idle, false, false, 0, [], [], []⟩

/-! ### `IPCFactory` -/

def inProgress (c : IPCChannel) : Bool := c.outbound.isSome

def element (c : IPCChannel) (label : Nat) : Option Command :=
  match c.outbound with
  | some i => if i.command.label = label then some i.command else none
  | none => none

def flush (c : IPCChannel) : IPCChannel :=
  { c with callback := none, outbound := none, inbound := none }

def finalize (c : IPCChannel) (status : Status) : IPCChannel × Status :=
  if c.abort then ({ c.flush with abort := false }, .asyncFailed)
  else if c.outbound.isSome then ({ c with callback := none, outbound := none }, status)
  else (c, status)

def setOutbound (c : IPCChannel) (i : Invocation) : IPCChannel :=
  { c with outbound := some i, callback := some i }

/-! ### `Execute` -/

/-- `Execute` up to `SetOutbound`. -/
def enter (c : IPCChannel) (command : Command) (sync : Bool) : IPCChannel :=
  let i : Invocation := ⟨c.invoked, command, sync⟩
  let c := { c with invoked := c.invoked + 1 }
  if sync = false ∧ c.inProgress then { c with returned := c.returned ++ [(i, .inProgress)] }
  else { c with execute := .entered i, signalled := false }

def leave (c : IPCChannel) (i : Invocation) (status : Status) : IPCChannel :=
  { c with execute := .idle, returned := c.returned ++ [(i, status)] }

/-- `LinkType::Submit`. -/
def submit (c : IPCChannel) (i : Invocation) : IPCChannel :=
  if c.isOpen then { c with queue := c.queue ++ [i] } else c

def advance (c : IPCChannel) (timedOut : Bool) : IPCChannel :=
  match c.execute with
  | .idle => c
  | .entered i => { c.setOutbound i with execute := .registered i }
  | .registered i => { c with execute := if c.isOpen then .linkOpen i else .linkClosed i }
  | .linkOpen i =>
    if i.sync then { c.submit i with execute := .waiting i } else (c.submit i).leave i .none
  | .linkClosed i => c.flush.leave i .connectionClosed
  | .waiting i =>
    if c.signalled then { c with execute := .woken i .none }
    else if timedOut then { c with execute := .woken i .timedOut }
    else c
  | .woken i status => (c.finalize status).1.leave i (c.finalize status).2

/-- The thread in `Execute` goes on as long as it does not need the lock of the factory. -/
def overtaken (c : IPCChannel) : IPCChannel :=
  match c.execute with
  | .registered i => if i.sync = false ∧ c.isOpen then (c.advance true).advance true else c
  | .linkOpen i => if i.sync = false then c.advance true else c
  | _ => c

/-- A completion handler calls `Execute`, under the lock of the factory: it waits for ever for a
thread that needs this lock, and for a signal until its time is over. -/
def again (c : IPCChannel) (command : Command) (sync : Bool) : IPCChannel :=
  if c.overtaken.execute = .idle then
    (fun c => advance c true)^[5] (c.overtaken.enter command sync)
  else { c with halted := true }

/-! ### Completion -/

/-- `_callback->Dispatch`: the sink of a synchronous invocation sets its signal. -/
def dispatch (c : IPCChannel) (reaction : Option (Command × Bool)) : IPCChannel :=
  match c.callback with
  | none => { c with halted := true }
  | some i =>
    let c := { c with dispatched := c.dispatched ++ [i], signalled := c.signalled ∨ i.sync }
    match i.sync, reaction with
    | false, some (command, sync) => c.again command sync
    | _, _ => c

/-- `_callback = nullptr`, where the thread gets that far. -/
def release (c : IPCChannel) : IPCChannel := if c.halted then c else { c with callback := none }

/-- `ReceivedMessage`, for the answer to `k` and the response of `element`. -/
def receivedMessage (c : IPCChannel) (k : Invocation) (element : Command)
    (reaction : Option (Command × Bool)) : IPCChannel :=
  match c.outbound with
  | some i =>
    if i.command = element then
      ({ c with outbound := none, delivered := c.delivered ++ [(i, k)] }.dispatch reaction).release
    else { c with inbound := none }
  | none => { c with inbound := none }

/-- `Abort`. -/
def abortAll (c : IPCChannel) (reaction : Option (Command × Bool)) : IPCChannel :=
  if c.callback.isSome then ({ c with abort := true }.dispatch reaction).release else c

/-- Nothing arrives, and nothing is written, while the link is closed. -/
def step (c : IPCChannel) (e : Event) : IPCChannel :=
  if c.halted then c else
  match e with
  | .invoke command sync => if c.execute = .idle then c.enter command sync else c
  | .advance timedOut => c.advance timedOut
  | .write =>
    match c.isOpen, c.queue with
    | true, i :: queue => { c with queue := queue, sent := c.sent ++ [i] }
    | _, _ => c
  | .answer =>
    match c.isOpen, c.incoming, c.sent with
    | true, none, i :: sent =>
      { c with sent := sent, incoming := some (.answer i (c.element i.command.label)) }
    | _, _, _ => c
  | .request label known =>
    match c.isOpen, c.incoming with
    | true, none =>
      { c with incoming := some (.request known), inbound := if known then some label else c.inbound }
    | _, _ => c
  | .deserialized reaction =>
    match c.isOpen, c.incoming with
    | true, some (.answer i (some element)) =>
      { c with incoming := none }.receivedMessage i element reaction
    | true, some (.answer _ none) => { c with incoming := none }
    | true, some (.request known) =>
      { c with incoming := none, inbound := if known then none else c.inbound }
    | _, _ => c
  | .opened => { c with isOpen := true }
  | .closed => { c with isOpen := false, sent := [] }
  | .stateChange reaction => if c.isOpen then c else c.abortAll reaction

/-! ### The slot -/

/-- The requests that have no answer yet. -/
def unanswered (c : IPCChannel) : List Invocation :=
  c.queue ++ c.sent ++ match c.incoming with
    | some (.answer i _) => [i]
    | _ => []

def Fresh (c : IPCChannel) (label : Nat) : Prop := ∀ k ∈ c.unanswered, k.command.label ≠ label

/-- An invocation is made when no earlier one of its label waits for an answer that has not come. -/
def Labelled (c : IPCChannel) (e : Event) : Prop :=
  match e with
  | .invoke command sync =>
    c.execute = .idle → (sync = false → c.inProgress = false) → c.Fresh command.label
  | .deserialized (some (command, _)) => { c with incoming := none }.Fresh command.label
  | _ => True

/-- The invocation whose request is not submitted yet. -/
def unsent : Progress → Option Invocation
  | .entered i => some i
  | .registered i => some i
  | .linkOpen i => some i
  | _ => none

/-- While the invocation in the slot is not the one of an unanswered request, it has no label in
common with it. -/
structure Inv (c : IPCChannel) : Prop where
  slot : ∀ i, c.outbound = some i → ∀ k ∈ c.unanswered, k.command.label = i.command.label → k = i
  unsent : ∀ i, unsent c.execute = some i → c.Fresh i.command.label
  registered : ∀ i, c.execute = .registered i ∨ c.execute = .linkOpen i →
    ∀ j, c.outbound = some j → j = i
  element : ∀ k e, c.incoming = some (.answer k (some e)) → e.label = k.command.label

/-- The handler is that of the invocation in the slot. -/
def Handles (c : IPCChannel) : Prop := ∀ i, c.callback = some i → c.outbound = some i

theorem new_inv : Inv new := by
  constructor <;> simp [new, unanswered, IPCChannel.unsent]

section

variable {c c' : IPCChannel} {i : Invocation}

/-- Requests get answers, and the slot is emptied. -/
theorem Inv.frame (h : Inv c) (hunanswered : ∀ k ∈ c'.unanswered, k ∈ c.unanswered)
    (houtbound : c'.outbound = c.outbound ∨ c'.outbound = none)
    (hexecute : c'.execute = c.execute ∨ IPCChannel.unsent c'.execute = none)
    (hincoming : ∀ k e, c'.incoming = some (.answer k (some e)) → e.label = k.command.label) :
    Inv c' where
  slot := by
    intro i hi k hk
    rcases houtbound with ho | ho
    · exact h.slot i (ho ▸ hi) k (hunanswered k hk)
    · rw [ho] at hi
      cases hi
  unsent := by
    intro i hi k hk
    rcases hexecute with he | he
    · exact h.unsent i (he ▸ hi) k (hunanswered k hk)
    · rw [he] at hi
      cases hi
  registered := by
    intro i hi j hj
    rcases houtbound with ho | ho
    · rcases hexecute with he | he
      · exact h.registered i (he ▸ hi) j (ho ▸ hj)
      · rcases hi with hi | hi <;> rw [hi] at he <;> cases he
    · rw [ho] at hj
      cases hj
  element := hincoming

theorem Inv.enter (h : Inv c) (command : Command) (sync : Bool)
    (hfresh : (sync = false → c.inProgress = false) → c.Fresh command.label) :
    Inv (c.enter command sync) := by
  unfold IPCChannel.enter
  dsimp only
  split
  case isTrue hrefused =>
    exact h.frame (fun k hk => hk) (.inl rfl) (.inl rfl) h.element
  case isFalse hpasses =>
    refine ⟨h.slot, ?_, ?_, h.element⟩
    · intro i hi
      cases hi
      apply hfresh
      intro hsync
      by_contra hprogress
      exact hpasses ⟨hsync, Bool.of_not_eq_false hprogress⟩
    · rintro i (hi | hi) <;> cases hi

theorem unanswered_submit (hk : k ∈ (c.submit i).unanswered) : k ∈ c.unanswered ∨ k = i := by
  unfold submit at hk
  split at hk
  · simp only [unanswered, List.mem_append, List.mem_singleton] at hk ⊢
    tauto
  · exact .inl hk

theorem submit_fields : (c.submit i).outbound = c.outbound ∧ (c.submit i).callback = c.callback ∧
    (c.submit i).incoming = c.incoming := by
  unfold submit
  split <;> exact ⟨rfl, rfl, rfl⟩

/-- The request of the invocation in the slot is submitted. -/
theorem Inv.submit (h : Inv c) (he : c.execute = .linkOpen i) {execute : Progress}
    (hexecute : IPCChannel.unsent execute = none) (returned : List (Invocation × Status)) :
    Inv { c.submit i with execute := execute, returned := returned } := by
  obtain ⟨houtbound, hcallback, hincoming⟩ := @submit_fields c i
  refine ⟨?_, ?_, ?_, ?_⟩
  · intro j hslot k hk hlabel
    have hj : c.outbound = some j := houtbound.symm.trans hslot
    rcases unanswered_submit hk with hk | rfl
    · exact h.slot j hj k hk hlabel
    · exact (h.registered k (.inr he) j hj).symm
  · intro j hj
    rw [hexecute] at hj
    cases hj
  · rintro j (rfl | rfl) <;> cases hexecute
  · intro k e hk
    exact h.element k e (hincoming ▸ hk)

theorem Inv.advance (h : Inv c) (timedOut : Bool) : Inv (c.advance timedOut) := by
  unfold IPCChannel.advance
  split
  case h_1 => exact h
  case h_2 i he =>
    refine ⟨?_, ?_, ?_, h.element⟩
    · intro j hj k hk hlabel
      cases hj
      exact absurd hlabel (h.unsent i (by rw [he]; rfl) k hk)
    · intro j hj
      cases hj
      exact h.unsent i (by rw [he]; rfl)
    · rintro j (hj | hj) n hn <;> cases hj
      all_goals cases hn; rfl
  case h_3 i he =>
    refine ⟨h.slot, ?_, ?_, h.element⟩
    · intro j hj
      apply h.unsent j
      rw [he]
      dsimp only at hj
      split at hj <;> cases hj
      rfl
    · intro j hj n hn
      dsimp only at hj
      split at hj <;> rcases hj with hj | hj <;> cases hj
      exact h.registered i (.inl he) n hn
  case h_4 i he =>
    split
    · exact h.submit he rfl _
    · exact h.submit he rfl _
  case h_5 i he =>
    exact h.frame (fun k hk => hk) (.inr rfl) (.inr rfl) h.element
  case h_6 i he =>
    split
    · exact h.frame (fun k hk => hk) (.inl rfl) (.inr rfl) h.element
    · split
      · exact h.frame (fun k hk => hk) (.inl rfl) (.inr rfl) h.element
      · exact h
  case h_7 i status he =>
    unfold finalize
    split
    · exact h.frame (fun k hk => hk) (.inr rfl) (.inr rfl) h.element
    · split
      · exact h.frame (fun k hk => hk) (.inr rfl) (.inr rfl) h.element
      · exact h.frame (fun k hk => hk) (.inl rfl) (.inr rfl) h.element

theorem Inv.iterate (h : Inv c) (n : Nat) : Inv ((fun c => IPCChannel.advance c true)^[n] c) := by
  induction n generalizing c with
  | zero => exact h
  | succ n ih => exact ih (h.advance true)

theorem enter_fields (command : Command) (sync : Bool) :
    (c.enter command sync).delivered = c.delivered ∧ (c.enter command sync).halted = c.halted ∧
      (c.enter command sync).callback = c.callback ∧
        (c.enter command sync).outbound = c.outbound := by
  unfold enter
  dsimp only
  split <;> exact ⟨rfl, rfl, rfl, rfl⟩

theorem advance_fields (timedOut : Bool) :
    (c.advance timedOut).delivered = c.delivered ∧ (c.advance timedOut).halted = c.halted := by
  unfold advance finalize submit leave setOutbound flush
  repeat' split
  all_goals exact ⟨rfl, rfl⟩

theorem iterate_fields (n : Nat) : ((fun c => advance c true)^[n] c).delivered = c.delivered ∧
    ((fun c => advance c true)^[n] c).halted = c.halted := by
  induction n generalizing c with
  | zero => exact ⟨rfl, rfl⟩
  | succ n ih =>
    obtain ⟨hdelivered, hhalted⟩ := @advance_fields c true
    exact ⟨ih.1.trans hdelivered, ih.2.trans hhalted⟩

theorem Handles.advance (h : Handles c) (timedOut : Bool) : Handles (c.advance timedOut) := by
  unfold IPCChannel.advance finalize IPCChannel.submit leave setOutbound flush
  repeat' split
  all_goals first | exact h | exact fun _ hi => hi

/-! ### Runs -/

/-- Every response was delivered to the invocation that the peer answered with it. -/
def Matched (c : IPCChannel) : Prop := ∀ p ∈ c.delivered, p.1 = p.2

/-- The invariant of the runs. -/
def Good (c : IPCChannel) : Prop := Matched c ∧ (c.halted = false → Inv c ∧ Handles c)

theorem overtaken_delivered : c.overtaken.delivered = c.delivered := by
  unfold overtaken
  split
  · split
    · exact (advance_fields true).1.trans (advance_fields true).1
    · rfl
  · split
    · exact (advance_fields true).1
    · rfl
  · rfl

theorem again_delivered (command : Command) (sync : Bool) :
    (c.again command sync).delivered = c.delivered := by
  unfold again
  split
  · exact (iterate_fields 5).1.trans ((enter_fields _ _).1.trans overtaken_delivered)
  · rfl

theorem dispatch_delivered (reaction : Option (Command × Bool)) :
    (c.dispatch reaction).delivered = c.delivered := by
  unfold dispatch
  split
  · rfl
  · dsimp only
    split
    · exact again_delivered _ _
    · rfl

theorem release_delivered : c.release.delivered = c.delivered := by
  unfold release
  split <;> rfl

/-- A handler that is called without a request under way calls `Execute`. -/
theorem Inv.again (h : Inv c) (command : Command) (sync : Bool)
    (hexecute : ∀ i, c.execute ≠ .registered i ∧ c.execute ≠ .linkOpen i)
    (hfresh : c.Fresh command.label) (hrunning : (c.again command sync).halted = false) :
    Inv (c.again command sync) := by
  have hovertaken : c.overtaken = c := by
    unfold overtaken
    split
    case h_1 i hi => exact absurd hi (hexecute i).1
    case h_2 i hi => exact absurd hi (hexecute i).2
    case h_3 => rfl
  unfold IPCChannel.again at hrunning ⊢
  rw [hovertaken] at hrunning ⊢
  split
  · exact (h.enter command sync fun _ => hfresh).iterate 5
  case isFalse hbusy =>
    rw [if_neg hbusy] at hrunning
    cases hrunning

theorem Inv.dispatch (h : Inv c) (reaction : Option (Command × Bool))
    (hagain : ∀ c', Inv c' → c'.execute = c.execute → c'.unanswered = c.unanswered →
      c'.isOpen = c.isOpen → c'.outbound = c.outbound → c'.halted = c.halted →
      ∀ command sync, reaction = some (command, sync) →
        (c'.again command sync).halted = false → Inv (c'.again command sync))
    (hrunning : (c.dispatch reaction).halted = false) : Inv (c.dispatch reaction) := by
  revert hrunning
  unfold IPCChannel.dispatch
  split
  case h_1 => exact fun hrunning => nomatch hrunning
  case h_2 i _ =>
    have hcalled : Inv { c with
        dispatched := c.dispatched ++ [i], signalled := c.signalled ∨ i.sync } :=
      h.frame (fun k hk => hk) (.inl rfl) (.inl rfl) h.element
    dsimp only
    split
    case h_1 => exact hagain _ hcalled rfl rfl rfl rfl rfl _ _ rfl
    case h_2 => exact fun _ => hcalled

theorem good_release (hmatched : Matched c) (h : c.halted = false → Inv c) : Good c.release := by
  refine ⟨fun p hp => hmatched p (release_delivered ▸ hp), ?_⟩
  unfold release
  split
  case isTrue hhalted =>
    intro hrunning
    rw [hhalted] at hrunning
    cases hrunning
  case isFalse hrunning =>
    intro _
    have hinv := h (Bool.of_not_eq_true hrunning)
    exact ⟨hinv.frame (fun k hk => hk) (.inl rfl) (.inl rfl) hinv.element, fun i hi => nomatch hi⟩

theorem mem_unanswered {k : Invocation} {e : Option Command} (h : c.incoming = some (.answer k e)) :
    k ∈ c.unanswered := by
  simp [unanswered, h]

theorem mem_unanswered_of_read (hk : i ∈ { c with incoming := none }.unanswered) :
    i ∈ c.unanswered := by
  simp only [unanswered, List.append_nil] at hk ⊢
  exact List.mem_append_left _ hk

/-- The message has been read. -/
theorem Inv.read (h : Inv c) : Inv { c with incoming := none } :=
  h.frame (fun _ hk => mem_unanswered_of_read hk) (.inl rfl) (.inl rfl) nofun

theorem Good.receivedMessage {k : Invocation} {e : Command} (h : Good c)
    (hrunning : c.halted = false) (hincoming : c.incoming = some (.answer k (some e)))
    (reaction : Option (Command × Bool))
    (hlabelled : ∀ command sync, reaction = some (command, sync) →
      { c with incoming := none }.Fresh command.label) :
    Good ({ c with incoming := none }.receivedMessage k e reaction) := by
  obtain ⟨hinv, hhandles⟩ := h.2 hrunning
  have hread := hinv.read
  have hother : Good { c with incoming := none, inbound := none } :=
    ⟨h.1, fun _ => ⟨hread.frame (fun k hk => hk) (.inl rfl) (.inl rfl) hread.element, hhandles⟩⟩
  unfold IPCChannel.receivedMessage
  split
  case h_2 => exact hother
  case h_1 i hi =>
    split
    case isFalse => exact hother
    case isTrue hcommand =>
      have hk := mem_unanswered hincoming
      have hlabel : k.command.label = i.command.label := by
        rw [hcommand, hinv.element k e hincoming]
      obtain rfl : k = i := hinv.slot i hi k hk hlabel
      have hmatched : Matched { c with
          incoming := none, outbound := none, delivered := c.delivered ++ [(k, k)] } := by
        intro p hp
        rcases List.mem_append.mp hp with hp | hp
        · exact h.1 p hp
        · rw [List.mem_singleton.mp hp]
      apply good_release
      · intro p hp
        exact hmatched p (dispatch_delivered reaction ▸ hp)
      · apply Inv.dispatch
        · exact hread.frame (fun k hk => hk) (.inr rfl) (.inl rfl) hread.element
        · intro c' hinv' hexecute hunanswered _ _ _ command sync hreaction hrunning'
          refine hinv'.again command sync ?_ ?_ hrunning'
          · -- The request of an invocation under way is not submitted, so it has no answer yet.
            intro j
            have hnot : c.execute = .registered j ∨ c.execute = .linkOpen j → False := by
              intro hj
              obtain rfl := hinv.registered j hj k hi
              refine hinv.unsent k ?_ k hk rfl
              rcases hj with hj | hj <;> rw [hj] <;> rfl
            exact ⟨fun hj => hnot (.inl (hexecute ▸ hj)), fun hj => hnot (.inr (hexecute ▸ hj))⟩
          · intro n hn
            rw [hunanswered] at hn
            exact hlabelled command sync hreaction n hn

theorem overtaken_closed (h : Inv c) (hclosed : c.isOpen = false) :
    Inv c.overtaken ∧ c.overtaken.isOpen = false ∧ c.overtaken.outbound = c.outbound := by
  unfold overtaken
  split
  · rw [if_neg (by simp [hclosed])]
    exact ⟨h, hclosed, rfl⟩
  case h_2 i hi =>
    split
    case isTrue hsync =>
      refine ⟨h.advance true, ?_, ?_⟩ <;>
        simp [IPCChannel.advance, hi, hsync, leave, IPCChannel.submit, hclosed]
    case isFalse => exact ⟨h, hclosed, rfl⟩
  · exact ⟨h, hclosed, rfl⟩

/-- A synchronous invocation on a closed link. -/
theorem execute_closed (hidle : c.execute = .idle) (hclosed : c.isOpen = false) (command : Command) :
    (fun c => IPCChannel.advance c true)^[5] (c.enter command true) =
      { c with
        outbound := none, callback := none, inbound := none, signalled := false
        invoked := c.invoked + 1
        returned := c.returned ++ [(⟨c.invoked, command, true⟩, .connectionClosed)] } := by
  simp [Function.iterate_succ, IPCChannel.enter, IPCChannel.advance, setOutbound, hclosed, flush,
    leave, hidle]

/-- A handler that is called because the link is closed calls `Execute`: a synchronous invocation
finds the link closed, any other one is refused. -/
theorem Inv.again_closed (h : Inv c) (hclosed : c.isOpen = false) (hprogress : c.outbound.isSome)
    (command : Command) (sync : Bool) (hrunning : (c.again command sync).halted = false) :
    Inv (c.again command sync) := by
  obtain ⟨hinv, hclosed, houtbound⟩ := overtaken_closed h hclosed
  unfold IPCChannel.again at hrunning ⊢
  split
  case isTrue hidle =>
    cases sync with
    | false =>
      refine (hinv.enter command false fun hpasses => ?_).iterate 5
      have hno := hpasses rfl
      rw [inProgress, houtbound, hprogress] at hno
      cases hno
    | true =>
      rw [execute_closed hidle hclosed]
      exact hinv.frame (fun k hk => hk) (.inr rfl) (.inl rfl) hinv.element
  case isFalse hbusy =>
    rw [if_neg hbusy] at hrunning
    cases hrunning

theorem Good.abortAll (h : Good c) (hrunning : c.halted = false) (hclosed : c.isOpen = false)
    (reaction : Option (Command × Bool)) : Good (c.abortAll reaction) := by
  obtain ⟨hinv, hhandles⟩ := h.2 hrunning
  unfold IPCChannel.abortAll
  split
  case isFalse => exact h
  case isTrue hcallback =>
    obtain ⟨i, hi⟩ := Option.isSome_iff_exists.mp hcallback
    apply good_release
    · intro p hp
      rw [dispatch_delivered] at hp
      exact h.1 p hp
    · apply Inv.dispatch
      · exact hinv.frame (fun k hk => hk) (.inl rfl) (.inl rfl) hinv.element
      · intro c' hinv' _ _ hopen houtbound _ command sync _ hrunning'
        refine hinv'.again_closed (hopen.trans hclosed) ?_ command sync hrunning'
        rw [houtbound]
        exact Option.isSome_iff_exists.mpr ⟨i, hhandles i hi⟩

theorem element_label {label : Nat} {e : Command} (h : c.element label = some e) :
    e.label = label := by
  unfold element at h
  split at h
  · split at h
    case isTrue hlabel =>
      cases h
      exact hlabel
    case isFalse => cases h
  · cases h

/-- What one event keeps. -/
theorem Good.step (h : Good c) (e : Event) (hlabelled : c.Labelled e) : Good (c.step e) := by
  unfold IPCChannel.step
  split
  case isTrue => exact h
  case isFalse hrunning =>
    have hrunning : c.halted = false := Bool.of_not_eq_true hrunning
    obtain ⟨hinv, hhandles⟩ := h.2 hrunning
    cases e with
    | invoke command sync =>
      dsimp only
      split
      case isTrue hidle =>
        obtain ⟨hdelivered, _, hcallback, houtbound⟩ := @enter_fields c command sync
        refine ⟨fun p hp => h.1 p (hdelivered ▸ hp), fun _ =>
          ⟨hinv.enter command sync fun hpasses => hlabelled hidle hpasses, fun i hi => ?_⟩⟩
        rw [houtbound]
        exact hhandles i (hcallback ▸ hi)
      case isFalse => exact h
    | advance timedOut =>
      refine ⟨fun p hp => h.1 p ((advance_fields timedOut).1 ▸ hp), fun _ =>
        ⟨hinv.advance timedOut, hhandles.advance timedOut⟩⟩
    | write =>
      dsimp only
      split
      case h_1 i queue _ hqueue =>
        refine ⟨h.1, fun _ => ⟨hinv.frame ?_ (.inl rfl) (.inl rfl) hinv.element, hhandles⟩⟩
        intro k hk
        simpa [unanswered, hqueue, or_left_comm, or_assoc] using hk
      case h_2 => exact h
    | answer =>
      dsimp only
      split
      case h_1 i sent _ hincoming hsent =>
        refine ⟨h.1, fun _ => ⟨hinv.frame ?_ (.inl rfl) (.inl rfl) ?_, hhandles⟩⟩
        · intro k hk
          simp only [unanswered, hincoming, hsent, List.append_nil, List.mem_append,
            List.mem_cons] at hk ⊢
          tauto
        · intro k e hk
          obtain ⟨rfl, helement⟩ : i = k ∧ c.element i.command.label = some e := by simpa using hk
          exact element_label helement
      case h_2 => exact h
    | request label known =>
      dsimp only
      split
      case h_1 _ hincoming =>
        refine ⟨h.1, fun _ => ⟨hinv.frame ?_ (.inl rfl) (.inl rfl) nofun, hhandles⟩⟩
        intro k hk
        simpa [unanswered, hincoming] using hk
      case h_2 => exact h
    | deserialized reaction =>
      dsimp only
      split
      case h_1 k e _ hincoming =>
        refine h.receivedMessage hrunning hincoming reaction ?_
        rintro command sync rfl
        exact hlabelled
      case h_2 => exact ⟨h.1, fun _ => ⟨hinv.read, hhandles⟩⟩
      case h_3 =>
        exact ⟨h.1, fun _ => ⟨hinv.read.frame (fun k hk => hk) (.inl rfl) (.inl rfl) nofun, hhandles⟩⟩
      case h_4 => exact h
    | opened =>
      exact ⟨h.1, fun _ => ⟨hinv.frame (fun k hk => hk) (.inl rfl) (.inl rfl) hinv.element, hhandles⟩⟩
    | closed =>
      refine ⟨h.1, fun _ => ⟨hinv.frame ?_ (.inl rfl) (.inl rfl) hinv.element, hhandles⟩⟩
      intro k hk
      simp only [unanswered, List.append_nil, List.mem_append] at hk ⊢
      tauto
    | stateChange reaction =>
      dsimp only
      split
      case isTrue => exact h
      case isFalse hclosed => exact h.abortAll hrunning (Bool.of_not_eq_true hclosed) reaction

theorem new_good : Good new := ⟨nofun, fun _ => ⟨new_inv, nofun⟩⟩

/-- In a run whose invocations have labels that no unanswered request has, every response that is
delivered is the peer's answer to that invocation. -/
theorem matched_of_labelled (events : List Event) (h : Run.Meets step Labelled new events) :
    Run.Always step Matched new events :=
  (h.always (fun _ e hgood hok => hgood.step e hok) new_good).mono fun _ hgood => hgood.1

theorem matched_call : Run.Always step Matched new
    [.invoke ⟨0, 7⟩ true, .advance false, .advance false, .advance false, .write, .answer,
      .deserialized none, .advance false, .advance false] :=
  matched_of_labelled _ ⟨fun _ _ => nofun, trivial, trivial, trivial, trivial, trivial, trivial,
    trivial, trivial, trivial⟩

/-- The answer to an invocation whose time was over completes the next one of the same label. -/
theorem not_matched_late : ¬ Run.Always step Matched new
    [.invoke ⟨0, 7⟩ true, .advance false, .advance false, .advance false, .write, .advance true,
      .advance false, .invoke ⟨1, 7⟩ true, .advance false, .advance false, .advance false, .answer,
      .deserialized none] := by
  intro h
  have hlast := h.last (⟨1, ⟨1, 7⟩, true⟩, ⟨0, ⟨0, 7⟩, true⟩) (by decide)
  cases hlast

end

end IPCChannel

end Thunder.Core
