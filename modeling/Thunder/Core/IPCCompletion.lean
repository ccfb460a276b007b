import Thunder.Core.IPCChannel

/-! Completion of the invocations of an `IPCChannelType`: the handler of an invocation that `Execute`
has accepted is called once, and until then it waits in the slot. -/

namespace Thunder.Core

namespace IPCChannel

/-- How often the handler of an invocation has been called, with the call it still waits for. -/
def share (c : IPCChannel) (i : Invocation) : Nat :=
  c.dispatched.count i + if c.callback = some i then 1 else 0

/-- An asynchronous invocation that was accepted has been completed, or it waits in the slot. -/
def Completed (c : IPCChannel) : Prop :=
  ∀ i, (i, .none) ∈ c.returned → i.sync = false → c.share i = 1

/-- The answer to an invocation and an abort complete what waits in the slot, and the slot is given
to no one else before. -/
structure Prompt (c : IPCChannel) (e : Event) : Prop where
  answered : ∀ reaction, e = .deserialized reaction → c.isOpen → c.halted = false →
    ∀ i element, c.incoming = some (.answer i element) → (c.step e).callback ≠ some i
  aborted : ∀ reaction, e = .stateChange reaction → c.isOpen = false → c.halted = false →
    (c.step e).callback = none
  replaced : ∀ timedOut i, e = .advance timedOut → c.execute = .entered i → c.callback = none

/-- A synchronous invocation is made while no other one waits in the slot, and no completion handler
calls `Execute`. -/
def Alone (c : IPCChannel) (e : Event) : Prop :=
  match e with
  | .invoke _ sync => c.execute = .idle → sync = true → c.callback = none
  | .deserialized reaction => reaction = none
  | .stateChange reaction => reaction = none
  | _ => True

def invocation : Progress → Option Invocation
  | .idle => none
  | .entered i => some i
  | .registered i => some i
  | .linkOpen i => some i
  | .linkClosed i => some i
  | .waiting i => some i
  | .woken i _ => some i

/-- The handler in the slot is that of the thread in `Execute`, and the shares add up. -/
structure Ordered (c : IPCChannel) : Prop where
  handles : Handles c
  executing : ∀ i, invocation c.execute = some i → (c.callback = none ∨ c.callback = some i) ∧
    i.number < c.invoked ∧ ∀ status, (i, status) ∉ c.returned
  entered : ∀ i, c.execute = .entered i → c.callback = none ∧ i ∉ c.dispatched
  registered : ∀ i, c.execute = .registered i ∨ c.execute = .linkOpen i → c.share i = 1
  waits : ∀ i, c.execute = .waiting i ∨ (∃ status, c.execute = .woken i status) → i.sync
  unsent : ∀ i, unsent c.execute = some i → i ∉ c.unanswered
  completed : Completed c
  dispatched_lt : ∀ i ∈ c.dispatched, i.number < c.invoked
  returned_lt : ∀ p ∈ c.returned, p.1.number < c.invoked
  unanswered_lt : ∀ i ∈ c.unanswered, i.number < c.invoked
  callback_lt : ∀ i, c.callback = some i → i.number < c.invoked
  element : ∀ i e, c.incoming = some (.answer i e) → c.callback = some i → e = some i.command

theorem new_ordered : Ordered new := by
  constructor <;> simp [new, unanswered, IPCChannel.unsent, invocation, Handles, Completed]

section

variable {c c' : IPCChannel} {i : Invocation}

/-- Messages come and go. -/
theorem Ordered.traffic (h : Ordered c) (queue sent : List Invocation) (incoming : Option Incoming)
    (inbound : Option Nat) (isOpen : Bool)
    (hunanswered : ∀ k ∈ { c with queue := queue, sent := sent, incoming := incoming }.unanswered,
      k ∈ c.unanswered)
    (helement : ∀ i e, incoming = some (.answer i e) → c.callback = some i → e = some i.command) :
    Ordered { c with
      queue := queue, sent := sent, incoming := incoming, inbound := inbound, isOpen := isOpen } where
  handles := h.handles
  executing := h.executing
  entered := h.entered
  registered := h.registered
  waits := h.waits
  unsent := fun i hi hk => h.unsent i hi (hunanswered i hk)
  completed := h.completed
  dispatched_lt := h.dispatched_lt
  returned_lt := h.returned_lt
  unanswered_lt := fun i hi => h.unanswered_lt i (hunanswered i hi)
  callback_lt := h.callback_lt
  element := helement

/-- The handler in the slot is called. -/
theorem share_called {j : Invocation} (hcallback : c.callback = some i)
    (hdispatched : c'.dispatched = c.dispatched ++ [i]) (hnone : c'.callback = none) :
    c'.share j = c.share j := by
  unfold share
  rw [hcallback, hnone, hdispatched, List.count_append, List.count_singleton]
  by_cases hij : i = j <;> simp [hij]

theorem Ordered.called (h : Ordered c) (hcallback : c.callback = some i)
    (outbound : Option Invocation) (abort signalled : Bool) (delivered : List (Invocation × Invocation)) :
    Ordered { c with
      outbound := outbound, callback := none, abort := abort, signalled := signalled,
      dispatched := c.dispatched ++ [i], delivered := delivered } where
  handles := nofun
  executing := fun j hj => ⟨.inl rfl, (h.executing j hj).2⟩
  entered := by
    intro j hj
    have hnone := (h.entered j hj).1
    rw [hcallback] at hnone
    cases hnone
  registered := fun j hj => (share_called hcallback rfl rfl).trans (h.registered j hj)
  waits := h.waits
  unsent := h.unsent
  completed := fun j hj hsync => (share_called hcallback rfl rfl).trans (h.completed j hj hsync)
  dispatched_lt := by
    intro j hj
    rcases List.mem_append.mp hj with hj | hj
    · exact h.dispatched_lt j hj
    · rw [List.mem_singleton.mp hj]
      exact h.callback_lt i hcallback
  returned_lt := h.returned_lt
  unanswered_lt := h.unanswered_lt
  callback_lt := nofun
  element := fun _ _ _ hj => nomatch hj

/-- No handler is there to be called. -/
theorem Ordered.halted (h : Ordered c) (hcallback : c.callback = none) (outbound : Option Invocation)
    (delivered : List (Invocation × Invocation)) :
    Ordered { c with outbound := outbound, halted := true, delivered := delivered } :=
  { h with handles := fun i hi => by rw [show c.callback = some i from hi] at hcallback; cases hcallback }

theorem dispatch_none (hcallback : c.callback = none) :
    (c.dispatch none).release = { c with halted := true } := by
  unfold dispatch release
  rw [hcallback]
  exact if_pos rfl

theorem dispatch_some (hcallback : c.callback = some i) (hrunning : c.halted = false) :
    (c.dispatch none).release = { c with
      callback := none, dispatched := c.dispatched ++ [i], signalled := c.signalled ∨ i.sync } := by
  unfold dispatch release
  rw [hcallback]
  cases hsync : i.sync <;> simp [hsync, hrunning]

theorem Ordered.receivedMessage (h : Ordered c) (hrunning : c.halted = false) (k : Invocation)
    (element : Command) : Ordered ({ c with incoming := none }.receivedMessage k element none) := by
  have hread : Ordered { c with incoming := none } :=
    h.traffic c.queue c.sent none c.inbound c.isOpen (fun _ => mem_unanswered_of_read) nofun
  have hother : Ordered { c with incoming := none, inbound := none } :=
    h.traffic c.queue c.sent none none c.isOpen (fun _ => mem_unanswered_of_read) nofun
  unfold IPCChannel.receivedMessage
  split
  case h_2 => exact hother
  case h_1 i hi =>
    split
    case isFalse => exact hother
    case isTrue =>
      rcases c.callback.eq_none_or_eq_some with hcallback | ⟨j, hcallback⟩
      · rw [dispatch_none (by exact hcallback)]
        exact hread.halted hcallback none _
      · rw [dispatch_some (by exact hcallback) (by exact hrunning)]
        exact hread.called hcallback none c.abort _ _

theorem Ordered.abortAll (h : Ordered c) (hrunning : c.halted = false) :
    Ordered (c.abortAll none) := by
  unfold IPCChannel.abortAll
  split
  case isTrue hcallback =>
    obtain ⟨i, hi⟩ := Option.isSome_iff_exists.mp hcallback
    rw [dispatch_some (by exact hi) (by exact hrunning)]
    exact h.called hi c.outbound true _ c.delivered
  case isFalse => exact h

/-- What returns is not what waits in the slot, or it is not accepted. -/
theorem Completed.returns (h : Completed c) (status : Status) (hstatus : status = .none →
      i.sync = false → c'.share i = 1) (hreturned : c'.returned = c.returned ++ [(i, status)])
    (hshare : ∀ j, j.sync = false → (j, .none) ∈ c.returned → c'.share j = c.share j) :
    Completed c' := by
  intro j hj hsync
  rw [hreturned, List.mem_append, List.mem_singleton, Prod.mk.injEq] at hj
  rcases hj with hj | ⟨rfl, hnone⟩
  · rw [hshare j hsync hj]
    exact h j hj hsync
  · exact hstatus hnone.symm hsync

/-- A thread enters `Execute`. -/
theorem Ordered.enter (h : Ordered c) (hidle : c.execute = .idle) (command : Command) (sync : Bool)
    (halone : sync = true → c.callback = none) : Ordered (c.enter command sync) := by
  have hlater {n : Nat} (hn : n < c.invoked) : n < c.invoked + 1 := Nat.lt_succ_of_lt hn
  have hnew {i : Invocation} (hi : i.number < c.invoked) : i ≠ ⟨c.invoked, command, sync⟩ := by
    rintro rfl
    exact absurd hi (Nat.lt_irrefl _)
  unfold IPCChannel.enter
  dsimp only
  split
  case isTrue hrefused =>
    refine { h with
      executing := ?_
      completed := h.completed.returns .inProgress nofun rfl fun _ _ _ => rfl
      dispatched_lt := fun i hi => hlater (h.dispatched_lt i hi)
      returned_lt := ?_
      unanswered_lt := fun i hi => hlater (h.unanswered_lt i hi)
      callback_lt := fun i hi => hlater (h.callback_lt i hi) }
    · intro i hi
      rw [show c.execute = .idle from hidle] at hi
      cases hi
    · intro p hp
      rcases List.mem_append.mp hp with hp | hp
      · exact hlater (h.returned_lt p hp)
      · rw [List.mem_singleton.mp hp]
        exact Nat.lt_succ_self _
  case isFalse hpasses =>
    have hcallback : c.callback = none := by
      cases sync with
      | true => exact halone rfl
      | false =>
        have hslot : c.outbound = none := by simpa [inProgress] using hpasses
        by_contra hsome
        obtain ⟨i, hi⟩ := Option.ne_none_iff_exists'.mp hsome
        rw [h.handles i hi] at hslot
        cases hslot
    exact {
      handles := h.handles
      executing := by
        rintro i ⟨⟩
        exact ⟨.inl hcallback, Nat.lt_succ_self _, fun status hi =>
          hnew (h.returned_lt _ hi) rfl⟩
      entered := by
        rintro i ⟨⟩
        exact ⟨hcallback, fun hi => hnew (h.dispatched_lt _ hi) rfl⟩
      registered := by rintro i (hi | hi) <;> cases hi
      waits := by rintro i (hi | ⟨status, hi⟩) <;> cases hi
      unsent := by
        rintro i ⟨⟩
        exact fun hi => hnew (h.unanswered_lt _ hi) rfl
      completed := h.completed
      dispatched_lt := fun i hi => hlater (h.dispatched_lt i hi)
      returned_lt := fun p hp => hlater (h.returned_lt p hp)
      unanswered_lt := fun i hi => hlater (h.unanswered_lt i hi)
      callback_lt := fun i hi => hlater (h.callback_lt i hi)
      element := h.element }

theorem share_other {j : Invocation} (hne : j ≠ i) (hdispatched : c'.dispatched = c.dispatched)
    (hcallback : c.callback = none ∨ c.callback = some i)
    (hcallback' : c'.callback = none ∨ c'.callback = some i) : c'.share j = c.share j := by
  have hnot {o : Option Invocation} (ho : o = none ∨ o = some i) : o ≠ some j := by
    rcases ho with rfl | rfl
    · exact nofun
    · exact fun h => hne (Option.some.inj h).symm
  rw [share, share, hdispatched, if_neg (hnot hcallback), if_neg (hnot hcallback')]

theorem Ordered.ne_of_returned (h : Ordered c) (hi : invocation c.execute = some i) {j : Invocation}
    {status : Status} (hj : (j, status) ∈ c.returned) : j ≠ i := by
  rintro rfl
  exact (h.executing j hi).2.2 status hj

/-- `SetOutbound`. -/
theorem Ordered.register (h : Ordered c) (he : c.execute = .entered i) :
    Ordered { c.setOutbound i with execute := .registered i } := by
  have hi : invocation c.execute = some i := by rw [he]; rfl
  obtain ⟨hslot, hnumber, hreturned⟩ := h.executing i hi
  have hunsent : i ∉ c.unanswered := h.unsent i (by rw [he]; rfl)
  exact { h with
    handles := fun j hj => hj
    executing := by
      rintro j ⟨⟩
      exact ⟨.inr rfl, hnumber, hreturned⟩
    entered := nofun
    registered := by
      rintro j (hj | hj) <;> cases hj
      show c.dispatched.count i + (if some i = some i then 1 else 0) = 1
      rw [List.count_eq_zero.mpr (h.entered i he).2, if_pos rfl]
    waits := by rintro j (hj | ⟨status, hj⟩) <;> cases hj
    unsent := by
      rintro j ⟨⟩
      exact hunsent
    completed := by
      intro j hj hsync
      have hshare : share { c.setOutbound i with execute := .registered i } j = c.share j :=
        share_other (h.ne_of_returned hi hj) rfl hslot (.inr rfl)
      exact hshare.trans (h.completed j hj hsync)
    callback_lt := by
      rintro j ⟨⟩
      exact hnumber
    element := by
      rintro j e hj ⟨⟩
      exact absurd (mem_unanswered hj) hunsent }

/-- The link has been looked at. -/
theorem Ordered.looked (h : Ordered c) (he : c.execute = .registered i) :
    Ordered { c with execute := if c.isOpen then .linkOpen i else .linkClosed i } := by
  have hi : invocation c.execute = some i := by rw [he]; rfl
  split
  · exact { h with
      executing := by
        rintro j ⟨⟩
        exact h.executing i hi
      entered := nofun
      registered := by
        rintro j (hj | hj) <;> cases hj
        exact h.registered i (.inl he)
      waits := by rintro j (hj | ⟨status, hj⟩) <;> cases hj
      unsent := by
        rintro j ⟨⟩
        exact h.unsent i (by rw [he]; rfl) }
  · exact { h with
      executing := by
        rintro j ⟨⟩
        exact h.executing i hi
      entered := nofun
      registered := by rintro j (hj | hj) <;> cases hj
      waits := by rintro j (hj | ⟨status, hj⟩) <;> cases hj
      unsent := nofun }

/-- The thread in `Execute` waits. -/
theorem Ordered.waiting (h : Ordered c) (hi : invocation c.execute = some i) (hsync : i.sync)
    {execute : Progress} (hexecute : execute = .waiting i ∨ ∃ status, execute = .woken i status) :
    Ordered { c with execute := execute } := by
  have hstill : invocation execute = some i := by
    rcases hexecute with rfl | ⟨status, rfl⟩ <;> rfl
  exact { h with
    executing := by
      intro j hj
      cases hstill.symm.trans hj
      exact h.executing i hi
    entered := by
      rintro j rfl
      rcases hexecute with hj | ⟨status, hj⟩ <;> cases hj
    registered := by
      rintro j (rfl | rfl) <;> rcases hexecute with hj | ⟨status, hj⟩ <;> cases hj
    waits := by
      intro j hj
      have : j = i := by
        rcases hexecute with rfl | ⟨status, rfl⟩ <;> rcases hj with hj | ⟨status', hj⟩ <;> cases hj <;>
          rfl
      rwa [this]
    unsent := by
      rintro j hj
      rcases hexecute with rfl | ⟨status, rfl⟩ <;> cases hj }

/-- A request is submitted. -/
theorem Ordered.submit (h : Ordered c) (hnumber : i.number < c.invoked)
    (hsubmitted : IPCChannel.unsent c.execute = none) : Ordered (c.submit i) := by
  unfold IPCChannel.submit
  split
  case isFalse => exact h
  case isTrue hopen =>
    have hqueue {k : Invocation} (hk : k ∈ { c with queue := c.queue ++ [i] }.unanswered) :
        k ∈ c.unanswered ∨ k = i := by
      apply unanswered_submit
      rwa [IPCChannel.submit, if_pos hopen]
    exact { h with
      unsent := by
        intro j hj
        rw [show IPCChannel.unsent c.execute = some j from hj] at hsubmitted
        cases hsubmitted
      unanswered_lt := by
        intro k hk
        rcases hqueue hk with hk | rfl
        · exact h.unanswered_lt k hk
        · exact hnumber }

theorem Ordered.leave (h : Ordered c) (hi : invocation c.execute = some i) (status : Status)
    (hstatus : status = .none → i.sync = false → c.share i = 1) : Ordered (c.leave i status) := by
  exact { h with
    executing := nofun
    entered := nofun
    registered := by rintro j (hj | hj) <;> cases hj
    waits := by rintro j (hj | ⟨status, hj⟩) <;> cases hj
    unsent := nofun
    completed := h.completed.returns status hstatus rfl fun _ _ _ => rfl
    returned_lt := by
      intro p hp
      rcases List.mem_append.mp hp with hp | hp
      · exact h.returned_lt p hp
      · rw [List.mem_singleton.mp hp]
        exact (h.executing i hi).2.1 }

/-- The slot of the invocation in `Execute` is emptied. -/
theorem Ordered.cleared (h : Ordered c) (hi : invocation c.execute = some i)
    (hleaving : ∀ j, c.execute ≠ .registered j ∧ c.execute ≠ .linkOpen j)
    (inbound : Option Nat) (abort : Bool) :
    Ordered { c with outbound := none, callback := none, inbound := inbound, abort := abort } := by
  obtain ⟨hslot, hnumber, hreturned⟩ := h.executing i hi
  exact { h with
    handles := nofun
    executing := fun j hj => ⟨.inl rfl, (h.executing j hj).2⟩
    entered := fun j hj => ⟨rfl, (h.entered j hj).2⟩
    registered := by
      rintro j (hj | hj)
      · exact absurd hj (hleaving j).1
      · exact absurd hj (hleaving j).2
    completed := by
      intro j hj hsync
      have hshare : share { c with
          outbound := none, callback := none, inbound := inbound, abort := abort } j = c.share j :=
        share_other (h.ne_of_returned hi hj) rfl hslot (.inl rfl)
      exact hshare.trans (h.completed j hj hsync)
    callback_lt := nofun
    element := fun _ _ _ hj => nomatch hj }

theorem submit_leave (status : Status) : (c.submit i).leave i status = (c.leave i status).submit i := by
  unfold submit leave
  split <;> rfl

theorem submit_waiting (execute : Progress) :
    { c.submit i with execute := execute } = { c with execute := execute }.submit i := by
  unfold submit
  split <;> rfl

theorem Ordered.advance (h : Ordered c) (timedOut : Bool) : Ordered (c.advance timedOut) := by
  unfold IPCChannel.advance
  split
  case h_1 => exact h
  case h_2 i he => exact h.register he
  case h_3 i he => exact h.looked he
  case h_4 i he =>
    have hi : invocation c.execute = some i := by rw [he]; rfl
    have hnumber := (h.executing i hi).2.1
    split
    case isTrue hsync =>
      rw [submit_waiting]
      exact (h.waiting hi hsync (.inl rfl)).submit hnumber rfl
    case isFalse =>
      rw [submit_leave]
      exact (h.leave hi .none fun _ _ => h.registered i (.inr he)).submit hnumber rfl
  case h_5 i he =>
    have hi : invocation c.execute = some i := by rw [he]; rfl
    have hflushed : Ordered c.flush :=
      h.cleared hi (by simp [he]) none c.abort
    exact hflushed.leave hi .connectionClosed nofun
  case h_6 i he =>
    have hi : invocation c.execute = some i := by rw [he]; rfl
    have hsync := h.waits i (.inl he)
    split
    · exact h.waiting hi hsync (.inr ⟨_, rfl⟩)
    · split
      · exact h.waiting hi hsync (.inr ⟨_, rfl⟩)
      · exact h
  case h_7 i status he =>
    have hi : invocation c.execute = some i := by rw [he]; rfl
    have hsync := h.waits i (.inr ⟨status, he⟩)
    have hnever {P : Prop} (hasync : i.sync = false) : P := by
      rw [hsync] at hasync
      cases hasync
    unfold finalize
    split
    · exact (h.cleared hi (by simp [he]) none false).leave hi _ fun _ => hnever
    · split
      · exact (h.cleared hi (by simp [he]) c.inbound c.abort).leave hi _ fun _ => hnever
      · exact h.leave hi _ fun _ => hnever

/-- What one event keeps. -/
theorem Ordered.step (h : Ordered c) (e : Event) (halone : c.Alone e) : Ordered (c.step e) := by
  unfold IPCChannel.step
  split
  case isTrue => exact h
  case isFalse hrunning =>
    have hrunning : c.halted = false := Bool.of_not_eq_true hrunning
    cases e with
    | invoke command sync =>
      dsimp only
      split
      case isTrue hidle => exact h.enter hidle command sync (halone hidle)
      case isFalse => exact h
    | advance timedOut => exact h.advance timedOut
    | write =>
      dsimp only
      split
      case h_1 i queue _ hqueue =>
        refine h.traffic queue (c.sent ++ [i]) c.incoming c.inbound c.isOpen ?_ h.element
        intro k hk
        simpa [unanswered, hqueue, or_left_comm, or_assoc] using hk
      case h_2 => exact h
    | answer =>
      dsimp only
      split
      case h_1 i sent _ hincoming hsent =>
        refine h.traffic c.queue sent (some (.answer i (c.element i.command.label))) c.inbound c.isOpen
          ?_ ?_
        · intro k hk
          simp only [unanswered, hincoming, hsent, List.append_nil, List.mem_append,
            List.mem_cons] at hk ⊢
          tauto
        · -- The response of the invocation in the slot is the one that is asked for.
          rintro j e ⟨⟩ hcallback
          simp [IPCChannel.element, h.handles _ hcallback]
      case h_2 => exact h
    | request label known =>
      dsimp only
      split
      case h_1 _ hincoming =>
        refine h.traffic c.queue c.sent (some (.request known)) _ c.isOpen ?_ (by rintro _ _ ⟨⟩)
        intro k hk
        simpa [unanswered, hincoming] using hk
      case h_2 => exact h
    | deserialized reaction =>
      obtain rfl : reaction = none := halone
      dsimp only
      split
      case h_1 k e _ _ => exact h.receivedMessage hrunning k e
      case h_2 =>
        refine h.traffic c.queue c.sent none c.inbound c.isOpen (fun _ => mem_unanswered_of_read) ?_
        rintro _ _ ⟨⟩
      case h_3 =>
        refine h.traffic c.queue c.sent none _ c.isOpen (fun _ => mem_unanswered_of_read) ?_
        rintro _ _ ⟨⟩
      case h_4 => exact h
    | opened => exact h.traffic c.queue c.sent c.incoming c.inbound true (fun _ hk => hk) h.element
    | closed =>
      refine h.traffic c.queue [] c.incoming c.inbound false ?_ h.element
      intro k hk
      simp only [unanswered, List.append_nil, List.mem_append] at hk ⊢
      tauto
    | stateChange reaction =>
      obtain rfl : reaction = none := halone
      dsimp only
      split
      case isTrue => exact h
      case isFalse => exact h.abortAll hrunning

theorem release_dispatch_callback (hrunning : c.halted = false) :
    (c.dispatch none).release.callback = none := by
  rcases c.callback.eq_none_or_eq_some with hcallback | ⟨i, hcallback⟩
  · rw [dispatch_none hcallback]
    exact hcallback
  · rw [dispatch_some hcallback hrunning]

/-- The answer to an invocation takes its handler out of the slot. -/
theorem Ordered.answered (h : Ordered c) (hrunning : c.halted = false) {element : Command}
    (hincoming : c.incoming = some (.answer i (some element))) :
    ({ c with incoming := none }.receivedMessage i element none).callback ≠ some i := by
  have hslot (hcallback : c.callback = some i) : c.outbound = some i ∧ element = i.command :=
    ⟨h.handles i hcallback, Option.some.inj (h.element i _ hincoming hcallback)⟩
  unfold IPCChannel.receivedMessage
  split
  case h_1 j hj =>
    split
    case isTrue =>
      rw [release_dispatch_callback (by exact hrunning)]
      exact nofun
    case isFalse hcommand =>
      intro hcallback
      obtain ⟨houtbound, helement⟩ := hslot hcallback
      cases hj.symm.trans houtbound
      exact hcommand helement.symm
  case h_2 hnone =>
    intro hcallback
    cases hnone.symm.trans (hslot hcallback).1

theorem Ordered.prompt (h : Ordered c) (e : Event) (halone : c.Alone e) : Prompt c e where
  answered := by
    rintro reaction rfl hopen hrunning i element hincoming
    obtain rfl : reaction = none := halone
    unfold IPCChannel.step
    rw [if_neg (by simp [hrunning])]
    dsimp only
    split
    case h_1 k e _ hincoming' =>
      cases hincoming.symm.trans hincoming'
      exact h.answered hrunning hincoming
    case h_2 k _ hincoming' =>
      cases hincoming.symm.trans hincoming'
      exact fun hcallback => nomatch h.element i none hincoming hcallback
    case h_3 known _ hincoming' => cases hincoming.symm.trans hincoming'
    case h_4 hanswer hskip _ =>
      cases element with
      | none => exact absurd hincoming (hskip i hopen)
      | some element => exact absurd hincoming (hanswer i element hopen)
  aborted := by
    rintro reaction rfl hclosed hrunning
    obtain rfl : reaction = none := halone
    simp only [IPCChannel.step, hrunning, hclosed, Bool.false_eq_true, if_false]
    unfold IPCChannel.abortAll
    split
    case isTrue => exact release_dispatch_callback hrunning
    case isFalse hnone => simpa using hnone
  replaced := fun _ i _ he => (h.entered i he).1

/-- In a run whose synchronous invocations find nothing in progress and whose completion handlers do
not call `Execute`, an invocation that is accepted is completed once, by its answer or an abort, and
keeps the slot until then. -/
theorem completed_of_alone (events : List Event) (h : Run.Meets step Alone new events) :
    Run.Always step Completed new events ∧ Run.Meets step Prompt new events := by
  have hstep (c : IPCChannel) (e : Event) (hc : Ordered c) (ha : c.Alone e) := hc.step e ha
  exact ⟨(h.always hstep new_ordered).mono fun _ hc => hc.completed,
    h.of_invariant hstep (fun _ e hc ha => hc.prompt e ha) new_ordered⟩

/-- An asynchronous invocation that is answered, and one that is aborted. -/
theorem completed_calls : Run.Always step Completed new
      [.invoke ⟨0, 7⟩ false, .advance false, .advance false, .advance false, .write, .answer,
        .deserialized none, .invoke ⟨1, 7⟩ false, .advance false, .advance false, .advance false,
        .closed, .stateChange none] ∧
    Run.Meets step Prompt new
      [.invoke ⟨0, 7⟩ false, .advance false, .advance false, .advance false, .write, .answer,
        .deserialized none, .invoke ⟨1, 7⟩ false, .advance false, .advance false, .advance false,
        .closed, .stateChange none] :=
  completed_of_alone _ ⟨fun _ => nofun, trivial, trivial, trivial, trivial, trivial, rfl,
    fun _ => nofun, trivial, trivial, trivial, trivial, rfl, trivial⟩

/-- A synchronous invocation takes the slot of an asynchronous one in progress, whose handler is
never called. -/
theorem not_completed_replaced : ¬ (Run.Always step Completed new
      [.invoke ⟨0, 7⟩ false, .advance false, .advance false, .advance false, .invoke ⟨1, 8⟩ true,
        .advance false] ∧
    Run.Meets step Prompt new
      [.invoke ⟨0, 7⟩ false, .advance false, .advance false, .advance false, .invoke ⟨1, 8⟩ true,
        .advance false]) := by
  rintro ⟨h, -⟩
  have hlast := h.last ⟨0, ⟨0, 7⟩, false⟩ (by decide) rfl
  exact absurd hlast (by decide)

end

end IPCChannel

end Thunder.Core
