import Thunder.Library.Run
import Mathlib.Data.List.Basic
import Mathlib.Data.List.Count
import Mathlib.Data.List.Nodup
import Mathlib.Logic.Function.Basic
import Mathlib.Tactic.SplitIfs

/-! `RemoteConnectionMap`: the connections to processes that were launched here, and to clients that
came by themselves.  A `Create` goes by the id of its connection; channels and observers are of
arbitrary types.  A `Create` that gives up leaves its entry in the map, and an interface that is
announced behind that to nobody. -/

namespace Thunder.RPC

open Run Function

/-- `Info`: the interface that was announced, as the id of the connection it came for, and whether
the event is set. -/
structure Info where
  interface : Option Nat
  signalled : Bool
  deriving DecidableEq

/-- How far a `Create` is: in front of `Launch`, waiting for the announcement, or in front of its
last section, with what it has read. -/
inductive Phase
  | launching
  | waiting
  | taking (interface : Option Nat)
  deriving DecidableEq

/-- What a `Create` gives to its caller. -/
structure Returned where
  id : Nat
  interface : Option Nat
  deriving DecidableEq

/-- `refs` are the reference counts of the connections, those that `ProcessShutdown` holds apart.
The fields from `alive` on are the world around the map and the history: the processes that run, the
channels that are closed, `Closed` behind its section, what each `Create` has returned, the
interfaces that came with an announcement, each with a reference, and what each observer has seen
of a connection since it registered, `true` for `Activated` and `false` for `Deactivated`. -/
structure RemoteConnectionMap (κ ο : Type*) where
  sequenceId : Nat
  connections : List Nat
  announcements : Nat → Option Info
  observers : List ο
  refs : Nat → Nat
  channel : Nat → Option κ
  link : κ → Option Nat
  creates : Nat → Option Phase
  alive : Nat → Bool
  shut : κ → Bool
  closings : List Nat
  returned : Nat → Option Returned
  taken : List Nat
  seen : ο → Nat → List Bool
  fault : Bool

namespace RemoteConnectionMap

/-- The steps: the sections of `Create`, with whether the process was started; an announcement that
was requested, with whether there is a proxy for its interface, or one of a client that nobody
launched; a channel that closes, with the section of `Closed`, and its end; a process that ends; and
the calls of `Destroy`, `Register` and `Unregister`. -/
inductive Op (κ ο : Type*)
  | create
  | launch (id : Nat) (started : Bool)
  | trigger (id : Nat)
  | timeOut (id : Nat)
  | finish (id : Nat)
  | request (channel : κ) (id : Nat) (proxy : Bool)
  | announce (channel : κ)
  | close (channel : κ)
  | closed (id : Nat)
  | exit (id : Nat)
  | destroy
  | register (sink : ο)
  | unregister (sink : ο)

section Steps

variable {κ ο : Type*}

def new : RemoteConnectionMap κ ο where
  sequenceId := 1
  connections := []
  announcements _ := none
  observers := []
  refs _ := 0
  channel _ := none
  link _ := none
  creates _ := none
  alive _ := false
  shut _ := false
  closings := []
  returned _ := none
  taken := []
  seen _ _ := []
  fault := false

/-- `Release` of a connection. -/
def release (s : RemoteConnectionMap κ ο) (id : Nat) : RemoteConnectionMap κ ο :=
  { s with
    refs := update s.refs id (s.refs id - 1)
    fault := s.fault || s.refs id = 0 }

/-- The first section of `Create`: a reference of its own, and one for the map. -/
def create (s : RemoteConnectionMap κ ο) : RemoteConnectionMap κ ο :=
  { s with
    sequenceId := s.sequenceId + 1
    connections := s.connections ++ [s.sequenceId]
    announcements := update s.announcements s.sequenceId (some ⟨none, false⟩)
    refs := update s.refs s.sequenceId 2
    creates := update s.creates s.sequenceId (some .launching) }

/-- A process that was not started is terminated, which is up to `ProcessShutdown`. -/
def launch (s : RemoteConnectionMap κ ο) (id : Nat) (started : Bool) : RemoteConnectionMap κ ο :=
  if s.creates id = some .launching then
    if started then
      { s with
        creates := update s.creates id (some .waiting)
        alive := update s.alive id true }
    else { s with creates := update s.creates id (some (.taking none)) }
  else s

def trigger (s : RemoteConnectionMap κ ο) (id : Nat) : RemoteConnectionMap κ ο :=
  match s.announcements id with
  | some ⟨interface, true⟩ =>
    if s.creates id = some .waiting then
      { s with creates := update s.creates id (some (.taking interface)) }
    else s
  | _ => s

/-- The process is terminated. -/
def timeOut (s : RemoteConnectionMap κ ο) (id : Nat) : RemoteConnectionMap κ ο :=
  if s.creates id = some .waiting then
    { s with creates := update s.creates id (some (.taking none)) }
  else s

/-- The last section of `Create`. -/
def finish (s : RemoteConnectionMap κ ο) (id : Nat) : RemoteConnectionMap κ ο :=
  match s.creates id with
  | some (.taking interface) =>
    release
      { s with
        announcements := update s.announcements id none
        creates := update s.creates id none
        returned := update s.returned id
          (some ⟨if interface.isSome then id else 0, interface⟩) } id
  | _ => s

/-- `Implementation`, where a `Create` has its `Info` in place; an interface that nobody waits for
is not released. -/
def implementation (s : RemoteConnectionMap κ ο) (id : Nat) (proxy : Bool) :
    RemoteConnectionMap κ ο :=
  { s with
    taken := if proxy then s.taken ++ [id] else s.taken
    announcements := update s.announcements id
      ((s.announcements id).map fun info =>
        ⟨if proxy then some id else info.interface, true⟩) }

section Observers

variable [DecidableEq ο]

/-- All observers are told. -/
def notify (s : RemoteConnectionMap κ ο) (id : Nat) (activated : Bool) : RemoteConnectionMap κ ο :=
  { s with
    seen := fun sink =>
      if sink ∈ s.observers then update (s.seen sink) id (s.seen sink id ++ [activated])
      else s.seen sink }

/-- `Register`; the operational connections are reported. -/
def register (s : RemoteConnectionMap κ ο) (sink : ο) : RemoteConnectionMap κ ο :=
  if sink ∈ s.observers then s
  else
    { s with
      observers := s.observers ++ [sink]
      seen := update s.seen sink fun id =>
        if id ∈ s.connections ∧ (s.channel id).isSome then [true] else [] }

def unregister (s : RemoteConnectionMap κ ο) (sink : ο) : RemoteConnectionMap κ ο :=
  { s with observers := s.observers.erase sink }

variable [DecidableEq κ]

/-- `Open`, `Link` and `Activated`. -/
def activated (s : RemoteConnectionMap κ ο) (channel : κ) (id : Nat) : RemoteConnectionMap κ ο :=
  notify
    { s with
      channel := update s.channel id (some channel)
      link := update s.link channel (some id) } id true

/-- `Announce` of a process that was launched here.  That the id is in the map is only asserted. -/
def request (s : RemoteConnectionMap κ ο) (channel : κ) (id : Nat) (proxy : Bool) :
    RemoteConnectionMap κ ο :=
  if s.shut channel then s
  else if id ∈ s.connections then (s.activated channel id).implementation id proxy
  else { s with fault := true }

/-- `Announce` of a client that nobody launched. -/
def announce (s : RemoteConnectionMap κ ο) (channel : κ) : RemoteConnectionMap κ ο :=
  if s.shut channel = false ∧ s.link channel = none then
    activated
      { s with
        sequenceId := s.sequenceId + 1
        connections := s.connections ++ [s.sequenceId]
        refs := update s.refs s.sequenceId 1 } channel s.sequenceId
  else s

/-- The section of `Closed`: it takes a reference, and releases that of the map. -/
def deactivated (s : RemoteConnectionMap κ ο) (id : Nat) : RemoteConnectionMap κ ο :=
  release
    (notify
      { s with
        refs := update s.refs id (s.refs id + 1)
        connections := s.connections.erase id
        closings := s.closings ++ [id] } id false) id

/-- A channel closes. -/
def close (s : RemoteConnectionMap κ ο) (channel : κ) : RemoteConnectionMap κ ο :=
  if s.shut channel then s
  else
    match s.link channel with
    | none => { s with shut := update s.shut channel true }
    | some id =>
      if id ∈ s.connections then
        deactivated { s with shut := update s.shut channel true } id
      else { s with shut := update s.shut channel true }

/-- The end of `Closed`. -/
def closed (s : RemoteConnectionMap κ ο) (id : Nat) : RemoteConnectionMap κ ο :=
  if id ∈ s.closings then release { s with closings := s.closings.erase id } id else s

/-- `Destroy`: the loop over all connections. -/
def destroy (s : RemoteConnectionMap κ ο) : RemoteConnectionMap κ ο :=
  { s.connections.foldl release s with connections := [] }

def step (s : RemoteConnectionMap κ ο) : Op κ ο → RemoteConnectionMap κ ο
  | .create => s.create
  | .launch id started => s.launch id started
  | .trigger id => s.trigger id
  | .timeOut id => s.timeOut id
  | .finish id => s.finish id
  | .request channel id proxy => s.request channel id proxy
  | .announce channel => s.announce channel
  | .close channel => s.close channel
  | .closed id => s.closed id
  | .exit id => { s with alive := update s.alive id false }
  | .destroy => s.destroy
  | .register sink => s.register sink
  | .unregister sink => s.unregister sink

end Observers

end Steps

/-! ### What is to hold -/

section Statement

variable {κ ο : Type*}

/-- The references of a connection that are not that of the map. -/
def others (s : RemoteConnectionMap κ ο) (id : Nat) : Nat :=
  (if s.creates id = none then 0 else 1) + s.closings.count id

/-- The process of a connection does not run any more, and its channels are closed. -/
def Gone (s : RemoteConnectionMap κ ο) (id : Nat) : Prop :=
  s.alive id = false ∧ ∀ channel, s.link channel = some id → s.shut channel = true

/-- Every entry of the map holds one reference; a `Create` that has returned null leaves nothing
behind; one that has returned an interface has handed over its own, with the one reference that came
with it; and no observer sees more of a connection than that it is activated, and then
deactivated. -/
structure Accounted (s : RemoteConnectionMap κ ο) : Prop where
  intact : s.fault = false
  single : ∀ id ∈ s.connections, s.refs id = 1 + s.others id
  failed : ∀ id returned, s.returned id = some returned → returned.interface = none →
    s.announcements id = none ∧ s.taken.count id = 0 ∧ (s.Gone id → id ∉ s.connections)
  succeeded : ∀ id returned interface, s.returned id = some returned →
    returned.interface = some interface →
      interface = id ∧ returned.id = id ∧ s.taken.count id = 1
  observed : ∀ sink id, s.seen sink id <+: [true, false]

/-- No `Create` gives up, and a requested announcement comes on a new channel for a connection that
waits for one. -/
def Patient (s : RemoteConnectionMap κ ο) : Op κ ο → Prop
  | .launch id started => s.creates id = some .launching → started = true
  | .timeOut id => s.creates id ≠ some .waiting
  | .request channel id _ => s.shut channel = false →
      id ∈ s.connections ∧ s.channel id = none ∧ s.link channel = none
  | _ => True

end Statement

/-! ### The invariant -/

section Invariant

variable {κ ο : Type*} {s s' : RemoteConnectionMap κ ο} {id : Nat}

/-- An id that was not given yet. -/
structure Untouched (s : RemoteConnectionMap κ ο) (id : Nat) : Prop where
  connections : s.connections.count id = 0
  announcements : s.announcements id = none
  channel : s.channel id = none
  creates : s.creates id = none
  closings : s.closings.count id = 0
  returned : s.returned id = none
  taken : s.taken.count id = 0
  seen : ∀ sink, s.seen sink id = []

/-- What holds for one id: its references; the `Info` of a `Create` against its channel and the
interfaces that came; what a `Create` has read, and what it has returned; and what the observers
have seen. -/
structure Entry (s : RemoteConnectionMap κ ο) (id : Nat) : Prop where
  counted : s.refs id = s.connections.count id + s.others id
  pending : ∀ info, s.announcements id = some info →
    s.taken.count id = (if info.interface = none then 0 else 1) ∧
      (∀ interface, info.interface = some interface → interface = id) ∧
      info.signalled = (s.channel id).isSome ∧ (info.interface ≠ none → info.signalled = true)
  noticed : s.announcements id = none ↔ s.creates id = none
  reading : ∀ interface, s.creates id = some (.taking interface) →
    s.announcements id = some ⟨interface, true⟩
  handed : ∀ returned, s.returned id = some returned →
    s.creates id = none ∧ s.channel id ≠ none ∧
      s.taken.count id = (if returned.interface = none then 0 else 1) ∧
      ∀ interface, returned.interface = some interface → interface = id ∧ returned.id = id
  silent : id ∈ s.connections → s.channel id = none → s.creates id ≠ none
  observed : ∀ sink ∈ s.observers, id ∈ s.connections →
    s.seen sink id = if s.channel id = none then [] else [true]
  bounded : ∀ sink, s.seen sink id <+: [true, false]

structure Inv (s : RemoteConnectionMap κ ο) : Prop where
  intact : s.fault = false
  nodup : s.connections.Nodup
  fresh : ∀ id, s.sequenceId ≤ id → s.Untouched id
  linked : ∀ id channel, id ∈ s.connections → s.channel id = some channel →
    s.link channel = some id ∧ s.shut channel = false
  opened : ∀ channel id, s.link channel = some id → s.channel id ≠ none
  entry : ∀ id, s.Entry id

/-- Nothing changes for an id. -/
structure Same (s s' : RemoteConnectionMap κ ο) (id : Nat) : Prop where
  connections : s'.connections.count id = s.connections.count id
  announcements : s'.announcements id = s.announcements id
  observers : s'.observers ⊆ s.observers
  refs : s'.refs id = s.refs id
  channel : s'.channel id = s.channel id
  creates : s'.creates id = s.creates id
  closings : s'.closings.count id = s.closings.count id
  returned : s'.returned id = s.returned id
  taken : s'.taken.count id = s.taken.count id
  seen : ∀ sink, s'.seen sink id = s.seen sink id

theorem Same.mem (h : Same s s' id) : id ∈ s'.connections ↔ id ∈ s.connections := by
  rw [← List.count_pos_iff, h.connections, List.count_pos_iff]

theorem Same.untouched (h : Same s s' id) (hs : s.Untouched id) : s'.Untouched id where
  connections := h.connections.trans hs.connections
  announcements := h.announcements.trans hs.announcements
  channel := h.channel.trans hs.channel
  creates := h.creates.trans hs.creates
  closings := h.closings.trans hs.closings
  returned := h.returned.trans hs.returned
  taken := h.taken.trans hs.taken
  seen sink := (h.seen sink).trans (hs.seen sink)

theorem Same.entry (h : Same s s' id) (hs : s.Entry id) : s'.Entry id where
  counted := by
    rw [h.refs, h.connections, hs.counted, others, others, h.creates, h.closings]
  pending := by
    rw [h.announcements, h.taken, h.channel]
    exact hs.pending
  noticed := by
    rw [h.announcements, h.creates]
    exact hs.noticed
  reading := by
    rw [h.announcements, h.creates]
    exact hs.reading
  handed := by
    rw [h.returned, h.creates, h.channel, h.taken]
    exact hs.handed
  silent := by
    rw [h.mem, h.channel, h.creates]
    exact hs.silent
  observed sink hsink := by
    rw [h.mem, h.channel, h.seen]
    exact hs.observed sink (h.observers hsink)
  bounded sink := by
    rw [h.seen]
    exact hs.bounded sink

/-- A step for one id that was given before. -/
theorem Inv.at (h : s.Inv) (hid : id < s.sequenceId) (hseq : s'.sequenceId = s.sequenceId)
    (hintact : s'.fault = false) (hnodup : s'.connections.Nodup)
    (hlinked : ∀ id channel, id ∈ s'.connections → s'.channel id = some channel →
      s'.link channel = some id ∧ s'.shut channel = false)
    (hopened : ∀ channel id, s'.link channel = some id → s'.channel id ≠ none)
    (hsame : ∀ j, j ≠ id → Same s s' j) (hentry : s'.Entry id) : s'.Inv where
  intact := hintact
  nodup := hnodup
  fresh j hj := by
    rw [hseq] at hj
    exact (hsame j (by omega)).untouched (h.fresh j hj)
  linked := hlinked
  opened := hopened
  entry j := by
    by_cases hj : j = id
    · rw [hj]
      exact hentry
    · exact (hsame j hj).entry (h.entry j)

theorem Inv.lt_of_creates (h : s.Inv) (hcreates : s.creates id ≠ none) : id < s.sequenceId := by
  by_contra hle
  exact hcreates (h.fresh id (by omega)).creates

theorem Inv.lt_of_mem (h : s.Inv) (hmem : id ∈ s.connections) : id < s.sequenceId := by
  by_contra hle
  exact List.count_eq_zero.mp (h.fresh id (by omega)).connections hmem

/-- The invariant gives what is to hold. -/
theorem Inv.accounted (h : s.Inv) : s.Accounted where
  intact := h.intact
  single id hid := by
    rw [(h.entry id).counted, List.count_eq_one_of_mem h.nodup hid]
  failed id returned hreturned hnull := by
    obtain ⟨hdone, hopen, htaken, -⟩ := (h.entry id).handed returned hreturned
    refine ⟨(h.entry id).noticed.mpr hdone, by rw [htaken, if_pos hnull], fun hgone hmem => ?_⟩
    obtain ⟨channel, hchannel⟩ := Option.ne_none_iff_exists'.mp hopen
    obtain ⟨hlink, hup⟩ := h.linked id channel hmem hchannel
    rw [hgone.2 channel hlink] at hup
    exact absurd hup (by decide)
  succeeded id returned interface hreturned hinterface := by
    obtain ⟨-, -, htaken, hids⟩ := (h.entry id).handed returned hreturned
    obtain ⟨heq, hid⟩ := hids interface hinterface
    exact ⟨heq, hid, by rw [htaken, if_neg (by simp [hinterface])]⟩
  observed sink id := (h.entry id).bounded sink

theorem new_inv : (new : RemoteConnectionMap κ ο).Inv where
  intact := rfl
  nodup := List.nodup_nil
  fresh id _ := by constructor <;> simp [new]
  linked id channel hmem := absurd hmem (by simp [new])
  opened channel id hlink := by simp [new] at hlink
  entry id := by constructor <;> simp [new, others]

end Invariant

/-! ### What a step does -/

section Step

variable {κ ο : Type*} {s : RemoteConnectionMap κ ο} {id : Nat}

/-- A `Create` goes on, with what is in its `Info`. -/
theorem Inv.proceed (h : s.Inv) {phase : Phase} (hcreates : s.creates id ≠ none)
    (hreading : ∀ interface, phase = .taking interface →
      s.announcements id = some ⟨interface, true⟩) (alive : Nat → Bool) :
    Inv { s with creates := update s.creates id (some phase), alive := alive } := by
  have hentry := h.entry id
  refine h.at (h.lt_of_creates hcreates) rfl h.intact h.nodup h.linked h.opened ?_ ?_
  · intro j hj
    constructor <;> simp [hj]
  · constructor
    · change s.refs id = _
      rw [hentry.counted]
      simp [others, hcreates]
    · exact hentry.pending
    · simpa [hcreates] using hentry.noticed
    · intro interface hphase
      apply hreading
      simpa using hphase
    · intro returned hreturned
      exact absurd (hentry.handed returned hreturned).1 hcreates
    · simp
    · exact hentry.observed
    · exact hentry.bounded

/-- A step in which nothing changes for any id. -/
theorem Inv.same {s' : RemoteConnectionMap κ ο} (h : s.Inv) (hseq : s'.sequenceId = s.sequenceId)
    (hintact : s'.fault = false) (hnodup : s'.connections.Nodup)
    (hlinked : ∀ id channel, id ∈ s'.connections → s'.channel id = some channel →
      s'.link channel = some id ∧ s'.shut channel = false)
    (hopened : ∀ channel id, s'.link channel = some id → s'.channel id ≠ none)
    (hsame : ∀ j, Same s s' j) : s'.Inv where
  intact := hintact
  nodup := hnodup
  fresh j hj := (hsame j).untouched (h.fresh j (hseq ▸ hj))
  linked := hlinked
  opened := hopened
  entry j := (hsame j).entry (h.entry j)

/-- An id that was not given yet comes into the map. -/
theorem Inv.enter (h : s.Inv) {s' : RemoteConnectionMap κ ο}
    (hseq : s'.sequenceId = s.sequenceId + 1)
    (hconnections : s'.connections = s.connections ++ [s.sequenceId])
    (hintact : s'.fault = false)
    (hlinked : ∀ id channel, id ∈ s'.connections → s'.channel id = some channel →
      s'.link channel = some id ∧ s'.shut channel = false)
    (hopened : ∀ channel id, s'.link channel = some id → s'.channel id ≠ none)
    (hsame : ∀ j, j ≠ s.sequenceId → Same s s' j) (hentry : s'.Entry s.sequenceId) : s'.Inv where
  intact := hintact
  nodup := by
    have hmem : s.sequenceId ∉ s.connections :=
      List.count_eq_zero.mp (h.fresh s.sequenceId (Nat.le_refl _)).connections
    rw [hconnections]
    exact List.nodup_append.mpr ⟨h.nodup, List.nodup_singleton _, by
      rintro id hid _ hlast rfl
      exact hmem (List.mem_singleton.mp hlast ▸ hid)⟩
  fresh j hj := by
    rw [hseq] at hj
    exact (hsame j (by omega)).untouched (h.fresh j (by omega))
  linked := hlinked
  opened := hopened
  entry j := by
    by_cases hj : j = s.sequenceId
    · rw [hj]
      exact hentry
    · exact (hsame j hj).entry (h.entry j)

theorem Inv.create (h : s.Inv) : s.create.Inv := by
  have hfresh := h.fresh s.sequenceId (Nat.le_refl _)
  refine h.enter rfl rfl h.intact ?_ h.opened ?_ ?_
  · intro id channel hmem hchannel
    rcases List.mem_append.mp hmem with hold | hnew
    · exact h.linked id channel hold hchannel
    · rw [List.mem_singleton.mp hnew] at hchannel
      exact absurd (hfresh.channel.symm.trans hchannel) (by simp)
  · intro j hj
    constructor <;> simp [RemoteConnectionMap.create, hj, Ne.symm hj]
  · constructor
    · simp [RemoteConnectionMap.create, others, hfresh.connections, hfresh.closings]
    · rintro _ hinfo
      obtain rfl : Info.mk none false = _ := by simpa [RemoteConnectionMap.create] using hinfo
      simp [RemoteConnectionMap.create, hfresh.taken, hfresh.channel]
    · simp [RemoteConnectionMap.create]
    · simp [RemoteConnectionMap.create]
    · intro returned hreturned
      exact absurd (hfresh.returned.symm.trans hreturned) (by simp)
    · simp [RemoteConnectionMap.create]
    · intro sink _ _
      simp [RemoteConnectionMap.create, hfresh.seen, hfresh.channel]
    · intro sink
      simp [RemoteConnectionMap.create, hfresh.seen]

theorem Inv.finish (h : s.Inv) : (s.finish id).Inv := by
  unfold RemoteConnectionMap.finish
  split
  next interface hphase =>
    have hentry := h.entry id
    have hcreates : s.creates id ≠ none := by simp [hphase]
    have hinfo := hentry.reading interface hphase
    obtain ⟨htaken, hinterface, hopen, -⟩ := hentry.pending _ hinfo
    have hcounted := hentry.counted
    rw [others, if_neg hcreates] at hcounted
    have hchannel : s.channel id ≠ none := Option.isSome_iff_ne_none.mp hopen.symm
    refine h.at (h.lt_of_creates hcreates) rfl ?_ h.nodup h.linked h.opened ?_ ?_
    · simp [release, h.intact, hcounted]
    · intro j hj
      constructor <;> simp [release, hj]
    · constructor
      · simp [release, others, hcounted]
        omega
      · simp [release]
      · simp [release]
      · simp [release]
      · intro returned hreturned
        obtain rfl : Returned.mk (if interface.isSome then id else 0) interface = _ := by
          simpa [release] using hreturned
        refine ⟨by simp [release], hchannel, htaken, ?_⟩
        rintro j rfl
        exact ⟨hinterface j rfl, by simp [hinterface j rfl]⟩
      · exact fun _ hnone => absurd hnone hchannel
      · exact hentry.observed
      · exact hentry.bounded
  next => exact h

theorem Inv.register [DecidableEq ο] (h : s.Inv) (sink : ο) : (s.register sink).Inv := by
  unfold RemoteConnectionMap.register
  split_ifs with hsink
  · exact h
  · constructor
    · exact h.intact
    · exact h.nodup
    · intro j hj
      have hfresh := h.fresh j hj
      have hmem : j ∉ s.connections := List.count_eq_zero.mp hfresh.connections
      refine ⟨hfresh.connections, hfresh.announcements, hfresh.channel, hfresh.creates,
        hfresh.closings, hfresh.returned, hfresh.taken, fun other => ?_⟩
      by_cases hother : other = sink
      · simp [hother, hmem]
      · simp [hother, hfresh.seen]
    · exact h.linked
    · exact h.opened
    · intro j
      have hentry := h.entry j
      refine ⟨hentry.counted, hentry.pending, hentry.noticed, hentry.reading, hentry.handed,
        hentry.silent, fun other hother hmem => ?_, fun other => ?_⟩
      · change j ∈ s.connections at hmem
        by_cases heq : other = sink
        · cases hchannel : s.channel j <;> simp [heq, hmem, hchannel]
        · have hold : other ∈ s.observers := by simpa [heq] using hother
          simpa [heq] using hentry.observed other hold hmem
      · by_cases heq : other = sink
        · by_cases hopen : j ∈ s.connections ∧ (s.channel j).isSome
          · simp [heq, hopen]
          · simp [heq, hopen]
        · simpa [heq] using hentry.bounded other

theorem Inv.unregister [DecidableEq ο] (h : s.Inv) (sink : ο) : (s.unregister sink).Inv := by
  refine h.same rfl h.intact h.nodup h.linked h.opened fun j => ?_
  exact ⟨rfl, rfl, List.erase_subset, rfl, rfl, rfl, rfl, rfl, rfl, fun _ => rfl⟩

/-- `Release` of one reference of each connection. -/
theorem releases (ids : List Nat) (s : RemoteConnectionMap κ ο)
    (henough : ∀ id, ids.count id ≤ s.refs id) :
    ids.foldl release s = { s with refs := fun id => s.refs id - ids.count id } := by
  induction ids generalizing s with
  | nil => simp
  | cons first ids ih =>
    have hfirst : 1 ≤ s.refs first := by
      have := henough first
      rw [List.count_cons_self] at this
      omega
    rw [List.foldl_cons, ih]
    · simp only [release]
      congr 1
      · funext id
        by_cases hid : id = first
        · subst hid
          simp
          omega
        · simp [hid, Ne.symm hid]
      · simp
        omega
    · intro id
      have hid := henough id
      by_cases heq : id = first
      · subst heq
        simp [release] at hid ⊢
        omega
      · simpa [release, heq, List.count_cons, Ne.symm heq] using hid

theorem Inv.destroy (h : s.Inv) : s.destroy.Inv := by
  have henough : ∀ id, s.connections.count id ≤ s.refs id := fun id => by
    rw [(h.entry id).counted]
    omega
  rw [RemoteConnectionMap.destroy, releases _ _ henough]
  constructor
  · exact h.intact
  · exact List.nodup_nil
  · intro j hj
    have hfresh := h.fresh j hj
    exact ⟨rfl, hfresh.announcements, hfresh.channel, hfresh.creates, hfresh.closings,
      hfresh.returned, hfresh.taken, hfresh.seen⟩
  · exact fun _ _ hmem => absurd hmem List.not_mem_nil
  · exact h.opened
  · intro j
    have hentry := h.entry j
    refine ⟨?_, hentry.pending, hentry.noticed, hentry.reading, hentry.handed, ?_, ?_,
      hentry.bounded⟩
    · have hcounted := hentry.counted
      simp only [others, List.count_nil] at hcounted ⊢
      omega
    · exact fun hmem => absurd hmem List.not_mem_nil
    · exact fun _ _ hmem => absurd hmem List.not_mem_nil

theorem Inv.closed (h : s.Inv) : (s.closed id).Inv := by
  unfold RemoteConnectionMap.closed
  split_ifs with hclosing
  · have hentry := h.entry id
    have hcounted := hentry.counted
    have hcount : 0 < s.closings.count id := List.count_pos_iff.mpr hclosing
    have hid : id < s.sequenceId := by
      by_contra hle
      exact absurd (h.fresh id (by omega)).closings (by omega)
    refine h.at hid rfl ?_ h.nodup h.linked h.opened ?_ ?_
    · simp only [others] at hcounted
      simp [release, h.intact]
      omega
    · intro j hj
      constructor <;> simp [release, hj, List.count_erase_of_ne]
    · refine ⟨?_, hentry.pending, hentry.noticed, hentry.reading, hentry.handed, hentry.silent,
        hentry.observed, hentry.bounded⟩
      by_cases hcreates : s.creates id = none <;>
        simp [release, others, hcreates] at hcounted ⊢ <;> omega
  · exact h

theorem Inv.activated_linked [DecidableEq ο] [DecidableEq κ] (h : s.Inv) {channel : κ}
    (hup : s.shut channel = false) (hlink : s.link channel = none) {j : Nat} {other : κ}
    (hmem : j ∈ s.connections ∨ j = id)
    (hchannel : (s.activated channel id).channel j = some other) :
    (s.activated channel id).link other = some j ∧
      (s.activated channel id).shut other = false := by
  by_cases hj : j = id
  · obtain rfl : channel = other := by simpa [activated, notify, hj] using hchannel
    simp [activated, notify, hj, hup]
  · have hold : s.channel j = some other := by simpa [activated, notify, hj] using hchannel
    obtain ⟨hlinked, hother⟩ := h.linked j other (hmem.resolve_right hj) hold
    -- the channel that comes is linked to nothing, so it is another one
    have hne : other ≠ channel := by
      rintro rfl
      rw [hlink] at hlinked
      cases hlinked
    simp [activated, notify, hne, hlinked, hother]

theorem Inv.activated_opened [DecidableEq ο] [DecidableEq κ] (h : s.Inv) {channel other : κ}
    {j : Nat} (hlink : (s.activated channel id).link other = some j) :
    (s.activated channel id).channel j ≠ none := by
  by_cases hother : other = channel
  · obtain rfl : id = j := by simpa [activated, notify, hother] using hlink
    simp [activated, notify]
  · have hold := h.opened other j (by simpa [activated, notify, hother] using hlink)
    by_cases hj : j = id
    · simp [activated, notify, hj]
    · simpa [activated, notify, hj] using hold

theorem Inv.request [DecidableEq ο] [DecidableEq κ] (h : s.Inv) {channel : κ} {proxy : Bool}
    (hpatient : s.Patient (.request channel id proxy)) : (s.request channel id proxy).Inv := by
  unfold RemoteConnectionMap.request
  by_cases hshut : s.shut channel
  · rw [if_pos hshut]
    exact h
  · have hup : s.shut channel = false := by simpa using hshut
    obtain ⟨hmem, hchannel, hlink⟩ := hpatient hup
    rw [if_neg hshut, if_pos hmem]
    have hentry := h.entry id
    have hcreates := hentry.silent hmem hchannel
    obtain ⟨info, hinfo⟩ := Option.ne_none_iff_exists'.mp (mt hentry.noticed.mp hcreates)
    obtain ⟨htaken, hinterface, hsignalled, hset⟩ := hentry.pending info hinfo
    have hnull : info.interface = none := by
      by_contra hsome
      simp [hset hsome, hchannel] at hsignalled
    rw [if_pos hnull] at htaken
    refine h.at (h.lt_of_mem hmem) rfl h.intact h.nodup ?_ ?_ ?_ ?_
    · exact fun j other hj => h.activated_linked hup hlink (.inl hj)
    · exact fun other j hother => h.activated_opened hother
    · intro j hj
      constructor <;> cases proxy <;>
        simp [implementation, activated, notify, hj, Ne.symm hj]
      all_goals
        intro sink
        split_ifs <;> simp [hj]
    · constructor
      · exact hentry.counted
      · intro _ hnew
        obtain rfl : Info.mk (if proxy then some id else info.interface) true = _ := by
          simpa [implementation, activated, notify, hinfo] using hnew
        cases proxy <;> simp [implementation, activated, notify, htaken, hnull]
      · simpa [implementation, activated, notify, hinfo] using hcreates
      · intro interface hphase
        -- nothing is read before the announcement
        have hread := hentry.reading interface hphase
        rw [hinfo] at hread
        obtain rfl := Option.some.inj hread
        simp [hchannel] at hsignalled
      · intro returned hreturned
        exact absurd (hentry.handed returned hreturned).1 hcreates
      · exact fun _ _ => hcreates
      · intro sink hsink _
        have hseen := hentry.observed sink hsink hmem
        change sink ∈ s.observers at hsink
        simp [implementation, activated, notify, hsink, hseen, hchannel]
      · intro sink
        by_cases hsink : sink ∈ s.observers
        · have hseen := hentry.observed sink hsink hmem
          simp [implementation, activated, notify, hsink, hseen, hchannel]
        · simpa [implementation, activated, notify, hsink] using hentry.bounded sink

theorem Inv.announce [DecidableEq ο] [DecidableEq κ] (h : s.Inv) (channel : κ) :
    (s.announce channel).Inv := by
  unfold RemoteConnectionMap.announce
  split_ifs with hchannel
  · obtain ⟨hup, hlink⟩ := hchannel
    have hfresh := h.fresh s.sequenceId (Nat.le_refl _)
    refine h.enter rfl rfl h.intact ?_ ?_ ?_ ?_
    · intro j other hj
      have hmem : j ∈ s.connections ∨ j = s.sequenceId := by
        simpa [activated, notify] using hj
      exact h.activated_linked hup hlink hmem
    · exact fun other j hother => h.activated_opened hother
    · intro j hj
      constructor <;> simp [activated, notify, hj, Ne.symm hj]
      intro sink
      split_ifs <;> simp [hj]
    · constructor
      · simp [activated, notify, others, hfresh.connections, hfresh.closings, hfresh.creates]
      · intro info hinfo
        exact absurd (hfresh.announcements.symm.trans hinfo) (by simp)
      · exact iff_of_true hfresh.announcements hfresh.creates
      · intro interface hphase
        exact absurd (hfresh.creates.symm.trans hphase) (by simp)
      · intro returned hreturned
        exact absurd (hfresh.returned.symm.trans hreturned) (by simp)
      · intro _ hnone
        simp [activated, notify] at hnone
      · intro sink hsink _
        change sink ∈ s.observers at hsink
        simp [activated, notify, hsink, hfresh.seen]
      · intro sink
        by_cases hsink : sink ∈ s.observers <;>
          simp [activated, notify, hsink, hfresh.seen]
  · exact h

/-- A channel closes that no entry is linked to. -/
theorem Inv.shuts [DecidableEq κ] (h : s.Inv) {channel : κ}
    (hapart : ∀ id ∈ s.connections, s.link channel ≠ some id) :
    Inv { s with shut := update s.shut channel true } := by
  refine h.same rfl h.intact h.nodup (fun j other hmem hchannel => ?_) h.opened fun j => ?_
  · obtain ⟨hlinked, hother⟩ := h.linked j other hmem hchannel
    have hne : other ≠ channel := by
      rintro rfl
      exact hapart j hmem hlinked
    exact ⟨hlinked, by simpa [hne] using hother⟩
  · exact ⟨rfl, rfl, List.Subset.refl _, rfl, rfl, rfl, rfl, rfl, rfl, fun _ => rfl⟩

theorem Inv.deactivated [DecidableEq ο] (h : s.Inv) (hmem : id ∈ s.connections)
    (hopen : s.channel id ≠ none) : (s.deactivated id).Inv := by
  have hentry := h.entry id
  have hcounted := hentry.counted
  have hgone : id ∉ s.connections.erase id := h.nodup.not_mem_erase
  refine h.at (h.lt_of_mem hmem) rfl ?_ (h.nodup.erase id) ?_ h.opened ?_ ?_
  · simp [RemoteConnectionMap.deactivated, release, notify, h.intact]
  · exact fun j other hj => h.linked j other (List.mem_of_mem_erase hj)
  · intro j hj
    constructor <;>
      simp [RemoteConnectionMap.deactivated, release, notify, hj, Ne.symm hj,
        List.count_erase_of_ne]
    intro sink
    split_ifs <;> simp [hj]
  · refine ⟨?_, hentry.pending, hentry.noticed, hentry.reading, hentry.handed,
      fun hin => absurd hin hgone, fun _ _ hin => absurd hin hgone, fun sink => ?_⟩
    · rw [List.count_eq_one_of_mem h.nodup hmem, others] at hcounted
      simp [RemoteConnectionMap.deactivated, release, notify, others, hcounted,
        List.count_eq_zero.mpr hgone]
      omega
    · by_cases hsink : sink ∈ s.observers
      · have hseen := hentry.observed sink hsink hmem
        rw [if_neg hopen] at hseen
        simp [RemoteConnectionMap.deactivated, release, notify, hsink, hseen]
      · simpa [RemoteConnectionMap.deactivated, release, notify, hsink] using hentry.bounded sink

theorem Inv.close [DecidableEq ο] [DecidableEq κ] (h : s.Inv) (channel : κ) :
    (s.close channel).Inv := by
  unfold RemoteConnectionMap.close
  split_ifs with hshut
  · exact h
  · split
    next hlink => exact h.shuts fun id _ => by simp [hlink]
    next id hlink =>
      split_ifs with hmem
      · apply (h.deactivated hmem (h.opened channel id hlink)).shuts
        intro j hj hother
        obtain rfl : id = j := Option.some.inj (hlink.symm.trans hother)
        exact h.nodup.not_mem_erase hj
      · apply h.shuts
        intro j hj hother
        obtain rfl : id = j := Option.some.inj (hlink.symm.trans hother)
        exact hmem hj

/-- The step lemma. -/
theorem Inv.step [DecidableEq ο] [DecidableEq κ] (h : s.Inv) (op : Op κ ο)
    (hpatient : s.Patient op) : (s.step op).Inv := by
  cases op with
  | create => exact h.create
  | launch id started =>
    simp only [RemoteConnectionMap.step, launch]
    split_ifs with hphase hstarted
    · exact h.proceed (by simp [hphase]) (by simp) _
    · exact absurd (hpatient hphase) hstarted
    · exact h
  | trigger id =>
    simp only [RemoteConnectionMap.step, trigger]
    split
    next interface hinfo =>
      split_ifs with hphase
      · refine h.proceed (by simp [hphase]) (fun other hother => ?_) s.alive
        obtain rfl : interface = other := by simpa using hother
        exact hinfo
      · exact h
    next => exact h
  | timeOut id =>
    simp only [RemoteConnectionMap.step, timeOut, if_neg hpatient]
    exact h
  | finish id => exact h.finish
  | request channel id proxy => exact h.request hpatient
  | announce channel => exact h.announce channel
  | close channel => exact h.close channel
  | closed id => exact h.closed
  | exit id =>
    exact h.same rfl h.intact h.nodup h.linked h.opened fun j =>
      ⟨rfl, rfl, List.Subset.refl _, rfl, rfl, rfl, rfl, rfl, rfl, fun _ => rfl⟩
  | destroy => exact h.destroy
  | register sink => exact h.register sink
  | unregister sink => exact h.unregister sink

end Step

/-! ### Runs -/

section Runs

variable {κ ο : Type*} [DecidableEq κ] [DecidableEq ο]

/-- In every run in which no `Create` gives up, everything is accounted for in every state. -/
theorem always_accounted_of_patient (ops : List (Op κ ο))
    (h : Meets step Patient (new : RemoteConnectionMap κ ο) ops) :
    Always step Accounted (new : RemoteConnectionMap κ ο) ops := by
  have hinv : Always step Inv (new : RemoteConnectionMap κ ο) ops :=
    h.always (fun _ op hs => hs.step op) new_inv
  exact hinv.mono fun _ hs => hs.accounted

/-- A process that is created, announces itself and goes, and a client that nobody launched. -/
theorem always_accounted_two : Always step Accounted (new : RemoteConnectionMap Nat Nat)
    [.register 0, .create, .launch 1 true, .request 7 1 true, .trigger 1, .finish 1, .announce 8,
      .exit 1, .close 7, .closed 1, .register 3, .close 8, .closed 2] := by
  apply always_accounted_of_patient
  simp [Meets, Patient, step, register, create, launch, new]

/-- A process that could not be started stays in the map. -/
theorem not_accounted_launch :
    ¬ ∀ ops : List (Op Nat Nat), Always step Accounted (new : RemoteConnectionMap Nat Nat) ops := by
  intro h
  have hfailed := (h [.create, .launch 1 false, .finish 1]).last.failed 1 ⟨0, none⟩
    (by simp [after, step, create, launch, finish, release, new])
  have hstays := (hfailed rfl).2.2
    ⟨by simp [after, step, create, launch, finish, release, new],
      by simp [after, step, create, launch, finish, release, new]⟩
  exact hstays (by simp [after, step, create, launch, finish, release, new])

end Runs

end RemoteConnectionMap

end Thunder.RPC
