import Mathlib.Data.List.Nodup
import Mathlib.Tactic.SplitIfs
import Thunder.Library.Run

/-! `ResourceMonitorType`: one thread that polls the descriptors of all registered resources.  In a
round the worker fills an array of descriptors from a vector of resources, polls it without the
lock, and then walks the array and the vector side by side, while resources come and go.  An access
outside the vector or the array, or through an iterator of a block that is gone, has no result. -/

namespace Thunder.Core.ResourceMonitorType

open Run

/-! ### The vector -/

/-- `RESOURCE_SLOTS`, how the capacity of a vector grows, and what `signalfd` gave. -/
structure Parameters where
  slots : Nat
  slotsPos : 0 < slots
  grow : Nat → Nat
  larger : ∀ capacity, capacity < grow capacity
  signalDescriptor : Int

/-- A vector of pointers; a reallocation takes another block of memory. -/
structure Resources (R : Type*) where
  entries : List (Option R)
  capacity : Nat
  block : Nat

structure Iterator where
  block : Nat
  position : Nat

namespace Resources

variable {R : Type*}

def start (v : Resources R) : Iterator := ⟨v.block, 0⟩

def atEnd (v : Resources R) (index : Iterator) : Bool := index.position = v.entries.length

def get (v : Resources R) (index : Iterator) : Option (Option R) :=
  if index.block = v.block then v.entries[index.position]? else none

def next (v : Resources R) (index : Iterator) : Option Iterator :=
  if index.block = v.block ∧ index.position < v.entries.length then
    some ⟨index.block, index.position + 1⟩
  else none

def pushBack (p : Parameters) (v : Resources R) (entry : R) : Resources R :=
  if v.entries.length < v.capacity then { v with entries := v.entries ++ [some entry] }
  else ⟨v.entries ++ [some entry], p.grow v.capacity, v.block + 1⟩

/-- The loop that brings an iterator to the position of `current`. -/
def advance (v : Resources R) : Nat → Iterator → Option Iterator
  | 0, index => some index
  | 1, index => some index
  | current + 2, index =>
    if v.atEnd index then some index else (v.next index).bind (v.advance (current + 1))

end Resources

/-! ### The monitor -/

structure PollFd where
  fd : Int
  events : UInt16
  revents : UInt16
  deriving DecidableEq, Repr

def pollIn : UInt16 := 1

/-- The states of the thread, once it is started. -/
inductive ThreadState
  | running
  | deactivate
  | blocked
  deriving DecidableEq, Repr

/-- `monitor` is the state of the thread, if there is one; `signalled` tells if the signal of
`Break` is still to be read. -/
structure Monitor (R : Type*) where
  resources : Resources R
  descriptorArrayLength : Nat
  descriptorArray : List (Option PollFd)
  monitor : Option ThreadState
  signalled : Bool

inductive Call (R : Type*)
  | register (resource : R)
  | unregister (resource : R)
  deriving DecidableEq

/-- A write to the array. -/
def store (array : List (Option PollFd)) (position : Nat) (entry : PollFd) :
    Option (List (Option PollFd)) :=
  if position < array.length then some (array.set position (some entry)) else none

namespace Monitor

variable {R : Type*}

def new (p : Parameters) : Monitor R where
  resources := ⟨[], 0, 0⟩
  descriptorArrayLength := p.slots
  descriptorArray := List.replicate (p.slots + 1) none
  monitor := none
  signalled := false

def signalEntry (p : Parameters) : PollFd := ⟨p.signalDescriptor, pollIn, 0⟩

/-- `Break` needs a thread. -/
def interrupt (s : Monitor R) : Option (Monitor R) :=
  if s.monitor = none then none else some { s with signalled := true }

/-- `Initialize`, by the new thread. -/
def initial (p : Parameters) (s : Monitor R) : Option (Monitor R) :=
  (store s.descriptorArray 0 (signalEntry p)).map fun array =>
    { s with descriptorArray := array, monitor := some .blocked }

section Calls

variable [DecidableEq R]

def register (p : Parameters) (s : Monitor R) (resource : R) : Option (Monitor R) :=
  let s := if some resource ∈ s.resources.entries then s
    else { s with resources := s.resources.pushBack p resource }
  if s.resources.entries.length = 1 then
    (if s.monitor = none then s.initial p else some s).map fun s =>
      { s with monitor := some .running }
  else s.interrupt

def unregister (s : Monitor R) (resource : R) : Option (Monitor R) :=
  if some resource ∈ s.resources.entries then
    interrupt { s with
      resources := { s.resources with
        entries := s.resources.entries.replace (some resource) none } }
  else some s

def call (p : Parameters) (s : Monitor R) : Call R → Option (Monitor R)
  | .register resource => s.register p resource
  | .unregister resource => s.unregister resource

end Calls

/-- The start of `Worker`: an array of sufficient size. -/
def reserve (p : Parameters) (s : Monitor R) : Option (Monitor R) :=
  if s.resources.entries.length + 1 > s.descriptorArrayLength then
    let length := ((s.resources.entries.length + 1) / p.slots + 1) * p.slots
    (store (List.replicate length none) 0 (signalEntry p)).map fun array =>
      { s with descriptorArrayLength := length, descriptorArray := array }
  else some s

/-- The loop that fills the array from a position on, and erases what is not to be polled. -/
def fill (events : R → UInt16) (descriptor : R → Int) :
    List (Option R) → List (Option PollFd) → Nat →
      Option (List (Option R) × List (Option PollFd) × Nat)
  | [], array, filled => some ([], array, filled)
  | none :: rest, array, filled => fill events descriptor rest array filled
  | some entry :: rest, array, filled =>
    if events entry = 0 then fill events descriptor rest array filled
    else
      (store array filled ⟨descriptor entry, events entry, 0⟩).bind fun array =>
        (fill events descriptor rest array (filled + 1)).map fun (kept, array, filled) =>
          (some entry :: kept, array, filled)

/-- `Worker` up to `poll`, with the number of descriptors that are to be polled, or to the end if
there is nothing to poll. -/
def setUp (p : Parameters) (events : R → UInt16) (descriptor : R → Int) (s : Monitor R) :
    Option (Monitor R × Option Nat) :=
  (s.reserve p).bind fun s =>
    (fill events descriptor s.resources.entries s.descriptorArray 1).map
      fun (entries, array, filled) =>
        let s := { s with
          resources := { s.resources with entries := entries }
          descriptorArray := array }
        if filled > 1 then (s, some filled) else ({ s with monitor := some .deactivate }, none)

/-- What `poll` writes to the array; no answer is an error. -/
def answered (filled : Nat) (answer : Option (Nat → UInt16)) (array : List (Option PollFd)) :
    List (Option PollFd) :=
  match answer with
  | none => array
  | some report =>
    array.mapIdx fun k entry =>
      if k < filled then entry.map fun fd => { fd with revents := report k } else entry

def revents (s : Monitor R) (position : Nat) : Option UInt16 :=
  (s.descriptorArray[position]?).join.map PollFd.revents

/-- Behind `poll`, the signal is read. -/
def wake (filled : Nat) (answer : Option (Nat → UInt16)) (s : Monitor R) : Option (Monitor R) :=
  let s := { s with descriptorArray := answered filled answer s.descriptorArray }
  if answer.isNone then some s
  else
    (s.revents 0).map fun flags =>
      if flags &&& pollIn ≠ 0 then { s with signalled := false } else s

end Monitor

/-! ### The walk -/

/-- What happens from the set-up of a round on. -/
inductive Event (R : Type*)
  | handle (resource : R) (flags : UInt16)
  | call (call : Call R)
  deriving DecidableEq

/-- The monitor, with what is registered according to the calls, and the events since the last
set-up. -/
structure World (R : Type*) where
  monitor : Monitor R
  registered : List R
  trace : List (Event R)

structure Walk (R : Type*) where
  world : World R
  fdIndex : Nat
  index : Iterator
  capacity : Nat

section Walks

variable {R : Type*} [DecidableEq R]

/-- What a call is for. -/
def Call.registered (registered : List R) : Call R → List R
  | .register resource =>
    if resource ∈ registered then registered else registered ++ [resource]
  | .unregister resource => registered.filter (· ≠ resource)

namespace World

def call (p : Parameters) (w : World R) (call : Call R) : Option (World R) :=
  (w.monitor.call p call).map fun monitor =>
    ⟨monitor, call.registered w.registered, w.trace ++ [.call call]⟩

def calls (p : Parameters) (w : World R) : List (Call R) → Option (World R)
  | [] => some w
  | call :: calls => (w.call p call).bind fun w => World.calls p w calls

/-- `Handle`, and the calls that it makes. -/
def handle (p : Parameters) (w : World R) (resource : R) (flags : UInt16) (calls : List (Call R)) :
    Option (World R) :=
  World.calls p { w with trace := w.trace ++ [.handle resource flags] } calls

end World

namespace Walk

/-- What a turn does for an entry; one that was removed in the meantime has none. -/
def serve (p : Parameters) (handle : Nat → List (Call R)) (w : Walk R) :
    Option R → Option (World R)
  | none => some w.world
  | some resource =>
    (w.world.monitor.revents w.fdIndex).bind fun flags =>
      w.world.handle p resource flags (handle w.fdIndex)

/-- The iterator goes on, or is taken anew if the capacity tells of a reallocation. -/
def goOn (w : Walk R) (world : World R) : Option (Walk R) :=
  let fdIndex := w.fdIndex + 1
  if w.capacity = world.monitor.resources.capacity then
    (world.monitor.resources.next w.index).map fun index => ⟨world, fdIndex, index, w.capacity⟩
  else
    (world.monitor.resources.advance fdIndex world.monitor.resources.start).map fun index =>
      ⟨world, fdIndex, index, world.monitor.resources.capacity⟩

/-- A turn of the loop over the array. -/
def turn (p : Parameters) (handle : Nat → List (Call R)) (w : Walk R) : Option (Walk R) :=
  (w.world.monitor.resources.get w.index).bind fun entry => (w.serve p handle entry).bind w.goOn

def turns (p : Parameters) (handle : Nat → List (Call R)) : Nat → Walk R → Option (Walk R)
  | 0, w => some w
  | count + 1, w => (w.turn p handle).bind (turns p handle count)

end Walk

/-- The loop, for as long as the index of the array is less than `filled`. -/
def World.walk (p : Parameters) (handle : Nat → List (Call R)) (filled : Nat) (w : World R) :
    Option (World R) :=
  (Walk.turns p handle (filled - 1)
    ⟨w, 1, w.monitor.resources.start, w.monitor.resources.capacity⟩).map Walk.world

end Walks

/-! ### The system -/

/-- A round: what was registered when it was set up, what the resources answered then, what was
given to `poll` and what it answered, and the events up to the end of the round. -/
structure Round (R : Type*) where
  registered : List R
  events : R → UInt16
  descriptor : R → Int
  asked : List (Option PollFd)
  answer : Option (Nat → UInt16)
  trace : List (Event R)

/-- The worker may be in `poll`, with the number of its descriptors. -/
structure System (R : Type*) where
  world : World R
  polling : Option (Nat × Round R)
  rounds : List (Round R)
  fault : Bool

/-- Calls of other threads; `Worker` up to `poll` and from there on, with what the resources and
`poll` answer and the calls that each `Handle` makes; and the thread that blocks. -/
inductive Op (R : Type*)
  | call (call : Call R)
  | setUp (events : R → UInt16) (descriptor : R → Int)
  | wake (answer : Option (Nat → UInt16)) (handle : Nat → List (Call R))
  | block

namespace System

variable {R : Type*} [DecidableEq R]

omit [DecidableEq R] in
def new (p : Parameters) : System R where
  world := ⟨.new p, [], []⟩
  polling := none
  rounds := []
  fault := false

def step (p : Parameters) (s : System R) : Op R → System R
  | .call call =>
    match s.world.call p call with
    | none => { s with fault := true }
    | some world => { s with world := world }
  | .setUp events descriptor =>
    if s.world.monitor.monitor = some .running ∧ s.polling = none then
      match s.world.monitor.setUp p events descriptor with
      | none => { s with fault := true }
      | some (monitor, polling) =>
        let registered := s.world.registered
        { s with
          world := ⟨monitor, registered.filter fun resource => events resource ≠ 0, []⟩
          polling := polling.map fun filled => (filled,
            ⟨registered, events, descriptor, (monitor.descriptorArray.take filled).drop 1,
              none, []⟩) }
    else s
  | .wake answer handle =>
    match s.polling with
    | none => s
    | some (filled, round) =>
      match (s.world.monitor.wake filled answer).bind fun monitor =>
        World.walk p handle filled { s.world with monitor := monitor } with
      | none => { s with fault := true }
      | some world =>
        { s with
          world := world
          polling := none
          rounds := s.rounds ++ [{ round with answer := answer, trace := world.trace }] }
  | .block =>
    if s.world.monitor.monitor = some .deactivate then
      { s with world := { s.world with
          monitor := { s.world.monitor with monitor := some .blocked } } }
    else s

end System

/-! ### What is to hold -/

section Statement

variable {R : Type*}

/-- The resources that a round is for. -/
def Round.watched (round : Round R) : List R :=
  round.registered.filter fun resource => round.events resource ≠ 0

/-- What `poll` reported for a position of the array. -/
def Round.flags (round : Round R) (position : Nat) : UInt16 :=
  match round.answer with
  | none => 0
  | some report => report position

/-- Each watched resource has a descriptor of its own in the array, with the events that it asked
for. -/
structure Round.WellSetUp (round : Round R) : Prop where
  distinct : round.watched.Nodup
  some : round.watched ≠ []
  asked : round.asked = round.watched.map fun resource =>
    Option.some ⟨round.descriptor resource, round.events resource, 0⟩

/-- By the end of `trace` the resource was handled, or unregistered. -/
def Settled (trace : List (Event R)) (resource : R) : Prop :=
  (∃ flags, Event.handle resource flags ∈ trace) ∨ Event.call (.unregister resource) ∈ trace

/-- Each `Handle` is for a watched resource, with what was reported for its descriptor; the resource
was neither handled nor unregistered before, and all that precede it in the array are settled.  At
the end all are. -/
structure Round.Right (round : Round R) : Prop extends round.WellSetUp where
  each : ∀ n resource flags, round.trace[n]? = Option.some (.handle resource flags) →
    ∃ k, round.watched[k]? = Option.some resource ∧ flags = round.flags (k + 1) ∧
      ¬ Settled (round.trace.take n) resource ∧
      ∀ earlier ∈ round.watched.take k, Settled (round.trace.take n) earlier
  all : ∀ resource ∈ round.watched, Settled round.trace resource

/-- Nothing goes wrong; the vector holds what is registered; the thread runs if something is; the
rounds are right; and a change that comes while the worker is in `poll` is signalled. -/
structure System.Faithful (s : System R) : Prop where
  intact : s.fault = false
  registered : s.world.monitor.resources.entries.filterMap id = s.world.registered
  runs : s.world.registered ≠ [] → s.world.monitor.monitor = some .running
  rounds : ∀ round ∈ s.rounds, round.Right
  polling : ∀ filled round, s.polling = some (filled, round) →
    round.WellSetUp ∧ (s.world.registered ≠ round.watched → s.world.monitor.signalled = true)

end Statement

/-! ### What a call does -/

namespace Resources

variable {R : Type*} (p : Parameters) {v : Resources R}

theorem entries_pushBack (entry : R) :
    (v.pushBack p entry).entries = v.entries ++ [some entry] := by
  rw [pushBack]
  split_ifs <;> rfl

/-- Behind a new element the block is the same, or the capacity tells. -/
theorem pushBack_block (entry : R) :
    ((v.pushBack p entry).capacity = v.capacity ∧ (v.pushBack p entry).block = v.block) ∨
      v.capacity < (v.pushBack p entry).capacity := by
  rw [pushBack]
  split_ifs
  · exact .inl ⟨rfl, rfl⟩
  · exact .inr (p.larger _)

theorem pushBack_capacity (h : v.entries.length ≤ v.capacity) (entry : R) :
    (v.pushBack p entry).entries.length ≤ (v.pushBack p entry).capacity := by
  have hlarger := p.larger v.capacity
  rw [entries_pushBack, List.length_append, List.length_singleton, pushBack]
  split_ifs with hroom
  · exact hroom
  · show v.entries.length + 1 ≤ p.grow v.capacity
    omega

end Resources

section Proofs

variable {R : Type*} [DecidableEq R] {p : Parameters}

/-- What a call makes of an entry. -/
def Call.kept : Call R → Option R → Option R
  | .register _, entry => entry
  | .unregister resource, entry => if entry = some resource then none else entry

omit [DecidableEq R] in
theorem mem_filterMap_id {entries : List (Option R)} {resource : R} :
    some resource ∈ entries ↔ resource ∈ entries.filterMap id := by
  rw [List.mem_filterMap]
  constructor
  · exact fun h => ⟨some resource, h, rfl⟩
  · rintro ⟨entry, hmem, rfl⟩
    exact hmem

theorem kept_of_not_mem {entries : List (Option R)} {resource : R}
    (h : some resource ∉ entries) : entries.map (Call.kept (.unregister resource)) = entries := by
  refine (List.map_congr_left fun entry hmem => if_neg ?_).trans (List.map_id entries)
  rintro rfl
  exact h hmem

/-- A resource that is there at most once is removed by removing it everywhere. -/
theorem replace_eq_map {entries : List (Option R)} (h : (entries.filterMap id).Nodup)
    (resource : R) :
    entries.replace (some resource) none = entries.map (Call.kept (.unregister resource)) := by
  induction entries with
  | nil => rfl
  | cons entry rest ih =>
    cases entry with
    | none => simp [List.replace_cons, ih h, Call.kept]
    | some first =>
      rw [List.filterMap_cons_some (f := id) rfl, List.nodup_cons, ← mem_filterMap_id] at h
      by_cases heq : first = resource
      · subst heq
        simp [List.replace_cons_self, kept_of_not_mem h.1, Call.kept]
      · have hbeq : (resource == first) = false := beq_eq_false_iff_ne.mpr (Ne.symm heq)
        simp [List.replace_cons, ih h.2, Call.kept, heq, hbeq]

/-- The vector and the array of a monitor between two accesses. -/
structure Sound (w : World R) : Prop where
  registered : w.monitor.resources.entries.filterMap id = w.registered
  nodup : w.registered.Nodup
  capacity : w.monitor.resources.entries.length ≤ w.monitor.resources.capacity
  runs : w.monitor.resources.entries ≠ [] → w.monitor.monitor = some .running
  room : 1 ≤ w.monitor.descriptorArrayLength
  length : w.monitor.descriptorArrayLength ≤ w.monitor.descriptorArray.length
  signal : w.monitor.monitor ≠ none → ∃ fd, w.monitor.descriptorArray[0]? = some (some fd)

/-- What a call leaves as it was, and what not. -/
structure Called (call : Call R) (w w' : World R) : Prop where
  sound : Sound w'
  registered : w'.registered = call.registered w.registered
  trace : w'.trace = w.trace ++ [.call call]
  kept : ∃ extra, w'.monitor.resources.entries =
    w.monitor.resources.entries.map call.kept ++ extra
  block : (w'.monitor.resources.capacity = w.monitor.resources.capacity ∧
      w'.monitor.resources.block = w.monitor.resources.block) ∨
    w.monitor.resources.capacity < w'.monitor.resources.capacity
  array : w.monitor.monitor ≠ none → w'.monitor.descriptorArray = w.monitor.descriptorArray
  signalled : w.monitor.resources.entries ≠ [] →
    (w.monitor.signalled = true ∨ w'.registered ≠ w.registered) → w'.monitor.signalled = true

omit [DecidableEq R] in
theorem interrupt_running {m : Monitor R} (h : m.monitor = some .running) :
    m.interrupt = some { m with signalled := true } := by
  rw [Monitor.interrupt, if_neg (by simp [h])]

theorem call_eq {w : World R} {call : Call R} {monitor : Monitor R}
    (h : w.monitor.call p call = some monitor) :
    w.call p call = some ⟨monitor, call.registered w.registered, w.trace ++ [.call call]⟩ := by
  rw [World.call, h, Option.map_some]

/-- A resource that is registered already. -/
theorem Sound.register_again {w : World R} (h : Sound w) {resource : R}
    (hmem : some resource ∈ w.monitor.resources.entries) :
    ∃ w', w.call p (.register resource) = some w' ∧ Called (.register resource) w w' := by
  have hne : w.monitor.resources.entries ≠ [] := List.ne_nil_of_mem hmem
  have hrunning := h.runs hne
  have hregistered : Call.registered w.registered (.register resource) = w.registered :=
    if_pos (h.registered ▸ mem_filterMap_id.mp hmem)
  have hkept : w.monitor.resources.entries =
      w.monitor.resources.entries.map (Call.kept (.register resource)) ++ [] := by
    rw [List.append_nil]
    exact (List.map_id _).symm
  by_cases hone : w.monitor.resources.entries.length = 1
  · have hcall : w.monitor.call p (.register resource) =
        some { w.monitor with monitor := some .running } := by
      simp only [Monitor.call, Monitor.register, if_pos hmem, if_pos hone]
      rw [if_neg (by simp [hrunning])]
      rfl
    refine ⟨_, call_eq hcall, ⟨h.registered.trans hregistered.symm, hregistered.symm ▸ h.nodup,
      h.capacity, fun _ => rfl, h.room, h.length, fun _ => ?_⟩, rfl, rfl, ⟨[], hkept⟩,
      .inl ⟨rfl, rfl⟩, fun _ => rfl, ?_⟩
    · exact h.signal (by simp [hrunning])
    · rintro - (hsignalled | hchanged)
      · exact hsignalled
      · exact absurd hregistered hchanged
  · have hcall : w.monitor.call p (.register resource) =
        some { w.monitor with signalled := true } := by
      simp only [Monitor.call, Monitor.register, if_pos hmem, if_neg hone]
      exact interrupt_running hrunning
    exact ⟨_, call_eq hcall, ⟨h.registered.trans hregistered.symm, hregistered.symm ▸ h.nodup,
      h.capacity, h.runs, h.room, h.length, h.signal⟩, rfl, rfl, ⟨[], hkept⟩, .inl ⟨rfl, rfl⟩,
      fun _ => rfl, fun _ _ => rfl⟩

/-- What a new resource makes of the vector. -/
theorem Sound.push {w : World R} (h : Sound w) (p : Parameters) {resource : R}
    (hmem : some resource ∉ w.monitor.resources.entries) :
    (w.monitor.resources.pushBack p resource).entries.filterMap id =
      Call.registered w.registered (.register resource) ∧
    (Call.registered w.registered (.register resource)).Nodup := by
  have hnew : resource ∉ w.registered := by
    rwa [← h.registered, ← mem_filterMap_id]
  have hregistered : Call.registered w.registered (.register resource) =
      w.registered ++ [resource] := if_neg hnew
  rw [hregistered, Resources.entries_pushBack, List.filterMap_append, h.registered]
  exact ⟨rfl, List.nodup_append.mpr ⟨h.nodup, List.nodup_singleton _, by
    rintro other hother _ hlast rfl
    exact hnew (List.mem_singleton.mp hlast ▸ hother)⟩⟩

/-- The first resource of all starts the thread. -/
theorem Sound.register_first {w : World R} (h : Sound w) {resource : R}
    (hnil : w.monitor.resources.entries = []) :
    ∃ w', w.call p (.register resource) = some w' ∧ Called (.register resource) w w' := by
  have hmem : some resource ∉ w.monitor.resources.entries := by simp [hnil]
  obtain ⟨hregistered, hnodup⟩ := h.push p hmem
  have hentries := Resources.entries_pushBack p (v := w.monitor.resources) resource
  have hkept : (w.monitor.resources.pushBack p resource).entries =
      w.monitor.resources.entries.map (Call.kept (.register resource)) ++ [some resource] := by
    rw [hentries, hnil]
    rfl
  have hone : (w.monitor.resources.pushBack p resource).entries.length = 1 := by
    rw [hentries, hnil]
    rfl
  have hcapacity := Resources.pushBack_capacity p h.capacity resource
  have hblock := Resources.pushBack_block p (v := w.monitor.resources) resource
  cases hmonitor : w.monitor.monitor with
  | none =>
    have hroom : 0 < w.monitor.descriptorArray.length := Nat.lt_of_lt_of_le h.room h.length
    have hcall : w.monitor.call p (.register resource) = some { w.monitor with
        resources := w.monitor.resources.pushBack p resource
        descriptorArray := w.monitor.descriptorArray.set 0 (some (Monitor.signalEntry p))
        monitor := some .running } := by
      simp only [Monitor.call, Monitor.register, if_neg hmem, if_pos hone, hmonitor,
        Monitor.initial, store, if_pos hroom, if_true]
      rfl
    refine ⟨_, call_eq hcall, ⟨hregistered, hnodup, hcapacity, fun _ => rfl, h.room, ?_,
      fun _ => ⟨Monitor.signalEntry p, List.getElem?_set_self hroom⟩⟩, rfl, rfl, ⟨_, hkept⟩, hblock,
      fun hne => absurd hmonitor hne, fun hne => absurd hnil hne⟩
    rw [List.length_set]
    exact h.length
  | some state =>
    have hcall : w.monitor.call p (.register resource) = some { w.monitor with
        resources := w.monitor.resources.pushBack p resource
        monitor := some .running } := by
      simp only [Monitor.call, Monitor.register, if_neg hmem, if_pos hone, hmonitor]
      rfl
    refine ⟨_, call_eq hcall, ⟨hregistered, hnodup, hcapacity, fun _ => rfl, h.room, h.length,
      fun _ => ?_⟩, rfl, rfl, ⟨_, hkept⟩, hblock, fun _ => rfl, fun hne => absurd hnil hne⟩
    exact h.signal (by simp [hmonitor])

/-- A new resource beside others. -/
theorem Sound.register_more {w : World R} (h : Sound w) {resource : R}
    (hmem : some resource ∉ w.monitor.resources.entries)
    (hne : w.monitor.resources.entries ≠ []) :
    ∃ w', w.call p (.register resource) = some w' ∧ Called (.register resource) w w' := by
  obtain ⟨hregistered, hnodup⟩ := h.push p hmem
  have hrunning := h.runs hne
  have hentries := Resources.entries_pushBack p (v := w.monitor.resources) resource
  have hkept : (w.monitor.resources.pushBack p resource).entries =
      w.monitor.resources.entries.map (Call.kept (.register resource)) ++ [some resource] := by
    rw [hentries]
    exact congrArg (· ++ [some resource]) (List.map_id _).symm
  have hmore : (w.monitor.resources.pushBack p resource).entries.length ≠ 1 := by
    have hpos := List.length_pos_of_ne_nil hne
    rw [hentries, List.length_append, List.length_singleton]
    omega
  have hcall : w.monitor.call p (.register resource) = some { w.monitor with
      resources := w.monitor.resources.pushBack p resource
      signalled := true } := by
    simp only [Monitor.call, Monitor.register, if_neg hmem, if_neg hmore]
    exact interrupt_running hrunning
  exact ⟨_, call_eq hcall, ⟨hregistered, hnodup, Resources.pushBack_capacity p h.capacity resource,
    fun _ => hrunning, h.room, h.length, h.signal⟩, rfl, rfl, ⟨_, hkept⟩,
    Resources.pushBack_block p resource, fun _ => rfl, fun _ _ => rfl⟩

theorem filterMap_kept (entries : List (Option R)) (resource : R) :
    (entries.map (Call.kept (.unregister resource))).filterMap id =
      (entries.filterMap id).filter (· ≠ resource) := by
  induction entries with
  | nil => rfl
  | cons entry rest ih =>
    cases entry with
    | none => simpa [Call.kept] using ih
    | some first =>
      by_cases heq : first = resource
      · simpa [Call.kept, heq] using ih
      · simpa [Call.kept, heq] using ih

theorem Sound.unregister {w : World R} (h : Sound w) (resource : R) :
    ∃ w', w.call p (.unregister resource) = some w' ∧ Called (.unregister resource) w w' := by
  have hnodup : (Call.registered w.registered (.unregister resource)).Nodup := h.nodup.filter _
  by_cases hmem : some resource ∈ w.monitor.resources.entries
  · have hrunning := h.runs (List.ne_nil_of_mem hmem)
    have hreplace := replace_eq_map (h.registered ▸ h.nodup) resource
    have hcall : w.monitor.call p (.unregister resource) = some { w.monitor with
        resources := { w.monitor.resources with
          entries := w.monitor.resources.entries.map (Call.kept (.unregister resource)) }
        signalled := true } := by
      simp only [Monitor.call, Monitor.unregister, if_pos hmem, hreplace]
      exact interrupt_running hrunning
    refine ⟨_, call_eq hcall, ⟨?_, hnodup, ?_, fun _ => hrunning, h.room, h.length, h.signal⟩, rfl,
      rfl, ⟨[], (List.append_nil _).symm⟩, .inl ⟨rfl, rfl⟩, fun _ => rfl, fun _ _ => rfl⟩
    · rw [filterMap_kept, h.registered]
      rfl
    · rw [List.length_map]
      exact h.capacity
  · have hregistered : Call.registered w.registered (.unregister resource) = w.registered := by
      refine List.filter_eq_self.mpr fun other hother => ?_
      rw [decide_eq_true_iff]
      rintro rfl
      exact hmem (mem_filterMap_id.mpr (h.registered ▸ hother))
    have hcall : w.monitor.call p (.unregister resource) = some w.monitor := by
      simp only [Monitor.call, Monitor.unregister, if_neg hmem]
    refine ⟨_, call_eq hcall, ⟨h.registered.trans hregistered.symm, hnodup, h.capacity, h.runs,
      h.room, h.length, h.signal⟩, rfl, rfl, ⟨[], ?_⟩, .inl ⟨rfl, rfl⟩, fun _ => rfl, ?_⟩
    · rw [List.append_nil, kept_of_not_mem hmem]
    · rintro - (hsignalled | hchanged)
      · exact hsignalled
      · exact absurd hregistered hchanged

/-- No call goes wrong. -/
theorem Sound.call {w : World R} (h : Sound w) (p : Parameters) (call : Call R) :
    ∃ w', w.call p call = some w' ∧ Called call w w' := by
  cases call with
  | unregister resource => exact h.unregister resource
  | register resource =>
    by_cases hmem : some resource ∈ w.monitor.resources.entries
    · exact h.register_again hmem
    · by_cases hnil : w.monitor.resources.entries = []
      · exact h.register_first hnil
      · exact h.register_more hmem hnil

/-! ### The set-up -/

omit [DecidableEq R] in
/-- The array behind a number of writes. -/
theorem fill_eq (events : R → UInt16) (descriptor : R → Int) {entries : List (Option R)}
    {array : List (Option PollFd)} {filled : Nat} (hroom : filled + entries.length ≤ array.length) :
    ∃ array', Monitor.fill events descriptor entries array filled =
        some (((entries.filterMap id).filter fun resource => events resource ≠ 0).map some, array',
          filled + ((entries.filterMap id).filter fun resource => events resource ≠ 0).length) ∧
      array'.length = array.length ∧
      (∀ j < filled, array'[j]? = array[j]?) ∧
      ∀ k resource,
        ((entries.filterMap id).filter fun resource => events resource ≠ 0)[k]? = some resource →
        array'[filled + k]? = some (some ⟨descriptor resource, events resource, 0⟩) := by
  induction entries generalizing array filled with
  | nil => exact ⟨array, rfl, rfl, fun _ _ => rfl, fun k resource h => by simp at h⟩
  | cons entry rest ih =>
    rw [List.length_cons] at hroom
    cases entry with
    | none => exact ih (by omega)
    | some first =>
      rw [List.filterMap_cons_some (f := id) rfl, Monitor.fill]
      by_cases hevents : events first = 0
      · rw [if_pos hevents, List.filter_cons_of_neg (by simp [hevents])]
        exact ih (by omega)
      · have hin : filled < array.length := by omega
        have hlength : (array.set filled (some ⟨descriptor first, events first, 0⟩)).length =
            array.length := List.length_set
        have hroom' : filled + 1 + rest.length ≤
            (array.set filled (some ⟨descriptor first, events first, 0⟩)).length := by omega
        obtain ⟨array', hfill, hlength', hbefore, hat⟩ := ih hroom'
        rw [if_neg hevents, List.filter_cons_of_pos (by simpa using hevents), store, if_pos hin,
          Option.bind_some, hfill]
        refine ⟨array', ?_, hlength'.trans hlength, fun j hj => ?_, fun k resource hk => ?_⟩
        · rw [Option.map_some, List.length_cons, Nat.add_right_comm, Nat.add_assoc, List.map_cons]
        · rw [hbefore j (by omega), List.getElem?_set_ne (by omega)]
        · cases k with
          | zero =>
            obtain rfl : first = resource := by simpa using hk
            rw [Nat.add_zero, hbefore filled (by omega), List.getElem?_set_self hin]
          | succ k =>
            rw [show filled + (k + 1) = filled + 1 + k by omega]
            exact hat k resource (by simpa using hk)

omit [DecidableEq R] in
/-- Behind `reserve` the array has room for all of the vector. -/
theorem reserve_eq (p : Parameters) (m : Monitor R)
    (hlength : m.descriptorArrayLength ≤ m.descriptorArray.length)
    (hsignal : ∃ fd, m.descriptorArray[0]? = some (some fd)) :
    ∃ length array, m.reserve p =
        some { m with descriptorArrayLength := length, descriptorArray := array } ∧
      m.resources.entries.length + 1 ≤ length ∧ length ≤ array.length ∧
      ∃ fd, array[0]? = some (some fd) := by
  by_cases hsmall : m.resources.entries.length + 1 > m.descriptorArrayLength
  · have hroom : m.resources.entries.length + 1 <
        ((m.resources.entries.length + 1) / p.slots + 1) * p.slots := by
      rw [Nat.mul_comm]
      exact Nat.lt_mul_div_succ _ p.slotsPos
    have hpos : 0 < (List.replicate (((m.resources.entries.length + 1) / p.slots + 1) * p.slots)
        (none : Option PollFd)).length := by
      rw [List.length_replicate]
      omega
    refine ⟨_, _, ?_, Nat.le_of_lt hroom, ?_, Monitor.signalEntry p, List.getElem?_set_self hpos⟩
    · simp only [Monitor.reserve, if_pos hsmall, store, if_pos hpos]
      rfl
    · rw [List.length_set, List.length_replicate]
  · refine ⟨_, _, ?_, Nat.le_of_not_lt hsmall, hlength, hsignal⟩
    rw [Monitor.reserve, if_neg hsmall]

omit [DecidableEq R] in
/-- What a round starts from: the vector is cleaned up, and the array holds the descriptors of what
is left, in the same order. -/
theorem Sound.setUp {w : World R} (h : Sound w) (hrunning : w.monitor.monitor = some .running)
    (events : R → UInt16) (descriptor : R → Int) {watched : List R}
    (hwatched : watched = w.registered.filter fun resource => events resource ≠ 0) :
    ∃ m, w.monitor.setUp p events descriptor =
        some (m, if watched = [] then none else some (watched.length + 1)) ∧
      Sound ⟨m, watched, []⟩ ∧ m.resources.entries = watched.map some ∧
      ∀ k resource, watched[k]? = some resource →
        m.descriptorArray[k + 1]? = some (some ⟨descriptor resource, events resource, 0⟩) := by
  obtain ⟨length, array, hreserve, hroom, hlength, fd, hfd⟩ :=
    reserve_eq p w.monitor h.length (h.signal (by simp [hrunning]))
  have hfits : 1 + w.monitor.resources.entries.length ≤ array.length := by omega
  obtain ⟨array', hfill, hlength', hbefore, hat⟩ := fill_eq events descriptor hfits
  rw [h.registered, ← hwatched] at hfill hat
  have hsetUp : w.monitor.setUp p events descriptor =
      let m : Monitor R := { w.monitor with
        resources := { w.monitor.resources with entries := watched.map some }
        descriptorArrayLength := length
        descriptorArray := array' }
      some (if 1 + watched.length > 1 then (m, some (1 + watched.length))
        else ({ m with monitor := some .deactivate }, none)) := by
    rw [Monitor.setUp, hreserve, Option.bind_some]
    dsimp only
    rw [hfill]
    rfl
  have hnodup : watched.Nodup := hwatched ▸ h.nodup.filter _
  have hentries : (watched.map some).filterMap id = watched := by
    rw [List.filterMap_map]
    exact List.filterMap_some
  have hcapacity : (watched.map some).length ≤ w.monitor.resources.capacity := by
    have hfilter : (w.registered.filter fun resource => decide (events resource ≠ 0)).length ≤
        w.registered.length := List.length_filter_le _ _
    have hvector := List.length_filterMap_le (id : Option R → Option R)
      (l := w.monitor.resources.entries)
    rw [h.registered] at hvector
    rw [← hwatched] at hfilter
    rw [List.length_map]
    exact (hfilter.trans hvector).trans h.capacity
  have hroom' : 1 ≤ length := by omega
  have hsignal : ∃ fd, array'[0]? = some (some fd) := ⟨fd, (hbefore 0 Nat.one_pos).trans hfd⟩
  have hat' : ∀ k resource, watched[k]? = some resource →
      array'[k + 1]? = some (some ⟨descriptor resource, events resource, 0⟩) := by
    intro k resource hk
    rw [Nat.add_comm]
    exact hat k resource hk
  by_cases hnil : watched = []
  · subst hnil
    rw [if_pos rfl]
    exact ⟨_, hsetUp, ⟨rfl, List.nodup_nil, Nat.zero_le _, fun hne => absurd rfl hne, hroom',
      hlength'.symm ▸ hlength, fun _ => hsignal⟩, rfl, hat'⟩
  · have hpos := List.length_pos_of_ne_nil hnil
    rw [if_neg hnil, Nat.add_comm]
    dsimp only at hsetUp
    rw [if_pos (by omega)] at hsetUp
    exact ⟨_, hsetUp, ⟨hentries, hnodup, hcapacity, fun _ => hrunning, hroom',
      hlength'.symm ▸ hlength, fun _ => hsignal⟩, rfl, hat'⟩

/-! ### The walk -/

/-- What the vector holds of a resource that was set up for the round. -/
def live (trace : List (Event R)) (resource : R) : Option R :=
  if Event.call (.unregister resource) ∈ trace then none else some resource

theorem kept_live (call : Call R) (trace : List (Event R)) (resource : R) :
    call.kept (live trace resource) = live (trace ++ [.call call]) resource := by
  cases call with
  | register other => simp [Call.kept, live]
  | unregister other =>
    by_cases hgone : Event.call (.unregister resource) ∈ trace
    · simp [Call.kept, live, hgone]
    · by_cases heq : resource = other
      · simp [Call.kept, live, heq]
      · simp [Call.kept, live, hgone, heq]

theorem live_handle (trace : List (Event R)) (other : R) (flags : UInt16) (resource : R) :
    live (trace ++ [.handle other flags]) resource = live trace resource := by
  simp [live]

/-- During a round: the vector begins with the resources that were set up for it, the array is in
the same order, and holds `flags` as what `poll` reported. -/
structure Stands (round : Round R) (flags : Nat → UInt16) (w : World R) : Prop where
  sound : Sound w
  entries : ∃ extra, w.monitor.resources.entries = round.watched.map (live w.trace) ++ extra
  array : ∀ k resource, round.watched[k]? = some resource →
    w.monitor.descriptorArray[k + 1]? =
      some (some ⟨round.descriptor resource, round.events resource, flags (k + 1)⟩)

variable {round : Round R} {flags : Nat → UInt16}

theorem Stands.ne_nil {w : World R} (h : Stands round flags w) (hbusy : round.watched ≠ []) :
    w.monitor.resources.entries ≠ [] := by
  obtain ⟨extra, hentries⟩ := h.entries
  rw [hentries]
  simp [hbusy]

/-- Memory of the vector that may have been taken anew, which shows in the capacity. -/
def Regrown (w w' : World R) : Prop :=
  (w'.monitor.resources.capacity = w.monitor.resources.capacity ∧
    w'.monitor.resources.block = w.monitor.resources.block) ∨
  w.monitor.resources.capacity < w'.monitor.resources.capacity

omit [DecidableEq R] in
theorem Regrown.trans {w₁ w₂ w₃ : World R} (h : Regrown w₁ w₂) (h' : Regrown w₂ w₃) :
    Regrown w₁ w₃ := by
  rcases h with ⟨hcapacity, hblock⟩ | hmore
  · rcases h' with ⟨hcapacity', hblock'⟩ | hmore'
    · exact .inl ⟨hcapacity'.trans hcapacity, hblock'.trans hblock⟩
    · exact .inr (hcapacity ▸ hmore')
  · rcases h' with ⟨hcapacity', -⟩ | hmore'
    · exact .inr (hcapacity'.symm ▸ hmore)
    · exact .inr (hmore.trans hmore')

theorem Stands.called {w w' : World R} {call : Call R} (h : Stands round flags w)
    (hbusy : round.watched ≠ []) (hcalled : Called call w w') : Stands round flags w' := by
  obtain ⟨extra, hentries⟩ := h.entries
  obtain ⟨more, hkept⟩ := hcalled.kept
  have hrunning := h.sound.runs (h.ne_nil hbusy)
  refine ⟨hcalled.sound, ⟨extra.map call.kept ++ more, ?_⟩, fun k resource hk => ?_⟩
  · rw [hkept, hentries, hcalled.trace, List.map_append, List.map_map, List.append_assoc]
    congr 2
    exact funext (kept_live call w.trace)
  · rw [hcalled.array (by simp [hrunning])]
    exact h.array k resource hk

/-- The calls of one `Handle`. -/
theorem Stands.calls {w : World R} (h : Stands round flags w) (hbusy : round.watched ≠ [])
    (p : Parameters) (calls : List (Call R)) :
    ∃ w', w.calls p calls = some w' ∧ Stands round flags w' ∧ Regrown w w' ∧
      w'.trace = w.trace ++ calls.map .call := by
  induction calls generalizing w with
  | nil => exact ⟨w, rfl, h, .inl ⟨rfl, rfl⟩, (List.append_nil _).symm⟩
  | cons call calls ih =>
    obtain ⟨w₁, hcall, hcalled⟩ := h.sound.call p call
    obtain ⟨w₂, hcalls, hstands, hregrown, htrace⟩ := ih (h.called hbusy hcalled)
    refine ⟨w₂, ?_, hstands, Regrown.trans hcalled.block hregrown, ?_⟩
    · rw [World.calls, hcall, Option.bind_some, hcalls]
    · rw [htrace, hcalled.trace, List.append_assoc]
      rfl

section Traces

variable {past : List (Event R)}

omit [DecidableEq R] in
theorem Settled.append {resource : R} (h : Settled past resource) (more : List (Event R)) :
    Settled (past ++ more) resource := by
  rcases h with ⟨flags, hmem⟩ | hmem
  · exact .inl ⟨flags, List.mem_append_left _ hmem⟩
  · exact .inr (List.mem_append_left _ hmem)

/-- What is to hold of each `Handle` in a trace. -/
def Handled (round : Round R) (flags : Nat → UInt16) (past : List (Event R)) : Prop :=
  ∀ n resource reported, past[n]? = some (.handle resource reported) →
    ∃ k, round.watched[k]? = some resource ∧ reported = flags (k + 1) ∧
      ¬ Settled (past.take n) resource ∧
      ∀ earlier ∈ round.watched.take k, Settled (past.take n) earlier

omit [DecidableEq R] in
theorem Handled.calls (h : Handled round flags past) (calls : List (Call R)) :
    Handled round flags (past ++ calls.map .call) := by
  intro n resource reported hn
  by_cases hlt : n < past.length
  · rw [List.getElem?_append_left hlt] at hn
    rw [List.take_append_of_le_length (Nat.le_of_lt hlt)]
    exact h n resource reported hn
  · rw [List.getElem?_append_right (Nat.le_of_not_lt hlt), List.getElem?_map] at hn
    cases hcall : calls[n - past.length]? <;> simp [hcall] at hn

omit [DecidableEq R] in
theorem Handled.handle (h : Handled round flags past) {k : Nat} {resource : R}
    (hk : round.watched[k]? = some resource) (hnew : ¬ Settled past resource)
    (hdone : ∀ earlier ∈ round.watched.take k, Settled past earlier) :
    Handled round flags (past ++ [.handle resource (flags (k + 1))]) := by
  intro n other reported hn
  by_cases hlt : n < past.length
  · rw [List.getElem?_append_left hlt] at hn
    rw [List.take_append_of_le_length (Nat.le_of_lt hlt)]
    exact h n other reported hn
  · rw [List.getElem?_append_right (Nat.le_of_not_lt hlt), List.getElem?_singleton] at hn
    split_ifs at hn with hzero
    obtain ⟨rfl, rfl⟩ := Event.handle.inj (Option.some.inj hn)
    have hend : n = past.length := by omega
    rw [hend, List.take_left]
    exact ⟨k, hk, rfl, hnew, hdone⟩

end Traces

omit [DecidableEq R] in
theorem advance_eq (v : Resources R) (n i : Nat) (hin : i + n ≤ v.entries.length) :
    v.advance (n + 1) ⟨v.block, i⟩ = some ⟨v.block, i + n⟩ := by
  induction n generalizing i with
  | zero => rfl
  | succ n ih =>
    have hend : ¬ v.atEnd ⟨v.block, i⟩ = true := by
      simp only [Resources.atEnd, decide_eq_true_iff]
      omega
    have hin' : i < v.entries.length := by omega
    rw [Resources.advance, if_neg hend, Resources.next, if_pos ⟨rfl, hin'⟩, Option.bind_some,
      ih (i + 1) (by omega), Nat.add_right_comm, Nat.add_assoc]

/-- The walk in front of a position: the iterator is at it, all resources before it are settled, and
none behind it is handled. -/
structure At (round : Round R) (flags : Nat → UInt16) (k : Nat) (w : Walk R) : Prop where
  stands : Stands round flags w.world
  fdIndex : w.fdIndex = k + 1
  index : w.index = ⟨w.world.monitor.resources.block, k⟩
  capacity : w.capacity = w.world.monitor.resources.capacity
  handled : Handled round flags w.world.trace
  done : ∀ resource ∈ round.watched.take k, Settled w.world.trace resource
  ahead : ∀ resource ∈ round.watched.drop k, ∀ reported,
    Event.handle resource reported ∉ w.world.trace

/-- What a turn makes of the world, for the resource of the position. -/
structure Turned (round : Round R) (flags : Nat → UInt16) (k : Nat) (w w' : World R) : Prop where
  stands : Stands round flags w'
  regrown : Regrown w w'
  handled : Handled round flags w'.trace
  done : ∀ resource ∈ round.watched.take (k + 1), Settled w'.trace resource
  ahead : ∀ resource ∈ round.watched.drop (k + 1), ∀ reported,
    Event.handle resource reported ∉ w'.trace

variable {k : Nat} {w : Walk R} {resource : R}

theorem At.get (h : At round flags k w) (hk : round.watched[k]? = some resource) :
    w.world.monitor.resources.get w.index = some (live w.world.trace resource) := by
  obtain ⟨extra, hentries⟩ := h.stands.entries
  have hlt : k < round.watched.length := (List.getElem?_eq_some_iff.mp hk).1
  rw [Resources.get, h.index, if_pos rfl, hentries,
    List.getElem?_append_left (by rwa [List.length_map]), List.getElem?_map, hk, Option.map_some]

omit [DecidableEq R] in
theorem settled_take_succ {trace : List (Event R)} (hk : round.watched[k]? = some resource)
    (hdone : ∀ earlier ∈ round.watched.take k, Settled trace earlier)
    (hthis : Settled trace resource) :
    ∀ earlier ∈ round.watched.take (k + 1), Settled trace earlier := by
  intro earlier hmem
  rw [List.take_add_one, hk, Option.toList_some, List.mem_append, List.mem_singleton] at hmem
  rcases hmem with hbefore | rfl
  · exact hdone earlier hbefore
  · exact hthis

omit [DecidableEq R] in
theorem drop_succ_subset (k : Nat) (l : List R) : l.drop (k + 1) ⊆ l.drop k := by
  rw [← List.drop_drop]
  exact List.drop_subset 1 _

/-- A turn for a resource that was unregistered in the meantime. -/
theorem At.serve_gone (h : At round flags k w) (hk : round.watched[k]? = some resource)
    (hgone : Event.call (.unregister resource) ∈ w.world.trace) :
    Turned round flags k w.world w.world :=
  ⟨h.stands, .inl ⟨rfl, rfl⟩, h.handled, settled_take_succ hk h.done (.inr hgone),
    fun other hmem => h.ahead other (drop_succ_subset k _ hmem)⟩

/-- A turn for a resource that is still registered. -/
theorem At.serve_live (h : At round flags k w) (hset : round.WellSetUp)
    (hk : round.watched[k]? = some resource)
    (hlive : Event.call (.unregister resource) ∉ w.world.trace) (p : Parameters)
    (handle : Nat → List (Call R)) :
    ∃ world, w.serve p handle (some resource) = some world ∧
      Turned round flags k w.world world := by
  obtain ⟨hlt, hget⟩ := List.getElem?_eq_some_iff.mp hk
  have hrevents : w.world.monitor.revents w.fdIndex = some (flags (k + 1)) := by
    rw [Monitor.revents, h.fdIndex, h.stands.array k resource hk]
    rfl
  have hdrop : round.watched.drop k = resource :: round.watched.drop (k + 1) := by
    rw [List.drop_eq_getElem_cons hlt, hget]
  have hnew : ¬ Settled w.world.trace resource := by
    rintro (⟨reported, hmem⟩ | hmem)
    · exact h.ahead resource (hdrop ▸ List.mem_cons_self ..) reported hmem
    · exact hlive hmem
  have hstart : Stands round flags
      { w.world with trace := w.world.trace ++ [.handle resource (flags (k + 1))] } := by
    obtain ⟨extra, hentries⟩ := h.stands.entries
    refine ⟨⟨h.stands.sound.registered, h.stands.sound.nodup, h.stands.sound.capacity,
      h.stands.sound.runs, h.stands.sound.room, h.stands.sound.length, h.stands.sound.signal⟩,
      ⟨extra, ?_⟩, h.stands.array⟩
    rw [hentries]
    congr 2
    exact funext fun other => (live_handle w.world.trace resource _ other).symm
  obtain ⟨world, hcalls, hstands, hregrown, htrace⟩ :=
    hstart.calls hset.some p (handle w.fdIndex)
  refine ⟨world, ?_, hstands, hregrown, ?_, ?_, ?_⟩
  · rw [Walk.serve, hrevents, Option.bind_some, World.handle, hcalls]
  · rw [htrace]
    exact (h.handled.handle hk hnew h.done).calls _
  · refine settled_take_succ hk (fun earlier hmem => ?_) (.inl ⟨flags (k + 1), ?_⟩)
    · rw [htrace, List.append_assoc]
      exact (h.done earlier hmem).append _
    · rw [htrace]
      simp
  · intro other hmem reported
    have hne : other ≠ resource := by
      rintro rfl
      have hnodup := hset.distinct.sublist (List.drop_sublist k _)
      rw [hdrop] at hnodup
      exact (List.nodup_cons.mp hnodup).1 hmem
    have hbefore := h.ahead other (drop_succ_subset k _ hmem) reported
    rw [htrace]
    simp [hbefore, hne]

/-- A turn of the loop. -/
theorem At.turn (h : At round flags k w) (hset : round.WellSetUp) (hk : k < round.watched.length)
    (p : Parameters) (handle : Nat → List (Call R)) :
    ∃ w', w.turn p handle = some w' ∧ At round flags (k + 1) w' := by
  have hget : round.watched[k]? = some round.watched[k] := List.getElem?_eq_getElem hk
  have hserve : ∃ world, w.serve p handle (live w.world.trace round.watched[k]) = some world ∧
      Turned round flags k w.world world := by
    by_cases hgone : Event.call (.unregister round.watched[k]) ∈ w.world.trace
    · rw [live, if_pos hgone]
      exact ⟨w.world, rfl, h.serve_gone hget hgone⟩
    · rw [live, if_neg hgone]
      exact h.serve_live hset hget hgone p handle
  obtain ⟨world, hserve, hturned⟩ := hserve
  have hturn : w.turn p handle = w.goOn world := by
    rw [Walk.turn, h.get hget, Option.bind_some, hserve, Option.bind_some]
  have hlength : k + 1 ≤ world.monitor.resources.entries.length := by
    obtain ⟨extra, hentries⟩ := hturned.stands.entries
    rw [hentries, List.length_append, List.length_map]
    omega
  rw [hturn, Walk.goOn]
  by_cases hcapacity : w.capacity = world.monitor.resources.capacity
  · have hblock : world.monitor.resources.block = w.world.monitor.resources.block := by
      rcases hturned.regrown with ⟨-, hblock⟩ | hmore
      · exact hblock
      · rw [← h.capacity, hcapacity] at hmore
        exact absurd hmore (Nat.lt_irrefl _)
    have hnext : world.monitor.resources.next w.index =
        some ⟨world.monitor.resources.block, k + 1⟩ := by
      rw [Resources.next, h.index, ← hblock, if_pos ⟨rfl, hlength⟩]
    rw [if_pos hcapacity, hnext]
    exact ⟨_, rfl, hturned.stands, by rw [h.fdIndex], rfl, hcapacity, hturned.handled,
      hturned.done, hturned.ahead⟩
  · have hadvance := advance_eq world.monitor.resources (k + 1) 0 (by omega)
    rw [if_neg hcapacity, h.fdIndex, Resources.start, hadvance, Nat.zero_add]
    exact ⟨_, rfl, hturned.stands, rfl, rfl, rfl, hturned.handled, hturned.done, hturned.ahead⟩

/-- The loop, up to the end of the array. -/
theorem At.turns (hset : round.WellSetUp) (p : Parameters) (handle : Nat → List (Call R))
    (count : Nat) (h : At round flags k w) (hcount : k + count = round.watched.length) :
    ∃ w', Walk.turns p handle count w = some w' ∧ At round flags round.watched.length w' := by
  induction count generalizing k w with
  | zero =>
    obtain rfl : k = round.watched.length := hcount
    exact ⟨w, rfl, h⟩
  | succ count ih =>
    obtain ⟨w₁, hturn, hat⟩ := h.turn hset (by omega) p handle
    obtain ⟨w₂, hturns, hend⟩ := ih hat (by omega)
    refine ⟨w₂, ?_, hend⟩
    rw [Walk.turns, hturn, Option.bind_some, hturns]

/-! ### Runs -/

/-- While the worker is in `poll`: the vector and the array are as they were set up, no `Handle` was
called yet, and a change is signalled. -/
structure Polling (filled : Nat) (round : Round R) (w : World R) : Prop where
  filled : filled = round.watched.length + 1
  wellSetUp : round.WellSetUp
  stands : Stands round (fun _ => 0) w
  fresh : ∀ resource reported, Event.handle resource reported ∉ w.trace
  signalled : w.registered ≠ round.watched → w.monitor.signalled = true

structure Inv (s : System R) : Prop where
  intact : s.fault = false
  sound : Sound s.world
  rounds : ∀ round ∈ s.rounds, round.Right
  polling : ∀ filled round, s.polling = some (filled, round) → Polling filled round s.world

theorem Inv.faithful {s : System R} (h : Inv s) : s.Faithful := by
  refine ⟨h.intact, h.sound.registered, fun hne => h.sound.runs fun hnil => ?_, h.rounds,
    fun filled round hpolling => ?_⟩
  · rw [← h.sound.registered, hnil] at hne
    exact hne rfl
  · obtain ⟨-, hset, -, -, hsignalled⟩ := h.polling filled round hpolling
    exact ⟨hset, hsignalled⟩

omit [DecidableEq R] in
theorem sound_new (p : Parameters) : Sound (System.new p : System R).world := by
  refine ⟨rfl, List.nodup_nil, Nat.zero_le _, fun hne => absurd rfl hne, p.slotsPos, ?_,
    fun hne => absurd rfl hne⟩
  simp [System.new, Monitor.new]

theorem Inv.call {s : System R} (h : Inv s) (p : Parameters) (call : Call R) :
    Inv (s.step p (.call call)) := by
  obtain ⟨world, hcall, hcalled⟩ := h.sound.call p call
  have hstep : s.step p (.call call) = { s with world := world } := by
    simp only [System.step, hcall]
  rw [hstep]
  refine ⟨h.intact, hcalled.sound, h.rounds, fun filled round hpolling => ?_⟩
  obtain ⟨hfilled, hset, hstands, hfresh, hsignalled⟩ := h.polling filled round hpolling
  refine ⟨hfilled, hset, hstands.called hset.some hcalled, fun resource reported hmem => ?_,
    fun hchanged => ?_⟩
  · rw [hcalled.trace, List.mem_append, List.mem_singleton] at hmem
    rcases hmem with hbefore | hthis
    · exact hfresh resource reported hbefore
    · cases hthis
  · refine hcalled.signalled (hstands.ne_nil hset.some) ?_
    by_cases hbefore : s.world.registered = round.watched
    · exact .inr fun hsame => hchanged (hsame.trans hbefore)
    · exact .inl (hsignalled hbefore)

omit [DecidableEq R] in
/-- The part of the array that is given to `poll`, without the first entry. -/
theorem asked_eq {watched : List R} {array : List (Option PollFd)} {entry : R → PollFd}
    (h : ∀ k resource, watched[k]? = some resource → array[k + 1]? = some (some (entry resource))) :
    (array.take (watched.length + 1)).drop 1 =
      watched.map fun resource => some (entry resource) := by
  refine List.ext_getElem? fun k => ?_
  rw [List.getElem?_drop, List.getElem?_take, List.getElem?_map, Nat.add_comm 1 k]
  cases hk : watched[k]? with
  | none =>
    have hlength := List.getElem?_eq_none_iff.mp hk
    rw [if_neg (by omega), Option.map_none]
  | some resource =>
    have hlt := (List.getElem?_eq_some_iff.mp hk).1
    rw [if_pos (by omega), h k resource hk, Option.map_some]

theorem Inv.setUp {s : System R} (h : Inv s) (p : Parameters) (events : R → UInt16)
    (descriptor : R → Int) : Inv (s.step p (.setUp events descriptor)) := by
  rw [System.step]
  split_ifs with hready
  · obtain ⟨m, hsetUp, hsound, hentries, harray⟩ :=
      h.sound.setUp (p := p) hready.1 events descriptor rfl
    rw [hsetUp]
    refine ⟨h.intact, hsound, h.rounds, fun filled round hpolling => ?_⟩
    by_cases hnil : (s.world.registered.filter fun resource => decide (events resource ≠ 0)) = []
    · rw [if_pos hnil] at hpolling
      cases hpolling
    · rw [if_neg hnil] at hpolling
      obtain ⟨rfl, rfl⟩ := Prod.mk.inj (Option.some.inj hpolling)
      refine ⟨rfl, ⟨hsound.nodup, hnil, asked_eq harray⟩, ⟨hsound, ⟨[], ?_⟩, harray⟩,
        fun _ _ => List.not_mem_nil, fun hne => absurd rfl hne⟩
      rw [List.append_nil]
      refine hentries.trans (List.map_congr_left fun resource _ => ?_)
      exact (if_neg List.not_mem_nil).symm
  · exact h

/-- Another array in which the places of the watched resources hold what was reported. -/
theorem Stands.report {round : Round R} {flags flags' : Nat → UInt16} {w : World R}
    (h : Stands round flags w) {array : List (Option PollFd)} (signalled : Bool)
    (hlength : array.length = w.monitor.descriptorArray.length)
    (hsignal : ∃ fd, array[0]? = some (some fd))
    (harray : ∀ k resource, round.watched[k]? = some resource → array[k + 1]? =
      some (some ⟨round.descriptor resource, round.events resource, flags' (k + 1)⟩)) :
    Stands round flags'
      { w with monitor := { w.monitor with descriptorArray := array, signalled := signalled } } :=
  ⟨⟨h.sound.registered, h.sound.nodup, h.sound.capacity, h.sound.runs, h.sound.room,
    hlength.symm ▸ h.sound.length, fun _ => hsignal⟩, h.entries, harray⟩

/-- What `poll` reports is at the place of the descriptor that it is for. -/
theorem Polling.answered {filled : Nat} {round : Round R} {w : World R} (h : Polling filled round w)
    (answer : Option (Nat → UInt16)) :
    ∃ m, w.monitor.wake filled answer = some m ∧
      Stands { round with answer := answer } (Round.flags { round with answer := answer })
        { w with monitor := m } := by
  obtain ⟨hfilled, hset, hstands, -, -⟩ := h
  have hrunning := hstands.sound.runs (hstands.ne_nil hset.some)
  obtain ⟨fd, hfd⟩ := hstands.sound.signal (by simp [hrunning])
  cases answer with
  | none => exact ⟨w.monitor, rfl, hstands.sound, hstands.entries, hstands.array⟩
  | some report =>
    have hentry : ∀ j < filled, ∀ entry, w.monitor.descriptorArray[j]? = some (some entry) →
        (Monitor.answered filled (some report) w.monitor.descriptorArray)[j]? =
          some (some { entry with revents := report j }) := by
      intro j hj entry hat
      rw [Monitor.answered, List.getElem?_mapIdx, hat, Option.map_some, if_pos hj, Option.map_some]
    have hlength : (Monitor.answered filled (some report) w.monitor.descriptorArray).length =
        w.monitor.descriptorArray.length := List.length_mapIdx
    have hfirst := hentry 0 (by omega) fd hfd
    have harray : ∀ k resource, round.watched[k]? = some resource →
        (Monitor.answered filled (some report) w.monitor.descriptorArray)[k + 1]? =
          some (some ⟨round.descriptor resource, round.events resource, report (k + 1)⟩) := by
      intro k resource hk
      have hlt := (List.getElem?_eq_some_iff.mp hk).1
      exact hentry (k + 1) (by omega) _ (hstands.array k resource hk)
    have hreport : ∀ signalled, Stands { round with answer := some report }
        (Round.flags { round with answer := some report }) { w with monitor := { w.monitor with
          descriptorArray := Monitor.answered filled (some report) w.monitor.descriptorArray
          signalled := signalled } } := by
      intro signalled
      have hreported := hstands.report signalled hlength ⟨_, hfirst⟩ harray
      exact ⟨hreported.sound, hreported.entries, hreported.array⟩
    have hwake : w.monitor.wake filled (some report) =
        let m : Monitor R := { w.monitor with
          descriptorArray := Monitor.answered filled (some report) w.monitor.descriptorArray }
        some (if report 0 &&& pollIn ≠ 0 then { m with signalled := false } else m) := by
      simp only [Monitor.wake, Monitor.revents, hfirst]
      rfl
    rw [hwake]
    split_ifs
    · exact ⟨_, rfl, hreport false⟩
    · exact ⟨_, rfl, hreport w.monitor.signalled⟩

theorem Inv.wake {s : System R} (h : Inv s) (p : Parameters) (answer : Option (Nat → UInt16))
    (handle : Nat → List (Call R)) : Inv (s.step p (.wake answer handle)) := by
  rw [System.step]
  cases hpolling : s.polling with
  | none => exact h
  | some pair =>
    obtain ⟨filled, round⟩ := pair
    have hcurrent := h.polling filled round hpolling
    obtain ⟨m, hwake, hstands⟩ := hcurrent.answered answer
    have hset : Round.WellSetUp { round with answer := answer } :=
      ⟨hcurrent.wellSetUp.distinct, hcurrent.wellSetUp.some, hcurrent.wellSetUp.asked⟩
    have hat : At { round with answer := answer } (Round.flags { round with answer := answer }) 0
        ⟨{ s.world with monitor := m }, 1, m.resources.start, m.resources.capacity⟩ := by
      refine ⟨hstands, rfl, rfl, rfl, fun n resource reported hn => ?_, fun _ => nofun,
        fun resource _ => hcurrent.fresh resource⟩
      exact absurd (List.mem_of_getElem? hn) (hcurrent.fresh resource reported)
    obtain ⟨w, hturns, hend⟩ := hat.turns hset p handle round.watched.length (Nat.zero_add _)
    have hwalk : (s.world.monitor.wake filled answer).bind (fun monitor =>
        World.walk p handle filled { s.world with monitor := monitor }) = some w.world := by
      rw [hwake, Option.bind_some, World.walk, hcurrent.filled, Nat.add_sub_cancel, hturns,
        Option.map_some]
    dsimp only
    rw [hwalk]
    refine ⟨h.intact, hend.stands.sound, fun other hmem => ?_, nofun⟩
    rcases List.mem_append.mp hmem with hbefore | hthis
    · exact h.rounds other hbefore
    · obtain rfl := List.mem_singleton.mp hthis
      refine ⟨⟨hset.distinct, hset.some, hset.asked⟩, hend.handled, fun resource hmem => ?_⟩
      exact hend.done resource ((List.take_length (l := round.watched)).symm ▸ hmem)

theorem Inv.block {s : System R} (h : Inv s) (p : Parameters) : Inv (s.step p .block) := by
  rw [System.step]
  split_ifs with hdeactivate
  · have hnil : s.world.monitor.resources.entries = [] := by
      by_contra hne
      rw [h.sound.runs hne] at hdeactivate
      cases hdeactivate
    refine ⟨h.intact, ⟨h.sound.registered, h.sound.nodup, h.sound.capacity,
      fun hne => absurd hnil hne, h.sound.room, h.sound.length, fun _ => ?_⟩, h.rounds,
      fun filled round hpolling => ?_⟩
    · exact h.sound.signal (by simp [hdeactivate])
    · have hcurrent := h.polling filled round hpolling
      exact absurd hnil (hcurrent.stands.ne_nil hcurrent.wellSetUp.some)
  · exact h

/-- Whatever the order of the rounds and of the calls, from other threads and from within `Handle`,
the monitor is as it should be. -/
theorem always_faithful (p : Parameters) (ops : List (Op R)) :
    Always (System.step p) System.Faithful (System.new p) ops := by
  have hinv : Always (System.step p) Inv (System.new p : System R) ops := by
    refine always_of_step (fun s op h => ?_) ⟨rfl, sound_new p, fun _ => nofun, nofun⟩
    cases op with
    | call call => exact h.call p call
    | setUp events descriptor => exact h.setUp p events descriptor
    | wake answer handle => exact h.wake p answer handle
    | block => exact h.block p
  exact hinv.mono fun _ => Inv.faithful

/-- The first of two resources removes the second one and adds it again and a third one, which takes
the vector to another block. -/
example : (after (System.step ⟨1, Nat.one_pos, fun n => 2 * n + 2, fun _ => by omega, 9⟩)
    (System.new ⟨1, Nat.one_pos, fun n => 2 * n + 2, fun _ => by omega, 9⟩ : System Nat)
    [.call (.register 5), .call (.register 6), .setUp (fun _ => 1) (fun r => r),
      .wake (some fun _ => 1) fun _ => [.unregister 6, .register 6, .register 7]]).rounds.map
        Round.trace =
    [[.handle 5 1, .call (.unregister 6), .call (.register 6), .call (.register 7)]] := by
  decide

end Proofs

end Thunder.Core.ResourceMonitorType
