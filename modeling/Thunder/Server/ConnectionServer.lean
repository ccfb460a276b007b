import Thunder.Library.Run
import Mathlib.Data.List.Nodup
import Mathlib.Logic.Function.Basic

/-! The connection observers of `ServiceMap`: what the channels report of their openings and
closings, the job that passes it on, and the observers that come and go meanwhile. -/

namespace Thunder.PluginHost

open Function Run

/-- What is reported of a channel. -/
inductive Report
  | opened
  | closed
  deriving DecidableEq

/-- What a link serves. -/
inductive LinkState
  | webServer
  | upgrading
  | webSocket
  deriving DecidableEq

/-- `clients` are the channels of the server and `isOpen` what their sockets say.  `taken` is what a
run of the job has swapped out and not passed on yet.  The code does not keep `reported`, the last
report of a channel, and `received`, what an observer has got since it was registered. -/
structure ConnectionServer (ι ο : Type) where
  clients : List ι
  isOpen : ι → Bool
  opened : List ι
  closed : List ι
  taken : Option (List ι × List ι)
  channelObservers : List ο
  reported : ι → Option Report
  received : ο → List (ι × Report)

/-- `shut` is a socket that is open no longer, from either side.  A run of the job is `swap`, under
the lock of the lists, and then `deliver`, under the lock of the observers. -/
inductive ConnectionEvent (ι ο : Type)
  | accept (id : ι)
  | shut (id : ι)
  | stateChange (id : ι) (state : LinkState)
  | swap
  | deliver
  | register (sink : ο)
  | unregister (sink : ο)

namespace ConnectionServer

variable {ι ο : Type} [DecidableEq ι]

def new : ConnectionServer ι ο := ⟨[], fun _ => false, [], [], none, [], fun _ => none, fun _ => []⟩

variable (s : ConnectionServer ι ο)

/-- Nobody gets an id twice. -/
def accept (id : ι) : ConnectionServer ι ο :=
  if id ∈ s.clients then s
  else { s with clients := s.clients ++ [id], isOpen := update s.isOpen id true }

def shut (id : ι) : ConnectionServer ι ο := { s with isOpen := update s.isOpen id false }

/-- `ServiceMap::Opened`. -/
def pushOpened (id : ι) : ConnectionServer ι ο :=
  { s with opened := s.opened ++ [id], reported := update s.reported id (some .opened) }

/-- `ServiceMap::Closed`: an opening that nobody has heard of is dropped. -/
def pushClosed (id : ι) : ConnectionServer ι ο :=
  if id ∈ s.opened then
    { s with opened := s.opened.erase id, reported := update s.reported id (some .closed) }
  else { s with closed := s.closed ++ [id], reported := update s.reported id (some .closed) }

/-- `Channel::StateChange`, with `Operational`. -/
def stateChange (id : ι) (state : LinkState) : ConnectionServer ι ο :=
  if id ∉ s.clients then s
  else if s.isOpen id = false then s.pushClosed id
  else if state = .webServer then s.pushOpened id
  else s

/-- The first half of `Dispatch`; the job runs once at a time. -/
def swap : ConnectionServer ι ο :=
  match s.taken with
  | none => { s with taken := some (s.opened, s.closed), opened := [], closed := [] }
  | some _ => s

/-- The second half of `Dispatch`: each id goes to every entry of `_channelObservers`. -/
def deliver [DecidableEq ο] : ConnectionServer ι ο :=
  match s.taken with
  | none => s
  | some (opened, closed) =>
    let told (sink : ο) (report : Report) (ids : List ι) : List (ι × Report) :=
      ids.flatMap fun id => List.replicate (s.channelObservers.count sink) (id, report)
    { s with
      taken := none
      received := fun sink =>
        s.received sink ++ (told sink .opened opened ++ told sink .closed closed) }

/-- A new observer is told of the open channels at once. -/
def register [DecidableEq ο] (sink : ο) : ConnectionServer ι ο :=
  { s with
    channelObservers := s.channelObservers ++ [sink]
    received := update s.received sink ((s.clients.filter s.isOpen).map (·, .opened)) }

def unregister [DecidableEq ο] (sink : ο) : ConnectionServer ι ο :=
  { s with channelObservers := s.channelObservers.erase sink }

def step [DecidableEq ο] (s : ConnectionServer ι ο) : ConnectionEvent ι ο → ConnectionServer ι ο
  | .accept id => s.accept id
  | .shut id => s.shut id
  | .stateChange id state => s.stateChange id state
  | .swap => s.swap
  | .deliver => s.deliver
  | .register sink => s.register sink
  | .unregister sink => s.unregister sink

/-! ### What is claimed of it -/

/-- What a list of notifications says of a channel. -/
def about (id : ι) (log : List (ι × Report)) : List Report :=
  (log.filter (·.1 = id)).map (·.2)

/-- The job has finished a run that was under way, and has run once more. -/
def job [DecidableEq ο] : ConnectionServer ι ο := s.deliver.swap.deliver

/-- An observer has heard nothing of a channel, its opening, or its opening and then its closing;
and once the job has run it has not missed the closing of a channel of whose opening it heard. -/
structure Balanced [DecidableEq ο] (s : ConnectionServer ι ο) : Prop where
  ordered : ∀ sink ∈ s.channelObservers, ∀ id, about id (s.received sink) <+: [.opened, .closed]
  complete : ∀ sink ∈ s.channelObservers, ∀ id, s.reported id = some .closed →
    (id, .opened) ∈ s.job.received sink → (id, .closed) ∈ s.job.received sink

/-- What a job run has taken. -/
def takenOpened : List ι := (s.taken.getD ([], [])).1

def takenClosed : List ι := (s.taken.getD ([], [])).2

/-- The observers have been told that the channel was opened, and not that it was closed. -/
def Announced (id : ι) : Prop :=
  (s.reported id = some .opened ∨ id ∈ s.closed) ∧ id ∉ s.opened ∧ id ∉ s.takenOpened ∨
    id ∈ s.takenClosed

/-- A channel reports once that it is open and then once that it is not.  An observer is registered
only once, and only while those channels are open that the others have been told of. -/
def Settled : ConnectionEvent ι ο → Prop
  | .stateChange id state =>
    id ∈ s.clients →
      (s.isOpen id = true → state = .webServer → s.reported id = none) ∧
      (s.isOpen id = false → s.reported id = some .opened)
  | .register sink => sink ∉ s.channelObservers ∧ ∀ id, s.isOpen id = true ↔ s.Announced id
  | _ => True

/-! ### The way of a channel -/

/-- Where the reports of a channel are: in the lists, in the hands of a job run, or passed on. -/
inductive Station
  | unreported
  | opening
  | openingTaken
  | announced
  | passing
  | closing
  | closingTaken
  | finished
  deriving DecidableEq

namespace Station

def reported : Station → Option Report
  | unreported => none
  | opening | openingTaken | announced => some .opened
  | passing | closing | closingTaken | finished => some .closed

def opened : Station → Nat
  | opening => 1
  | _ => 0

def takenOpened : Station → Nat
  | openingTaken | passing => 1
  | _ => 0

def closed : Station → Nat
  | passing | closing => 1
  | _ => 0

def takenClosed : Station → Nat
  | closingTaken => 1
  | _ => 0

/-- What an observer may have heard. -/
def heard : Station → List (List Report)
  | unreported | opening | openingTaken | passing => [[]]
  | announced | closing | closingTaken => [[.opened]]
  | finished => [[], [.opened, .closed]]

/-- A new report of the channel. -/
def closes : Station → Station
  | opening => finished
  | openingTaken => passing
  | announced => closing
  | station => station

def swapped : Station → Station
  | opening => openingTaken
  | closing => closingTaken
  | station => station

def delivered : Station → Station
  | openingTaken => announced
  | passing => closing
  | closingTaken => finished
  | station => station

theorem heard_balanced (station : Station) {reports : List Report}
    (h : reports ∈ station.heard) : reports <+: [.opened, .closed] := by
  cases station <;> simp only [heard, List.mem_cons, List.not_mem_nil, or_false] at h
  case finished =>
    rcases h with rfl | rfl
    · exact List.nil_prefix
    · exact List.prefix_refl _
  all_goals
    subst h
    simp

/-- What a job run passes on. -/
theorem heard_delivered (station : Station) {reports : List Report} (h : reports ∈ station.heard) :
    reports ++ (List.replicate station.takenOpened .opened ++
      List.replicate station.takenClosed .closed) ∈ station.delivered.heard := by
  cases station <;> simp_all [heard, delivered, takenOpened, takenClosed]

theorem heard_nil (station : Station) (h : [.opened] ∉ station.heard) : [] ∈ station.heard := by
  cases station <;> revert h <;> decide

theorem swapped_spec (station : Station)
    (h : station.takenOpened = 0 ∧ station.takenClosed = 0) :
    station.swapped.reported = station.reported ∧ station.swapped.opened = 0 ∧
    station.swapped.takenOpened = station.opened ∧ station.swapped.closed = 0 ∧
    station.swapped.takenClosed = station.closed ∧ station.swapped.heard = station.heard := by
  cases station <;> revert h <;> decide

theorem delivered_spec (station : Station) :
    station.delivered.reported = station.reported ∧ station.delivered.opened = station.opened ∧
    station.delivered.takenOpened = 0 ∧ station.delivered.closed = station.closed ∧
    station.delivered.takenClosed = 0 := by
  cases station <;> decide

theorem delivered_of_not_taken (station : Station)
    (h : station.takenOpened = 0 ∧ station.takenClosed = 0) : station.delivered = station := by
  cases station <;> revert h <;> decide

end Station

/-- A channel is at the station. -/
structure At (s : ConnectionServer ι ο) (id : ι) (station : Station) : Prop where
  reported : s.reported id = station.reported
  opened : s.opened.count id = station.opened
  takenOpened : s.takenOpened.count id = station.takenOpened
  closed : s.closed.count id = station.closed
  takenClosed : s.takenClosed.count id = station.takenClosed
  known : s.isOpen id = true → id ∈ s.clients ∧ station.reported ≠ some .closed
  fresh : id ∉ s.clients → station = .unreported
  heard : ∀ sink ∈ s.channelObservers, about id (s.received sink) ∈ station.heard

/-- Every channel is at a station; the clients and the observers are listed once. -/
structure Inv (s : ConnectionServer ι ο) : Prop where
  clients : s.clients.Nodup
  observers : s.channelObservers.Nodup
  placed : ∀ id, ∃ station, s.At id station

variable {s : ConnectionServer ι ο} {id : ι} {station : Station}

theorem about_append (log log' : List (ι × Report)) :
    about id (log ++ log') = about id log ++ about id log' := by
  simp [about]

theorem about_replicate (id' : ι) (n : Nat) (report : Report) :
    about id (List.replicate n (id', report)) =
      if id' = id then List.replicate n report else [] := by
  by_cases h : id' = id <;> simp [about, h]

/-- What is told of a channel when each of the ids is told `n` times. -/
theorem about_flatMap (ids : List ι) (n : Nat) (report : Report) :
    about id (ids.flatMap fun id => List.replicate n (id, report)) =
      List.replicate (n * ids.count id) report := by
  induction ids with
  | nil => simp [about]
  | cons id' ids ih =>
    rw [List.flatMap_cons, about_append, ih, about_replicate, List.count_cons]
    by_cases h : id' = id
    · simp [h, List.replicate_append_replicate, Nat.mul_add, Nat.add_comm]
    · simp [h]

theorem mem_of_about {log : List (ι × Report)} {report : Report} :
    report ∈ about id log ↔ (id, report) ∈ log := by
  simp [about]

/-- What a new observer is told of a channel. -/
theorem about_register (hnodup : s.clients.Nodup) (hknown : s.isOpen id = true → id ∈ s.clients) :
    about id ((s.clients.filter s.isOpen).map (·, Report.opened)) =
      if s.isOpen id then [.opened] else [] := by
  have hmap : ∀ ids : List ι, ids.map (·, Report.opened) =
      ids.flatMap fun id => List.replicate 1 (id, Report.opened) := by
    intro ids
    induction ids with
    | nil => rfl
    | cons id ids ih => simp [ih]
  rw [hmap, about_flatMap, Nat.one_mul]
  split_ifs with hopen
  · rw [List.count_eq_one_of_mem (hnodup.filter _) (List.mem_filter.mpr ⟨hknown hopen, hopen⟩)]
    rfl
  · rw [List.count_eq_zero_of_not_mem fun hmem => hopen (List.mem_filter.mp hmem).2]
    rfl

/-! ### The steps -/

theorem At.accept (h : s.At id station) (id' : ι) : (s.accept id').At id station := by
  rw [ConnectionServer.accept]
  split_ifs with hmem
  · exact h
  · refine { h with known := fun hopen => ?_, fresh := fun hnew => ?_ }
    · rcases eq_or_ne id id' with rfl | hne
      · refine ⟨List.mem_append_right _ (List.mem_singleton_self _), ?_⟩
        rw [h.fresh hmem]
        decide
      · simp only [update_of_ne hne] at hopen
        exact ⟨List.mem_append_left _ (h.known hopen).1, (h.known hopen).2⟩
    · exact h.fresh fun hold => hnew (List.mem_append_left _ hold)

theorem At.shut (h : s.At id station) (id' : ι) : (s.shut id').At id station := by
  refine { h with known := fun hopen => h.known ?_ }
  rcases eq_or_ne id id' with rfl | hne
  · simp [ConnectionServer.shut] at hopen
  · simpa [ConnectionServer.shut, hne] using hopen

theorem At.pushOpened_self (h : s.At id .unreported) (hmem : id ∈ s.clients) :
    (s.pushOpened id).At id .opening where
  reported := update_self ..
  opened := by simp [pushOpened, h.opened, Station.opened]
  takenOpened := h.takenOpened
  closed := h.closed
  takenClosed := h.takenClosed
  known := fun _ => ⟨hmem, by decide⟩
  fresh := fun hnew => absurd hmem hnew
  heard := h.heard

theorem At.pushOpened_ne {id' : ι} (h : s.At id station) (hne : id ≠ id') :
    (s.pushOpened id').At id station :=
  { h with
    reported := (update_of_ne hne ..).trans h.reported
    opened := by simp [pushOpened, h.opened, hne.symm] }

theorem At.mem_opened (h : s.At id station) : id ∈ s.opened ↔ station = .opening := by
  rw [← List.count_pos_iff, h.opened]
  cases station <;> decide

theorem At.pushClosed_ne {id' : ι} (h : s.At id station) (hne : id ≠ id') :
    (s.pushClosed id').At id station := by
  rw [pushClosed]
  split_ifs with hmem
  · exact
      { h with
        reported := (update_of_ne hne ..).trans h.reported
        opened := by simp [h.opened, List.count_erase_of_ne hne] }
  · exact
      { h with
        reported := (update_of_ne hne ..).trans h.reported
        closed := by simp [h.closed, hne.symm] }

/-- The closing of a channel that was reported open. -/
theorem At.pushClosed_self (h : s.At id station) (hopen : s.isOpen id = false)
    (hmem : id ∈ s.clients) (hreported : s.reported id = some .opened) :
    (s.pushClosed id).At id station.closes := by
  have hstation : station.reported = some .opened := h.reported.symm.trans hreported
  have hcount := h.mem_opened
  rw [pushClosed]
  cases station <;> simp only [Station.reported, reduceCtorEq, Option.some.injEq] at hstation
  case opening =>
    rw [if_pos (hcount.mpr rfl)]
    exact
      { reported := update_self ..
        opened := by simp [h.opened, Station.opened, Station.closes]
        takenOpened := h.takenOpened
        closed := h.closed
        takenClosed := h.takenClosed
        known := fun hopened => absurd hopened (by simp [hopen])
        fresh := fun hnew => absurd hmem hnew
        heard := fun sink hsink =>
          List.mem_cons.mpr (.inl (List.mem_singleton.mp (h.heard sink hsink))) }
  all_goals
    rw [if_neg fun hmem => nomatch hcount.mp hmem]
    exact
      { reported := update_self ..
        opened := h.opened
        takenOpened := h.takenOpened
        closed := by simp [h.closed, Station.closed, Station.closes]
        takenClosed := h.takenClosed
        known := fun hopened => absurd hopened (by simp [hopen])
        fresh := fun hnew => absurd hmem hnew
        heard := h.heard }

omit [DecidableEq ι] in
theorem takenOpened_none (h : s.taken = none) : s.takenOpened = [] := by simp [takenOpened, h]

omit [DecidableEq ι] in
theorem takenClosed_none (h : s.taken = none) : s.takenClosed = [] := by simp [takenClosed, h]

/-- While no job run is under way nothing is in its hands. -/
theorem At.not_taken (h : s.At id station) (htaken : s.taken = none) :
    station.takenOpened = 0 ∧ station.takenClosed = 0 := by
  rw [← h.takenOpened, ← h.takenClosed, takenOpened_none htaken, takenClosed_none htaken]
  exact ⟨rfl, rfl⟩

theorem At.swap (h : s.At id station) (htaken : s.taken = none) :
    s.swap.At id station.swapped := by
  obtain ⟨hreported, hopened, htakenOpened, hclosed, htakenClosed, hheard⟩ :=
    station.swapped_spec (h.not_taken htaken)
  rw [ConnectionServer.swap, htaken]
  exact
    { reported := h.reported.trans hreported.symm
      opened := hopened.symm
      takenOpened := h.opened.trans htakenOpened.symm
      closed := hclosed.symm
      takenClosed := h.closed.trans htakenClosed.symm
      known := fun hopen => hreported ▸ h.known hopen
      fresh := fun hnew => by rw [h.fresh hnew]; rfl
      heard := fun sink hsink => hheard ▸ h.heard sink hsink }

variable [DecidableEq ο]

theorem At.deliver (h : s.At id station) (hnodup : s.channelObservers.Nodup) :
    s.deliver.At id station.delivered := by
  cases htaken : s.taken with
  | none =>
    rw [ConnectionServer.deliver, htaken, station.delivered_of_not_taken (h.not_taken htaken)]
    exact h
  | some lists =>
    obtain ⟨opened, closed⟩ := lists
    have hopened : opened.count id = station.takenOpened := by
      simpa [ConnectionServer.takenOpened, htaken] using h.takenOpened
    have hclosed : closed.count id = station.takenClosed := by
      simpa [ConnectionServer.takenClosed, htaken] using h.takenClosed
    obtain ⟨hreported, hopened', htakenOpened, hclosed', htakenClosed⟩ := station.delivered_spec
    rw [ConnectionServer.deliver, htaken]
    refine
      { reported := h.reported.trans hreported.symm
        opened := h.opened.trans hopened'.symm
        takenOpened := htakenOpened.symm
        closed := h.closed.trans hclosed'.symm
        takenClosed := htakenClosed.symm
        known := fun hopen => hreported ▸ h.known hopen
        fresh := fun hnew => by rw [h.fresh hnew]; rfl
        heard := fun sink hsink => ?_ }
    have hcount : s.channelObservers.count sink = 1 := List.count_eq_one_of_mem hnodup hsink
    simp only [about_append, hcount, about_flatMap, Nat.one_mul, hopened, hclosed]
    exact station.heard_delivered (h.heard sink hsink)

omit [DecidableEq ο] in
theorem At.announced_iff (h : s.At id station) : s.Announced id ↔ [.opened] ∈ station.heard := by
  rw [Announced, h.reported, ← List.count_pos_iff, ← List.count_pos_iff, ← List.count_pos_iff,
    ← List.count_pos_iff, h.opened, h.takenOpened, h.closed, h.takenClosed]
  cases station <;> decide

theorem At.register (h : s.At id station) (hclients : s.clients.Nodup) {sink : ο}
    (hsettled : s.isOpen id = true ↔ s.Announced id) : (s.register sink).At id station := by
  refine { h with heard := fun sink' hsink' => ?_ }
  rcases eq_or_ne sink' sink with rfl | hne
  · simp only [ConnectionServer.register, update_self]
    rw [about_register hclients fun hopen => (h.known hopen).1]
    split_ifs with hopen
    · exact h.announced_iff.mp (hsettled.mp hopen)
    · exact station.heard_nil fun hheard => hopen (hsettled.mpr (h.announced_iff.mpr hheard))
  · simp only [ConnectionServer.register, update_of_ne hne]
    refine h.heard sink' ?_
    simpa [ConnectionServer.register, hne] using hsink'

theorem At.unregister (h : s.At id station) (sink : ο) : (s.unregister sink).At id station :=
  { h with heard := fun sink' hsink' => h.heard sink' (List.mem_of_mem_erase hsink') }

/-! ### The runs -/

theorem Inv.deliver (h : s.Inv) : s.deliver.Inv where
  clients := by
    rw [ConnectionServer.deliver]
    split <;> exact h.clients
  observers := by
    rw [ConnectionServer.deliver]
    split <;> exact h.observers
  placed := fun id => by
    obtain ⟨station, hat⟩ := h.placed id
    exact ⟨_, hat.deliver h.observers⟩

omit [DecidableEq ο] in
theorem Inv.swap (h : s.Inv) : s.swap.Inv := by
  cases htaken : s.taken with
  | none =>
    refine ⟨?_, ?_, fun id => ?_⟩
    · simpa [ConnectionServer.swap, htaken] using h.clients
    · simpa [ConnectionServer.swap, htaken] using h.observers
    · obtain ⟨station, hat⟩ := h.placed id
      exact ⟨_, hat.swap htaken⟩
  | some lists =>
    rw [ConnectionServer.swap, htaken]
    exact h

omit [DecidableEq ο] in
theorem Inv.stateChange {state : LinkState} (h : s.Inv)
    (hsettled : s.Settled (.stateChange id state)) : (s.stateChange id state).Inv := by
  rw [ConnectionServer.stateChange]
  split_ifs with hmem hopen hstate
  · refine ⟨?_, ?_, fun id' => ?_⟩
    · rw [pushClosed]
      split_ifs <;> exact h.clients
    · rw [pushClosed]
      split_ifs <;> exact h.observers
    · obtain ⟨station, hat⟩ := h.placed id'
      rcases eq_or_ne id' id with rfl | hne
      · exact ⟨_, hat.pushClosed_self hopen hmem ((hsettled hmem).2 hopen)⟩
      · exact ⟨_, hat.pushClosed_ne hne⟩
  · refine ⟨h.clients, h.observers, fun id' => ?_⟩
    obtain ⟨station, hat⟩ := h.placed id'
    rcases eq_or_ne id' id with rfl | hne
    · have hreported := (hsettled hmem).1 (by simpa using hopen) hstate
      rw [hat.reported] at hreported
      cases station <;> cases hreported
      exact ⟨_, hat.pushOpened_self hmem⟩
    · exact ⟨_, hat.pushOpened_ne hne⟩
  · exact h
  · exact h

theorem Inv.step (h : s.Inv) (e : ConnectionEvent ι ο) (hsettled : s.Settled e) :
    (s.step e).Inv := by
  cases e with
  | accept id =>
    refine ⟨?_, ?_, fun id' => ?_⟩
    · simp only [ConnectionServer.step, ConnectionServer.accept]
      split_ifs with hmem
      · exact h.clients
      · exact List.nodup_append.mpr ⟨h.clients, List.nodup_singleton _, fun a ha b hb heq =>
          hmem (List.mem_singleton.mp hb ▸ heq ▸ ha)⟩
    · simp only [ConnectionServer.step, ConnectionServer.accept]
      split_ifs <;> exact h.observers
    · obtain ⟨station, hat⟩ := h.placed id'
      exact ⟨_, hat.accept id⟩
  | shut id =>
    refine ⟨h.clients, h.observers, fun id' => ?_⟩
    obtain ⟨station, hat⟩ := h.placed id'
    exact ⟨_, hat.shut id⟩
  | stateChange id state => exact h.stateChange hsettled
  | swap => exact h.swap
  | deliver => exact h.deliver
  | register sink =>
    obtain ⟨hnew, hopen⟩ := hsettled
    refine ⟨h.clients, ?_, fun id => ?_⟩
    · exact List.nodup_append.mpr ⟨h.observers, List.nodup_singleton _, fun a ha b hb heq =>
        hnew (List.mem_singleton.mp hb ▸ heq ▸ ha)⟩
    · obtain ⟨station, hat⟩ := h.placed id
      exact ⟨_, hat.register h.clients (hopen id)⟩
  | unregister sink =>
    refine ⟨h.clients, h.observers.erase _, fun id => ?_⟩
    obtain ⟨station, hat⟩ := h.placed id
    exact ⟨_, hat.unregister sink⟩

omit [DecidableEq ι] in
@[simp] theorem deliver_taken : s.deliver.taken = none := by
  cases htaken : s.taken <;> simp [deliver, htaken]

omit [DecidableEq ι] in
@[simp] theorem deliver_channelObservers : s.deliver.channelObservers = s.channelObservers := by
  cases htaken : s.taken <;> simp [deliver, htaken]

omit [DecidableEq ι] [DecidableEq ο] in
@[simp] theorem swap_channelObservers : s.swap.channelObservers = s.channelObservers := by
  cases htaken : s.taken <;> simp [swap, htaken]

/-- Once the job has run, the reports of a channel have been passed on. -/
theorem At.job (h : s.At id station) (hnodup : s.channelObservers.Nodup) :
    s.job.At id station.delivered.swapped.delivered := by
  have hswapped := (h.deliver hnodup).swap deliver_taken
  exact hswapped.deliver (by simpa using hnodup)

theorem Inv.balanced (h : s.Inv) : s.Balanced where
  ordered := fun sink hsink id => by
    obtain ⟨station, hat⟩ := h.placed id
    exact station.heard_balanced (hat.heard sink hsink)
  complete := fun sink hsink id hclosed hopened => by
    obtain ⟨station, hat⟩ := h.placed id
    have hheard := (hat.job h.observers).heard sink (by simpa [ConnectionServer.job] using hsink)
    rw [hat.reported] at hclosed
    have hfinished : station.delivered.swapped.delivered = .finished := by
      cases station <;> revert hclosed <;> decide
    rw [hfinished] at hheard
    simp only [Station.heard, List.mem_cons, List.not_mem_nil, or_false] at hheard
    rw [← mem_of_about] at hopened ⊢
    rcases hheard with hnil | hboth
    · rw [hnil] at hopened
      cases hopened
    · rw [hboth]
      decide

omit [DecidableEq ο] in
theorem inv_new : (new : ConnectionServer ι ο).Inv where
  clients := List.nodup_nil
  observers := List.nodup_nil
  placed := fun _ =>
    ⟨.unreported, rfl, rfl, rfl, rfl, rfl, nofun, fun _ => rfl, fun _ hsink => nomatch hsink⟩

/-- Where every channel reports once that it is open and once that it is closed, and observers come
only while nothing is on its way, the events of every observer are balanced. -/
theorem balanced_of_settled (events : List (ConnectionEvent ι ο))
    (h : Meets step Settled new events) : Always step Balanced new events := by
  have hinv := h.always (fun _ e hinv hsettled => hinv.step e hsettled) inv_new
  exact hinv.mono fun _ h => h.balanced

/-- A channel opens and closes between two observers; the second comes while the channel is open. -/
theorem balanced_of_settled_two :
    Always (step (ι := Nat) (ο := Nat)) Balanced new
      [.register 0, .accept 7, .stateChange 7 .webServer, .swap, .deliver, .register 1, .shut 7,
        .stateChange 7 .webServer, .swap, .deliver] := by
  refine balanced_of_settled _ ?_
  refine ⟨⟨by decide, fun id => ?_⟩, trivial,
    fun _ => ⟨fun _ _ => rfl, fun hshut => absurd hshut (by decide)⟩, trivial, trivial,
    ⟨by decide, fun id => ?_⟩, trivial,
    fun _ => ⟨fun hopen => absurd hopen (by decide), fun _ => rfl⟩, trivial, trivial, trivial⟩
  · simp [Announced, new, takenOpened, takenClosed]
  · by_cases h : id = 7 <;>
      simp [Announced, new, step, register, accept, stateChange, pushOpened, swap, deliver,
        takenOpened, takenClosed, h]

/-- An observer that comes before the job has run hears of the same opening twice. -/
theorem not_balanced :
    ¬ ∀ events : List (ConnectionEvent Nat Nat), Always step Balanced new events := by
  intro h
  have hlast := (h [.accept 7, .stateChange 7 .webServer, .register 0, .swap, .deliver]).last
  exact absurd (hlast.ordered 0 (by decide) 7) (by decide)

end ConnectionServer

end Thunder.PluginHost
