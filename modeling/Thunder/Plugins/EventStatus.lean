import Thunder.Core.Designator
import Thunder.Plugins.EventObserver
import Mathlib.Data.List.Induction

/-! `PluginHost::JSONRPCSupportsEventStatus`: the listeners that are told who subscribes to an event
and who does not any more. -/

namespace Thunder.PluginHost.JSONRPC

open Core.JSONRPC Function Run

inductive Status
  | registered
  | unregistered
  deriving DecidableEq

/-- What a listener is told. -/
structure StatusCallback where
  channel : Nat
  instanceId : List Char
  client : String
  index : String
  status : Status
  deriving DecidableEq

/-- The events that have a listener, who may subscribe, and the aliases of the events. -/
structure EventStatus where
  listens : List Char → Bool
  subscribeAssessor :
    Option (Nat → List Char → List Char → List Char → String → Bool)
  aliases : String → List String

/-- `told` is what the listener of an event was told of those who subscribed to it. -/
structure Listening where
  observers : Observers
  told : String → List StatusCallback

namespace Observer

/-- The loop of `Dropped` with its callback: the destinations that are dropped, and the others. -/
def droppedWith (found : Destination → Bool) :
    Nat → List Destination → List Destination × List Destination
  | 0, designators => ([], designators)
  | _ + 1, [] => ([], [])
  | fuel + 1, d :: rest =>
    if found d then
      let r := droppedWith found fuel (erase (d :: rest))
      (d :: r.1, r.2)
    else
      let r := droppedWith found fuel rest
      (r.1, d :: r.2)

end Observer

namespace EventStatus

variable (s : EventStatus)

/-- The event of a designator as the listeners know it. -/
def eventOf (designator : String) : List Char :=
  let parts := Designator.split designator.toList
  Designator.join { prefixText := parts.prefixText, method := parts.method }

def instanceOf (designator : String) : List Char :=
  (Designator.split designator.toList).instanceId

/-- `NotifyObservers`. -/
def notifyObservers (designator : String) (callbacks : List StatusCallback) :
    List StatusCallback :=
  if s.listens (eventOf designator) then callbacks else []

def callback (designator : String) (status : Status) (channel : Nat) (client index : String) :
    StatusCallback :=
  ⟨channel, instanceOf designator, client, index, status⟩

def assessed (channel : Nat) (designator clientId : String) : Bool :=
  let parts := Designator.split designator.toList
  match s.subscribeAssessor with
  | none => true
  | some assessor => assessor channel parts.prefixText parts.instanceId parts.method clientId

inductive Call
  | subscribe (channel : Nat) (event client index : String) (oneShot : Bool)
  | unsubscribe (channel : Nat) (event client index : String)
  | channelClosed (channel : Nat)
  | notify (event : String) (sendIf : SendIf)

/-- `ProcessSubscribe`. -/
def subscribe (channel : Nat) (event client index : String) (oneShot : Bool) (w : Listening) :
    Listening :=
  if s.assessed channel event client then
    let r := doSubscribe w.observers event (Observer.subscribe channel client index oneShot)
    { observers := r.2
      told := if r.1 = .none then
          update w.told event (w.told event ++
            s.notifyObservers event [callback event .registered channel client index])
        else w.told }
  else w

def unsubscribe (channel : Nat) (event client index : String) (w : Listening) : Listening :=
  let r := doUnsubscribe w.observers event (Observer.unsubscribe channel client index)
  { observers := r.2
    told := if r.1 = .none then
        update w.told event (w.told event ++
          s.notifyObservers event [callback event .unregistered channel client index])
      else w.told }

/-- The destinations of an event that go with a channel. -/
def droppedOf (channel : Nat) (designators : List Destination) : List Destination :=
  (Observer.droppedWith (fun d => d.channelId = channel ∧ d.callback = none) designators.length
    designators).1

def channelClosed (channel : Nat) (w : Listening) : Listening where
  observers := doDropped w.observers (Observer.channelDropped channel)
  told event := w.told event ++ s.notifyObservers event
    ((droppedOf channel (designators w.observers event)).map fun d =>
      callback event .unregistered channel d.designator d.index)

def step (w : Listening) : Call → Listening
  | .subscribe channel event client index oneShot =>
    s.subscribe channel event client index oneShot w
  | .unsubscribe channel event client index => s.unsubscribe channel event client index w
  | .channelClosed channel => s.channelClosed channel w
  | .notify event sendIf =>
    { w with observers := (JSONRPC.notify s.aliases w.observers event sendIf).2 }

def start : Listening := ⟨fun _ => none, fun _ => []⟩

/-! ### What is claimed of it -/

/-- What the listener of an event was told of one subscription to it. -/
def statuses (w : Listening) (event : String) (channel : Nat) (client index : String) :
    List Status :=
  (w.told event).filterMap fun c =>
    if c.channel = channel ∧ c.client = client ∧ c.index = index then some c.status else none

/-- Registered and unregistered in turn, and registered last exactly when the subscription is
there. -/
structure Balanced (statuses : List Status) (present : Prop) : Prop where
  alternates : ∀ i, ∀ status ∈ statuses[i]?,
    status = if i % 2 = 0 then .registered else .unregistered
  counts : statuses.count .registered = statuses.count .unregistered + 1 ↔ present

def AlwaysBalanced (w : Listening) : Prop :=
  ∀ event, s.listens (eventOf event) = true → ∀ channel client index,
    Balanced (statuses w event channel client index)
      (∃ flag, (⟨event, .channel channel, client, index⟩, flag) ∈ book w.observers)

/-- Nobody is subscribed for one time only to an event that has a listener and is told. -/
def Keeps (w : Listening) : Call → Prop
  | .notify event _ => ∀ name ∈ event :: s.aliases event, s.listens (eventOf name) = true →
      ∀ d ∈ designators w.observers name, d.oneShot = false
  | _ => True

/-! ### What one listener is told -/

section

variable {l : List Status} {p : Prop}

/-- The status that a listener is told as the one with this number. -/
def turn (i : Nat) : Status := if i % 2 = 0 then .registered else .unregistered

theorem alternates_append {status : Status} :
    (∀ i, ∀ x ∈ (l ++ [status])[i]?, x = turn i) ↔
      (∀ i, ∀ x ∈ l[i]?, x = turn i) ∧ status = turn l.length := by
  constructor
  · intro h
    refine ⟨fun i x hx => h i x ?_, h l.length status (by simp)⟩
    rw [List.getElem?_append_left (List.getElem?_eq_some_iff.mp hx).1]
    exact hx
  · rintro ⟨h, hlast⟩ i x hx
    rcases Nat.lt_or_ge i l.length with hlt | hge
    · rw [List.getElem?_append_left hlt] at hx
      exact h i x hx
    · rw [List.getElem?_append_right hge] at hx
      have hi : i = l.length := by
        have hbound := (List.getElem?_eq_some_iff.mp hx).1
        simp only [List.length_singleton] at hbound
        omega
      subst hi
      simp only [Nat.sub_self, List.getElem?_cons_zero, Option.mem_def,
        Option.some.injEq] at hx
      rw [← hx]
      exact hlast

/-- Of so many callbacks in turn the half are of each kind. -/
theorem counts_of_alternates (h : ∀ i, ∀ x ∈ l[i]?, x = turn i) :
    l.count .registered = (l.length + 1) / 2 ∧ l.count .unregistered = l.length / 2 := by
  induction l using List.reverseRecOn with
  | nil => exact ⟨rfl, rfl⟩
  | append_singleton l status ih =>
    rw [alternates_append] at h
    obtain ⟨hl, hstatus⟩ := h
    obtain ⟨hregistered, hunregistered⟩ := ih hl
    rw [List.count_append, List.count_append, hregistered, hunregistered, hstatus, turn,
      List.length_append, List.length_singleton]
    split_ifs with heven
    · simp only [List.count_singleton_self, List.count_singleton, reduceCtorEq, beq_iff_eq,
        if_false]
      omega
    · simp only [List.count_singleton_self, List.count_singleton, reduceCtorEq, beq_iff_eq,
        if_false]
      omega

theorem balanced_iff : Balanced l p ↔ (∀ i, ∀ x ∈ l[i]?, x = turn i) ∧ (l.length % 2 = 1 ↔ p) := by
  have hodd : (∀ i, ∀ x ∈ l[i]?, x = turn i) →
      (l.count .registered = l.count .unregistered + 1 ↔ l.length % 2 = 1) := by
    intro h
    obtain ⟨hregistered, hunregistered⟩ := counts_of_alternates h
    rw [hregistered, hunregistered]
    omega
  constructor
  · rintro ⟨halternates, hcounts⟩
    exact ⟨halternates, (hodd halternates).symm.trans hcounts⟩
  · rintro ⟨halternates, hlength⟩
    exact ⟨halternates, (hodd halternates).trans hlength⟩

theorem balanced_nil : Balanced [] False := by
  rw [balanced_iff]
  exact ⟨by simp, by simp⟩

theorem Balanced.register (h : Balanced l p) (hp : ¬ p) : Balanced (l ++ [.registered]) True := by
  rw [balanced_iff] at h ⊢
  rw [alternates_append]
  have heven : l.length % 2 = 0 := by
    have := mt h.2.mp hp
    omega
  refine ⟨⟨h.1, (if_pos heven).symm⟩, iff_of_true ?_ trivial⟩
  rw [List.length_append, List.length_singleton]
  omega

theorem Balanced.unregister (h : Balanced l p) (hp : p) :
    Balanced (l ++ [.unregistered]) False := by
  rw [balanced_iff] at h ⊢
  rw [alternates_append]
  have hodd : l.length % 2 = 1 := h.2.mpr hp
  refine ⟨⟨h.1, (if_neg (by omega)).symm⟩, iff_of_false ?_ id⟩
  rw [List.length_append, List.length_singleton]
  omega

end

/-! ### The destinations, whatever their flags -/

/-- A destination without the flag of a one-shot. -/
def content (d : Destination) : Option Nat × Nat × String × String :=
  (d.callback, d.channelId, d.designator, d.index)

section

variable {found : Destination → Bool} {f : Option Nat × Nat × String × String → Bool}
  {d : Destination} {l rest : List Destination} {sendIf : SendIf}

/-- An erase takes the first one, and its flag stays behind. -/
theorem content_erase : (erase (d :: rest)).map content = rest.map content := by
  induction rest generalizing d with
  | nil => rfl
  | cons move rest ih =>
    rw [erase, List.map_cons, ih]
    rfl

theorem length_erase : (erase (d :: rest)).length = rest.length := by
  rw [← List.length_map (f := content), content_erase, List.length_map]

theorem content_eraseBy (hf : ∀ d, found d = f (content d)) :
    (Observer.eraseBy found l).map content = (l.map content).eraseP f := by
  induction l with
  | nil => rfl
  | cons d rest ih =>
    rw [Observer.eraseBy, List.map_cons, List.eraseP_cons, ← hf]
    cases found d with
    | true => exact content_erase
    | false => exact congrArg (content d :: ·) ih

theorem any_content (hf : ∀ d, found d = f (content d)) : l.any found = (l.map content).any f := by
  rw [List.any_map]
  exact congrArg l.any (funext hf)

theorem content_droppedWith (hf : ∀ d, found d = f (content d)) {fuel : Nat}
    (hfuel : l.length ≤ fuel) :
    (Observer.droppedWith found fuel l).1.map content = (l.map content).filter f ∧
      (Observer.droppedWith found fuel l).2 = Observer.droppedFrom found fuel l ∧
      (Observer.droppedFrom found fuel l).map content = (l.map content).filter (!f ·) := by
  induction fuel generalizing l with
  | zero =>
    rw [List.length_eq_zero_iff.mp (Nat.le_zero.mp hfuel)]
    exact ⟨rfl, rfl, rfl⟩
  | succ fuel ih =>
    cases l with
    | nil => exact ⟨rfl, rfl, rfl⟩
    | cons d rest =>
      have hlength : rest.length ≤ fuel := Nat.le_of_succ_le_succ hfuel
      rw [Observer.droppedWith, Observer.droppedFrom, List.map_cons]
      cases hd : found d with
      | true =>
        obtain ⟨hdropped, hloop, hleft⟩ :=
          ih (l := erase (d :: rest)) (length_erase.trans_le hlength)
        rw [content_erase] at hdropped hleft
        have hfd : f (content d) = true := (hf d).symm.trans hd
        rw [List.filter_cons_of_pos hfd, List.filter_cons_of_neg (by simp [hfd])]
        exact ⟨congrArg (content d :: ·) hdropped, hloop, hleft⟩
      | false =>
        obtain ⟨hdropped, hloop, hleft⟩ := ih (l := rest) hlength
        have hfd : f (content d) = false := (hf d).symm.trans hd
        rw [List.filter_cons_of_neg (by simp [hfd]), List.filter_cons_of_pos (by simp [hfd])]
        exact ⟨hdropped, congrArg (d :: ·) hloop, congrArg (content d :: ·) hleft⟩

/-- Without one-shots an event leaves the destinations as they are. -/
theorem eventFrom_of_lasting (h : ∀ d ∈ l, d.oneShot = false) :
    (Observer.eventFrom sendIf l.length l).2 = l := by
  induction l with
  | nil => rfl
  | cons d rest ih =>
    have hd := h d List.mem_cons_self
    simp only [List.length_cons, Observer.eventFrom, hd, Bool.false_eq_true, if_false]
    exact congrArg (d :: ·) (ih fun d' hd' => h d' (List.mem_cons_of_mem _ hd'))

theorem eventFrom_sublist {fuel : Nat} :
    ((Observer.eventFrom sendIf fuel l).2.map content).Sublist (l.map content) := by
  induction fuel generalizing l with
  | zero => exact List.Sublist.refl _
  | succ fuel ih =>
    cases l with
    | nil => exact List.Sublist.refl _
    | cons d rest =>
      rw [Observer.eventFrom, List.map_cons]
      by_cases hd : d.oneShot = true
      · rw [if_pos hd]
        have hrest := ih (l := erase (d :: rest))
        rw [content_erase] at hrest
        exact hrest.cons _
      · rw [if_neg hd]
        exact ih.cons_cons _

/-- With a one-shot it takes a destination away. -/
theorem eventFrom_takes (hnodup : (l.map content).Nodup) (h : ∃ d ∈ l, d.oneShot = true) :
    ∃ c ∈ l.map content, c ∉ (Observer.eventFrom sendIf l.length l).2.map content := by
  induction l with
  | nil => exact absurd h (by simp)
  | cons d rest ih =>
    rw [List.map_cons, List.nodup_cons] at hnodup
    rw [List.length_cons, Observer.eventFrom]
    by_cases hd : d.oneShot = true
    · rw [if_pos hd]
      refine ⟨content d, List.mem_cons_self, fun hmem => hnodup.1 ?_⟩
      have hrest := eventFrom_sublist.subset hmem
      rwa [content_erase] at hrest
    · rw [if_neg hd]
      obtain ⟨d', hd', hflag⟩ := h
      have hrest : d' ∈ rest := by
        rcases List.mem_cons.mp hd' with rfl | hrest
        · exact absurd hflag hd
        · exact hrest
      obtain ⟨c, hc, hnot⟩ := ih hnodup.2 ⟨d', hrest, hflag⟩
      refine ⟨c, List.mem_cons_of_mem _ hc, fun hmem => ?_⟩
      rcases List.mem_cons.mp hmem with rfl | hmem
      · exact hnodup.1 hc
      · exact hnot hmem

end

/-! ### The observers behind a call -/

section

variable {o : Observers} {aliases : String → List String} {sendIf : SendIf} {event : String}

theorem designators_doSubscribe (subscribe : List Destination → Result × List Destination)
    (event' : String) : designators (doSubscribe o event subscribe).2 event' =
      if event' = event then (subscribe (designators o event)).2 else designators o event' := by
  rw [doSubscribe, designators_update]
  refine if_congr Iff.rfl ?_ rfl
  split_ifs
  · exact kept_getD _
  · rfl

theorem doUnsubscribe_eq (found : Destination → Bool) :
    ((doUnsubscribe o event (Observer.unsubscribeBy found)).1 = .none ↔
      (designators o event).any found = true) ∧
    ∀ event', designators (doUnsubscribe o event (Observer.unsubscribeBy found)).2 event' =
      if event' = event then (Observer.unsubscribeBy found (designators o event)).2
      else designators o event' := by
  cases hl : o event with
  | none =>
    rw [doUnsubscribe_none hl, designators_none hl]
    refine ⟨by simp, fun event' => ?_⟩
    split_ifs with hevent
    · rw [hevent]
      exact designators_none hl
    · rfl
  | some l =>
    rw [doUnsubscribe_some hl, designators_some hl, Observer.unsubscribeBy]
    by_cases hany : l.any found = true
    · rw [if_pos hany]
      refine ⟨iff_of_true rfl hany, fun event' => ?_⟩
      rw [designators_update, if_pos rfl, kept_getD]
    · rw [if_neg hany]
      refine ⟨iff_of_false (by rintro ⟨⟩) hany, fun event' => ?_⟩
      exact designators_update event event' _

theorem designators_dropped (found : Destination → Bool) :
    designators (doDropped o (Observer.droppedBy found)) event =
      Observer.droppedBy found (designators o event) := by
  cases hl : o event with
  | none =>
    rw [designators_none hl, designators, doDropped, hl]
    rfl
  | some l =>
    rw [designators_some hl, designators, doDropped, hl]
    exact kept_getD _

theorem designators_tell (event' : String) : designators (tell o event sendIf).2 event' =
    if event' = event then (Observer.event sendIf (designators o event)).2
    else designators o event' := by
  rw [tell]
  cases hl : o event with
  | none =>
    rw [designators_none hl]
    split_ifs with hevent
    · rw [hevent]
      exact designators_none hl
    · rfl
  | some l =>
    rw [designators_some hl]
    exact designators_update event event' _

theorem content_event_sublist (l : List Destination) :
    ((Observer.event sendIf l).2.map content).Sublist (l.map content) := eventFrom_sublist

theorem content_tell_sublist (event' : String) :
    ((designators (tell o event sendIf).2 event').map content).Sublist
      ((designators o event').map content) := by
  rw [designators_tell]
  split_ifs with hevent
  · rw [hevent]
    exact content_event_sublist _
  · exact List.Sublist.refl _

theorem content_tellAll_sublist (names : List String) (event' : String) :
    ((designators (tellAll sendIf names o).2 event').map content).Sublist
      ((designators o event').map content) := by
  induction names generalizing o with
  | nil => exact List.Sublist.refl _
  | cons name names ih => exact ih.trans (content_tell_sublist event')

theorem designators_tellAll_of_lasting {names : List String} {event' : String}
    (h : event' ∈ names → ∀ d ∈ designators o event', d.oneShot = false) :
    designators (tellAll sendIf names o).2 event' = designators o event' := by
  induction names generalizing o with
  | nil => rfl
  | cons name names ih =>
    have hname : designators (tell o name sendIf).2 event' = designators o event' := by
      rw [designators_tell]
      split_ifs with hevent
      · subst hevent
        exact eventFrom_of_lasting (h List.mem_cons_self)
      · rfl
    have hall : event' ∈ names →
        ∀ d ∈ designators (tell o name sendIf).2 event', d.oneShot = false := by
      rw [hname]
      exact fun hmem => h (List.mem_cons_of_mem _ hmem)
    rw [tellAll, ih hall, hname]

/-- The first turn of a one-shot takes a destination away, and it does not come back. -/
theorem content_tellAll_takes {names : List String} {event' : String} (hmem : event' ∈ names)
    (hnodup : ((designators o event').map content).Nodup)
    (h : ∃ d ∈ designators o event', d.oneShot = true) :
    ∃ c ∈ (designators o event').map content,
      c ∉ (designators (tellAll sendIf names o).2 event').map content := by
  induction names generalizing o with
  | nil => cases hmem
  | cons name names ih =>
    by_cases hname : event' = name
    · obtain ⟨c, hc, hnot⟩ : ∃ c ∈ (designators o event').map content,
          c ∉ (Observer.event sendIf (designators o event')).2.map content :=
        eventFrom_takes hnodup h
      refine ⟨c, hc, fun hleft => hnot ?_⟩
      have htold := (content_tellAll_sublist names event').subset hleft
      rw [designators_tell, if_pos hname, ← hname] at htold
      exact htold
    · have hsame : designators (tell o name sendIf).2 event' = designators o event' := by
        rw [designators_tell, if_neg hname]
      have hrest := ih (o := (tell o name sendIf).2) ((List.mem_cons.mp hmem).resolve_left hname)
      rw [hsame] at hrest
      exact hrest hnodup h

theorem designators_tellAll_congr {o' : Observers} (names : List String)
    (h : ∀ event, designators o event = designators o' event) (event' : String) :
    designators (tellAll sendIf names o).2 event' =
      designators (tellAll sendIf names o').2 event' := by
  induction names generalizing o o' with
  | nil => exact h event'
  | cons name names ih =>
    refine ih fun event => ?_
    rw [designators_tell, designators_tell, h, h]

/-- A notification is told as its event and the aliases are, one after the other. -/
theorem designators_notify (event' : String) :
    designators (JSONRPC.notify aliases o event sendIf).2 event' =
      designators (tellAll sendIf (event :: aliases event) o).2 event' := by
  refine designators_tellAll_congr (aliases event) (fun name => ?_) event'
  rw [designators_update]
  split_ifs with hname
  · subst hname
    rw [designators]
    cases (tell o name sendIf).2 name with
    | none => rfl
    | some l => exact kept_getD l
  · rfl

end

/-! ### Calls -/

section

variable {s : EventStatus} {w : Listening}

/-- What holds of every state: only channels subscribe, and each only once. -/
structure Holds (w : Listening) : Prop where
  nodup : ∀ event, ((designators w.observers event).map content).Nodup
  channels : ∀ event, ∀ c ∈ (designators w.observers event).map content, c.1 = none

theorem present_iff {o : Observers} {event : String} {channel : Nat} {client index : String} :
    (∃ flag, (⟨event, .channel channel, client, index⟩, flag) ∈ book o) ↔
      (none, channel, client, index) ∈ (designators o event).map content := by
  rw [exists_mem_book, List.mem_map]
  refine exists_congr fun d => and_congr_right fun _ => ?_
  rw [Destination.subscription, Subscription.mk.injEq, recipient_channel_iff, content]
  simp only [Prod.mk.injEq, true_and]
  tauto

/-- What the functions of an observer look for. -/
def isContent (channel : Nat) (client index : String)
    (c : Option Nat × Nat × String × String) : Bool :=
  c.2 = (channel, client, index)

theorem isChannel_eq (channel : Nat) (client index : String) (d : Destination) :
    Observer.isChannel channel client index d = isContent channel client index (content d) := by
  rw [Observer.isChannel, isContent, content]
  simp only [Prod.mk.injEq]

theorem Holds.any_iff (h : Holds w) (event : String) (channel : Nat) (client index : String) :
    (designators w.observers event).any (Observer.isChannel channel client index) = true ↔
      (none, channel, client, index) ∈ (designators w.observers event).map content := by
  rw [any_content (isChannel_eq channel client index), List.any_eq_true]
  constructor
  · rintro ⟨c, hc, hfound⟩
    have hnone := h.channels event c hc
    rw [isContent, decide_eq_true_eq] at hfound
    rw [← hfound, ← hnone]
    exact hc
  · exact fun hmem => ⟨_, hmem, decide_eq_true rfl⟩

/-- What a listener is told when a subscription that was there, or was not, is there or is not. -/
def Turned (before after : Prop) (told : List Status) : Prop :=
  told = [] ∧ (before ↔ after) ∨ told = [.registered] ∧ ¬ before ∧ after ∨
    told = [.unregistered] ∧ before ∧ ¬ after

theorem Balanced.turned {l told : List Status} {before after : Prop} (h : Balanced l before)
    (hturned : Turned before after told) : Balanced (l ++ told) after := by
  rcases hturned with ⟨rfl, hsame⟩ | ⟨rfl, hbefore, hafter⟩ | ⟨rfl, hbefore, hafter⟩
  · rw [List.append_nil, ← propext hsame]
    exact h
  · rw [eq_true hafter]
    exact h.register hbefore
  · rw [eq_false hafter]
    exact h.unregister hbefore

/-- A call keeps what holds of every state, and the listeners are told of all that it does. -/
structure Tells (s : EventStatus) (w w' : Listening) : Prop where
  holds : Holds w'
  turned : ∀ event, s.listens (eventOf event) = true → ∀ channel client index,
    ∃ told, statuses w' event channel client index =
        statuses w event channel client index ++ told ∧
      Turned ((none, channel, client, index) ∈ (designators w.observers event).map content)
        ((none, channel, client, index) ∈ (designators w'.observers event).map content) told

theorem Tells.balanced {w' : Listening} (h : Tells s w w') (hbalanced : s.AlwaysBalanced w) :
    s.AlwaysBalanced w' := by
  intro event hlistens channel client index
  obtain ⟨told, hstatuses, hturned⟩ := h.turned event hlistens channel client index
  have hbefore := hbalanced event hlistens channel client index
  rw [present_iff] at hbefore ⊢
  rw [hstatuses]
  exact hbefore.turned hturned

theorem Tells.refl (h : Holds w) : Tells s w w :=
  ⟨h, fun _ _ _ _ _ => ⟨[], (List.append_nil _).symm, .inl ⟨rfl, Iff.rfl⟩⟩⟩

/-- Of one callback the listener of a subscription is told exactly when it is about this. -/
theorem statuses_callback (event : String) (status : Status) (channel channel' : Nat)
    (client client' index index' : String) :
    ([callback event status channel client index].filterMap fun c =>
        if c.channel = channel' ∧ c.client = client' ∧ c.index = index' then some c.status
        else none) =
      if (channel, client, index) = (channel', client', index') then [status] else [] := by
  simp only [List.filterMap_cons, List.filterMap_nil, callback, Prod.mk.injEq]
  split_ifs <;> rfl

/-- A call that is about one subscription. -/
theorem tells_one {o : Observers} {event : String} {channel : Nat} {client index : String}
    {status : Status} (hholds : Holds ⟨o, w.told⟩)
    (hother : ∀ event', event' ≠ event → designators o event' = designators w.observers event')
    (hcontent : ∀ c, c.2 ≠ (channel, client, index) →
      (c ∈ (designators o event).map content ↔
        c ∈ (designators w.observers event).map content))
    (hturned : Turned
      ((none, channel, client, index) ∈ (designators w.observers event).map content)
      ((none, channel, client, index) ∈ (designators o event).map content) [status]) :
    Tells s w ⟨o, update w.told event (w.told event ++
      s.notifyObservers event [callback event status channel client index])⟩ := by
  refine ⟨⟨hholds.nodup, hholds.channels⟩, fun event' hlistens channel' client' index' => ?_⟩
  by_cases hevent : event' = event
  · subst hevent
    simp only [statuses, update_self, notifyObservers, hlistens, if_true, List.filterMap_append,
      statuses_callback]
    refine ⟨_, rfl, ?_⟩
    split_ifs with hkey
    · rw [← hkey]
      exact hturned
    · exact .inl ⟨rfl, (hcontent _ fun h => hkey h.symm).symm⟩
  · simp only [statuses, update_of_ne hevent, hother event' hevent]
    exact ⟨[], (List.append_nil _).symm, .inl ⟨rfl, Iff.rfl⟩⟩

theorem Tells.of_same {o : Observers} (h : Holds w)
    (hsame : ∀ event, designators o event = designators w.observers event) :
    Tells s w ⟨o, w.told⟩ := by
  refine ⟨⟨fun event => ?_, fun event => ?_⟩, fun event _ channel client index => ?_⟩
  · rw [hsame]
    exact h.nodup event
  · rw [hsame]
    exact h.channels event
  · rw [hsame]
    exact ⟨[], (List.append_nil _).symm, .inl ⟨rfl, Iff.rfl⟩⟩

theorem tells_subscribe (h : Holds w) (channel : Nat) (event client index : String)
    (oneShot : Bool) : Tells s w (s.subscribe channel event client index oneShot w) := by
  unfold subscribe
  split_ifs with hassessed
  · have hdesignators : ∀ event', designators (doSubscribe w.observers event
        (Observer.subscribe channel client index oneShot)).2 event' = _ :=
      designators_doSubscribe _
    have hany := h.any_iff event channel client index
    dsimp only
    by_cases hfound : (designators w.observers event).any
        (Observer.isChannel channel client index) = true
    · -- it is there
      have hsubscribe : Observer.subscribe channel client index oneShot
          (designators w.observers event) = (.duplicateKey, designators w.observers event) :=
        if_pos hfound
      have hresult : (doSubscribe w.observers event
          (Observer.subscribe channel client index oneShot)).1 ≠ .none := by
        rw [doSubscribe, hsubscribe]
        rintro ⟨⟩
      rw [if_neg hresult]
      refine Tells.of_same h fun event' => ?_
      rw [hdesignators, hsubscribe]
      split_ifs with hevent
      · rw [hevent]
      · rfl
    · have hsubscribe : Observer.subscribe channel client index oneShot
          (designators w.observers event) = (.none, designators w.observers event ++
            [⟨none, channel, client, index, oneShot⟩]) := if_neg hfound
      have hresult : (doSubscribe w.observers event
          (Observer.subscribe channel client index oneShot)).1 = .none := by
        rw [doSubscribe, hsubscribe]
      have habsent := mt hany.mpr hfound
      have hcontent : (designators (doSubscribe w.observers event
          (Observer.subscribe channel client index oneShot)).2 event).map content =
            (designators w.observers event).map content ++ [(none, channel, client, index)] := by
        rw [hdesignators, if_pos rfl, hsubscribe, List.map_append]
        rfl
      have hother : ∀ event', event' ≠ event → designators (doSubscribe w.observers event
          (Observer.subscribe channel client index oneShot)).2 event' =
            designators w.observers event' := fun event' hevent => by
        rw [hdesignators, if_neg hevent]
      rw [if_pos hresult]
      refine tells_one ⟨fun event' => ?_, fun event' c hc => ?_⟩ hother (fun c hc => ?_) ?_
      · by_cases hevent : event' = event
        · rw [hevent, hcontent, List.nodup_append]
          refine ⟨h.nodup event, List.nodup_singleton _, fun c hc c' hc' heq => habsent ?_⟩
          rwa [← List.mem_singleton.mp hc', ← heq]
        · rw [hother event' hevent]
          exact h.nodup event'
      · by_cases hevent : event' = event
        · rw [hevent, hcontent, List.mem_append, List.mem_singleton] at hc
          rcases hc with hc | rfl
          · exact h.channels event c hc
          · rfl
        · rw [hother event' hevent] at hc
          exact h.channels event' c hc
      · rw [hcontent, List.mem_append, List.mem_singleton]
        refine or_iff_left ?_
        rintro rfl
        exact hc rfl
      · rw [hcontent]
        exact .inr (.inl ⟨rfl, habsent, by simp⟩)
  · exact Tells.refl h

theorem tells_unsubscribe (h : Holds w) (channel : Nat) (event client index : String) :
    Tells s w (s.unsubscribe channel event client index w) := by
  obtain ⟨hresult, hdesignators⟩ : ((doUnsubscribe w.observers event
      (Observer.unsubscribeBy (Observer.isChannel channel client index))).1 = .none ↔ _) ∧ _ :=
    doUnsubscribe_eq (Observer.isChannel channel client index)
  have hany := h.any_iff event channel client index
  unfold unsubscribe Observer.unsubscribe
  dsimp only
  by_cases hfound : (designators w.observers event).any
      (Observer.isChannel channel client index) = true
  · rw [if_pos (hresult.mpr hfound)]
    have hpresent := hany.mp hfound
    have hother : ∀ event', event' ≠ event → designators (doUnsubscribe w.observers event
        (Observer.unsubscribeBy (Observer.isChannel channel client index))).2 event' =
          designators w.observers event' := fun event' hevent => by
      rw [hdesignators, if_neg hevent]
    have hcontent : (designators (doUnsubscribe w.observers event
        (Observer.unsubscribeBy (Observer.isChannel channel client index))).2 event).map content =
          ((designators w.observers event).map content).eraseP
            (isContent channel client index) := by
      rw [hdesignators, if_pos rfl, Observer.unsubscribeBy, if_pos hfound]
      exact content_eraseBy (isChannel_eq channel client index)
    have hsublist : ∀ event', ((designators (doUnsubscribe w.observers event
        (Observer.unsubscribeBy (Observer.isChannel channel client index))).2 event').map
          content).Sublist ((designators w.observers event').map content) := by
      intro event'
      by_cases hevent : event' = event
      · rw [hevent, hcontent]
        exact List.eraseP_sublist
      · rw [hother event' hevent]
    refine tells_one ⟨fun event' => (h.nodup event').sublist (hsublist event'),
      fun event' c hc => h.channels event' c ((hsublist event').subset hc)⟩ hother
      (fun c hc => ?_) ?_
    · rw [hcontent]
      exact List.mem_eraseP_of_neg (by simpa [isContent] using hc)
    · rw [hcontent]
      obtain ⟨c, before, behind, -, hc, hsplit, herase⟩ := List.exists_of_eraseP
        (p := isContent channel client index) hpresent (decide_eq_true rfl)
      have heq : c = (none, channel, client, index) :=
        Prod.ext (h.channels event c (by simp [hsplit])) (of_decide_eq_true hc)
      have hnodup := h.nodup event
      rw [hsplit, List.nodup_middle, List.nodup_cons, heq] at hnodup
      rw [herase]
      exact .inr (.inr ⟨rfl, hpresent, hnodup.1⟩)
  · rw [if_neg (mt hresult.mp hfound)]
    refine Tells.of_same h fun event' => ?_
    rw [hdesignators, Observer.unsubscribeBy, if_neg hfound]
    split_ifs with hevent
    · rw [hevent]
    · rfl

theorem content_droppedOf (channel : Nat) (l : List Destination) :
    (droppedOf channel l).map content =
      (l.map content).filter fun c => c.2.1 = channel ∧ c.1 = none :=
  (content_droppedWith (f := fun c => c.2.1 = channel ∧ c.1 = none) (fun _ => rfl)
    (Nat.le_refl _)).1

theorem content_channelDropped (channel : Nat) (l : List Destination) :
    (Observer.channelDropped channel l).map content =
      (l.map content).filter fun c => !decide (c.2.1 = channel ∧ c.1 = none) :=
  (content_droppedWith (f := fun c => c.2.1 = channel ∧ c.1 = none) (fun _ => rfl)
    (Nat.le_refl _)).2.2

/-- What is told of one subscription when a channel is closed. -/
theorem statuses_dropped (event : String) (channel : Nat) (client index : String)
    {channel' : Nat} {l : List Destination}
    (h : ∀ d ∈ l, d.channelId = channel' ∧ d.callback = none) :
    ((l.map fun d => callback event .unregistered channel' d.designator d.index).filterMap
        fun c => if c.channel = channel ∧ c.client = client ∧ c.index = index then some c.status
          else none) =
      List.replicate ((l.map content).count (none, channel, client, index)) .unregistered := by
  induction l with
  | nil => rfl
  | cons d rest ih =>
    obtain ⟨hchannel, hnone⟩ := h d List.mem_cons_self
    have hrest := ih fun d' hd' => h d' (List.mem_cons_of_mem _ hd')
    rw [List.map_cons, List.filterMap_cons, hrest, List.map_cons, List.count_cons]
    have hcontent : content d = (none, channel', d.designator, d.index) := by
      rw [content, hchannel, hnone]
    by_cases hkey : channel' = channel ∧ d.designator = client ∧ d.index = index
    · simp [hcontent, callback, hkey, List.replicate_succ]
    · simp [hcontent, callback, hkey]

theorem tells_channelClosed (h : Holds w) (channel : Nat) :
    Tells s w (s.channelClosed channel w) := by
  have hcontent : ∀ event, (designators (s.channelClosed channel w).observers event).map content =
      ((designators w.observers event).map content).filter
        fun c => !decide (c.2.1 = channel ∧ c.1 = none) := by
    intro event
    have hdropped : designators (s.channelClosed channel w).observers event =
        Observer.channelDropped channel (designators w.observers event) := designators_dropped _
    rw [hdropped]
    exact content_channelDropped channel _
  refine ⟨⟨fun event => ?_, fun event c hc => ?_⟩, fun event hlistens channel' client index => ?_⟩
  · rw [hcontent]
    exact (h.nodup event).filter _
  · rw [hcontent] at hc
    exact h.channels event c (List.mem_filter.mp hc).1
  · have hall : ∀ d ∈ droppedOf channel (designators w.observers event),
        d.channelId = channel ∧ d.callback = none := by
      intro d hd
      have hmem := List.mem_map_of_mem (f := content) hd
      rw [content_droppedOf, List.mem_filter] at hmem
      exact of_decide_eq_true hmem.2
    simp only [statuses, channelClosed, notifyObservers, hlistens, if_true, List.filterMap_append,
      statuses_dropped event channel' client index hall]
    refine ⟨_, rfl, ?_⟩
    have hafter := hcontent event
    rw [channelClosed] at hafter
    dsimp only at hafter
    rw [hafter, content_droppedOf, ((h.nodup event).filter _).count]
    simp only [List.mem_filter]
    generalize (designators w.observers event).map content = contents
    by_cases hsame : channel' = channel
    · subst hsame
      by_cases hmem : (none, channel', client, index) ∈ contents
      · exact .inr (.inr ⟨by simp [hmem], hmem, by simp⟩)
      · exact .inl ⟨by simp [hmem], by simp [hmem]⟩
    · exact .inl ⟨by simp [hsame], by simp [hsame]⟩

theorem holds_start : Holds start where
  nodup _ := List.nodup_nil
  channels _ _ h := by cases h

theorem alwaysBalanced_start : s.AlwaysBalanced start := by
  intro event _ channel client index
  rw [present_iff]
  exact (propext (iff_false_intro List.not_mem_nil)) ▸ balanced_nil

theorem Holds.notify (h : Holds w) (event : String) (sendIf : SendIf) :
    Holds (s.step w (.notify event sendIf)) := by
  have hsublist : ∀ event', ((designators (s.step w (.notify event sendIf)).observers event').map
      content).Sublist ((designators w.observers event').map content) := by
    intro event'
    rw [step, designators_notify]
    exact content_tellAll_sublist _ _
  exact ⟨fun event' => (h.nodup event').sublist (hsublist event'),
    fun event' c hc => h.channels event' c ((hsublist event').subset hc)⟩

/-- A notification is told to no listener, and keeps what these know exactly when it takes nobody
away. -/
theorem balanced_notify_iff (h : Holds w) (hbalanced : s.AlwaysBalanced w) (event : String)
    (sendIf : SendIf) :
    s.AlwaysBalanced (s.step w (.notify event sendIf)) ↔ s.Keeps w (.notify event sendIf) := by
  constructor
  · intro hafter name hname hlistens d hd
    by_contra hflag
    obtain ⟨c, hc, hnot⟩ : ∃ c ∈ (designators w.observers name).map content,
        c ∉ (designators (tellAll sendIf (event :: s.aliases event) w.observers).2 name).map
          content :=
      content_tellAll_takes hname (h.nodup name) ⟨d, hd, by simpa using hflag⟩
    rw [← designators_notify] at hnot
    obtain ⟨callback, channel, client, index⟩ := c
    have hnone : callback = none := h.channels name _ hc
    subst hnone
    have hthere := hbalanced name hlistens channel client index
    have hgone := hafter name hlistens channel client index
    rw [present_iff] at hthere hgone
    -- the listener has been told the same
    exact hnot (hgone.counts.mp (hthere.counts.mpr hc))
  · intro hkeeps event' hlistens channel client index
    have hsame : designators (s.step w (.notify event sendIf)).observers event' =
        designators w.observers event' := by
      rw [step, designators_notify]
      exact designators_tellAll_of_lasting fun hmem => hkeeps event' hmem hlistens
    have hbefore := hbalanced event' hlistens channel client index
    rw [present_iff] at hbefore ⊢
    rw [hsame]
    exact hbefore

theorem step_iff (h : Holds w) (hbalanced : s.AlwaysBalanced w) (call : Call) :
    Holds (s.step w call) ∧ (s.AlwaysBalanced (s.step w call) ↔ s.Keeps w call) := by
  cases call with
  | subscribe channel event client index oneShot =>
    have htells := tells_subscribe (s := s) h channel event client index oneShot
    exact ⟨htells.holds, iff_of_true (htells.balanced hbalanced) trivial⟩
  | unsubscribe channel event client index =>
    have htells := tells_unsubscribe (s := s) h channel event client index
    exact ⟨htells.holds, iff_of_true (htells.balanced hbalanced) trivial⟩
  | channelClosed channel =>
    have htells := tells_channelClosed (s := s) h channel
    exact ⟨htells.holds, iff_of_true (htells.balanced hbalanced) trivial⟩
  | notify event sendIf =>
    exact ⟨h.notify event sendIf, balanced_notify_iff h hbalanced event sendIf⟩

end

/-- The listeners of a run see balanced registrations exactly when nobody is subscribed for one time
only to an event that is told, where that has a listener. -/
theorem always_balanced_iff (s : EventStatus) (calls : List Call) :
    Always s.step s.AlwaysBalanced start calls ↔ Meets s.step s.Keeps start calls :=
  always_iff_of_invariant (I := fun w => Holds w ∧ s.AlwaysBalanced w)
    (fun _ call h hkeeps =>
      ⟨(step_iff h.1 h.2 call).1, (step_iff h.1 h.2 call).2.mpr hkeeps⟩)
    (fun _ h => h.2) (fun _ call h hbalanced => (step_iff h.1 h.2 call).2.mp hbalanced)
    ⟨holds_start, alwaysBalanced_start⟩

/-- Whoever is told once and subscribes again is registered twice. -/
theorem not_alternating : ¬ ∀ (s : EventStatus) (calls : List Call),
    Always s.step s.AlwaysBalanced start calls := by
  intro h
  have hlast := (h ⟨fun _ => true, none, fun _ => []⟩
    [.subscribe 1 "event" "client" "" true, .notify "event" fun _ _ => true]).last
  have hcounts := (hlast "event" rfl 1 "client" "").counts
  rw [present_iff] at hcounts
  exact absurd (hcounts.mp (by decide)) (by decide)

end EventStatus

end Thunder.PluginHost.JSONRPC
