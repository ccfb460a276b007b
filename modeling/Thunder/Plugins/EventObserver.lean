import Thunder.Library.Run
import Mathlib.Data.List.Basic
import Mathlib.Data.List.Nodup
import Mathlib.Data.Set.Basic
import Mathlib.Logic.Function.Basic
import Mathlib.Tactic.SplitIfs
import Mathlib.Algebra.Group.Nat.Defs

/-! `PluginHost::JSONRPC`: who is told of an event, the channels and the callback objects that
subscribed to it. -/

namespace Thunder.PluginHost.JSONRPC

/-- `~0`, the channel of a destination that is a callback. -/
def noChannel : Nat := 2 ^ 32 - 1

/-- `Observer::Destination`; a callback is the address of the object. -/
structure Destination where
  callback : Option Nat
  channelId : Nat
  designator : String
  index : String
  oneShot : Bool
  deriving DecidableEq

inductive Recipient
  | channel (id : Nat)
  | callback (object : Nat)
  deriving DecidableEq

/-- What is subscribed: a recipient, under a designator and an index, to an event. -/
structure Subscription where
  event : String
  recipient : Recipient
  designator : String
  index : String
  deriving DecidableEq

inductive Result
  | none
  | duplicateKey
  | badRequest
  | unknownKey
  deriving DecidableEq

/-- A filter of an event: which designators and indexes it is for. -/
abbrev SendIf := String → String → Bool

def Destination.recipient (d : Destination) : Recipient :=
  d.callback.elim (.channel d.channelId) .callback

def Destination.subscription (d : Destination) (event : String) : Subscription :=
  ⟨event, d.recipient, d.designator, d.index⟩

/-- The move assignment: everything but the flag of a one-shot. -/
def Destination.assign (d move : Destination) : Destination := { move with oneShot := d.oneShot }

/-- `erase` of the first destination of a vector: each of the others is assigned to the one before
it, and the last one goes. -/
def erase : List Destination → List Destination
  | [] => []
  | [_] => []
  | d :: move :: rest => d.assign move :: erase (move :: rest)

namespace Observer

/-! ### One observer: the destinations of an event -/

/-- What `Subscribe` and `Unsubscribe` look for, for a channel. -/
def isChannel (id : Nat) (designator index : String) (d : Destination) : Bool :=
  d.channelId = id ∧ d.designator = designator ∧ d.index = index

/-- And for a callback. -/
def isCallback (callback : Nat) (designator index : String) (d : Destination) : Bool :=
  d.designator = designator ∧ d.index = index ∧ d.callback ≠ some callback

def subscribeBy (found : Destination → Bool) (new : Destination) (designators : List Destination) :
    Result × List Destination :=
  if designators.any found then (.duplicateKey, designators) else (.none, designators ++ [new])

/-- The first one that is found is erased. -/
def eraseBy (found : Destination → Bool) : List Destination → List Destination
  | [] => []
  | d :: rest => if found d then erase (d :: rest) else d :: eraseBy found rest

def unsubscribeBy (found : Destination → Bool) (designators : List Destination) :
    Result × List Destination :=
  if designators.any found then (.none, eraseBy found designators) else (.badRequest, designators)

def subscribe (id : Nat) (designator index : String) (oneShot : Bool) :
    List Destination → Result × List Destination :=
  subscribeBy (isChannel id designator index) ⟨none, id, designator, index, oneShot⟩

def unsubscribe (id : Nat) (designator index : String) :
    List Destination → Result × List Destination :=
  unsubscribeBy (isChannel id designator index)

def subscribeCallback (callback : Nat) (designator index : String) :
    List Destination → Result × List Destination :=
  subscribeBy (isCallback callback designator index)
    ⟨some callback, noChannel, designator, index, false⟩

def unsubscribeCallback (callback : Nat) (designator index : String) :
    List Destination → Result × List Destination :=
  unsubscribeBy (isCallback callback designator index)

/-- The loop of both `Dropped`: behind an erase it stays where it is.  Each turn takes a
destination, so the fuel is their number. -/
def droppedFrom (found : Destination → Bool) : Nat → List Destination → List Destination
  | 0, designators => designators
  | _ + 1, [] => []
  | fuel + 1, d :: rest =>
    if found d then droppedFrom found fuel (erase (d :: rest))
    else d :: droppedFrom found fuel rest

def droppedBy (found : Destination → Bool) (designators : List Destination) : List Destination :=
  droppedFrom found designators.length designators

def dropped (callback : Nat) : List Destination → List Destination :=
  droppedBy fun d => d.callback = some callback

def channelDropped (channelId : Nat) : List Destination → List Destination :=
  droppedBy fun d => d.channelId = channelId ∧ d.callback = none

/-- The loop of `Event`: the destinations that are told of it, and those that are left. -/
def eventFrom (sendIf : SendIf) : Nat → List Destination → List Destination × List Destination
  | 0, designators => ([], designators)
  | _ + 1, [] => ([], [])
  | fuel + 1, d :: rest =>
    let told := if sendIf d.designator d.index then [d] else []
    if d.oneShot then
      let r := eventFrom sendIf fuel (erase (d :: rest))
      (told ++ r.1, r.2)
    else
      let r := eventFrom sendIf fuel rest
      (told ++ r.1, d :: r.2)

def event (sendIf : SendIf) (designators : List Destination) :
    List Destination × List Destination :=
  eventFrom sendIf designators.length designators

end Observer

/-! ### The observers of all events -/

/-- `_observers`: no observer, or its destinations. -/
abbrev Observers := String → Option (List Destination)

/-- An observer without a destination is erased. -/
def kept (designators : List Destination) : Option (List Destination) :=
  if designators = [] then none else some designators

/-- What is called on the object. -/
inductive Operation
  | subscribe (id : Nat) (event designator index : String) (oneShot : Bool)
  | unsubscribe (id : Nat) (event designator index : String)
  | subscribeCallback (callback : Nat) (event designator index : String)
  | unsubscribeCallback (callback : Nat) (event designator index : String)
  | dropped (callback : Nat)
  | channelClosed (id : Nat)
  | detach
  | notify (event : String) (sendIf : SendIf)

variable (aliases : String → List String) (o : Observers)

/-- The destinations of an event. -/
def designators (event : String) : List Destination := (o event).getD []

def doSubscribe (event : String) (subscribe : List Destination → Result × List Destination) :
    Result × Observers :=
  let r := subscribe (designators o event)
  (r.1, Function.update o event (if r.1 ≠ .none then kept r.2 else some r.2))

def doUnsubscribe (event : String) (unsubscribe : List Destination → Result × List Destination) :
    Result × Observers :=
  match o event with
  | none => (.unknownKey, o)
  | some designators =>
    let r := unsubscribe designators
    (r.1, Function.update o event (if r.1 = .none then kept r.2 else some r.2))

def doDropped (dropped : List Destination → List Destination) : Observers :=
  fun event => (o event).bind fun designators => kept (dropped designators)

/-- `Event` on the observer of an event where there is one: who is told, under the name. -/
def tell (event : String) (sendIf : SendIf) : List Subscription × Observers :=
  match o event with
  | none => ([], o)
  | some designators =>
    ((Observer.event sendIf designators).1.map (·.subscription event),
      Function.update o event (some (Observer.event sendIf designators).2))

/-- `tell` for the aliases of an event, one after the other. -/
def tellAll (sendIf : SendIf) : List String → Observers → List Subscription × Observers
  | [], o => ([], o)
  | event :: rest, o =>
    let r := tell o event sendIf
    let r' := tellAll sendIf rest r.2
    (r.1 ++ r'.1, r'.2)

/-- `InternalNotify`. -/
def notify (event : String) (sendIf : SendIf) : List Subscription × Observers :=
  let r := tell o event sendIf
  let o := Function.update r.2 event ((r.2 event).bind kept)
  let r' := tellAll sendIf (aliases event) o
  (r.1 ++ r'.1, r'.2)

/-- A call: what it answers, who is told of an event, and the observers behind it. -/
def perform : Operation → Result × List Subscription × Observers
  | .subscribe id event designator index oneShot =>
    let r := doSubscribe o event (Observer.subscribe id designator index oneShot)
    (r.1, [], r.2)
  | .unsubscribe id event designator index =>
    let r := doUnsubscribe o event (Observer.unsubscribe id designator index)
    (r.1, [], r.2)
  | .subscribeCallback callback event designator index =>
    let r := doSubscribe o event (Observer.subscribeCallback callback designator index)
    (r.1, [], r.2)
  | .unsubscribeCallback callback event designator index =>
    let r := doUnsubscribe o event (Observer.unsubscribeCallback callback designator index)
    (r.1, [], r.2)
  | .dropped callback => (.none, [], doDropped o (Observer.dropped callback))
  | .channelClosed id => (.none, [], doDropped o (Observer.channelDropped id))
  | .detach => (.none, [], fun _ => none)
  | .notify event sendIf =>
    let r := notify aliases o event sendIf
    (.unknownKey, r.1, r.2)

/-! ### What is claimed of it -/

/-- What is subscribed, with the flag of a one-shot. -/
def book (o : Observers) : Set (Subscription × Bool) :=
  {p | ∃ d ∈ designators o p.1.event, d.subscription p.1.event = p.1 ∧ d.oneShot = p.2}

/-- An event and its aliases concern a subscription that the filter accepts. -/
def Concerns (event : String) (sendIf : SendIf) (s : Subscription) : Prop :=
  s.event ∈ event :: aliases event ∧ sendIf s.designator s.index = true

/-- A subscription is made where it is not there yet. -/
def Subscribes (before after : Set (Subscription × Bool)) (answer : Result) (s : Subscription)
    (oneShot : Bool) : Prop :=
  (answer = .duplicateKey ↔ ∃ flag, (s, flag) ∈ before) ∧
    after = before ∪ {p | p = (s, oneShot) ∧ ∀ flag, (s, flag) ∉ before}

/-- A subscription is taken away, and no other. -/
def Unsubscribes (before after : Set (Subscription × Bool)) (answer : Result) (s : Subscription) :
    Prop :=
  (answer = .none ↔ ∃ flag, (s, flag) ∈ before) ∧ after = {p ∈ before | p.1 ≠ s}

/-- What a call does to what is subscribed, what it answers and who is told. -/
def Specified (before after : Set (Subscription × Bool)) (answer : Result)
    (told : List Subscription) : Operation → Prop
  | .subscribe id event designator index oneShot =>
    Subscribes before after answer ⟨event, .channel id, designator, index⟩ oneShot ∧ told = []
  | .unsubscribe id event designator index =>
    Unsubscribes before after answer ⟨event, .channel id, designator, index⟩ ∧ told = []
  | .subscribeCallback callback event designator index =>
    Subscribes before after answer ⟨event, .callback callback, designator, index⟩ false ∧ told = []
  | .unsubscribeCallback callback event designator index =>
    Unsubscribes before after answer ⟨event, .callback callback, designator, index⟩ ∧ told = []
  | .dropped callback => after = {p ∈ before | p.1.recipient ≠ .callback callback} ∧ told = []
  | .channelClosed id => after = {p ∈ before | p.1.recipient ≠ .channel id} ∧ told = []
  | .detach => after = ∅ ∧ told = []
  | .notify event sendIf =>
    told.Nodup ∧
      (∀ s, s ∈ told ↔ Concerns aliases event sendIf s ∧ ∃ flag, (s, flag) ∈ before) ∧
      after = {p ∈ before | ¬ (Concerns aliases event sendIf p.1 ∧ p.2 = true)}

/-- The observers behind a call. -/
def step (o : Observers) (operation : Operation) : Observers := (perform aliases o operation).2.2

/-- A call does what is specified. -/
def Exact (o : Observers) (operation : Operation) : Prop :=
  Specified aliases (book o) (book (step aliases o operation)) (perform aliases o operation).1
    (perform aliases o operation).2.1 operation

/-! ### When a call does what it should -/

/-- The first destination that is found and all behind it are one-shots, or none of them is. -/
def Even (found : Destination → Bool) : List Destination → Prop
  | [] => True
  | d :: rest => if found d then ∀ d' ∈ rest, d'.oneShot = d.oneShot else Even found rest

/-- A channel is not the number that stands for none, and no flag of a one-shot is left behind by
an erase.  A callback subscribes where another recipient has the designator and the index exactly
when it is subscribed itself, and never unsubscribes from what anyone has.  A one-shot is erased
when the filter accepts it.  The aliases of an event are different ones. -/
def Proper (o : Observers) : Operation → Prop
  | .subscribe id _ _ _ _ => id ≠ noChannel
  | .unsubscribe id event designator index =>
    id ≠ noChannel ∧ Even (Observer.isChannel id designator index) (designators o event)
  | .subscribeCallback callback event designator index =>
    (∃ d ∈ designators o event, Observer.isCallback callback designator index d = true) ↔
      ∃ d ∈ designators o event,
        d.subscription event = ⟨event, .callback callback, designator, index⟩
  | .unsubscribeCallback _ event designator index =>
    ∀ d ∈ designators o event, ¬ (d.designator = designator ∧ d.index = index)
  | .dropped callback =>
    ∀ event, Even (fun d => d.callback = some callback) (designators o event)
  | .channelClosed id =>
    ∀ event, Even (fun d => d.channelId = id ∧ d.callback = none) (designators o event)
  | .detach => True
  | .notify event sendIf =>
    (event :: aliases event).Nodup ∧ ∀ name ∈ event :: aliases event,
      Even (·.oneShot) (designators o name) ∧
        ∀ d ∈ designators o name, d.oneShot = true → sendIf d.designator d.index = true

/-! ### The vector -/

section

variable {found : Destination → Bool} {d : Destination} {l rest : List Destination}
    {sendIf : SendIf}

theorem erase_cons (h : ∀ d' ∈ rest, d'.oneShot = d.oneShot) : erase (d :: rest) = rest := by
  induction rest generalizing d with
  | nil => rfl
  | cons move rest ih =>
    have hflag := h move List.mem_cons_self
    rw [erase, ih fun d' hd' => (h d' (List.mem_cons_of_mem _ hd')).trans hflag.symm,
      Destination.assign, ← hflag]

theorem Even.of_same {b : Bool} (h : ∀ d ∈ l, d.oneShot = b) : Even found l := by
  induction l with
  | nil => trivial
  | cons d rest ih =>
    rw [Even]
    split_ifs
    · exact fun d' hd' => (h d' (List.mem_cons_of_mem _ hd')).trans (h d List.mem_cons_self).symm
    · exact ih fun d' hd' => h d' (List.mem_cons_of_mem _ hd')

theorem Even.tail (h : Even found (d :: rest)) : Even found rest := by
  rw [Even] at h
  split_ifs at h
  · exact .of_same h
  · exact h

theorem even_of_none (h : ∀ d ∈ l, found d = false) : Even found l := by
  induction l with
  | nil => trivial
  | cons d rest ih =>
    rw [Even, if_neg (by rw [h d List.mem_cons_self]; decide)]
    exact ih fun d' hd' => h d' (List.mem_cons_of_mem _ hd')

theorem eraseBy_eq (h : Even found l) : Observer.eraseBy found l = l.eraseP found := by
  induction l with
  | nil => rfl
  | cons d rest ih =>
    rw [Even] at h
    rw [Observer.eraseBy, List.eraseP_cons]
    by_cases hd : found d = true
    · rw [if_pos hd] at h
      rw [if_pos hd, hd, erase_cons h]
      rfl
    · rw [if_neg hd] at h
      rw [if_neg hd, ih h, Bool.eq_false_iff.mpr hd]
      rfl

theorem Observer.eraseBy_eq_self (h : ∀ d ∈ l, ¬ found d = true) :
    Observer.eraseBy found l = l := by
  induction l with
  | nil => rfl
  | cons d rest ih =>
    rw [Observer.eraseBy, if_neg (h d List.mem_cons_self),
      ih fun d' hd' => h d' (List.mem_cons_of_mem _ hd')]

theorem droppedFrom_eq (h : Even found l) :
    Observer.droppedFrom found l.length l = l.filter (!found ·) := by
  induction l with
  | nil => rfl
  | cons d rest ih =>
    rw [List.length_cons, Observer.droppedFrom]
    by_cases hd : found d = true
    · rw [Even, if_pos hd] at h
      rw [if_pos hd, erase_cons h, ih (.of_same h), List.filter_cons_of_neg (by simp [hd])]
    · rw [if_neg hd, ih h.tail, List.filter_cons_of_pos (by simp [hd])]

theorem eventFrom_eq (h : Even (·.oneShot) l) :
    Observer.eventFrom sendIf l.length l =
      (l.filter fun d => sendIf d.designator d.index, l.filter (!·.oneShot)) := by
  induction l with
  | nil => rfl
  | cons d rest ih =>
    rw [List.length_cons, Observer.eventFrom, ih h.tail, List.filter_cons]
    by_cases hd : d.oneShot = true
    · rw [Even, if_pos hd] at h
      rw [erase_cons h, ih (.of_same h), if_pos hd, List.filter_cons_of_neg (by simp [hd])]
      split_ifs <;> rfl
    · rw [if_neg hd, List.filter_cons_of_pos (by simp [hd])]
      split_ifs <;> rfl

theorem recipient_callback_iff {d : Destination} {callback : Nat} :
    d.recipient = .callback callback ↔ d.callback = some callback := by
  rw [Destination.recipient]
  cases d.callback <;> simp

theorem recipient_channel_iff {d : Destination} {id : Nat} :
    d.recipient = .channel id ↔ d.channelId = id ∧ d.callback = none := by
  rw [Destination.recipient]
  cases d.callback <;> simp

theorem isChannel_iff {d : Destination} {id : Nat} {event designator index : String}
    (hid : id ≠ noChannel) (hchannel : d.channelId = noChannel ↔ d.callback ≠ none) :
    Observer.isChannel id designator index d = true ↔
      d.subscription event = ⟨event, .channel id, designator, index⟩ := by
  rw [Observer.isChannel, decide_eq_true_eq, Destination.subscription, Subscription.mk.injEq,
    recipient_channel_iff]
  constructor
  · rintro ⟨rfl, hdesignator, hindex⟩
    exact ⟨rfl, ⟨rfl, not_not.mp (mt hchannel.mpr hid)⟩, hdesignator, hindex⟩
  · rintro ⟨-, ⟨hd, -⟩, hdesignator, hindex⟩
    exact ⟨hd, hdesignator, hindex⟩

/-! ### The observers behind a call -/

section

variable {aliases : String → List String} {o o' : Observers} {sendIf : SendIf}

/-- Nobody is subscribed twice in the same way, and a destination is a channel or a callback. -/
structure Ordered (o : Observers) : Prop where
  nodup : ∀ event, ((designators o event).map (·.subscription event)).Nodup
  channel : ∀ event, ∀ d ∈ designators o event, d.channelId = noChannel ↔ d.callback ≠ none

theorem mem_book {s : Subscription} {flag : Bool} :
    (s, flag) ∈ book o ↔
      ∃ d ∈ designators o s.event, d.subscription s.event = s ∧ d.oneShot = flag := Iff.rfl

theorem exists_mem_book {s : Subscription} :
    (∃ flag, (s, flag) ∈ book o) ↔ ∃ d ∈ designators o s.event, d.subscription s.event = s := by
  constructor
  · rintro ⟨flag, d, hd, hs, -⟩
    exact ⟨d, hd, hs⟩
  · rintro ⟨d, hd, hs⟩
    exact ⟨d.oneShot, d, hd, hs, rfl⟩

theorem kept_getD (l : List Destination) : (kept l).getD [] = l := by
  rw [kept]
  split_ifs with h
  · exact h.symm
  · rfl

theorem designators_none {event : String} (h : o event = none) : designators o event = [] := by
  rw [designators, h]
  rfl

theorem designators_some {event : String} {l : List Destination} (h : o event = some l) :
    designators o event = l := by
  rw [designators, h]
  rfl

theorem doUnsubscribe_none {event : String}
    {unsubscribe : List Destination → Result × List Destination} (h : o event = none) :
    doUnsubscribe o event unsubscribe = (.unknownKey, o) := by
  rw [doUnsubscribe, h]

theorem doUnsubscribe_some {event : String} {l : List Destination}
    {unsubscribe : List Destination → Result × List Destination} (h : o event = some l) :
    doUnsubscribe o event unsubscribe =
      ((unsubscribe l).1, Function.update o event
        (if (unsubscribe l).1 = .none then kept (unsubscribe l).2 else some
          (unsubscribe l).2)) := by
  rw [doUnsubscribe, h]

theorem designators_update (event event' : String) (new : Option (List Destination)) :
    designators (Function.update o event new) event' =
      if event' = event then new.getD [] else designators o event' := by
  rw [designators, Function.update_apply]
  split_ifs <;> rfl

/-- The observers of every event are filtered. -/
theorem book_filter {keep : String → Destination → Bool} {P : Subscription × Bool → Prop}
    (h : ∀ event, designators o' event = (designators o event).filter (keep event))
    (hkeep : ∀ event, ∀ d ∈ designators o event,
      keep event d = true ↔ P (d.subscription event, d.oneShot)) :
    book o' = {p ∈ book o | P p} := by
  ext ⟨s, flag⟩
  rw [mem_book, h]
  constructor
  · rintro ⟨d, hd, hs, hflag⟩
    rw [List.mem_filter] at hd
    refine ⟨⟨d, hd.1, hs, hflag⟩, ?_⟩
    have hP := (hkeep _ d hd.1).mp hd.2
    rwa [hs, hflag] at hP
  · rintro ⟨⟨d, hd, hs, hflag⟩, hP⟩
    refine ⟨d, List.mem_filter.mpr ⟨hd, (hkeep _ d hd).mpr ?_⟩, hs, hflag⟩
    rw [show d.subscription s.event = s from hs, show d.oneShot = flag from hflag]
    exact hP

theorem Ordered.filter {keep : String → Destination → Bool} (h : Ordered o)
    (hfilter : ∀ event, designators o' event = (designators o event).filter (keep event)) :
    Ordered o' where
  nodup event := by
    rw [hfilter]
    exact (h.nodup event).sublist (List.filter_sublist.map _)
  channel event d hd := by
    rw [hfilter, List.mem_filter] at hd
    exact h.channel event d hd.1

/-- One more destination of an event. -/
theorem Ordered.append {s : Subscription} {new : Destination} (h : Ordered o)
    (hnew : new.subscription s.event = s)
    (hchannel : new.channelId = noChannel ↔ new.callback ≠ none)
    (habsent : ¬ ∃ flag, (s, flag) ∈ book o)
    (happend : ∀ event, designators o' event =
      if event = s.event then designators o s.event ++ [new] else designators o event) :
    Ordered o' ∧ book o' = book o ∪ {p | p = (s, new.oneShot) ∧ ∀ flag, (s, flag) ∉ book o} := by
  refine ⟨⟨fun event => ?_, fun event d hd => ?_⟩, ?_⟩
  · rw [happend]
    split_ifs with hevent
    · subst hevent
      rw [List.map_append, List.nodup_append]
      refine ⟨h.nodup _, List.nodup_singleton _, fun x hx y hy heq => ?_⟩
      obtain ⟨d, hd, rfl⟩ := List.mem_map.mp hx
      rw [List.map_singleton, List.mem_singleton, hnew] at hy
      exact habsent (exists_mem_book.mpr ⟨d, hd, heq.trans hy⟩)
    · exact h.nodup event
  · rw [happend] at hd
    split_ifs at hd
    · rcases List.mem_append.mp hd with hd | hd
      · exact h.channel _ d hd
      · rw [List.mem_singleton.mp hd]
        exact hchannel
    · exact h.channel event d hd
  · ext ⟨s', flag⟩
    rw [mem_book, happend, Set.mem_union, mem_book, Set.mem_ofPred_eq, Prod.mk.injEq]
    split_ifs with hevent
    · rw [hevent]
      constructor
      · rintro ⟨d, hd, hs, hflag⟩
        rcases List.mem_append.mp hd with hd | hd
        · exact .inl ⟨d, hd, hs, hflag⟩
        · obtain rfl := List.mem_singleton.mp hd
          exact .inr ⟨⟨hs.symm.trans hnew, hflag.symm⟩, fun flag hflag => habsent ⟨flag, hflag⟩⟩
      · rintro (⟨d, hd, hs, hflag⟩ | ⟨⟨rfl, rfl⟩, -⟩)
        · exact ⟨d, List.mem_append_left _ hd, hs, hflag⟩
        · exact ⟨new, List.mem_append_right _ (List.mem_singleton_self new), hnew, rfl⟩
    · refine ⟨.inl, ?_⟩
      rintro (h | ⟨⟨rfl, -⟩, -⟩)
      · exact h
      · exact absurd rfl hevent

/-- `Subscribe`, where what is looked for is there exactly when the subscription is. -/
theorem Ordered.subscribes {s : Subscription} {found : Destination → Bool} (h : Ordered o)
    (new : Destination) (hnew : new.subscription s.event = s)
    (hchannel : new.channelId = noChannel ↔ new.callback ≠ none)
    (hfound : (∃ d ∈ designators o s.event, found d = true) ↔
      ∃ d ∈ designators o s.event, d.subscription s.event = s) :
    Ordered (doSubscribe o s.event (Observer.subscribeBy found new)).2 ∧
      Subscribes (book o) (book (doSubscribe o s.event (Observer.subscribeBy found new)).2)
        (doSubscribe o s.event (Observer.subscribeBy found new)).1 s new.oneShot := by
  rw [← List.any_eq_true] at hfound
  rw [Subscribes, exists_mem_book, ← hfound, doSubscribe, Observer.subscribeBy]
  by_cases hany : (designators o s.event).any found = true
  · simp only [hany, if_true, ne_eq, reduceCtorEq, not_false_eq_true]
    have hsame : ∀ event, designators (Function.update o s.event
      (kept (designators o s.event))) event =
        (designators o event).filter fun _ => true := by
      intro event
      rw [designators_update, kept_getD, List.filter_true]
      split_ifs with hevent
      · rw [hevent]
      · rfl
    refine ⟨h.filter hsame, trivial, ?_⟩
    obtain ⟨flag, hflag⟩ := exists_mem_book.mpr (hfound.mp hany)
    rw [book_filter (P := fun _ => True) hsame fun _ _ _ => by simp]
    ext p
    simp only [Set.mem_ofPred_eq, and_true, Set.mem_union, iff_self_or]
    exact fun hp => absurd hflag (hp.2 flag)
  · simp only [if_neg hany, ne_eq, not_true_eq_false, if_false, reduceCtorEq, false_iff]
    have happended : ∀ event, designators
        (Function.update o s.event (some (designators o s.event ++ [new]))) event = _ :=
      fun event => designators_update s.event event _
    have happend := h.append hnew hchannel (fun hs => hany (hfound.mpr (exists_mem_book.mp hs)))
      happended
    exact ⟨happend.1, hany, happend.2⟩

theorem eraseP_eq_filter {found : Destination → Bool} {event : String} {s : Subscription}
    {l : List Destination} (hnodup : (l.map (·.subscription event)).Nodup)
    (hfound : ∀ d ∈ l, found d = true ↔ d.subscription event = s) :
    l.eraseP found = l.filter (!found ·) := by
  induction l with
  | nil => rfl
  | cons d rest ih =>
    rw [List.map_cons, List.nodup_cons] at hnodup
    have hrest := fun d' hd' => hfound d' (List.mem_cons_of_mem _ hd')
    by_cases hd : found d = true
    · rw [List.eraseP_cons_of_pos hd, List.filter_cons_of_neg (by simp [hd])]
      refine (List.filter_eq_self.mpr fun d' hd' => ?_).symm
      rw [Bool.not_eq_true', ← Bool.not_eq_true, hrest d' hd']
      intro heq
      refine hnodup.1 (List.mem_map.mpr ⟨d', hd', ?_⟩)
      rw [heq, (hfound d List.mem_cons_self).mp hd]
    · rw [List.eraseP_cons_of_neg hd, List.filter_cons_of_pos (by simp [hd]), ih hnodup.2 hrest]

/-- `Unsubscribe`, where what is looked for is the subscription. -/
theorem Ordered.unsubscribes {s : Subscription} {found : Destination → Bool} (h : Ordered o)
    (hfound : ∀ d ∈ designators o s.event, found d = true ↔ d.subscription s.event = s)
    (heven : Even found (designators o s.event)) :
    Ordered (doUnsubscribe o s.event (Observer.unsubscribeBy found)).2 ∧
      Unsubscribes (book o) (book (doUnsubscribe o s.event (Observer.unsubscribeBy found)).2)
        (doUnsubscribe o s.event (Observer.unsubscribeBy found)).1 s := by
  have hany : (designators o s.event).any found = true ↔ ∃ flag, (s, flag) ∈ book o := by
    rw [exists_mem_book, List.any_eq_true]
    exact exists_congr fun d => and_congr_right fun hd => hfound d hd
  have hanswer : (doUnsubscribe o s.event (Observer.unsubscribeBy found)).1 = .none ↔
      (designators o s.event).any found = true := by
    cases hl : o s.event with
    | none => simp [doUnsubscribe_none hl, designators_none hl]
    | some l =>
      rw [doUnsubscribe_some hl, designators_some hl, Observer.unsubscribeBy]
      by_cases hfirst : l.any found = true
      · rw [if_pos hfirst]
        exact iff_of_true rfl hfirst
      · rw [if_neg hfirst]
        exact iff_of_false nofun hfirst
  have hdesignators : ∀ event,
      designators (doUnsubscribe o s.event (Observer.unsubscribeBy found)).2 event =
        (designators o event).filter fun d => event ≠ s.event || !found d := by
    intro event
    by_cases hevent : event = s.event
    · subst hevent
      simp only [ne_eq, not_true_eq_false, decide_false, Bool.false_or]
      rw [← eraseP_eq_filter (h.nodup _) hfound, ← eraseBy_eq heven]
      cases hl : o s.event with
      | none =>
        rw [doUnsubscribe_none hl, designators_none hl]
        rfl
      | some l =>
        rw [doUnsubscribe_some hl, designators_some hl, designators_update, if_pos rfl,
          Observer.unsubscribeBy]
        by_cases hfirst : l.any found = true
        · rw [if_pos hfirst, if_pos rfl]
          exact kept_getD _
        · rw [if_neg hfirst, if_neg nofun]
          refine (Observer.eraseBy_eq_self fun d hd hfound => hfirst ?_).symm
          exact List.any_eq_true.mpr ⟨d, hd, hfound⟩
    · simp only [ne_eq, hevent, not_false_eq_true, decide_true, Bool.true_or, List.filter_true]
      cases hl : o s.event with
      | none => rw [doUnsubscribe_none hl]
      | some l => rw [doUnsubscribe_some hl, designators_update, if_neg hevent]
  refine ⟨h.filter hdesignators, hanswer.trans hany, ?_⟩
  refine book_filter hdesignators fun event d hd => ?_
  by_cases hevent : event = s.event
  · subst hevent
    simp [← hfound d hd]
  · have hne : d.subscription event ≠ s := fun heq => hevent (congrArg Subscription.event heq)
    simp [hevent, hne]

section

variable {aliases : String → List String} {o : Observers} {sendIf : SendIf}

theorem designators_doDropped (found : Destination → Bool)
    (heven : ∀ event, Even found (designators o event)) (event : String) :
    designators (doDropped o (Observer.droppedBy found)) event =
      (designators o event).filter (!found ·) := by
  rw [← droppedFrom_eq (heven event)]
  cases hl : o event with
  | none =>
    rw [designators_none hl, designators, doDropped, hl]
    rfl
  | some l =>
    rw [designators_some hl, designators, doDropped, hl]
    exact kept_getD _

variable (sendIf) in
/-- An event that is told: its observer is asked, and left without the one-shots. -/
theorem tell_eq {event : String} (heven : Even (·.oneShot) (designators o event)) :
    (tell o event sendIf).1 =
        ((designators o event).filter fun d => sendIf d.designator d.index).map
          (·.subscription event) ∧
      ∀ event', designators (tell o event sendIf).2 event' =
        if event' = event then (designators o event).filter (!·.oneShot)
        else designators o event' := by
  rw [tell]
  cases hl : o event with
  | none =>
    rw [designators_none hl]
    refine ⟨rfl, fun event' => ?_⟩
    split_ifs with hevent
    · rw [hevent]
      exact designators_none hl
    · rfl
  | some l =>
    rw [designators_some hl] at heven ⊢
    have hloop : Observer.event sendIf l = _ := eventFrom_eq heven
    dsimp only
    rw [hloop]
    exact ⟨rfl, fun event' => designators_update event event' _⟩

variable (sendIf) in
theorem tellAll_eq {names : List String} (hnodup : names.Nodup)
    (heven : ∀ name ∈ names, Even (·.oneShot) (designators o name)) :
    (tellAll sendIf names o).1 = names.flatMap (fun name =>
        ((designators o name).filter fun d => sendIf d.designator d.index).map
          (·.subscription name)) ∧
      ∀ event, designators (tellAll sendIf names o).2 event =
        if event ∈ names then (designators o event).filter (!·.oneShot)
        else designators o event := by
  induction names generalizing o with
  | nil => exact ⟨rfl, fun _ => rfl⟩
  | cons name names ih =>
    rw [List.nodup_cons] at hnodup
    obtain ⟨htold, hleft⟩ := tell_eq sendIf (heven name List.mem_cons_self)
    have hother : ∀ name' ∈ names, designators (tell o name sendIf).2 name' = designators o name' := by
      intro name' hname'
      rw [hleft, if_neg]
      rintro rfl
      exact hnodup.1 hname'
    obtain ⟨htoldAll, hleftAll⟩ := ih (o := (tell o name sendIf).2) hnodup.2 fun name' hname' => by
      rw [hother name' hname']
      exact heven name' (List.mem_cons_of_mem _ hname')
    constructor
    · rw [tellAll, List.flatMap_cons, htold, htoldAll]
      refine congrArg _ (List.flatMap_congr fun name' hname' => ?_)
      rw [hother name' hname']
    · intro event
      rw [tellAll, hleftAll, hleft]
      by_cases hevent : event = name
      · subst hevent
        rw [if_neg hnodup.1, if_pos rfl, if_pos List.mem_cons_self]
      · rw [if_neg hevent]
        simp only [List.mem_cons, hevent, false_or]

variable (sendIf) in
/-- `InternalNotify` tells the event and its aliases. -/
theorem notify_eq {event : String} (hnodup : (event :: aliases event).Nodup)
    (heven : ∀ name ∈ event :: aliases event, Even (·.oneShot) (designators o name)) :
    (notify aliases o event sendIf).1 = (event :: aliases event).flatMap (fun name =>
        ((designators o name).filter fun d => sendIf d.designator d.index).map
          (·.subscription name)) ∧
      ∀ event', designators (notify aliases o event sendIf).2 event' =
        if event' ∈ event :: aliases event then (designators o event').filter (!·.oneShot)
        else designators o event' := by
  obtain ⟨htold, hleft⟩ := tellAll_eq sendIf hnodup heven
  -- The observer that is erased has no destinations.
  have hkept : ∀ event', designators (Function.update (tell o event sendIf).2 event
      (((tell o event sendIf).2 event).bind kept)) event' =
        designators (tell o event sendIf).2 event' := by
    intro event'
    rw [designators_update]
    split_ifs with hevent
    · subst hevent
      rw [designators]
      cases (tell o event' sendIf).2 event' with
      | none => rfl
      | some l => exact kept_getD l
    · rfl
  have hsame : ∀ (names : List String) (o o' : Observers),
      (∀ event, designators o event = designators o' event) → names.Nodup →
      (∀ name ∈ names, Even (·.oneShot) (designators o name)) →
      (tellAll sendIf names o).1 = (tellAll sendIf names o').1 ∧
        ∀ event, designators (tellAll sendIf names o).2 event =
          designators (tellAll sendIf names o').2 event := by
    intro names o o' heq hnames hall
    obtain ⟨h, hl⟩ := tellAll_eq sendIf hnames hall
    obtain ⟨h', hl'⟩ := tellAll_eq sendIf (o := o') hnames
      fun name hname => heq name ▸ hall name hname
    simp only [h, h', hl, hl', heq, implies_true, and_self]
  rw [List.nodup_cons] at hnodup
  obtain ⟨-, hother⟩ := tell_eq sendIf (heven event List.mem_cons_self)
  obtain ⟨htold', hleft'⟩ := hsame (aliases event) _ _ hkept hnodup.2 fun name hname => by
    rw [hkept, hother, if_neg]
    · exact heven name (List.mem_cons_of_mem _ hname)
    · rintro rfl
      exact hnodup.1 hname
  rw [tellAll] at htold hleft
  refine ⟨?_, fun event' => ?_⟩
  · rw [notify, ← htold, htold']
  · rw [notify, ← hleft, hleft']

theorem Ordered.notify {event : String} (h : Ordered o)
    (hproper : Proper aliases o (.notify event sendIf)) :
    Ordered (notify aliases o event sendIf).2 ∧
      (notify aliases o event sendIf).1.Nodup ∧
      (∀ s, s ∈ (notify aliases o event sendIf).1 ↔
        Concerns aliases event sendIf s ∧ ∃ flag, (s, flag) ∈ book o) ∧
      book (notify aliases o event sendIf).2 =
        {p ∈ book o | ¬ (Concerns aliases event sendIf p.1 ∧ p.2 = true)} := by
  obtain ⟨hnodup, hnames⟩ := hproper
  obtain ⟨htold, hleft⟩ := notify_eq sendIf hnodup fun name hname => (hnames name hname).1
  have hfilter : ∀ event', designators (JSONRPC.notify aliases o event sendIf).2 event' =
      (designators o event').filter fun d => event' ∉ event :: aliases event || !d.oneShot := by
    intro event'
    rw [hleft]
    split_ifs with hmem <;> simp [hmem]
  refine ⟨h.filter hfilter, ?_, fun s => ?_, ?_⟩
  · rw [htold, List.nodup_flatMap]
    constructor
    · exact fun name _ => (h.nodup name).sublist (List.filter_sublist.map _)
    · refine hnodup.imp fun {name name'} hne s hs hs' => ?_
      obtain ⟨d, -, rfl⟩ := List.mem_map.mp hs
      obtain ⟨d', -, heq⟩ := List.mem_map.mp hs'
      exact hne (congrArg Subscription.event heq).symm
  · rw [htold, List.mem_flatMap, exists_mem_book, Concerns]
    constructor
    · rintro ⟨name, hname, hs⟩
      obtain ⟨d, hd, rfl⟩ := List.mem_map.mp hs
      rw [List.mem_filter] at hd
      exact ⟨⟨hname, hd.2⟩, d, hd.1, rfl⟩
    · rintro ⟨⟨hname, hsend⟩, d, hd, hs⟩
      refine ⟨s.event, hname, List.mem_map.mpr ⟨d, List.mem_filter.mpr ⟨hd, ?_⟩, hs⟩⟩
      rw [← hs] at hsend
      exact hsend
  · refine book_filter hfilter fun event' d hd => ?_
    by_cases hmem : event' ∈ event :: aliases event
    · have haccepts := (hnames event' hmem).2 d hd
      rw [Concerns, decide_eq_false (not_not_intro hmem), Bool.false_or, Bool.not_eq_true',
        ← Bool.not_eq_true]
      exact not_congr ⟨fun hflag => ⟨⟨hmem, haccepts hflag⟩, hflag⟩, And.right⟩
    · rw [decide_eq_true hmem, Bool.true_or]
      exact iff_of_true rfl fun hconcerns => hmem hconcerns.1.1

/-- A proper call keeps the order and does what is specified. -/
theorem Ordered.perform {operation : Operation} (h : Ordered o)
    (hproper : Proper aliases o operation) :
    Ordered (step aliases o operation) ∧ Exact aliases o operation := by
  cases operation with
  | subscribe id event designator index oneShot =>
    have hfound : ∀ d ∈ designators o event, Observer.isChannel id designator index d = true ↔
        d.subscription event = ⟨event, .channel id, designator, index⟩ :=
      fun d hd => isChannel_iff hproper (h.channel event d hd)
    obtain ⟨h', hsubscribes⟩ := h.subscribes (s := ⟨event, .channel id, designator, index⟩)
      ⟨none, id, designator, index, oneShot⟩ rfl
      (iff_of_false hproper (not_not_intro rfl))
      (exists_congr fun d => and_congr_right fun hd => hfound d hd)
    exact ⟨h', hsubscribes, rfl⟩
  | unsubscribe id event designator index =>
    obtain ⟨h', hunsubscribes⟩ := h.unsubscribes (s := ⟨event, .channel id, designator, index⟩)
      (fun d hd => isChannel_iff hproper.1 (h.channel event d hd)) hproper.2
    exact ⟨h', hunsubscribes, rfl⟩
  | subscribeCallback callback event designator index =>
    obtain ⟨h', hsubscribes⟩ := h.subscribes (s := ⟨event, .callback callback, designator, index⟩)
      ⟨some callback, noChannel, designator, index, false⟩ rfl
      (iff_of_true rfl (Option.some_ne_none _)) hproper
    exact ⟨h', hsubscribes, rfl⟩
  | unsubscribeCallback callback event designator index =>
    have hnone : ∀ d ∈ designators o event,
        Observer.isCallback callback designator index d = false := by
      intro d hd
      rw [Observer.isCallback, decide_eq_false_iff_not]
      exact fun hfound => hproper d hd ⟨hfound.1, hfound.2.1⟩
    have hfound : ∀ d ∈ designators o event,
        Observer.isCallback callback designator index d = true ↔
          d.subscription event = ⟨event, .callback callback, designator, index⟩ := by
      intro d hd
      rw [hnone d hd]
      exact iff_of_false Bool.false_ne_true fun heq => hproper d hd
        ⟨congrArg Subscription.designator heq, congrArg Subscription.index heq⟩
    obtain ⟨h', hunsubscribes⟩ := h.unsubscribes (s := ⟨event, .callback callback, designator,
      index⟩)
      hfound (even_of_none hnone)
    exact ⟨h', hunsubscribes, rfl⟩
  | dropped callback =>
    have hfilter := designators_doDropped _ hproper
    refine ⟨h.filter hfilter, book_filter hfilter fun event d _ => ?_, rfl⟩
    rw [Bool.not_eq_true', decide_eq_false_iff_not]
    exact not_congr recipient_callback_iff.symm
  | channelClosed id =>
    have hfilter := designators_doDropped _ hproper
    refine ⟨h.filter hfilter, book_filter hfilter fun event d _ => ?_, rfl⟩
    rw [Bool.not_eq_true', decide_eq_false_iff_not]
    exact not_congr recipient_channel_iff.symm
  | detach =>
    refine ⟨⟨fun _ => List.nodup_nil, fun _ _ hd => by cases hd⟩, ?_, rfl⟩
    exact Set.eq_empty_of_forall_notMem fun p ⟨d, hd, _⟩ => by cases hd
  | notify event sendIf => exact h.notify hproper

/-- Of every run of proper calls, each does exactly what is specified: the answers, the recipients
of an event and what is subscribed behind it. -/
theorem exact_of_proper (aliases : String → List String) (operations : List Operation)
    (h : Run.Meets (step aliases) (Proper aliases) (fun _ => none) operations) :
    Run.Meets (step aliases) (Exact aliases) (fun _ => none) operations :=
  h.of_invariant (P := Ordered) (fun _ _ ho hproper => (ho.perform hproper).1)
    (fun _ _ ho hproper => (ho.perform hproper).2)
    ⟨fun _ => List.nodup_nil, fun _ _ hd => by cases hd⟩

/-- A channel subscribes, is told and unsubscribes. -/
theorem exact_three : Run.Meets (step fun _ => []) (Exact fun _ => []) (fun _ => none)
    [.subscribe 1 "event" "client" "" false, .notify "event" fun _ _ => true,
      .unsubscribe 1 "event" "client" ""] := by
  have hevent : ∀ name ∈ ["event"], name = "event" := by decide
  refine exact_of_proper _ _ ⟨?_, ⟨by decide, fun name hname => ?_⟩, ⟨?_, ?_⟩, trivial⟩
  · exact (by decide : 1 ≠ noChannel)
  · rw [hevent name hname]
    exact ⟨Even.of_same (b := false) (by decide), fun _ _ _ => rfl⟩
  · exact (by decide : 1 ≠ noChannel)
  · exact Even.of_same (b := false) (by decide)

/-- The second callback object is refused: what is looked for is another object under the
designator and the index. -/
theorem not_exact_callback : ¬ Run.Meets (step fun _ => []) (Exact fun _ => []) (fun _ => none)
    [.subscribeCallback 1 "event" "client" "", .subscribeCallback 2 "event" "client" ""] := by
  rintro ⟨-, ⟨⟨hanswer, -⟩, -⟩, -⟩
  obtain ⟨flag, d, hd, hs, -⟩ := hanswer.mp (by decide)
  have hnone : ∀ d ∈ designators (step (fun _ => []) (fun _ => none)
      (.subscribeCallback 1 "event" "client" "")) "event",
      d.subscription "event" ≠ ⟨"event", .callback 2, "client", ""⟩ := by decide
  exact hnone d hd hs

end

end

end

end Thunder.PluginHost.JSONRPC
