import Mathlib.Logic.Function.Basic
import Thunder.Core.Errors
import Thunder.Core.Queue

/-! `ThreadPool`: minions that take jobs from a `QueueType` and run them, and `Revoke`.  An atomic
step is a section under one lock or a single access to a shared word; the steps of all threads
interleave freely.  The minions are numbered in the order in which `Revoke` looks at them: the units
of the pool, and, when a thread has joined the `WorkerPool`, the external minion as the last one,
which `WorkerPool::Revoke` treats by the same rules.  All waits are infinite. -/

namespace Thunder.Core

/-- The threads that call the pool; the timer and the resource monitor each have one. -/
inductive Thread
  | unit (i : Nat)
  | timer
  | monitor
  | other (k : Nat)
  deriving DecidableEq, Repr

namespace ThreadPool

/-- How far a minion is with its current request.  `entered` tells whether the request's `Dispatch`
has gone on to the implementation; `exchanges` counts the steps that its `Resubmit` has taken. -/
inductive Phase (α : Type)
  | waiting
  | extracted (job : α)
  | dispatching (job : α) (entered : Bool)
  | completing (job : α) (exchanges : Nat)
  | posting (job : α) (time : Option Nat)
  | releasing (job : α)
  | signalling
  deriving DecidableEq, Repr

/-- `_currentRequest`. -/
def Phase.currentRequest {α : Type} : Phase α → Option α
  | .waiting | .signalling => none
  | .extracted job | .dispatching job _ | .completing job _ | .posting job _ | .releasing job =>
    some job

/-- A thread's call of `Revoke`: looking at the minion `index`, waiting for it, or back with a
result. -/
inductive Call (α : Type)
  | none
  | scanning (job : α) (index : Nat)
  | waiting (job : α) (index : Nat)
  | returned (result : Nat)
  deriving DecidableEq, Repr

/-- The job that a call in progress revokes. -/
def Call.job {α : Type} : Call α → Option α
  | .scanning job _ | .waiting job _ => some job
  | .none | .returned _ => Option.none

end ThreadPool

structure ThreadPool (α : Type) where
  count : Nat
  queue : QueueType α
  units : Nat → ThreadPool.Phase α
  interestCount : Nat → Nat
  calls : Thread → ThreadPool.Call α

namespace ThreadPool

open Function

variable {α : Type}

def new (count : Nat) (queueSize : Nat) (marked : 0 < queueSize) : ThreadPool α where
  count := count
  queue := .new queueSize marked
  units _ := .waiting
  interestCount _ := 0
  calls _ := .none

/-- The thread runs code outside the pool: it is in no call, and a minion is in a `Dispatch`. -/
def Ready (s : ThreadPool α) (t : Thread) : Prop :=
  (s.calls t).job = none ∧
    ∀ i, t = .unit i → i < s.count ∧ ∃ job, s.units i = .dispatching job true

/-- The queue after `Submit`: threads that must not block post the job, the others insert it and
have no step while that waits. -/
def offer [DecidableEq α] (s : ThreadPool α) (t : Thread) (job : α) : Option (QueueType α) :=
  match t with
  | .unit _ | .monitor => some (s.queue.post job).1
  | .timer | .other _ =>
    match s.queue.insert job with
    | (_, .waits) => none
    | (queue, _) => some queue

def setUnit (s : ThreadPool α) (i : Nat) (phase : Phase α) : ThreadPool α :=
  { s with units := update s.units i phase }

def setCall (s : ThreadPool α) (t : Thread) (call : Call α) : ThreadPool α :=
  { s with calls := update s.calls t call }

section

variable {s : ThreadPool α} {t : Thread} {i : Nat} {phase : Phase α} {call : Call α}

@[simp] theorem setUnit_queue : (s.setUnit i phase).queue = s.queue := rfl

@[simp] theorem setUnit_count : (s.setUnit i phase).count = s.count := rfl

@[simp] theorem setUnit_calls : (s.setUnit i phase).calls = s.calls := rfl

@[simp] theorem setUnit_units : (s.setUnit i phase).units = update s.units i phase := rfl

@[simp] theorem setCall_queue : (s.setCall t call).queue = s.queue := rfl

@[simp] theorem setCall_count : (s.setCall t call).count = s.count := rfl

@[simp] theorem setCall_units : (s.setCall t call).units = s.units := rfl

@[simp] theorem setCall_calls : (s.setCall t call).calls = update s.calls t call := rfl

end

inductive Action (α : Type)
  | submit (t : Thread) (job : α)
  | revoke (t : Thread) (job : α)
  | look (t : Thread)
  | wake (t : Thread)
  | extract (i : Nat)
  | dispatch (i : Nat) (entered : Bool)
  | finish (i : Nat)
  | attempt (i : Nat)
  | resubmit (i : Nat) (outcome : Option (Option Nat))
  | repost (i : Nat)
  | reschedule (i : Nat)
  | release (i : Nat)
  | reset (i : Nat)
  | stop

variable [DecidableEq α]

inductive Step (s : ThreadPool α) : Action α → ThreadPool α → Prop
  | submit {t : Thread} {job : α} {queue : QueueType α} (hready : s.Ready t)
      (hoffer : s.offer t job = some queue) : Step s (.submit t job) { s with queue := queue }
  /-- `Revoke` finds the job in the queue. -/
  | revokeQueued {t : Thread} {job : α} {queue : QueueType α} (hready : s.Ready t)
      (hremove : s.queue.remove job = (queue, true)) :
      Step s (.revoke t job) ({ s with queue := queue }.setCall t (.returned errorNone))
  | revokeMissed {t : Thread} {job : α} {queue : QueueType α} (hready : s.Ready t)
      (hremove : s.queue.remove job = (queue, false)) :
      Step s (.revoke t job) ({ s with queue := queue }.setCall t (.scanning job 0))
  /-- The scan comes to the minion of the calling thread. -/
  | lookOwn {i : Nat} {job : α} (hcall : s.calls (.unit i) = .scanning job i) (hi : i < s.count) :
      Step s (.look (.unit i)) (s.setCall (.unit i) (.returned errorNone))
  /-- The scan comes to a minion with another request; one that signals holds its lock. -/
  | lookPast {t : Thread} {i : Nat} {job : α} (hcall : s.calls t = .scanning job i)
      (hi : i < s.count) (hown : t ≠ .unit i) (hlock : s.units i ≠ .signalling)
      (hother : (s.units i).currentRequest ≠ some job) :
      Step s (.look t) (s.setCall t (.scanning job (i + 1)))
  | lookWait {t : Thread} {i : Nat} {job : α} (hcall : s.calls t = .scanning job i)
      (hi : i < s.count) (hown : t ≠ .unit i) (hrequest : (s.units i).currentRequest = some job) :
      Step s (.look t) ({ s with
        interestCount := update s.interestCount i (s.interestCount i + 1) }.setCall t
          (.waiting job i))
  | lookEnd {t : Thread} {i : Nat} {job : α} (hcall : s.calls t = .scanning job i)
      (hend : s.count ≤ i) : Step s (.look t) (s.setCall t (.returned errorUnknownKey))
  /-- The event of the minion is set. -/
  | wake {t : Thread} {i : Nat} {job : α} (hcall : s.calls t = .waiting job i)
      (hsignal : s.units i = .signalling) :
      Step s (.wake t) ({ s with
        interestCount := update s.interestCount i (s.interestCount i - 1) }.setCall t
          (.returned errorNone))
  | extract {i : Nat} {job : α} {queue : QueueType α} (hi : i < s.count)
      (hphase : s.units i = .waiting) (hextract : s.queue.extract = (queue, .received job)) :
      Step s (.extract i) ({ s with queue := queue }.setUnit i (.extracted job))
  | dispatch {i : Nat} {job : α} {entered : Bool} (hi : i < s.count)
      (hphase : s.units i = .extracted job) :
      Step s (.dispatch i entered) (s.setUnit i (.dispatching job entered))
  | finish {i : Nat} {job : α} {entered : Bool} (hi : i < s.count)
      (hphase : s.units i = .dispatching job entered) (hcall : (s.calls (.unit i)).job = none) :
      Step s (.finish i) (s.setUnit i (.completing job 0))
  | attempt {i k : Nat} {job : α} (hi : i < s.count) (hphase : s.units i = .completing job k) :
      Step s (.attempt i) (s.setUnit i (.completing job (k + 1)))
  /-- `Resubmit` returns no job. -/
  | resubmitNone {i k : Nat} {job : α} (hi : i < s.count) (hphase : s.units i = .completing job k) :
      Step s (.resubmit i none) (s.setUnit i (.releasing job))
  /-- `Resubmit` returns the job again, with or without a time. -/
  | resubmitSome {i k : Nat} {job : α} {time : Option Nat} (hi : i < s.count)
      (hphase : s.units i = .completing job k) :
      Step s (.resubmit i (some time)) (s.setUnit i (.posting job time))
  | repost {i : Nat} {job : α} {time : Option Nat} (hi : i < s.count)
      (hphase : s.units i = .posting job time) :
      Step s (.repost i) ({ s with queue := (s.queue.post job).1 }.setUnit i (.releasing job))
  /-- The scheduler takes the job; what becomes of it there is not the pool's. -/
  | reschedule {i time : Nat} {job : α} (hi : i < s.count)
      (hphase : s.units i = .posting job (some time)) :
      Step s (.reschedule i) (s.setUnit i (.releasing job))
  /-- The request is dropped and the event set, in a section that lasts until all have seen it. -/
  | release {i : Nat} {job : α} (hi : i < s.count) (hphase : s.units i = .releasing job) :
      Step s (.release i) (s.setUnit i .signalling)
  | reset {i : Nat} (hi : i < s.count) (hphase : s.units i = .signalling)
      (hseen : s.interestCount i = 0) : Step s (.reset i) (s.setUnit i .waiting)
  | stop : Step s .stop { s with queue := s.queue.disable }

/-! ### What a step changes -/

variable {s s' : ThreadPool α} {t : Thread} {job : α}

theorem mem_offer {queue : QueueType α} {x : α} (h : s.offer t job = some queue)
    (hx : x ∈ queue.queue) : x ∈ s.queue.queue ∨ x = job := by
  have hinsert : ∀ r : QueueType α × Inserted, s.queue.insert job = r →
      x ∈ r.1.queue → x ∈ s.queue.queue ∨ x = job := by
    rintro r rfl hx
    exact QueueType.mem_insert hx
  unfold offer at h
  split at h
  · obtain rfl := Option.some.inj h
    exact QueueType.mem_post hx
  · obtain rfl := Option.some.inj h
    exact QueueType.mem_post hx
  · split at h
    · simp at h
    · rename_i queue' _ _ heq
      obtain rfl := Option.some.inj h
      exact hinsert _ heq hx
  · split at h
    · simp at h
    · rename_i queue' _ _ heq
      obtain rfl := Option.some.inj h
      exact hinsert _ heq hx

theorem offer_enabled {queue : QueueType α} (h : s.offer t job = some queue)
    (henabled : s.queue.state ≠ .disabled) :
    queue.queue = s.queue.queue ++ [job] ∧ queue.state ≠ .disabled := by
  unfold offer at h
  split at h
  · obtain rfl := Option.some.inj h
    exact QueueType.post_enabled _ henabled
  · obtain rfl := Option.some.inj h
    exact QueueType.post_enabled _ henabled
  all_goals
    split at h
    · simp at h
    · rename_i hwaits heq
      obtain rfl := Option.some.inj h
      exact QueueType.insert_enabled henabled heq hwaits

/-- The number of minions is fixed. -/
theorem Step.count_eq {a : Action α} (h : s.Step a s') : s'.count = s.count := by
  cases h <;> rfl

end ThreadPool

end Thunder.Core
