import Thunder.Library.Token
import Thunder.Core.ThreadPool

/-! `IWorkerPool::JobType` on the `WorkerPool`: the state word of one job, the timer's list, the pool
and the threads that submit, reschedule and revoke the job.  Each exchange of the state word, each
section under a lock and each write of `_time` is one step, `Resubmit` reads `_time` with its last
exchange, and the pool takes its own steps.  The jobs of others take part through the pool only. -/

namespace Thunder.Core

/-- What the queue and the minions hold: the job, or a request of somebody else. -/
inductive Job
  | this
  | other (k : Nat)
  deriving DecidableEq, Repr

namespace JobType

/-- `JobType::state`. -/
inductive State
  | idle
  | submitted
  | executing
  | resubmit
  | schedule
  | revoking
  deriving DecidableEq, Repr

/-- How far a thread is with its operation on the job.  `exchanges` counts the exchanges of the state
word that it has tried; a revocation that is a part of `Reschedule` carries the time of it. -/
inductive Operation
  | none
  | submit (exchanges : Nat)
  | post
  | reschedule (time : Nat) (exchanges : Nat)
  | setTime (time : Nat)
  | required (time : Option Nat) (exchanges : Nat)
  | timerRevoke (time : Option Nat)
  | poolRevoke (time : Option Nat)
  | revoking (time : Option Nat)
  | revoked (time : Option Nat)
  | idle (time : Nat)
  | schedule (time : Nat)
  deriving DecidableEq, Repr

/-- `compare_exchange_strong`, and how it goes on. -/
def exchange {β : Type} (state expected desired : State) (hit miss : β) : State × β :=
  if state = expected then (desired, hit) else (state, miss)

/-- After a revocation `Reschedule` goes on with `Idle`; `Revoke` is done. -/
def afterRevoke : Option Nat → Operation
  | none => .none
  | some time => .idle time

open Operation in
/-- The steps of an operation that only touch the state word. -/
def advance (state : State) : Operation → Option (State × Operation)
  | submit 0 => some (exchange state .executing .resubmit Operation.none (submit 1))
  | submit 1 => some (exchange state .schedule .resubmit Operation.none (submit 2))
  | submit _ => some (exchange state .idle .submitted post Operation.none)
  | reschedule time 0 =>
    some (exchange state .executing .schedule (setTime time) (reschedule time 1))
  | reschedule time 1 =>
    some (exchange state .resubmit .schedule (setTime time) (reschedule time 2))
  | reschedule time 2 =>
    some (exchange state .submitted .schedule (required (some time) 0) (reschedule time 3))
  | reschedule time _ =>
    some (exchange state .idle .schedule (required (some time) 0) (setTime time))
  -- `RevokeRequired` first loads the word
  | required time 0 =>
    some (exchange state .revoking .revoking (timerRevoke time) (required time 1))
  | required time 1 =>
    some (exchange state .submitted .revoking (timerRevoke time) (required time 2))
  | required time 2 =>
    some (exchange state .executing .revoking (timerRevoke time) (required time 3))
  | required time 3 =>
    some (exchange state .resubmit .revoking (timerRevoke time) (required time 4))
  | required time _ =>
    some (exchange state .schedule .revoking (timerRevoke time) (afterRevoke time))
  | revoked time => some (exchange state .revoking .idle (afterRevoke time) (afterRevoke time))
  | idle time => some (exchange state .idle .submitted (schedule time) Operation.none)
  | _ => Option.none

/-- What a step of `advance` can do. -/
inductive Advances (state : State) : Operation → State → Operation → Prop
  | submitHit {k : Nat} (hstate : state = .executing ∨ state = .schedule) :
      Advances state (.submit k) .resubmit .none
  | submitMiss {k : Nat} {op : Operation} (hop : op = .submit (k + 1) ∨ op = .none) :
      Advances state (.submit k) state op
  | submitMake {k : Nat} (hk : 2 ≤ k) (hstate : state = .idle) :
      Advances state (.submit k) .submitted .post
  | rescheduleHit {time k : Nat} (hstate : state = .executing ∨ state = .resubmit) :
      Advances state (.reschedule time k) .schedule (.setTime time)
  | rescheduleTake {time k : Nat} (hstate : state = .submitted ∨ state = .idle) :
      Advances state (.reschedule time k) .schedule (.required (some time) 0)
  | rescheduleMiss {time k : Nat} {op : Operation}
      (hop : op = .reschedule time (k + 1) ∨ op = .setTime time) :
      Advances state (.reschedule time k) state op
  | requiredHit {time : Option Nat} {k : Nat} (hstate : state ≠ .idle) :
      Advances state (.required time k) .revoking (.timerRevoke time)
  | requiredMiss {time : Option Nat} {k : Nat} :
      Advances state (.required time k) state (.required time (k + 1))
  | requiredEnd {time : Option Nat} {k : Nat} (hk : 4 ≤ k) (hstate : state ≠ .schedule) :
      Advances state (.required time k) state (afterRevoke time)
  | revokedHit {time : Option Nat} (hstate : state = .revoking) :
      Advances state (.revoked time) .idle (afterRevoke time)
  | revokedMiss {time : Option Nat} (hstate : state ≠ .revoking) :
      Advances state (.revoked time) state (afterRevoke time)
  | idleMake {time : Nat} (hstate : state = .idle) :
      Advances state (.idle time) .submitted (.schedule time)
  | idleMiss {time : Nat} : Advances state (.idle time) state .none

theorem exchange_cases {state state' expected desired : State} {hit miss op : Operation}
    (h : some (exchange state expected desired hit miss) = some (state', op)) :
    (state = expected ∧ state' = desired ∧ op = hit) ∨
      (state ≠ expected ∧ state' = state ∧ op = miss) := by
  unfold exchange at h
  split_ifs at h with hstate
  · obtain ⟨rfl, rfl⟩ := Prod.mk.inj (Option.some.inj h)
    exact .inl ⟨hstate, rfl, rfl⟩
  · obtain ⟨rfl, rfl⟩ := Prod.mk.inj (Option.some.inj h)
    exact .inr ⟨hstate, rfl, rfl⟩

theorem advance_cases {state state' : State} {op op' : Operation}
    (h : advance state op = some (state', op')) : Advances state op state' op' := by
  cases op with
  | submit k =>
    rcases k with _ | _ | k <;> rcases exchange_cases h with ⟨hstate, rfl, rfl⟩ | ⟨-, rfl, rfl⟩
    · exact .submitHit (.inl hstate)
    · exact .submitMiss (.inl rfl)
    · exact .submitHit (.inr hstate)
    · exact .submitMiss (.inl rfl)
    · exact .submitMake (Nat.le_add_left 2 k) hstate
    · exact .submitMiss (.inr rfl)
  | reschedule time k =>
    rcases k with _ | _ | _ | k <;>
      rcases exchange_cases h with ⟨hstate, rfl, rfl⟩ | ⟨-, rfl, rfl⟩
    · exact .rescheduleHit (.inl hstate)
    · exact .rescheduleMiss (.inl rfl)
    · exact .rescheduleHit (.inr hstate)
    · exact .rescheduleMiss (.inl rfl)
    · exact .rescheduleTake (.inl hstate)
    · exact .rescheduleMiss (.inl rfl)
    · exact .rescheduleTake (.inr hstate)
    · exact .rescheduleMiss (.inr rfl)
  | required time k =>
    rcases k with _ | _ | _ | _ | k <;>
      rcases exchange_cases h with ⟨rfl, rfl, rfl⟩ | ⟨hstate, rfl, rfl⟩
    · exact .requiredHit nofun
    · exact .requiredMiss
    · exact .requiredHit nofun
    · exact .requiredMiss
    · exact .requiredHit nofun
    · exact .requiredMiss
    · exact .requiredHit nofun
    · exact .requiredMiss
    · exact .requiredHit nofun
    · exact .requiredEnd (Nat.le_add_left 4 k) hstate
  | revoked time =>
    rcases exchange_cases h with ⟨hstate, rfl, rfl⟩ | ⟨hstate, rfl, rfl⟩
    · exact .revokedHit hstate
    · exact .revokedMiss hstate
  | idle time =>
    rcases exchange_cases h with ⟨hstate, rfl, rfl⟩ | ⟨-, rfl, rfl⟩
    · exact .idleMake hstate
    · exact .idleMiss
  | none | post | setTime | timerRevoke | poolRevoke | revoking | schedule =>
    exact absurd h nofun

/-- The exchanges of `Resubmit`: the state word, and what becomes of the minion. -/
def complete (state : State) (time : Option Nat) (i : Nat) :
    Nat → State × ThreadPool.Action Job
  | 0 => exchange state .executing .idle (.resubmit i none) (.attempt i)
  | 1 => exchange state .resubmit .submitted (.resubmit i (some none)) (.attempt i)
  | _ => exchange state .schedule .submitted (.resubmit i (some time)) (.resubmit i none)

theorem complete_cases (state : State) (time : Option Nat) (i k : Nat) :
    (k = 0 ∧ state = .executing ∧ complete state time i k = (.idle, .resubmit i none)) ∨
      (k < 2 ∧ (k = 0 → state ≠ .executing) ∧ complete state time i k = (state, .attempt i)) ∨
      (0 < k ∧ (state = .resubmit ∨ state = .schedule) ∧
        ∃ time', complete state time i k = (.submitted, .resubmit i (some time'))) ∨
      (2 ≤ k ∧ state ≠ .schedule ∧ complete state time i k = (state, .resubmit i none)) := by
  rcases k with _ | _ | k
  · rcases eq_or_ne state .executing with hstate | hstate
    · exact .inl ⟨rfl, hstate, if_pos hstate⟩
    · exact .inr (.inl ⟨by decide, fun _ => hstate, if_neg hstate⟩)
  · rcases eq_or_ne state .resubmit with hstate | hstate
    · exact .inr (.inr (.inl ⟨by decide, .inl hstate, none, if_pos hstate⟩))
    · exact .inr (.inl ⟨by decide, nofun, if_neg hstate⟩)
  · rcases eq_or_ne state .schedule with hstate | hstate
    · exact .inr (.inr (.inl ⟨Nat.succ_pos _, .inr hstate, time, if_pos hstate⟩))
    · exact .inr (.inr (.inr ⟨Nat.le_add_left 2 k, hstate, if_neg hstate⟩))

/-- `ScheduleEntry`: behind the entries that are not later. -/
def insertTime (time : Nat) : List Nat → List Nat
  | [] => [time]
  | t :: ts => if t ≤ time then t :: insertTime time ts else time :: t :: ts

@[simp] theorem length_insertTime (time : Nat) (l : List Nat) :
    (insertTime time l).length = l.length + 1 := by
  induction l with
  | nil => rfl
  | cons t ts ih =>
    unfold insertTime
    split_ifs <;> simp [ih]

end JobType

/-- The job and what surrounds it: `timer` holds the times of its entries in the timer's list, and
`hand` tells whether the timer's thread has taken one of them out and not yet submitted it. -/
structure JobType where
  pool : ThreadPool Job
  state : JobType.State
  time : Option Nat
  timer : List Nat
  hand : Bool
  operations : Thread → JobType.Operation

namespace JobType

open Function

def new (count queueSize : Nat) (marked : 0 < queueSize) : JobType where
  pool := .new count queueSize marked
  state := .idle
  time := none
  timer := []
  hand := false
  operations _ := .none

def setOperation (s : JobType) (t : Thread) (operation : Operation) : JobType :=
  { s with operations := update s.operations t operation }

/-- The steps of the pool that are not the job's own: requests of others, and what happens to the job
between its own steps.  The pool is not stopped. -/
def Foreign (s : JobType) : ThreadPool.Action Job → Prop
  | .submit t job | .revoke t job => job ≠ .this ∧ s.operations t = .none
  | .dispatch i entered => s.pool.units i ≠ .extracted .this ∧ entered = true
  | .finish i => s.operations (.unit i) = .none
  | .attempt i | .resubmit i _ => ∀ k, s.pool.units i ≠ .completing .this k
  | .reschedule i => ∀ time, s.pool.units i ≠ .posting .this time
  | .stop => False
  | .look _ | .wake _ | .extract _ | .repost _ | .release _ | .reset _ => True

inductive Action
  | pool (a : ThreadPool.Action Job)
  | begin (t : Thread)
  | proceed (t : Thread)
  | dispatch (i : Nat)
  | exchange (i : Nat)
  | reschedule (i : Nat)
  | fire
  | deliver

inductive Step (s : JobType) : Action → JobType → Prop
  | pool {a : ThreadPool.Action Job} {pool : ThreadPool Job} (hforeign : s.Foreign a)
      (hstep : s.pool.Step a pool) : Step s (.pool a) { s with pool := pool }
  | begin {t : Thread} {operation : Operation} (hready : s.pool.Ready t)
      (hnone : s.operations t = .none)
      (hbegin : operation = .submit 0 ∨ (∃ time, operation = .reschedule time 0) ∨
        operation = .required none 0) : Step s (.begin t) (s.setOperation t operation)
  | advance {t : Thread} {state : State} {operation : Operation}
      (hadvance : advance s.state (s.operations t) = some (state, operation)) :
      Step s (.proceed t) ({ s with state := state }.setOperation t operation)
  | setTime {t : Thread} {time : Nat} (hop : s.operations t = .setTime time) :
      Step s (.proceed t) ({ s with time := some time }.setOperation t .none)
  | post {t : Thread} {pool : ThreadPool Job} (hop : s.operations t = .post)
      (hstep : s.pool.Step (.submit t .this) pool) :
      Step s (.proceed t) ({ s with pool := pool }.setOperation t .none)
  | timerRevoke {t : Thread} {time : Option Nat} (hop : s.operations t = .timerRevoke time) :
      Step s (.proceed t) ({ s with timer := [] }.setOperation t (.poolRevoke time))
  /-- `ThreadPool::Revoke` is called; its scan goes on in steps of the pool. -/
  | poolRevoke {t : Thread} {time : Option Nat} {pool : ThreadPool Job}
      (hop : s.operations t = .poolRevoke time) (hstep : s.pool.Step (.revoke t .this) pool) :
      Step s (.proceed t) ({ s with pool := pool }.setOperation t (.revoking time))
  | revoking {t : Thread} {time : Option Nat} {result : Nat}
      (hop : s.operations t = .revoking time) (hcall : s.pool.calls t = .returned result) :
      Step s (.proceed t) (s.setOperation t (.revoked time))
  /-- `Schedule` with a time that is not over goes to the timer, else to the queue. -/
  | scheduleTimer {t : Thread} {time : Nat} (hop : s.operations t = .schedule time) :
      Step s (.proceed t) ({ s with timer := insertTime time s.timer }.setOperation t .none)
  | scheduleSubmit {t : Thread} {time : Nat} {pool : ThreadPool Job}
      (hop : s.operations t = .schedule time) (hstep : s.pool.Step (.submit t .this) pool) :
      Step s (.proceed t) ({ s with pool := pool }.setOperation t .none)
  /-- `Dispatch` enters the implementation when the exchange succeeds. -/
  | dispatch {i : Nat} {pool : ThreadPool Job} (hphase : s.pool.units i = .extracted .this)
      (hstep : s.pool.Step (.dispatch i (s.state = .submitted)) pool) :
      Step s (.dispatch i) { s with
        pool := pool
        state := if s.state = .submitted then .executing else s.state }
  | exchange {i k : Nat} {pool : ThreadPool Job} (hphase : s.pool.units i = .completing .this k)
      (hstep : s.pool.Step (complete s.state s.time i k).2 pool) :
      Step s (.exchange i) { s with pool := pool, state := (complete s.state s.time i k).1 }
  | reschedule {i time : Nat} {pool : ThreadPool Job}
      (hphase : s.pool.units i = .posting .this (some time))
      (hstep : s.pool.Step (.reschedule i) pool) :
      Step s (.reschedule i) { s with pool := pool, timer := insertTime time s.timer }
  /-- The timer takes out its first entry, which is due. -/
  | fire {time : Nat} {rest : List Nat} (hhand : s.hand = false) (htimer : s.timer = time :: rest) :
      Step s .fire { s with timer := rest, hand := true }
  | deliver {pool : ThreadPool Job} (hhand : s.hand = true)
      (hstep : s.pool.Step (.submit .timer .this) pool) :
      Step s .deliver { s with pool := pool, hand := false }

end JobType

end Thunder.Core
