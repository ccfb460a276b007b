import Thunder.Core.ThreadPool

/-! What `WorkerPool::Revoke` reports.  The job may wait in the timer, wait in the queue of the
thread pool, or be with a minion: one of the pool's units, or the external one of the thread that
has joined.  `ThreadPool::Revoke` reports on the queue and the units; the result of
`WorkerPool::Revoke` heeds that report only where it knows nothing of the job.

A call is taken on one state of all these; whether a minion that runs the job is done in time is
left open. -/

namespace Thunder.Core

def errorTimedOut : Nat := 11

/-- `WorkerPool`, with the pending entries of the timer; the units are those of the thread pool, and
`joined` is the thread in `Join`. -/
structure WorkerPool (α : Type) where
  timer : List (Nat × α)
  threadPool : ThreadPool α
  external : ThreadPool.Phase α
  joined : Option Thread

/-- Whether a unit or the external minion is done within the waiting time of a call. -/
structure Waits where
  unit : Nat → Bool
  external : Bool

/-- An infinite waiting time. -/
def Waits.infinite : Waits := ⟨fun _ => true, true⟩

namespace ThreadPool

/-- `Minion::Completed`. -/
def Phase.completed {α : Type} [DecidableEq α] (phase : Phase α) (job : α) (done : Bool) : Nat :=
  if phase.currentRequest ≠ some job then errorUnknownKey
  else if done then errorNone
  else errorTimedOut

variable {α : Type} [DecidableEq α]

/-- The loop of `Revoke` over the units. -/
def awaitUnits (s : ThreadPool α) (waits : Waits) (caller : Thread) (job : α) : List Nat → Nat
  | [] => errorUnknownKey
  | index :: rest =>
    if caller = .unit index then errorNone
    else
      let outcome := (s.units index).completed job (waits.unit index)
      if outcome = errorNone ∨ outcome = errorTimedOut then outcome
      else awaitUnits s waits caller job rest

def revoke (s : ThreadPool α) (waits : Waits) (caller : Thread) (job : α) : ThreadPool α × Nat :=
  match s.queue.remove job with
  | (queue, true) => ({ s with queue := queue }, errorNone)
  | (queue, false) =>
    ({ s with queue := queue }, s.awaitUnits waits caller job (List.range s.count))

/-- The units that the loop passes: they neither run the job nor are the caller. -/
def Passed (s : ThreadPool α) (caller : Thread) (job : α) (n : Nat) : Prop :=
  ∀ k < n, caller ≠ .unit k ∧ (s.units k).currentRequest ≠ some job

end ThreadPool

namespace WorkerPool

variable {α : Type} [DecidableEq α]

/-- `TimerType::Revoke`: all entries of the job go. -/
def timerRevoke (timer : List (Nat × α)) (job : α) : List (Nat × α) × Bool :=
  (timer.filter fun entry => entry.2 ≠ job, decide (job ∈ timer.map Prod.snd))

def revoke (s : WorkerPool α) (waits : Waits) (caller : Thread) (job : α) : WorkerPool α × Nat :=
  let (timer, found) := timerRevoke s.timer job
  let result := if found then errorNone else errorUnknownKey
  let (threadPool, report) := s.threadPool.revoke waits caller job
  let s' := { s with timer := timer, threadPool := threadPool }
  if report = errorUnknownKey then
    if s.joined = some caller then (s', errorNone)
    else
      let report := s.external.completed job waits.external
      if report ≠ errorUnknownKey ∧ result = errorUnknownKey then (s', report) else (s', result)
  else (s', result)

/-- `TimerType::ScheduleEntry`: behind the entries that are due before or at the same time. -/
def scheduleEntry (timer : List (Nat × α)) (time : Nat) (job : α) : List (Nat × α) :=
  timer.takeWhile (fun entry => entry.1 ≤ time) ++
    (time, job) :: timer.dropWhile (fun entry => entry.1 ≤ time)

/-- `Schedule`; a job that is due is submitted, in one section of the queue if there is room. -/
def schedule (s : WorkerPool α) (now time : Nat) (caller : Thread) (job : α) : WorkerPool α :=
  if now < time then { s with timer := scheduleEntry s.timer time job }
  else
    match s.threadPool.offer caller job with
    | none => s
    | some queue => { s with threadPool := { s.threadPool with queue := queue } }

def reschedule (s : WorkerPool α) (now time : Nat) (caller : Thread) (job : α) :
    WorkerPool α × Bool :=
  let (s', result) := s.revoke .infinite caller job
  (s'.schedule now time caller job, decide (result ≠ errorUnknownKey))

/-! ### The truth -/

/-- The job is not in the timer, not in the queue and with no minion. -/
structure Nowhere (s : WorkerPool α) (job : α) : Prop where
  timer : job ∉ s.timer.map Prod.snd
  queue : job ∉ s.threadPool.queue.queue
  units : ∀ k < s.threadPool.count, (s.threadPool.units k).currentRequest ≠ some job
  external : s.external.currentRequest ≠ some job

/-- The call takes the job from the timer or from the queue. -/
def Removed (s : WorkerPool α) (job : α) : Prop :=
  job ∈ s.timer.map Prod.snd ∨ (s.threadPool.queue.remove job).2 = true

/-- The call waits for a minion that runs the job, until it is done. -/
def Awaited (s : WorkerPool α) (waits : Waits) (caller : Thread) (job : α) : Prop :=
  (s.threadPool.queue.remove job).2 = false ∧
  ((∃ k < s.threadPool.count, s.threadPool.Passed caller job k ∧ caller ≠ .unit k ∧
      (s.threadPool.units k).currentRequest = some job ∧ waits.unit k = true) ∨
    s.threadPool.Passed caller job s.threadPool.count ∧ s.joined ≠ some caller ∧
      s.external.currentRequest = some job ∧ waits.external = true)

/-- `Revoke` knows nothing of a job only if there is nothing, and reports what it did; `Reschedule`
tells whether it did something. -/
structure Truthful (s : WorkerPool α) (waits : Waits) (caller : Thread) (job : α) : Prop where
  unknown : (s.revoke waits caller job).2 = errorUnknownKey → s.Nowhere job
  done : s.Removed job ∨ s.Awaited waits caller job →
    (s.revoke waits caller job).2 = errorNone
  rescheduled : ∀ now time, (s.reschedule now time caller job).2 = true ↔
    s.Removed job ∨ s.Awaited .infinite caller job

/-- The timer holds the job, or the thread pool does nothing about it: it removes it from no queue
and none of its units runs it.  Then a call by a unit looks no further, so there may be nothing
further; a call by the joined thread reports success in any case; and a call by another thread finds
the job with the joined thread, unless a disabled queue holds it. -/
def Seen (s : WorkerPool α) (caller : Thread) (job : α) : Prop :=
  job ∈ s.timer.map Prod.snd ∨
  (s.threadPool.queue.remove job).2 = false ∧
  (∀ k < s.threadPool.count, (s.threadPool.units k).currentRequest ≠ some job) ∧
  ((∃ k < s.threadPool.count, caller = .unit k) →
    s.external.currentRequest ≠ some job ∧ job ∉ s.threadPool.queue.queue) ∧
  ((∀ k < s.threadPool.count, caller ≠ .unit k) →
    s.joined ≠ some caller ∧
      (s.external.currentRequest = some job ∨ job ∉ s.threadPool.queue.queue))

/-! ### The result -/

variable {s : WorkerPool α} {waits : Waits} {caller : Thread} {job : α}

theorem completed_of_ne {phase : ThreadPool.Phase α} {done : Bool}
    (h : phase.currentRequest ≠ some job) : phase.completed job done = errorUnknownKey := by
  rw [ThreadPool.Phase.completed, if_pos h]

theorem completed_of_eq {phase : ThreadPool.Phase α} {done : Bool}
    (h : phase.currentRequest = some job) :
    phase.completed job done = if done then errorNone else errorTimedOut := by
  rw [ThreadPool.Phase.completed, if_neg (not_not.mpr h)]

/-- The loop comes to the caller, to a unit that runs the job, or to the end. -/
theorem passed_cases (s : ThreadPool α) (caller : Thread) (job : α) (n : Nat) :
    (∃ k < n, s.Passed caller job k ∧ caller = .unit k) ∨
    (∃ k < n, s.Passed caller job k ∧ caller ≠ .unit k ∧ (s.units k).currentRequest = some job) ∨
    s.Passed caller job n := by
  induction n with
  | zero => exact .inr (.inr fun k hk => absurd hk (Nat.not_lt_zero k))
  | succ n ih =>
    rcases ih with ⟨k, hk, h⟩ | ⟨k, hk, h⟩ | h
    · exact .inl ⟨k, Nat.lt_succ_of_lt hk, h⟩
    · exact .inr (.inl ⟨k, Nat.lt_succ_of_lt hk, h⟩)
    · by_cases hcaller : caller = .unit n
      · exact .inl ⟨n, Nat.lt_succ_self n, h, hcaller⟩
      · by_cases hrequest : (s.units n).currentRequest = some job
        · exact .inr (.inl ⟨n, Nat.lt_succ_self n, h, hcaller, hrequest⟩)
        · refine .inr (.inr fun k hk => ?_)
          rcases Nat.lt_succ_iff_lt_or_eq.mp hk with hlt | rfl
          · exact h k hlt
          · exact ⟨hcaller, hrequest⟩

/-- Units that are passed make no difference to the loop. -/
theorem awaitUnits_passed {s : ThreadPool α} {before : List Nat}
    (h : ∀ k ∈ before, caller ≠ .unit k ∧ (s.units k).currentRequest ≠ some job)
    (rest : List Nat) :
    s.awaitUnits waits caller job (before ++ rest) = s.awaitUnits waits caller job rest := by
  induction before with
  | nil => rfl
  | cons k before ih =>
    obtain ⟨⟨hcaller, hrequest⟩, hbefore⟩ := List.forall_mem_cons.mp h
    rw [List.cons_append, ThreadPool.awaitUnits, if_neg hcaller]
    simp only [completed_of_ne hrequest]
    exact ih hbefore

theorem awaitUnits_end {s : ThreadPool α} (h : s.Passed caller job s.count) :
    s.awaitUnits waits caller job (List.range s.count) = errorUnknownKey := by
  have hall : ∀ k ∈ List.range s.count,
      caller ≠ .unit k ∧ (s.units k).currentRequest ≠ some job :=
    fun k hk => h k (List.mem_range.mp hk)
  rw [← List.append_nil (List.range s.count), awaitUnits_passed hall]
  rfl

theorem awaitUnits_at (waits : Waits) {s : ThreadPool α} {k : Nat} (hk : k < s.count)
    (h : s.Passed caller job k) : ∃ rest,
      s.awaitUnits waits caller job (List.range s.count) =
        s.awaitUnits waits caller job (k :: rest) := by
  obtain ⟨m, hm⟩ := Nat.exists_eq_add_of_lt hk
  have hbefore : ∀ i ∈ List.range k, caller ≠ .unit i ∧ (s.units i).currentRequest ≠ some job :=
    fun i hi => h i (List.mem_range.mp hi)
  have hsplit : List.range s.count = List.range k ++ k :: List.range' (k + 1) m := by
    rw [hm, ← List.range'_succ, List.range_eq_range', List.range_eq_range', Nat.add_assoc,
      ← List.range'_append_1, Nat.zero_add]
  exact ⟨List.range' (k + 1) m, by rw [hsplit, awaitUnits_passed hbefore]⟩

theorem awaitUnits_own {s : ThreadPool α} {k : Nat} (hk : k < s.count)
    (h : s.Passed caller job k) (hcaller : caller = .unit k) :
    s.awaitUnits waits caller job (List.range s.count) = errorNone := by
  obtain ⟨rest, heq⟩ := awaitUnits_at waits hk h
  rw [heq, ThreadPool.awaitUnits, if_pos hcaller]

theorem awaitUnits_runs {s : ThreadPool α} {k : Nat} (hk : k < s.count)
    (h : s.Passed caller job k) (hcaller : caller ≠ .unit k)
    (hrequest : (s.units k).currentRequest = some job) :
    s.awaitUnits waits caller job (List.range s.count) =
      if waits.unit k then errorNone else errorTimedOut := by
  obtain ⟨rest, heq⟩ := awaitUnits_at waits hk h
  rw [heq, ThreadPool.awaitUnits, if_neg hcaller]
  simp only [completed_of_eq hrequest]
  cases waits.unit k <;> rfl

theorem report_eq (s : ThreadPool α) (waits : Waits) (caller : Thread) (job : α) :
    (s.revoke waits caller job).2 =
      if (s.queue.remove job).2 then errorNone
      else s.awaitUnits waits caller job (List.range s.count) := by
  rw [ThreadPool.revoke]
  split <;> rename_i heq <;> simp [heq]

/-- A job that the timer holds is taken from there. -/
theorem revoke_of_timer (h : job ∈ s.timer.map Prod.snd) :
    (s.revoke waits caller job).2 = errorNone := by
  simp only [revoke, timerRevoke, h, decide_true, if_true]
  split_ifs with _ _ hexternal
  · rfl
  · exact absurd hexternal.2 (by decide)
  · rfl
  · rfl

/-- Without the timer, a report of the thread pool is lost. -/
theorem revoke_of_not_timer (h : job ∉ s.timer.map Prod.snd) :
    (s.revoke waits caller job).2 =
      if (s.threadPool.revoke waits caller job).2 = errorUnknownKey then
        if s.joined = some caller then errorNone else s.external.completed job waits.external
      else errorUnknownKey := by
  simp only [revoke, timerRevoke, h, decide_false, Bool.false_eq_true, if_false]
  split_ifs with _ _ hexternal
  · rfl
  · rfl
  · exact (not_not.mp fun hne => hexternal ⟨hne, trivial⟩).symm
  · rfl

theorem reschedule_eq (now time : Nat) :
    (s.reschedule now time caller job).2 =
      decide ((s.revoke .infinite caller job).2 ≠ errorUnknownKey) := rfl

/-! ### When the result is the truth -/

theorem truthful_of_timer (h : job ∈ s.timer.map Prod.snd) : s.Truthful waits caller job := by
  refine ⟨fun hunknown => ?_, fun _ => revoke_of_timer h, fun now time => ?_⟩
  · rw [revoke_of_timer h] at hunknown
    exact absurd hunknown (by decide)
  · rw [reschedule_eq, revoke_of_timer h]
    exact ⟨fun _ => .inl (.inl h), fun _ => by decide⟩

/-- The result says that the job is not known although the pool has removed it. -/
theorem not_truthful_of_removed (h : job ∉ s.timer.map Prod.snd)
    (hqueue : (s.threadPool.queue.remove job).2 = true) : ¬ s.Truthful waits caller job := by
  intro htrue
  have hdone := htrue.done (.inl (.inr hqueue))
  have hlost : ¬ errorNone = errorUnknownKey := by decide
  rw [revoke_of_not_timer h, report_eq, if_pos hqueue, if_neg hlost] at hdone
  exact hlost hdone.symm

omit [DecidableEq α] in
theorem nowhere_iff (h : job ∉ s.timer.map Prod.snd) : s.Nowhere job ↔
    job ∉ s.threadPool.queue.queue ∧
      (∀ k < s.threadPool.count, (s.threadPool.units k).currentRequest ≠ some job) ∧
      s.external.currentRequest ≠ some job :=
  ⟨fun hnowhere => ⟨hnowhere.queue, hnowhere.units, hnowhere.external⟩,
    fun ⟨hin, hunits, hexternal⟩ => ⟨h, hin, hunits, hexternal⟩⟩

section NotRemoved

variable (h : job ∉ s.timer.map Prod.snd) (hqueue : (s.threadPool.queue.remove job).2 = false)

include h hqueue

theorem not_removed : ¬ s.Removed job := by
  rintro (htimer | hremoved)
  · exact h htimer
  · rw [hqueue] at hremoved
    cases hremoved

theorem revoke_of_not_removed :
    (s.revoke waits caller job).2 =
      if s.threadPool.awaitUnits waits caller job (List.range s.threadPool.count) =
          errorUnknownKey then
        if s.joined = some caller then errorNone else s.external.completed job waits.external
      else errorUnknownKey := by
  rw [revoke_of_not_timer h, report_eq, hqueue]
  rfl

/-- Without a removal and without a wait the result is right when it says that nothing is known, and
nothing is. -/
theorem truthful_iff_of_unknown
    (hunknown : ∀ waits, (s.revoke waits caller job).2 = errorUnknownKey)
    (hawaited : ∀ waits, ¬ s.Awaited waits caller job) :
    s.Truthful waits caller job ↔ s.Nowhere job := by
  refine ⟨fun htrue => htrue.unknown (hunknown waits), fun hnowhere => ?_⟩
  refine ⟨fun _ => hnowhere, ?_, fun now time => ?_⟩
  · rintro (hremoved | hawait)
    · exact absurd hremoved (not_removed h hqueue)
    · exact absurd hawait (hawaited waits)
  · rw [reschedule_eq, hunknown]
    refine ⟨fun hfalse => absurd hfalse (by decide), ?_⟩
    rintro (hremoved | hawait)
    · exact absurd hremoved (not_removed h hqueue)
    · exact absurd hawait (hawaited .infinite)

/-- The caller is a unit. -/
theorem truthful_iff_own {k : Nat} (hk : k < s.threadPool.count)
    (hpassed : s.threadPool.Passed caller job k) (hcaller : caller = .unit k) :
    s.Truthful waits caller job ↔ s.Seen caller job := by
  have hunknown : ∀ waits, (s.revoke waits caller job).2 = errorUnknownKey := by
    intro waits
    rw [revoke_of_not_removed h hqueue, awaitUnits_own hk hpassed hcaller]
    rfl
  have hawaited : ∀ waits, ¬ s.Awaited waits caller job := by
    rintro waits ⟨-, ⟨i, hi, hpassed', hne, hrequest, -⟩ | ⟨hpassed', -⟩⟩
    · rcases Nat.lt_trichotomy i k with hlt | rfl | hgt
      · exact (hpassed i hlt).2 hrequest
      · exact hne hcaller
      · exact (hpassed' k hgt).1 hcaller
    · exact (hpassed' k hk).1 hcaller
  rw [truthful_iff_of_unknown h hqueue hunknown hawaited, nowhere_iff h]
  constructor
  · rintro ⟨hin, hunits, hexternal⟩
    exact .inr ⟨hqueue, hunits, fun _ => ⟨hexternal, hin⟩,
      fun hother => absurd hcaller (hother k hk)⟩
  · rintro (htimer | ⟨-, hunits, hown, -⟩)
    · exact absurd htimer h
    · obtain ⟨hexternal, hin⟩ := hown ⟨k, hk, hcaller⟩
      exact ⟨hin, hunits, hexternal⟩

/-- A unit runs the job: the result says that it is not known, whether it was done in time or
not. -/
theorem truthful_iff_runs {k : Nat} (hk : k < s.threadPool.count)
    (hpassed : s.threadPool.Passed caller job k) (hcaller : caller ≠ .unit k)
    (hrequest : (s.threadPool.units k).currentRequest = some job) :
    s.Truthful waits caller job ↔ s.Seen caller job := by
  have hunknown : (s.revoke waits caller job).2 = errorUnknownKey := by
    rw [revoke_of_not_removed h hqueue, awaitUnits_runs hk hpassed hcaller hrequest]
    cases waits.unit k <;> rfl
  constructor
  · intro htrue
    exact absurd hrequest ((htrue.unknown hunknown).units k hk)
  · rintro (htimer | ⟨-, hunits, -⟩)
    · exact absurd htimer h
    · exact absurd hrequest (hunits k hk)

/-- No unit runs the job, and the caller is none. -/
theorem truthful_iff_end (hpassed : s.threadPool.Passed caller job s.threadPool.count) :
    s.Truthful waits caller job ↔ s.Seen caller job := by
  have hresult : ∀ waits, (s.revoke waits caller job).2 =
      if s.joined = some caller then errorNone else s.external.completed job waits.external := by
    intro waits
    rw [revoke_of_not_removed h hqueue, awaitUnits_end hpassed, if_pos rfl]
  have hawaited : ∀ waits, s.Awaited waits caller job ↔ s.joined ≠ some caller ∧
      s.external.currentRequest = some job ∧ waits.external = true := by
    intro waits
    constructor
    · rintro ⟨-, ⟨k, hk, -, -, hrequest, -⟩ | ⟨-, hrest⟩⟩
      · exact absurd hrequest (hpassed k hk).2
      · exact hrest
    · exact fun hrest => ⟨hqueue, .inr ⟨hpassed, hrest⟩⟩
  have hseen : s.Seen caller job ↔ s.joined ≠ some caller ∧
      (s.external.currentRequest = some job ∨ job ∉ s.threadPool.queue.queue) := by
    constructor
    · rintro (htimer | ⟨-, -, -, hother⟩)
      · exact absurd htimer h
      · exact hother fun k hk => (hpassed k hk).1
    · intro hrest
      exact .inr ⟨hqueue, fun k hk => (hpassed k hk).2,
        fun ⟨k, hk, hcaller⟩ => absurd hcaller (hpassed k hk).1, fun _ => hrest⟩
  by_cases hjoined : s.joined = some caller
  · refine ⟨fun htrue => ?_, fun hsees => absurd hjoined (hseen.mp hsees).1⟩
    have hresched := htrue.rescheduled 0 0
    rw [reschedule_eq, hresult, if_pos hjoined, hawaited] at hresched
    rcases hresched.mp (by decide) with hremoved | ⟨hother, -⟩
    · exact absurd hremoved (not_removed h hqueue)
    · exact absurd hjoined hother
  · simp only [if_neg hjoined] at hresult
    by_cases hexternal : s.external.currentRequest = some job
    · refine ⟨fun _ => hseen.mpr ⟨hjoined, .inl hexternal⟩, fun _ => ⟨?_, ?_, ?_⟩⟩
      · rw [hresult, completed_of_eq hexternal]
        cases waits.external <;> exact fun hunknown => absurd hunknown (by decide)
      · rintro (hremoved | hawait)
        · exact absurd hremoved (not_removed h hqueue)
        · rw [hresult, completed_of_eq hexternal, ((hawaited waits).mp hawait).2.2]
          rfl
      · intro now time
        rw [reschedule_eq, hresult, completed_of_eq hexternal, hawaited]
        exact ⟨fun _ => .inr ⟨hjoined, hexternal, rfl⟩, fun _ => by decide⟩
    · have hunknown : ∀ waits, (s.revoke waits caller job).2 = errorUnknownKey := fun waits => by
        rw [hresult, completed_of_ne hexternal]
      have hnot : ∀ waits, ¬ s.Awaited waits caller job := fun waits hawait =>
        hexternal ((hawaited waits).mp hawait).2.1
      rw [truthful_iff_of_unknown h hqueue hunknown hnot, nowhere_iff h, hseen]
      constructor
      · exact fun ⟨hin, _, _⟩ => ⟨hjoined, .inr hin⟩
      · rintro ⟨-, hruns | hin⟩
        · exact absurd hruns hexternal
        · exact ⟨hin, fun k hk => (hpassed k hk).2, hexternal⟩

end NotRemoved

/-- For every state, caller and job, and however long the minions take: the results are the truth
exactly when the thread pool has nothing to report that is lost, and no caller is taken for the
minion that runs the job. -/
theorem truthful_iff_seen (s : WorkerPool α) (waits : Waits) (caller : Thread) (job : α) :
    s.Truthful waits caller job ↔ s.Seen caller job := by
  by_cases h : job ∈ s.timer.map Prod.snd
  · exact ⟨fun _ => .inl h, fun _ => truthful_of_timer h⟩
  · cases hqueue : (s.threadPool.queue.remove job).2 with
    | true =>
      refine ⟨fun htrue => absurd htrue (not_truthful_of_removed h hqueue), ?_⟩
      rintro (htimer | ⟨hmissed, -⟩)
      · exact absurd htimer h
      · rw [hqueue] at hmissed
        cases hmissed
    | false =>
      rcases passed_cases s.threadPool caller job s.threadPool.count with
        ⟨k, hk, hpassed, hcaller⟩ | ⟨k, hk, hpassed, hcaller, hrequest⟩ | hpassed
      · exact truthful_iff_own h hqueue hk hpassed hcaller
      · exact truthful_iff_runs h hqueue hk hpassed hcaller hrequest
      · exact truthful_iff_end h hqueue hpassed

/-- A job in the queue of a pool of one unit. -/
def queued : WorkerPool Nat where
  timer := []
  threadPool := { ThreadPool.new 1 1 Nat.one_pos with queue := ⟨[7], .limited, 1, Nat.one_pos⟩ }
  external := .waiting
  joined := none

/-- The job is removed, and reported as not known. -/
theorem not_truthful_queued : ¬ queued.Truthful .infinite (.other 0) 7 := by
  intro htrue
  exact absurd (htrue.done (.inl (.inr (by decide)))) (by decide)

end WorkerPool

end Thunder.Core
