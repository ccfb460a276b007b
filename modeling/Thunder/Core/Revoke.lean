import Thunder.Library.Run
import Thunder.Core.ThreadPool

/-! When `ThreadPool::Revoke` is final.  The pool is watched by a history: the threads whose call of
`Revoke` owes that the job is gone when it returns, and the jobs of which a call has returned that
way and that nobody has submitted since. -/

namespace Thunder.Core.ThreadPool

open Function Run

variable {α : Type} {s s' : ThreadPool α} {job : α} {n i : Nat} {phase : Phase α}

/-! ### Where a job is -/

/-- The job is neither in the queue nor with one of the first `n` minions. -/
structure Clear (s : ThreadPool α) (job : α) (n : Nat) : Prop where
  queue : job ∉ s.queue.queue
  units : ∀ k < n, (s.units k).currentRequest ≠ some job

/-- The job is neither in the queue nor with a minion. -/
def Gone (s : ThreadPool α) (job : α) : Prop := s.Clear job s.count

theorem Clear.setUnit (h : s.Clear job n) (hphase : i < n → phase.currentRequest ≠ some job) :
    (s.setUnit i phase).Clear job n := by
  refine ⟨h.queue, fun k hk => ?_⟩
  rcases eq_or_ne k i with rfl | hne
  · rw [setUnit_units, update_self]
    exact hphase hk
  · rw [setUnit_units, update_of_ne hne]
    exact h.units k hk

theorem Clear.setCall (h : s.Clear job n) (t : Thread) (call : Call α) :
    (s.setCall t call).Clear job n := ⟨h.queue, h.units⟩

theorem Clear.queue_subset {queue : QueueType α} (h : s.Clear job n)
    (hsubset : job ∈ queue.queue → job ∈ s.queue.queue) :
    ({ s with queue := queue } : ThreadPool α).Clear job n :=
  ⟨fun hjob => h.queue (hsubset hjob), h.units⟩

/-- A job stays away but for a submission or a repost of it. -/
theorem Clear.step [DecidableEq α] {a : Action α} (h : s.Clear job n) (hstep : s.Step a s')
    (hsubmit : ∀ t, a ≠ .submit t job)
    (hrepost : ∀ i time, a = .repost i → i < s.count → s.units i ≠ .posting job time) :
    s'.Clear job n := by
  cases hstep with
  | @submit t job' queue hready hoffer =>
    refine h.queue_subset fun hjob => ?_
    rcases mem_offer hoffer hjob with hold | rfl
    · exact hold
    · exact absurd rfl (hsubmit t)
  | revokeQueued hready hremove | revokeMissed hready hremove =>
    exact Clear.setCall (h.queue_subset fun hjob => QueueType.mem_remove hremove hjob) _ _
  | lookOwn | lookPast | lookWait | lookEnd | wake => exact ⟨h.queue, h.units⟩
  | @extract i job' queue hi hphase hextract =>
    have hqueue := QueueType.extract_received hextract rfl
    have hout := h.queue
    rw [hqueue, List.mem_cons, not_or] at hout
    refine Clear.setUnit (h.queue_subset fun hjob => absurd hjob hout.2) fun _ heq => ?_
    exact hout.1 (Option.some.inj heq).symm
  | dispatch hi hphase | finish hi hphase | attempt hi hphase | resubmitNone hi hphase
  | resubmitSome hi hphase | reschedule hi hphase =>
    refine h.setUnit fun hlt => ?_
    have hunit := h.units _ hlt
    rwa [hphase] at hunit
  | @repost i job' time hi hphase =>
    refine Clear.setUnit (h.queue_subset fun hjob => ?_) fun hlt => ?_
    · rcases QueueType.mem_post hjob with hold | rfl
      · exact hold
      · exact absurd hphase (hrepost i time rfl hi)
    · have hunit := h.units _ hlt
      rwa [hphase] at hunit
  | release hi hphase | reset hi hphase => exact h.setUnit fun _ => nofun
  | stop => exact h.queue_subset id

/-- The thread itself runs the job. -/
def Executes (s : ThreadPool α) (t : Thread) (job : α) : Prop :=
  ∃ i, t = .unit i ∧ (s.units i).currentRequest = some job

instance [DecidableEq α] (s : ThreadPool α) (t : Thread) (job : α) : Decidable (s.Executes t job) :=
  match t with
  | .unit i => decidable_of_iff ((s.units i).currentRequest = some job)
      ⟨fun h => ⟨i, rfl, h⟩, by rintro ⟨_, ⟨⟩, h⟩; exact h⟩
  | .timer | .monitor | .other _ => isFalse (by rintro ⟨_, ⟨⟩, _⟩)

/-! ### The history -/

structure Watched (α : Type) where
  pool : ThreadPool α
  owed : List Thread := []
  revoked : List α := []

namespace Watched

variable {s : Watched α} {t : Thread} {call : Call α} {owed : List Thread}

/-- A call that has returned pays what it owes. -/
def settle (s : Watched α) (t : Thread) (job : α) : Watched α :=
  match s.pool.calls t with
  | .returned _ => { s with
      owed := s.owed.filter fun t' => t' ≠ t
      revoked := if t ∈ s.owed then job :: s.revoked else s.revoked }
  | _ => s

/-- The history after an action that leads to `pool`. -/
def watch [DecidableEq α] (s : Watched α) (pool : ThreadPool α) : Action α → Watched α
  | .submit _ job => {
      pool := pool
      owed := s.owed.filter fun t => (s.pool.calls t).job ≠ some job
      revoked := s.revoked.filter fun job' => job' ≠ job }
  | .revoke t job => settle { s with
      pool := pool
      owed := if s.pool.Executes t job then s.owed.filter fun t' => t' ≠ t else t :: s.owed } t job
  | .look t | .wake t =>
    match (s.pool.calls t).job with
    | some job => settle { s with pool := pool } t job
    | none => { s with pool := pool }
  | _ => { s with pool := pool }

theorem watch_look [DecidableEq α] (pool : ThreadPool α) (hjob : (s.pool.calls t).job = some job) :
    s.watch pool (.look t) = ({ s with pool := pool } : Watched α).settle t job := by
  simp only [watch, hjob]

theorem watch_wake [DecidableEq α] (pool : ThreadPool α) (hjob : (s.pool.calls t).job = some job) :
    s.watch pool (.wake t) = ({ s with pool := pool } : Watched α).settle t job := by
  simp only [watch, hjob]

def Step [DecidableEq α] (s : Watched α) (a : Action α) (s' : Watched α) : Prop :=
  ∃ pool, s.pool.Step a pool ∧ s' = s.watch pool a

/-- Every job whose `Revoke` has returned is gone. -/
def Final (s : Watched α) : Prop := ∀ job ∈ s.revoked, s.pool.Gone job

/-- The branches of `Revoke` that return without looking at every minion have nothing to miss, and no
minion posts a job again behind the back of a `Revoke` that has passed the queue. -/
def LooksThrough [DecidableEq α] (s : Watched α) : Action α → Prop
  | .revoke t job => ¬ s.pool.Executes t job → job ∈ s.pool.queue.queue →
      s.pool.queue.state ≠ .disabled ∧ s.pool.queue.queue.count job = 1 ∧
        ∀ k < s.pool.count, (s.pool.units k).currentRequest ≠ some job
  | .look t => t ∈ s.owed → ∀ i job, t = .unit i → s.pool.calls t = .scanning job i →
      ∀ k < s.pool.count, i < k → (s.pool.units k).currentRequest ≠ some job
  | .wake t => t ∈ s.owed → ∀ i job, s.pool.calls t = .waiting job i →
      ∀ k < s.pool.count, i < k → (s.pool.units k).currentRequest ≠ some job
  | .repost i => ∀ job time, s.pool.units i = .posting job time →
      ∀ t ∈ s.owed, (s.pool.calls t).job ≠ some job
  | _ => True

/-- What holds in every state: the revoked jobs are gone; a call from a minion is made in a
`Dispatch`, of another job when the call owes something; and a call that owes something has passed
minions without its job only. -/
structure Sound (s : Watched α) : Prop where
  final : s.Final
  inside : ∀ i, (s.pool.calls (.unit i)).job ≠ none →
    ∃ job, s.pool.units i = .dispatching job true
  foreign : ∀ i job, .unit i ∈ s.owed → (s.pool.calls (.unit i)).job = some job →
    (s.pool.units i).currentRequest ≠ some job
  swept : ∀ t ∈ s.owed, ∀ job i,
    (s.pool.calls t = .scanning job i ∨ s.pool.calls t = .waiting job i) → s.pool.Clear job i

namespace Sound

theorem settle (h : s.Sound)
    (hgone : ∀ r, s.pool.calls t = .returned r → t ∈ s.owed → s.pool.Gone job) :
    (s.settle t job).Sound := by
  unfold Watched.settle
  split
  next r hcall =>
    refine ⟨?_, h.inside, ?_, ?_⟩
    · intro job' hjob'
      dsimp only at hjob'
      split_ifs at hjob' with howed
      · rcases List.mem_cons.mp hjob' with rfl | hold
        · exact hgone r hcall howed
        · exact h.final job' hold
      · exact h.final job' hjob'
    · exact fun i job' howed => h.foreign i job' (List.mem_of_mem_filter howed)
    · exact fun t' howed => h.swept t' (List.mem_of_mem_filter howed)
  next => exact h

/-- A thread moves on in its call; the history of the other threads stays. -/
theorem setCall (h : s.Sound) (howed : ∀ t' ≠ t, t' ∈ owed → t' ∈ s.owed)
    (hinside : ∀ i, t = .unit i → call.job ≠ none → ∃ job, s.pool.units i = .dispatching job true)
    (hforeign : ∀ i job, t = .unit i → t ∈ owed → call.job = some job →
      (s.pool.units i).currentRequest ≠ some job)
    (hswept : t ∈ owed → ∀ job i, (call = .scanning job i ∨ call = .waiting job i) →
      s.pool.Clear job i) :
    ({ s with pool := s.pool.setCall t call, owed := owed } : Watched α).Sound := by
  refine ⟨fun job' hjob' => (h.final job' hjob').setCall _ _, fun i hjob => ?_,
    fun i job' hmem hjob => ?_, fun t' hmem job' i hcall => ?_⟩
  · rcases eq_or_ne (.unit i) t with rfl | hne
    · rw [setCall_calls, update_self] at hjob
      exact hinside i rfl hjob
    · rw [setCall_calls, update_of_ne hne] at hjob
      exact h.inside i hjob
  · rcases eq_or_ne (.unit i) t with rfl | hne
    · rw [setCall_calls, update_self] at hjob
      exact hforeign i job' rfl hmem hjob
    · rw [setCall_calls, update_of_ne hne] at hjob
      exact h.foreign i job' (howed _ hne hmem) hjob
  · rcases eq_or_ne t' t with rfl | hne
    · rw [setCall_calls, update_self] at hcall
      exact (hswept hmem job' i hcall).setCall _ _
    · rw [setCall_calls, update_of_ne hne] at hcall
      exact (h.swept t' (howed _ hne hmem) job' i hcall).setCall _ _

/-- A thread comes back from its call. -/
theorem setCall_returned (h : s.Sound) (r : Nat) (howed : ∀ t' ≠ t, t' ∈ owed → t' ∈ s.owed)
    (hgone : t ∈ owed → s.pool.Gone job) :
    (({ s with pool := s.pool.setCall t (.returned r), owed := owed } : Watched α).settle t
      job).Sound := by
  refine (h.setCall howed ?_ ?_ ?_).settle fun _ _ hmem => (hgone hmem).setCall _ _
  · exact fun i _ hjob => absurd rfl hjob
  · exact fun i job' _ _ hjob => absurd hjob nofun
  · rintro _ job' i (hcall | hcall) <;> exact absurd hcall nofun

/-- Only the queue and the minions change, and no minion that is in a call. -/
theorem quiet {pool : ThreadPool α} {revoked : List α} (h : s.Sound)
    (hcalls : pool.calls = s.pool.calls) (hcount : pool.count = s.pool.count)
    (hunits : ∀ j, (s.pool.calls (.unit j)).job ≠ none → pool.units j = s.pool.units j)
    (howed : ∀ t ∈ owed, t ∈ s.owed)
    (hfinal : ∀ job ∈ revoked, pool.Clear job s.pool.count)
    (hswept : ∀ t ∈ owed, ∀ job n, (s.pool.calls t).job = some job → s.pool.Clear job n →
      pool.Clear job n) :
    (⟨pool, owed, revoked⟩ : Watched α).Sound := by
  refine ⟨fun job hjob => ?_, fun j hjob => ?_, fun j job hmem hjob => ?_,
    fun t hmem job i hcall => ?_⟩
  · unfold Gone
    rw [hcount]
    exact hfinal job hjob
  · rw [hcalls] at hjob
    rw [hunits j hjob]
    exact h.inside j hjob
  · dsimp only at hjob ⊢
    rw [hcalls] at hjob
    rw [hunits j (by rw [hjob]; nofun)]
    exact h.foreign j job (howed _ hmem) hjob
  · dsimp only at hcall
    rw [hcalls] at hcall
    refine hswept t hmem job i ?_ (h.swept t (howed t hmem) job i hcall)
    rcases hcall with hcall | hcall <;> rw [hcall] <;> rfl

theorem interest (h : s.Sound) (interestCount : Nat → Nat) :
    ({ s with pool := { s.pool with interestCount := interestCount } } : Watched α).Sound :=
  h.quiet rfl rfl (fun _ _ => rfl) (fun _ => id)
    (fun job hjob => ⟨(h.final job hjob).queue, (h.final job hjob).units⟩)
    fun _ _ _ _ _ hclear => ⟨hclear.queue, hclear.units⟩

variable [DecidableEq α]

/-- A removal from the queue. -/
theorem remove {queue : QueueType α} {found : Bool} (h : s.Sound)
    (hremove : s.pool.queue.remove job = (queue, found)) :
    ({ s with pool := { s.pool with queue := queue } } : Watched α).Sound :=
  h.quiet rfl rfl (fun _ _ => rfl) (fun _ => id)
    (fun job' hjob' => (h.final job' hjob').queue_subset (QueueType.mem_remove hremove))
    fun _ _ _ _ _ hclear => hclear.queue_subset (QueueType.mem_remove hremove)

/-- A minion in a call stays where it is. -/
theorem units_eq {a : Action α} (h : s.Sound) (hstep : s.pool.Step a s') {j : Nat}
    (hjob : (s.pool.calls (.unit j)).job ≠ none) : s'.units j = s.pool.units j := by
  obtain ⟨job, hinside⟩ := h.inside j hjob
  have hmoves : ∀ {i : Nat} {phase : Phase α}, (s.pool.units i ≠ .dispatching job true ∨
      (s.pool.calls (.unit i)).job = none) → update s.pool.units i phase j = s.pool.units j := by
    intro i phase hmove
    refine update_of_ne ?_ _ _
    rintro rfl
    rcases hmove with hphase | hcall
    · exact hphase hinside
    · exact hjob hcall
  cases hstep with
  | finish hi hphase hcall => exact hmoves (.inr hcall)
  | extract hi hphase | dispatch hi hphase | attempt hi hphase | resubmitNone hi hphase
  | resubmitSome hi hphase | repost hi hphase | reschedule hi hphase | release hi hphase
  | reset hi hphase => exact hmoves (.inl (by rw [hphase]; nofun))
  | _ => rfl

/-- A step of a minion. -/
theorem minion {a : Action α} {pool : ThreadPool α} (h : s.Sound) (hok : s.LooksThrough a)
    (hstep : s.pool.Step a pool) (hsubmit : ∀ t job, a ≠ .submit t job)
    (hcalls : pool.calls = s.pool.calls) : ({ s with pool := pool } : Watched α).Sound := by
  refine h.quiet hcalls hstep.count_eq (fun j hjob => h.units_eq hstep hjob) (fun _ => id)
    (fun job hjob => ?_) fun t hmem job n hjob hclear => ?_
  · refine (h.final job hjob).step hstep (fun t => hsubmit t job) ?_
    rintro i time - hi hphase
    exact (h.final job hjob).units i hi (by rw [hphase]; rfl)
  · refine hclear.step hstep (fun t => hsubmit t job) ?_
    rintro i time rfl - hphase
    exact hok job time hphase t hmem hjob

end Sound

theorem mem_owed_revoke [DecidableEq α] {t' : Thread} (hne : t' ≠ t)
    (hmem : t' ∈ if s.pool.Executes t job then s.owed.filter fun t' => t' ≠ t else t :: s.owed) :
    t' ∈ s.owed := by
  split_ifs at hmem
  · exact List.mem_of_mem_filter hmem
  · exact (List.mem_cons.mp hmem).resolve_left hne

theorem not_executes_of_mem [DecidableEq α]
    (hmem : t ∈ if s.pool.Executes t job then s.owed.filter fun t' => t' ≠ t else t :: s.owed) :
    ¬ s.pool.Executes t job := by
  split_ifs at hmem with hexecutes
  · simp at hmem
  · exact hexecutes

theorem sound_step [DecidableEq α] {s' : Watched α} {a : Action α} (h : s.Sound)
    (hok : s.LooksThrough a) (hstep : s.Step a s') : s'.Sound := by
  obtain ⟨pool, hstep, rfl⟩ := hstep
  have hstep' := hstep
  cases hstep with
  | @submit t job queue hready hoffer =>
    refine h.quiet rfl rfl (fun _ _ => rfl) (fun _ => List.mem_of_mem_filter) ?_ ?_
    · intro job' hjob'
      obtain ⟨hmem, hne⟩ := List.mem_filter.mp hjob'
      refine (h.final job' hmem).step hstep' ?_ nofun
      rintro t' ⟨⟩
      simp at hne
    · intro t' hmem job' n hjob' hclear
      obtain ⟨-, hne⟩ := List.mem_filter.mp hmem
      refine hclear.step hstep' ?_ nofun
      rintro t'' ⟨⟩
      simp [hjob'] at hne
  | @revokeQueued t job queue hready hremove =>
    obtain ⟨hmem, hqueue⟩ := QueueType.remove_found hremove
    refine (h.remove hremove).setCall_returned errorNone (fun t' => mem_owed_revoke) fun howed => ?_
    obtain ⟨-, hcount, hunits⟩ := hok (not_executes_of_mem howed) hmem
    refine ⟨?_, hunits⟩
    rw [hqueue, ← List.count_pos_iff, List.count_erase_self, hcount]
    exact Nat.lt_irrefl 0
  | @revokeMissed t job queue hready hremove =>
    refine Sound.settle ((h.remove hremove).setCall (fun t' => mem_owed_revoke) ?_ ?_ ?_) ?_
    · rintro i rfl -
      exact (hready.2 i rfl).2
    · rintro i job' rfl howed hjob hrequest
      obtain rfl := Option.some.inj hjob
      exact not_executes_of_mem howed ⟨i, rfl, hrequest⟩
    · rintro howed job' i (hcall | hcall)
      · obtain ⟨rfl, rfl⟩ := Call.scanning.inj hcall
        refine ⟨fun hmem => ?_, fun k hk => absurd hk (Nat.not_lt_zero k)⟩
        have hold := QueueType.mem_remove hremove hmem
        exact (hok (not_executes_of_mem howed) hold).1 (QueueType.remove_missed hremove hold)
      · exact absurd hcall nofun
    · intro r hcall
      simp at hcall
  | @lookOwn i job hcall hi =>
    have hjob : (s.pool.calls (.unit i)).job = some job := by rw [hcall]; rfl
    rw [watch_look _ hjob]
    refine h.setCall_returned errorNone (fun t' _ => id) fun howed => ?_
    have hswept := h.swept _ howed job i (.inl hcall)
    refine ⟨hswept.queue, fun k hk => ?_⟩
    rcases Nat.lt_trichotomy k i with hlt | rfl | hgt
    · exact hswept.units k hlt
    · exact h.foreign k job howed hjob
    · exact hok howed i job rfl hcall k hk hgt
  | @lookPast t i job hcall hi hown hlock hother =>
    have hjob : (s.pool.calls t).job = some job := by rw [hcall]; rfl
    rw [watch_look _ hjob]
    refine (h.setCall (fun t' _ => id) ?_ ?_ ?_).settle ?_
    · rintro j rfl -
      exact h.inside j (by rw [hjob]; nofun)
    · rintro j job' rfl howed hcall'
      exact h.foreign j job' howed (hjob.trans hcall')
    · rintro howed job' j (hcall' | hcall')
      · obtain ⟨rfl, rfl⟩ := Call.scanning.inj hcall'
        have hswept := h.swept t howed job i (.inl hcall)
        refine ⟨hswept.queue, fun k hk => ?_⟩
        rcases Nat.lt_succ_iff_lt_or_eq.mp hk with hlt | rfl
        · exact hswept.units k hlt
        · exact hother
      · exact absurd hcall' nofun
    · intro r hcall'
      simp at hcall'
  | @lookWait t i job hcall hi hown hrequest =>
    have hjob : (s.pool.calls t).job = some job := by rw [hcall]; rfl
    rw [watch_look _ hjob]
    refine ((h.interest _).setCall (fun t' _ => id) ?_ ?_ ?_).settle ?_
    · rintro j rfl -
      exact h.inside j (by rw [hjob]; nofun)
    · rintro j job' rfl howed hcall'
      exact h.foreign j job' howed (hjob.trans hcall')
    · rintro howed job' j (hcall' | hcall')
      · exact absurd hcall' nofun
      · obtain ⟨rfl, rfl⟩ := Call.waiting.inj hcall'
        have hswept := h.swept t howed job i (.inl hcall)
        exact ⟨hswept.queue, hswept.units⟩
    · intro r hcall'
      simp at hcall'
  | @lookEnd t i job hcall hend =>
    have hjob : (s.pool.calls t).job = some job := by rw [hcall]; rfl
    rw [watch_look _ hjob]
    refine h.setCall_returned errorUnknownKey (fun t' _ => id) fun howed => ?_
    have hswept := h.swept t howed job i (.inl hcall)
    exact ⟨hswept.queue, fun k hk => hswept.units k (by omega)⟩
  | @wake t i job hcall hsignal =>
    have hjob : (s.pool.calls t).job = some job := by rw [hcall]; rfl
    rw [watch_wake _ hjob]
    refine (h.interest _).setCall_returned errorNone (fun t' _ => id) fun howed => ?_
    have hswept := h.swept t howed job i (.inr hcall)
    refine ⟨hswept.queue, fun k hk => ?_⟩
    rcases Nat.lt_trichotomy k i with hlt | rfl | hgt
    · exact hswept.units k hlt
    · exact fun hrequest => absurd hrequest (by rw [hsignal]; nofun)
    · exact hok howed i job hcall k hk hgt
  | _ => exact h.minion hok hstep' nofun rfl

theorem sound_new (count queueSize : Nat) (marked : 0 < queueSize) :
    (⟨new count queueSize marked, [], []⟩ : Watched α).Sound :=
  ⟨fun _ hjob => absurd hjob List.not_mem_nil, fun _ hjob => absurd rfl hjob,
    fun _ _ howed => absurd howed List.not_mem_nil, fun _ howed => absurd howed List.not_mem_nil⟩

/-- In every run whose steps look through the pool, a job whose `Revoke` has returned is neither in the
queue nor with a minion until somebody submits it again. -/
theorem final_of_looksThrough [DecidableEq α] {count queueSize : Nat} (marked : 0 < queueSize)
    {s : Watched α} (h : Reach Step LooksThrough ⟨new count queueSize marked, [], []⟩ s) : s.Final :=
  (h.invariant (sound_new count queueSize marked)
    fun _ _ _ hsound hok hstep => sound_step hsound hok hstep).final

/-- A thread from outside waits for the second minion. -/
theorem final_two : ∃ s : Watched Nat,
    Reach Step LooksThrough ⟨new 2 2 (by decide), [], []⟩ s ∧ 7 ∈ s.revoked ∧ s.Final := by
  have hready : ∀ s : ThreadPool Nat, (s.calls (.other 0)).job = none → s.Ready (.other 0) :=
    fun _ hcall => ⟨hcall, nofun⟩
  have hreach : Reach Step LooksThrough (⟨new 2 2 (by decide), [], []⟩ : Watched Nat) _ :=
    Reach.start
    |>.step (a := .submit (.other 0) 7) trivial ⟨_, .submit (hready _ rfl) rfl, rfl⟩
    |>.step (a := .extract 1) trivial ⟨_, .extract (by decide) rfl rfl, rfl⟩
    |>.step (a := .dispatch 1 true) trivial ⟨_, .dispatch (by decide) rfl, rfl⟩
    |>.step (a := .revoke (.other 0) 7) (fun _ hmem => absurd hmem (by decide))
      ⟨_, .revokeMissed (hready _ rfl) rfl, rfl⟩
    |>.step (a := .look (.other 0)) (fun _ _ _ hown => absurd hown nofun)
      ⟨_, .lookPast rfl (by decide) nofun nofun nofun, rfl⟩
    |>.step (a := .look (.other 0)) (fun _ _ _ hown => absurd hown nofun)
      ⟨_, .lookWait rfl (by decide) nofun rfl, rfl⟩
    |>.step (a := .finish 1) trivial ⟨_, .finish (by decide) rfl rfl, rfl⟩
    |>.step (a := .resubmit 1 none) trivial ⟨_, .resubmitNone (by decide) rfl, rfl⟩
    |>.step (a := .release 1) trivial ⟨_, .release (by decide) rfl, rfl⟩
    |>.step (a := .wake (.other 0)) (by
        rintro - i job ⟨⟩ k hk hlt
        exact absurd hlt (Nat.not_lt.mpr (Nat.le_of_lt_succ hk)))
      ⟨_, .wake rfl rfl, rfl⟩
  exact ⟨_, hreach, by decide, final_of_looksThrough (by decide) hreach⟩

/-- The first minion runs another job and revokes the one that the second minion runs. -/
theorem not_final_two : ¬ ∀ s : Watched Nat,
    Reach Step (fun _ _ => True) ⟨new 2 2 (by decide), [], []⟩ s → s.Final := by
  intro h
  have hready : ∀ s : ThreadPool Nat, (s.calls (.other 0)).job = none → s.Ready (.other 0) :=
    fun _ hcall => ⟨hcall, nofun⟩
  have hreach : Reach Step (fun _ _ => True) (⟨new 2 2 (by decide), [], []⟩ : Watched Nat) _ :=
    Reach.start
    |>.step (a := .submit (.other 0) 7) trivial ⟨_, .submit (hready _ rfl) rfl, rfl⟩
    |>.step (a := .extract 1) trivial ⟨_, .extract (by decide) rfl rfl, rfl⟩
    |>.step (a := .dispatch 1 true) trivial ⟨_, .dispatch (by decide) rfl, rfl⟩
    |>.step (a := .submit (.other 0) 8) trivial ⟨_, .submit (hready _ rfl) rfl, rfl⟩
    |>.step (a := .extract 0) trivial ⟨_, .extract (by decide) rfl rfl, rfl⟩
    |>.step (a := .dispatch 0 true) trivial ⟨_, .dispatch (by decide) rfl, rfl⟩
    |>.step (a := .revoke (.unit 0) 7) trivial
      ⟨_, .revokeMissed ⟨rfl, by rintro i ⟨⟩; exact ⟨by decide, 8, rfl⟩⟩ rfl, rfl⟩
    |>.step (a := .look (.unit 0)) trivial ⟨_, .lookOwn rfl (by decide), rfl⟩
  have hgone := h _ hreach 7 (by decide)
  exact hgone.units 1 (by decide) rfl

end Watched

end Thunder.Core.ThreadPool
