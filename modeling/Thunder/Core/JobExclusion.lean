import Thunder.Library.Run
import Thunder.Core.JobType

/-! Mutual exclusion of a job.  A proxy of the job is a token: it lies in the timer's list, in the hand
of the timer or of a thread, in the queue or with a minion.  While no operation makes a second one,
one minion at most is inside the implementation. -/

namespace Thunder.Core.JobType

open Function Run Token

/-! ### Tokens -/

inductive Place
  | timed
  | hand
  | held (t : Thread)
  | queued
  | unit (i : Nat)
  deriving DecidableEq

/-- The thread has the proxy and is about to pass it on. -/
def Operation.holds : Operation → Bool
  | .post | .schedule _ => true
  | _ => false

@[simp] theorem holds_none : Operation.none.holds = false := rfl

@[simp] theorem holds_poolRevoke (time : Option Nat) : (Operation.poolRevoke time).holds = false :=
  rfl

@[simp] theorem holds_revoking (time : Option Nat) : (Operation.revoking time).holds = false := rfl

/-- The minion has the proxy; from the release on it is done with it. -/
def carries : ThreadPool.Phase Job → Bool
  | .extracted .this | .dispatching .this _ | .completing .this _ | .posting .this _ => true
  | _ => false

/-- How many proxies lie at a place. -/
def weight (s : JobType) : Place → Nat
  | .timed => s.timer.length
  | .hand => s.hand.toNat
  | .held t => (s.operations t).holds.toNat
  | .queued => s.pool.queue.queue.count .this
  | .unit i => (carries (s.pool.units i)).toNat

variable {s s' : JobType} {t : Thread} {operation : Operation} {i : Nat}

theorem weight_operation (h : operation.holds = (s.operations t).holds) (z : Place) :
    (s.setOperation t operation).weight z = s.weight z := by
  cases z with
  | held t' =>
    rcases eq_or_ne t' t with rfl | hne
    · simp [weight, setOperation, h]
    · simp [weight, setOperation, hne]
  | _ => rfl

/-! ### What the pool does to the job -/

/-- A phase follows another one without a move of the proxy. -/
def Follows (phase phase' : ThreadPool.Phase Job) : Prop :=
  phase' = phase ∨ (carries phase = false ∧ carries phase' = false) ∨
    ∃ entered, phase = .dispatching .this entered ∧ phase' = .completing .this 0

theorem Follows.carries_eq {phase phase' : ThreadPool.Phase Job} (h : Follows phase phase') :
    carries phase' = carries phase := by
  rcases h with rfl | ⟨h, h'⟩ | ⟨entered, rfl, rfl⟩
  · rfl
  · rw [h, h']
  · rfl

/-- A step of the pool that is not the job's own: the proxy stays, a minion extracts it, or a minion
posts it again. -/
inductive Effect (p p' : ThreadPool Job) : Prop
  | stays (hcount : p'.queue.queue.count .this = p.queue.queue.count .this)
      (hunits : ∀ j, Follows (p.units j) (p'.units j))
  | extracted (i : Nat) (hcount : p'.queue.queue.count .this + 1 = p.queue.queue.count .this)
      (hphase : p.units i = .waiting) (hunits : p'.units = update p.units i (.extracted .this))
  | reposted (i : Nat) (time : Option Nat)
      (hcount : p'.queue.queue.count .this = p.queue.queue.count .this + 1)
      (hphase : p.units i = .posting .this time)
      (hunits : p'.units = update p.units i (.releasing .this))

theorem follows_update {units : Nat → ThreadPool.Phase Job} {phase : ThreadPool.Phase Job}
    (h : Follows (units i) phase) (j : Nat) : Follows (units j) (update units i phase j) := by
  rcases eq_or_ne j i with rfl | hne
  · rwa [update_self]
  · rw [update_of_ne hne]
    exact .inl rfl

theorem other_ne (k : Nat) : Job.other k ≠ .this := nofun

/-- A minion moves on with a request of somebody else. -/
theorem follows_other {phase phase' : ThreadPool.Phase Job} {job : Job} (hjob : job ≠ .this)
    (h : phase.currentRequest = some job) (h' : phase'.currentRequest = some job) :
    Follows phase phase' := by
  have hcarries : ∀ {phase : ThreadPool.Phase Job}, phase.currentRequest = some job →
      carries phase = false := by
    intro phase hphase
    cases job with
    | this => exact absurd rfl hjob
    | other k =>
      cases phase with
      | waiting | signalling | releasing => rfl
      | extracted | dispatching | completing | posting =>
        obtain rfl := Option.some.inj hphase
        rfl
  exact .inr (.inl ⟨hcarries h, hcarries h'⟩)

theorem foreign_effect {a : ThreadPool.Action Job} {pool : ThreadPool Job}
    (henabled : s.pool.queue.state ≠ .disabled) (hforeign : s.Foreign a)
    (hstep : s.pool.Step a pool) :
    pool.queue.state ≠ .disabled ∧ Effect s.pool pool := by
  cases hstep with
  | @submit t job queue hready hoffer =>
    obtain ⟨hqueue, hafter⟩ := ThreadPool.offer_enabled hoffer henabled
    refine ⟨hafter, .stays ?_ fun j => .inl rfl⟩
    dsimp only
    rw [hqueue, List.count_append, List.count_singleton]
    simp [hforeign.1]
  | revokeQueued hready hremove | revokeMissed hready hremove =>
    obtain ⟨hqueue, hafter⟩ := QueueType.remove_enabled henabled hremove
    refine ⟨hafter, .stays ?_ fun j => .inl rfl⟩
    dsimp only [ThreadPool.setCall_queue]
    rw [hqueue, List.count_erase_of_ne (Ne.symm hforeign.1)]
  | lookOwn | lookPast | lookWait | lookEnd | wake =>
    exact ⟨henabled, .stays rfl fun j => .inl rfl⟩
  | @extract i job queue hi hphase hextract =>
    have hqueue := QueueType.extract_received hextract rfl
    refine ⟨QueueType.extract_enabled hextract, ?_⟩
    cases job with
    | this =>
      refine .extracted i ?_ hphase rfl
      rw [hqueue, List.count_cons_self]
      rfl
    | other k =>
      refine .stays ?_ (follows_update (.inr (.inl ⟨by rw [hphase]; rfl, rfl⟩)))
      rw [hqueue, List.count_cons_of_ne (other_ne k)]
      rfl
  | @dispatch i job entered hi hphase =>
    have hjob : job ≠ .this := by
      rintro rfl
      exact hforeign.1 hphase
    exact ⟨henabled, .stays rfl (follows_update (follows_other hjob (by rw [hphase]; rfl) rfl))⟩
  | @finish i job entered hi hphase hcall =>
    refine ⟨henabled, .stays rfl (follows_update ?_)⟩
    cases job with
    | this => exact .inr (.inr ⟨entered, hphase, rfl⟩)
    | other k => exact follows_other (other_ne k) (by rw [hphase]; rfl) rfl
  | attempt hi hphase | resubmitNone hi hphase | resubmitSome hi hphase
  | reschedule hi hphase =>
    refine ⟨henabled, .stays rfl (follows_update (follows_other ?_ (by rw [hphase]; rfl) rfl))⟩
    exact fun heq => hforeign _ (heq ▸ hphase)
  | @repost i job time hi hphase =>
    obtain ⟨hqueue, hafter⟩ := QueueType.post_enabled job henabled
    refine ⟨hafter, ?_⟩
    cases job with
    | this =>
      refine .reposted i time ?_ hphase rfl
      dsimp only [ThreadPool.setUnit_queue]
      rw [hqueue, List.count_append, List.count_singleton_self]
    | other k =>
      refine .stays ?_ (follows_update (follows_other (other_ne k) (by rw [hphase]; rfl) rfl))
      dsimp only [ThreadPool.setUnit_queue]
      rw [hqueue, List.count_append, List.count_singleton]
      simp
  | release hi hphase | reset hi hphase =>
    refine ⟨henabled, .stays rfl (follows_update (.inr (.inl ⟨?_, rfl⟩)))⟩
    rw [hphase]
    rfl
  | stop => exact hforeign.elim

/-- The job is put into the queue. -/
theorem submit_effect {p p' : ThreadPool Job} (henabled : p.queue.state ≠ .disabled)
    (hstep : p.Step (.submit t .this) p') :
    p'.queue.state ≠ .disabled ∧
      p'.queue.queue.count .this = p.queue.queue.count .this + 1 ∧ p'.units = p.units := by
  cases hstep with
  | submit hready hoffer =>
    obtain ⟨hqueue, hafter⟩ := ThreadPool.offer_enabled hoffer henabled
    refine ⟨hafter, ?_, rfl⟩
    dsimp only
    rw [hqueue, List.count_append, List.count_singleton_self]

/-- The job is taken out of the queue, when it is there. -/
theorem revoke_effect {p p' : ThreadPool Job} (henabled : p.queue.state ≠ .disabled)
    (hstep : p.Step (.revoke t .this) p') :
    p'.queue.state ≠ .disabled ∧
      p'.queue.queue.count .this = p.queue.queue.count .this - 1 ∧ p'.units = p.units := by
  cases hstep with
  | revokeQueued hready hremove | revokeMissed hready hremove =>
    obtain ⟨hqueue, hafter⟩ := QueueType.remove_enabled henabled hremove
    refine ⟨hafter, ?_, rfl⟩
    rw [ThreadPool.setCall_queue, hqueue, List.count_erase_self]

theorem dispatch_effect {p p' : ThreadPool Job} {entered : Bool}
    (hphase : p.units i = .extracted .this) (hstep : p.Step (.dispatch i entered) p') :
    p'.queue = p.queue ∧ p'.units = update p.units i (.dispatching .this entered) := by
  cases hstep with
  | dispatch hi hphase' =>
    obtain rfl := ThreadPool.Phase.extracted.inj (hphase.symm.trans hphase')
    exact ⟨rfl, rfl⟩

theorem attempt_effect {p p' : ThreadPool Job} {k : Nat}
    (hphase : p.units i = .completing .this k) (hstep : p.Step (.attempt i) p') :
    p'.queue = p.queue ∧ p'.units = update p.units i (.completing .this (k + 1)) := by
  cases hstep with
  | attempt hi hphase' =>
    obtain ⟨rfl, rfl⟩ := ThreadPool.Phase.completing.inj (hphase.symm.trans hphase')
    exact ⟨rfl, rfl⟩

theorem resubmit_effect {p p' : ThreadPool Job} {k : Nat} {outcome : Option (Option Nat)}
    (hphase : p.units i = .completing .this k) (hstep : p.Step (.resubmit i outcome) p') :
    p'.queue = p.queue ∧ p'.units = update p.units i
      (match outcome with
        | none => .releasing .this
        | some time => .posting .this time) := by
  cases hstep with
  | resubmitNone hi hphase' | resubmitSome hi hphase' =>
    obtain ⟨rfl, rfl⟩ := ThreadPool.Phase.completing.inj (hphase.symm.trans hphase')
    exact ⟨rfl, rfl⟩

theorem reschedule_effect {p p' : ThreadPool Job} {time : Option Nat}
    (hphase : p.units i = .posting .this time) (hstep : p.Step (.reschedule i) p') :
    p'.queue = p.queue ∧ p'.units = update p.units i (.releasing .this) := by
  cases hstep with
  | reschedule hi hphase' =>
    obtain ⟨rfl, -⟩ := ThreadPool.Phase.posting.inj (hphase.symm.trans hphase')
    exact ⟨rfl, rfl⟩

/-! ### How tokens move -/

theorem weight_stays {pool : ThreadPool Job}
    (hcount : pool.queue.queue.count .this = s.pool.queue.queue.count .this)
    (hunits : ∀ j, Follows (s.pool.units j) (pool.units j)) (state : State) (z : Place) :
    ({ s with pool := pool, state := state } : JobType).weight z = s.weight z := by
  cases z with
  | queued => exact hcount
  | unit j => exact congrArg Bool.toNat (hunits j).carries_eq
  | _ => rfl

theorem moves_extracted {pool : ThreadPool Job}
    (hcount : pool.queue.queue.count .this + 1 = s.pool.queue.queue.count .this)
    (hphase : s.pool.units i = .waiting)
    (hunits : pool.units = update s.pool.units i (.extracted .this)) :
    Moves s.weight ({ s with pool := pool } : JobType).weight .queued (.unit i) := by
  refine ⟨hcount, by simp [weight, hphase, hunits, carries], fun z hz hz' => ?_⟩
  cases z with
  | queued => exact absurd rfl hz
  | unit j =>
    have hne : j ≠ i := fun heq => hz' (congrArg _ heq)
    simp [weight, hunits, hne]
  | _ => rfl

theorem moves_reposted {pool : ThreadPool Job} {time : Option Nat}
    (hcount : pool.queue.queue.count .this = s.pool.queue.queue.count .this + 1)
    (hphase : s.pool.units i = .posting .this time)
    (hunits : pool.units = update s.pool.units i (.releasing .this)) :
    Moves s.weight ({ s with pool := pool } : JobType).weight (.unit i) .queued := by
  refine ⟨by simp [weight, hphase, hunits, carries], hcount, fun z hz hz' => ?_⟩
  cases z with
  | queued => exact absurd rfl hz'
  | unit j =>
    have hne : j ≠ i := fun heq => hz (congrArg _ heq)
    simp [weight, hunits, hne]
  | _ => rfl

theorem appears_made {state : State} (hop : (s.operations t).holds = false)
    (hholds : operation.holds = true) :
    Appears s.weight (({ s with state := state } : JobType).setOperation t operation).weight
      (.held t) := by
  refine ⟨by simp [weight, setOperation, hop, hholds], fun z hz => ?_⟩
  cases z with
  | held t' =>
    have hne : t' ≠ t := fun heq => hz (congrArg _ heq)
    simp [weight, setOperation, hne]
  | _ => rfl

theorem moves_posted {pool : ThreadPool Job} (hop : (s.operations t).holds = true)
    (hcount : pool.queue.queue.count .this = s.pool.queue.queue.count .this + 1)
    (hunits : pool.units = s.pool.units) :
    Moves s.weight (({ s with pool := pool } : JobType).setOperation t .none).weight (.held t)
      .queued := by
  refine ⟨by simp [weight, setOperation, hop], hcount, fun z hz hz' => ?_⟩
  cases z with
  | held t' =>
    have hne : t' ≠ t := fun heq => hz (congrArg _ heq)
    simp [weight, setOperation, hne]
  | queued => exact absurd rfl hz'
  | unit j => simp [weight, setOperation, hunits]
  | _ => rfl

theorem moves_scheduled (hop : (s.operations t).holds = true) (time : Nat) :
    Moves s.weight
      (({ s with timer := insertTime time s.timer } : JobType).setOperation t .none).weight
      (.held t) .timed := by
  refine ⟨by simp [weight, setOperation, hop], by simp [weight, setOperation],
    fun z hz hz' => ?_⟩
  cases z with
  | held t' =>
    have hne : t' ≠ t := fun heq => hz (congrArg _ heq)
    simp [weight, setOperation, hne]
  | timed => exact absurd rfl hz'
  | _ => rfl

/-- A minion goes on with the proxy, or is done with it. -/
theorem weight_unit {pool : ThreadPool Job} {phase : ThreadPool.Phase Job}
    (hqueue : pool.queue = s.pool.queue) (hunits : pool.units = update s.pool.units i phase)
    (state : State) (z : Place) :
    ({ s with pool := pool, state := state } : JobType).weight z =
      if z = .unit i then (carries phase).toNat else s.weight z := by
  cases z with
  | queued => simp [weight, hqueue]
  | unit j =>
    rcases eq_or_ne j i with rfl | hne
    · simp [weight, hunits]
    · simp [weight, hunits, hne]
  | _ => rfl

theorem weight_unit_le {pool : ThreadPool Job} {phase : ThreadPool.Phase Job}
    (hcarries : carries (s.pool.units i) = true) (hqueue : pool.queue = s.pool.queue)
    (hunits : pool.units = update s.pool.units i phase) (state : State) (z : Place) :
    ({ s with pool := pool, state := state } : JobType).weight z ≤ s.weight z := by
  rw [weight_unit hqueue hunits]
  split_ifs with hz
  · rw [hz, weight, hcarries]
    exact Bool.toNat_le _
  · exact Nat.le_refl _

theorem moves_rescheduled {pool : ThreadPool Job} {time time' : Nat}
    (hphase : s.pool.units i = .posting .this (some time'))
    (hqueue : pool.queue = s.pool.queue)
    (hunits : pool.units = update s.pool.units i (.releasing .this)) :
    Moves s.weight
      ({ s with pool := pool, timer := insertTime time s.timer } : JobType).weight (.unit i)
      .timed := by
  refine ⟨by simp [weight, hphase, hunits, carries], by simp [weight], fun z hz hz' => ?_⟩
  cases z with
  | timed => exact absurd rfl hz'
  | queued => simp [weight, hqueue]
  | unit j =>
    have hne : j ≠ i := fun heq => hz (congrArg _ heq)
    simp [weight, hunits, hne]
  | _ => rfl

theorem moves_fired {time : Nat} {rest : List Nat} (hhand : s.hand = false)
    (htimer : s.timer = time :: rest) :
    Moves s.weight ({ s with timer := rest, hand := true } : JobType).weight .timed .hand := by
  refine ⟨by simp [weight, htimer], by simp [weight, hhand], fun z hz hz' => ?_⟩
  cases z with
  | timed => exact absurd rfl hz
  | hand => exact absurd rfl hz'
  | _ => rfl

theorem moves_delivered {pool : ThreadPool Job} (hhand : s.hand = true)
    (hcount : pool.queue.queue.count .this = s.pool.queue.queue.count .this + 1)
    (hunits : pool.units = s.pool.units) :
    Moves s.weight ({ s with pool := pool, hand := false } : JobType).weight .hand .queued := by
  refine ⟨by simp [weight, hhand], hcount, fun z hz hz' => ?_⟩
  cases z with
  | hand => exact absurd rfl hz
  | queued => exact absurd rfl hz'
  | unit j => simp [weight, hunits]
  | _ => rfl

theorem weight_timerRevoke (time : Option Nat) (hop : (s.operations t).holds = false) (z : Place) :
    (({ s with timer := [] } : JobType).setOperation t (.poolRevoke time)).weight z =
      if z = .timed then 0 else s.weight z := by
  cases z with
  | held t' =>
    rcases eq_or_ne t' t with rfl | hne
    · simp [weight, setOperation, hop]
    · simp [weight, setOperation, hne]
  | _ => rfl

theorem weight_poolRevoke {pool : ThreadPool Job} (time : Option Nat)
    (hop : (s.operations t).holds = false)
    (hcount : pool.queue.queue.count .this = s.pool.queue.queue.count .this - 1)
    (hunits : pool.units = s.pool.units) (z : Place) :
    (({ s with pool := pool } : JobType).setOperation t (.revoking time)).weight z =
      if z = .queued then s.weight z - 1 else s.weight z := by
  cases z with
  | held t' =>
    rcases eq_or_ne t' t with rfl | hne
    · simp [weight, setOperation, hop]
    · simp [weight, setOperation, hne]
  | queued => exact hcount
  | unit j => simp [weight, setOperation, hunits]
  | _ => rfl

/-! ### One token -/

/-- An operation that makes a proxy, should its exchange succeed. -/
def Operation.makes : Operation → Bool
  | .submit k => 2 ≤ k
  | .idle _ => true
  | _ => false

/-- No operation makes a proxy of the job while there is still one. -/
def MakesFirst (s : JobType) : Action → Prop
  | .proceed t => s.state = .idle → (s.operations t).makes = true → ∀ z, s.weight z = 0
  | _ => True

theorem Advances.holds {state state' : State} {op op' : Operation}
    (h : Advances state op state' op') :
    op.holds = false ∧ (op'.holds = false ∨
      (op'.holds = true ∧ state = .idle ∧ op.makes = true ∧ state' = .submitted)) := by
  have hafter : ∀ time, (afterRevoke time).holds = false := by
    intro time
    cases time <;> rfl
  cases h with
  | submitMiss hop | rescheduleMiss hop => exact ⟨rfl, .inl (by rcases hop with rfl | rfl <;> rfl)⟩
  | submitMake hk hstate => exact ⟨rfl, .inr ⟨rfl, hstate, decide_eq_true hk, rfl⟩⟩
  | idleMake hstate => exact ⟨rfl, .inr ⟨rfl, hstate, rfl, rfl⟩⟩
  | requiredEnd | revokedHit | revokedMiss => exact ⟨rfl, .inl (hafter _)⟩
  | submitHit | rescheduleHit | rescheduleTake | requiredHit | requiredMiss | idleMiss =>
    exact ⟨rfl, .inl rfl⟩

/-- One step keeps the token alone, and the queue enabled. -/
theorem lone_step {a : Action} (h : Lone s.weight) (henabled : s.pool.queue.state ≠ .disabled)
    (hok : s.MakesFirst a) (hstep : s.Step a s') :
    Lone s'.weight ∧ s'.pool.queue.state ≠ .disabled := by
  cases hstep with
  | pool hforeign hstep =>
    obtain ⟨hafter, heffect⟩ := foreign_effect henabled hforeign hstep
    refine ⟨?_, hafter⟩
    cases heffect with
    | stays hcount hunits =>
      exact h.of_le fun z => Nat.le_of_eq (weight_stays hcount hunits s.state z)
    | extracted i hcount hphase hunits =>
      exact h.moves (moves_extracted hcount hphase hunits) nofun
    | reposted i time hcount hphase hunits =>
      exact h.moves (moves_reposted hcount hphase hunits) nofun
  | begin hready hnone hbegin =>
    refine ⟨h.of_le fun z => Nat.le_of_eq (weight_operation ?_ z), henabled⟩
    rw [hnone]
    rcases hbegin with rfl | ⟨time, rfl⟩ | rfl <;> rfl
  | advance hadvance =>
    refine ⟨?_, henabled⟩
    obtain ⟨hop, hop' | ⟨hop', hstate, hmakes, -⟩⟩ := (advance_cases hadvance).holds
    · exact h.of_le fun z => Nat.le_of_eq
        ((weight_operation (s := { s with state := _ }) (hop'.trans hop.symm) z))
    · exact Lone.appears (hok hstate hmakes) (appears_made hop hop')
  | setTime hop =>
    refine ⟨h.of_le fun z => Nat.le_of_eq ?_, henabled⟩
    exact weight_operation (s := { s with time := _ }) (by rw [show _ = _ from hop]; rfl) z
  | post hop hstep =>
    obtain ⟨hafter, hcount, hunits⟩ := submit_effect henabled hstep
    exact ⟨h.moves (moves_posted (by rw [hop]; rfl) hcount hunits) nofun, hafter⟩
  | timerRevoke hop =>
    refine ⟨h.of_le fun z => ?_, henabled⟩
    rw [weight_timerRevoke _ (by rw [hop]; rfl)]
    split_ifs
    · exact Nat.zero_le _
    · exact Nat.le_refl _
  | poolRevoke hop hstep =>
    obtain ⟨hafter, hcount, hunits⟩ := revoke_effect henabled hstep
    refine ⟨h.of_le fun z => ?_, hafter⟩
    rw [weight_poolRevoke _ (by rw [hop]; rfl) hcount hunits]
    split_ifs
    · exact Nat.sub_le _ _
    · exact Nat.le_refl _
  | revoking hop hcall =>
    exact ⟨h.of_le fun z => Nat.le_of_eq (weight_operation (by rw [hop]; rfl) z), henabled⟩
  | scheduleTimer hop => exact ⟨h.moves (moves_scheduled (by rw [hop]; rfl) _) nofun, henabled⟩
  | scheduleSubmit hop hstep =>
    obtain ⟨hafter, hcount, hunits⟩ := submit_effect henabled hstep
    exact ⟨h.moves (moves_posted (by rw [hop]; rfl) hcount hunits) nofun, hafter⟩
  | dispatch hphase hstep =>
    obtain ⟨hqueue, hunits⟩ := dispatch_effect hphase hstep
    refine ⟨h.of_le (weight_unit_le (by rw [hphase]; rfl) hqueue hunits _), ?_⟩
    dsimp only
    rwa [hqueue]
  | @exchange i k pool hphase hstep =>
    have hcarries : carries (s.pool.units i) = true := by rw [hphase]; rfl
    obtain ⟨phase, hqueue, hunits⟩ : ∃ phase, pool.queue = s.pool.queue ∧
        pool.units = update s.pool.units i phase := by
      rcases complete_cases s.state s.time i k with ⟨-, -, heq⟩ | ⟨-, -, heq⟩ | ⟨-, -, time, heq⟩ |
        ⟨-, -, heq⟩ <;> rw [heq] at hstep
      · exact ⟨_, resubmit_effect hphase hstep⟩
      · exact ⟨_, attempt_effect hphase hstep⟩
      · exact ⟨_, resubmit_effect hphase hstep⟩
      · exact ⟨_, resubmit_effect hphase hstep⟩
    refine ⟨h.of_le (weight_unit_le hcarries hqueue hunits _), ?_⟩
    dsimp only
    rwa [hqueue]
  | reschedule hphase hstep =>
    obtain ⟨hqueue, hunits⟩ := reschedule_effect hphase hstep
    refine ⟨h.moves (moves_rescheduled hphase hqueue hunits) nofun, ?_⟩
    dsimp only
    rwa [hqueue]
  | fire hhand htimer => exact ⟨h.moves (moves_fired hhand htimer) nofun, henabled⟩
  | deliver hhand hstep =>
    obtain ⟨hafter, hcount, hunits⟩ := submit_effect henabled hstep
    exact ⟨h.moves (moves_delivered hhand hcount hunits) nofun, hafter⟩

/-- At most one minion is inside the implementation. -/
def Exclusive (s : JobType) : Prop :=
  ∀ i j, s.pool.units i = .dispatching .this true → s.pool.units j = .dispatching .this true → i = j

theorem exclusive_of_lone (h : Lone s.weight) : s.Exclusive := by
  intro i j hi hj
  have hat : ∀ k, s.pool.units k = .dispatching .this true → 0 < s.weight (.unit k) := by
    intro k hk
    simp [weight, hk, carries]
  exact Place.unit.inj (h.single _ _ (hat i hi) (hat j hj))

theorem weight_new (count queueSize : Nat) (marked : 0 < queueSize) (z : Place) :
    (new count queueSize marked).weight z = 0 := by
  cases z <;> rfl

theorem lone_of_makesFirst {count queueSize : Nat} (marked : 0 < queueSize)
    (h : Reach Step MakesFirst (new count queueSize marked) s) :
    Lone s.weight ∧ s.pool.queue.state ≠ .disabled :=
  h.invariant ⟨Lone.zero (weight_new count queueSize marked), nofun⟩
    fun _ _ _ hinv hok hstep => lone_step hinv.1 hinv.2 hok hstep

/-- In every run in which no operation makes a second proxy, one minion at most is inside the
implementation of the job. -/
theorem exclusive_of_makesFirst {count queueSize : Nat} (marked : 0 < queueSize)
    (h : Reach Step MakesFirst (new count queueSize marked) s) : s.Exclusive :=
  exclusive_of_lone (lone_of_makesFirst marked h).1

/-- One minion of three runs the job. -/
theorem exclusive_three : ∃ s : JobType,
    Reach Step MakesFirst (new 3 2 (by decide)) s ∧ s.pool.units 1 = .dispatching .this true ∧
      s.Exclusive := by
  have hready : ∀ s : JobType, (s.pool.calls (.other 0)).job = none → s.pool.Ready (.other 0) :=
    fun _ hcall => ⟨hcall, nofun⟩
  have hreach : Reach Step MakesFirst (new 3 2 (by decide)) _ :=
    Reach.start
    |>.step (a := .begin (.other 0)) trivial (.begin (hready _ rfl) rfl (.inl rfl))
    |>.step (a := .proceed (.other 0)) (fun _ hmakes => absurd hmakes (by decide)) (.advance rfl)
    |>.step (a := .proceed (.other 0)) (fun _ hmakes => absurd hmakes (by decide)) (.advance rfl)
    |>.step (a := .proceed (.other 0)) (by
        intro _ _ z
        cases z with
        | held t =>
          rcases eq_or_ne t (.other 0) with rfl | hne
          · rfl
          · simp [weight, setOperation, new, hne]
        | _ => rfl) (.advance rfl)
    |>.step (a := .proceed (.other 0)) (fun hidle => absurd hidle (by decide))
      (.post rfl (.submit (hready _ rfl) rfl))
    |>.step (a := .pool (.extract 1)) trivial (.pool trivial (.extract (by decide) rfl rfl))
    |>.step (a := .dispatch 1) trivial (.dispatch rfl (.dispatch (by decide) rfl))
  exact ⟨_, hreach, rfl, exclusive_of_makesFirst (by decide) hreach⟩

/-- The first minion runs another job and revokes this one while the second minion is inside; its
`Revoke` returns, the job is submitted again and the third minion enters as well. -/
theorem not_exclusive_three : ¬ ∀ s : JobType,
    Reach Step (fun _ _ => True) (new 3 2 (by decide)) s → s.Exclusive := by
  intro h
  have hready : ∀ s : JobType, (s.pool.calls (.other 0)).job = none → s.pool.Ready (.other 0) :=
    fun _ hcall => ⟨hcall, nofun⟩
  have hinside : ∀ s : JobType, (s.pool.calls (.unit 0)).job = none → 0 < s.pool.count →
      s.pool.units 0 = .dispatching (.other 0) true → s.pool.Ready (.unit 0) := by
    rintro s hcall hcount hphase
    refine ⟨hcall, ?_⟩
    rintro i ⟨⟩
    exact ⟨hcount, _, hphase⟩
  have hreach : Reach Step (fun _ _ => True) (new 3 2 (by decide)) _ :=
    Reach.start
    |>.step (a := .begin (.other 0)) trivial (.begin (hready _ rfl) rfl (.inl rfl))
    |>.step (a := .proceed (.other 0)) trivial (.advance rfl)
    |>.step (a := .proceed (.other 0)) trivial (.advance rfl)
    |>.step (a := .proceed (.other 0)) trivial (.advance rfl)
    |>.step (a := .proceed (.other 0)) trivial (.post rfl (.submit (hready _ rfl) rfl))
    |>.step (a := .pool (.extract 1)) trivial (.pool trivial (.extract (by decide) rfl rfl))
    |>.step (a := .dispatch 1) trivial (.dispatch rfl (.dispatch (by decide) rfl))
    |>.step (a := .pool (.submit (.other 0) (.other 0))) trivial
      (.pool ⟨nofun, rfl⟩ (.submit (hready _ rfl) rfl))
    |>.step (a := .pool (.extract 0)) trivial (.pool trivial (.extract (by decide) rfl rfl))
    |>.step (a := .pool (.dispatch 0 true)) trivial
      (.pool ⟨nofun, rfl⟩ (.dispatch (by decide) rfl))
    |>.step (a := .begin (.unit 0)) trivial
      (.begin (hinside _ rfl (by decide) rfl) rfl (.inr (.inr rfl)))
    |>.step (a := .proceed (.unit 0)) trivial (.advance rfl)
    |>.step (a := .proceed (.unit 0)) trivial (.advance rfl)
    |>.step (a := .proceed (.unit 0)) trivial (.advance rfl)
    |>.step (a := .proceed (.unit 0)) trivial (.timerRevoke rfl)
    |>.step (a := .proceed (.unit 0)) trivial
      (.poolRevoke rfl (.revokeMissed (hinside _ rfl (by decide) rfl) rfl))
    |>.step (a := .pool (.look (.unit 0))) trivial (.pool trivial (.lookOwn rfl (by decide)))
    |>.step (a := .proceed (.unit 0)) trivial (.revoking rfl rfl)
    |>.step (a := .proceed (.unit 0)) trivial (.advance rfl)
    |>.step (a := .begin (.unit 0)) trivial (.begin (hinside _ rfl (by decide) rfl) rfl (.inl rfl))
    |>.step (a := .proceed (.unit 0)) trivial (.advance rfl)
    |>.step (a := .proceed (.unit 0)) trivial (.advance rfl)
    |>.step (a := .proceed (.unit 0)) trivial (.advance rfl)
    |>.step (a := .proceed (.unit 0)) trivial
      (.post rfl (.submit (hinside _ rfl (by decide) rfl) rfl))
    |>.step (a := .pool (.extract 2)) trivial (.pool trivial (.extract (by decide) rfl rfl))
    |>.step (a := .dispatch 2) trivial (.dispatch rfl (.dispatch (by decide) rfl))
  exact absurd (h _ hreach 1 2 rfl rfl) (by decide)

end Thunder.Core.JobType
