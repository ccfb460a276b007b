import Mathlib.Data.Prod.Lex
import Thunder.Core.JobKept

/-! A job that has been submitted is run.  Whoever has the proxy passes it on, each time with less of
its way to the implementation left; a run in which nobody keeps the proxy for ever comes to an
execution, unless a `Revoke` takes the job or `Reschedule` puts it off time and again. -/

namespace Thunder.Core.JobType

open Function Run Token

variable {s s' : JobType} {t : Thread} {operation : Operation} {i : Nat} {z : Place}

/-! ### The way of the proxy -/

/-- An execution of the job is due. -/
def Due (s : JobType) : Prop :=
  s.state = .submitted ∨ s.state = .resubmit ∨ s.state = .schedule

/-- A minion enters the implementation. -/
def Executes (s s' : JobType) : Prop :=
  ∃ i, s.pool.units i ≠ .dispatching .this true ∧ s'.pool.units i = .dispatching .this true

/-- `RevokeRequired` succeeds, or a `Revoke` takes the proxy out of the timer's list or the queue. -/
def Revokes (s s' : JobType) : Prop :=
  (s.state ≠ .revoking ∧ s'.state = .revoking) ∨ (s'.present < s.present ∧
    ∃ t time, s.operations t = .timerRevoke time ∧ s'.operations t = .poolRevoke time ∨
      s.operations t = .poolRevoke time ∧ s'.operations t = .revoking time)

/-- `Reschedule` takes the job to put it off. -/
def Takes (s s' : JobType) : Prop := s.state = .submitted ∧ s'.state = .schedule

/-- The action is the next step of whoever has a proxy at the place. -/
def Serves : Action → Place → Prop
  | .proceed t, .held t' => t' = t
  | .fire, .timed | .deliver, .hand | .pool (.extract _), .queued => True
  | .dispatch i, .unit j | .pool (.finish i), .unit j | .exchange i, .unit j
  | .pool (.repost i), .unit j | .reschedule i, .unit j => j = i
  | _, _ => False

/-- How far the places are from the implementation. -/
def distance (s : JobType) : Place → Nat
  | .held _ => 8
  | .timed => 7
  | .hand => 6
  | .queued => 5
  | .unit i =>
    match s.pool.units i with
    | .posting _ _ => 9
    | .extracted _ => 4
    | .dispatching _ _ => 3
    | .completing _ k => 2 - k
    | _ => 0

/-- How many entries are in front of the proxy. -/
def ahead (s : JobType) : Place → Nat
  | .queued => s.pool.queue.queue.idxOf .this
  | _ => 0

/-- What is left of the way; a job that is not SUBMITTED goes round once more. -/
def rank (s : JobType) (z : Place) : ℕ ×ₗ ℕ :=
  toLex ((if s.state = .submitted then 0 else 10) + s.distance z, s.ahead z)

theorem rank_lt_of_distance {z' : Place} (hstate : s.state = .submitted → s'.state = .submitted)
    (h : s'.distance z' < s.distance z) : s'.rank z' < s.rank z := by
  refine Prod.Lex.toLex_lt_toLex.mpr (.inl ?_)
  dsimp only
  split_ifs with hs' hs hs
  · omega
  · omega
  · exact absurd (hstate hs) hs'
  · omega

theorem distance_lt (s : JobType) (z : Place) : s.distance z < 10 := by
  cases z with
  | unit i =>
    unfold distance
    dsimp only
    split <;> omega
  | timed | hand | held | queued => simp [distance]

theorem rank_lt_of_submitted {z' : Place} (hs : s.state ≠ .submitted)
    (hs' : s'.state = .submitted) : s'.rank z' < s.rank z := by
  refine Prod.Lex.toLex_lt_toLex.mpr (.inl ?_)
  have := distance_lt s' z'
  simp only [hs', if_true, if_neg hs]
  omega

theorem rank_congr (hstate : s'.state = .submitted ↔ s.state = .submitted)
    (hdistance : s'.distance z = s.distance z) (hahead : s'.ahead z = s.ahead z) :
    s'.rank z = s.rank z := by
  unfold rank
  rw [hdistance, hahead, if_congr hstate rfl rfl]

/-! ### One step -/

/-- What a step does when an execution is due and a proxy lies at the place `z`. -/
inductive Outcome (s : JobType) (a : Action) (s' : JobType) (z : Place) : Prop
  | executes (h : Executes s s')
  | revokes (h : Revokes s s')
  | takes (h : Takes s s') (hz : 0 < s'.weight z)
  | passes {y : Place} (hdue : s'.Due) (hz : 0 < s'.weight y) (hrank : s'.rank y < s.rank z)
  | stays (hdue : s'.Due) (hz : 0 < s'.weight z) (hrank : s'.rank z = s.rank z)
      (hserves : ¬ Serves a z)

theorem not_serves_proceed (hz : 0 < s.weight z) (hop : (s.operations t).holds = false) :
    ¬ Serves (.proceed t) z := by
  intro hserves
  cases z with
  | held t' =>
    obtain rfl : t' = t := hserves
    simp [weight, hop] at hz
  | timed | hand | queued | unit => exact hserves

/-- The proxy moves, and it is the only one. -/
theorem Outcome.of_moves {a : Action} {x y : Place} (hlone : Lone s.weight) (hdue : s.Due)
    (hz : 0 < s.weight z) (hmoves : Moves s.weight s'.weight x y) (hstate : s'.state = s.state)
    (hdistance : s'.distance y < s.distance x) : Outcome s a s' z := by
  obtain rfl := hlone.single z x hz (hmoves.leaves ▸ Nat.succ_pos _)
  refine .passes (y := y) ?_ (hmoves.arrives ▸ Nat.succ_pos _)
    (rank_lt_of_distance (fun h => hstate.trans h) hdistance)
  rwa [Due, hstate]

/-- A step of a thread that has no proxy. -/
theorem Outcome.of_operation {operation : Operation} (hdue : s.Due) (hz : 0 < s.weight z)
    (hop : (s.operations t).holds = false) (hholds : operation.holds = false) :
    Outcome s (.proceed t) (s.setOperation t operation) z := by
  refine .stays hdue ?_ rfl (not_serves_proceed hz hop)
  rwa [weight_operation (hholds.trans hop.symm)]

/-- Another entry in front of the proxy may go. -/
theorem idxOf_erase_le {l : List Job} {job : Job} (hjob : .this ≠ job) (hmem : .this ∈ l) :
    (l.erase job).idxOf .this ≤ l.idxOf .this := by
  induction l with
  | nil => simp at hmem
  | cons x xs ih =>
    rcases eq_or_ne x .this with rfl | hx
    · simp [List.erase_cons_tail, hjob]
    · have hxs : .this ∈ xs := (List.mem_cons.mp hmem).resolve_left (Ne.symm hx)
      rw [List.idxOf_cons_ne xs hx]
      rcases eq_or_ne x job with rfl | hne
      · rw [List.erase_cons_head]
        exact Nat.le_succ _
      · rw [List.erase_cons_tail (by simpa using hne), List.idxOf_cons_ne _ hx]
        exact Nat.succ_le_succ (ih hxs)

/-- Where the proxy stays in the queue, the entries in front of it do not get more, and less when a
minion extracts one. -/
theorem foreign_ahead {a : ThreadPool.Action Job} {pool : ThreadPool Job}
    (henabled : s.pool.queue.state ≠ .disabled) (hforeign : s.Foreign a)
    (hstep : s.pool.Step a pool) (hmem : .this ∈ s.pool.queue.queue)
    (hcount : pool.queue.queue.count .this = s.pool.queue.queue.count .this) :
    pool.queue.queue.idxOf .this < s.pool.queue.queue.idxOf .this ∨
      (pool.queue.queue.idxOf .this = s.pool.queue.queue.idxOf .this ∧ ∀ i, a ≠ .extract i) := by
  cases hstep with
  | submit hready hoffer =>
    obtain ⟨hqueue, -⟩ := ThreadPool.offer_enabled hoffer henabled
    dsimp only
    rw [hqueue, List.idxOf_append_of_mem hmem]
    exact .inr ⟨rfl, nofun⟩
  | revokeQueued hready hremove | revokeMissed hready hremove =>
    obtain ⟨hqueue, -⟩ := QueueType.remove_enabled henabled hremove
    rw [ThreadPool.setCall_queue, hqueue]
    have hle := idxOf_erase_le (Ne.symm hforeign.1) hmem
    rcases Nat.lt_or_eq_of_le hle with hlt | heq
    · exact .inl hlt
    · exact .inr ⟨heq, nofun⟩
  | lookOwn | lookPast | lookWait | lookEnd | wake => exact .inr ⟨rfl, nofun⟩
  | @extract i job queue hi hphase hextract =>
    have hqueue := QueueType.extract_received hextract rfl
    rw [ThreadPool.setUnit_queue] at hcount ⊢
    rw [hqueue] at hcount ⊢
    cases job with
    | this =>
      rw [List.count_cons_self] at hcount
      exact absurd hcount (Nat.ne_of_lt (Nat.lt_succ_self _))
    | other k =>
      rw [List.idxOf_cons_ne _ (other_ne k)]
      exact .inl (Nat.lt_succ_self _)
  | repost hi hphase =>
    obtain ⟨hqueue, -⟩ := QueueType.post_enabled _ henabled
    dsimp only [ThreadPool.setUnit_queue]
    rw [hqueue, List.idxOf_append_of_mem hmem]
    exact .inr ⟨rfl, nofun⟩
  | dispatch | finish | attempt | resubmitNone | resubmitSome | reschedule | release | reset =>
    exact .inr ⟨rfl, nofun⟩
  | stop => exact hforeign.elim

/-- The step that a minion with a proxy takes in the pool changes its phase. -/
theorem unit_changes {a : ThreadPool.Action Job} {p p' : ThreadPool Job} {j : Nat}
    (hstep : p.Step a p') (hserves : Serves (.pool a) (.unit j)) : p'.units j ≠ p.units j := by
  cases hstep with
  | finish hi hphase | repost hi hphase =>
    obtain rfl : j = _ := hserves
    rw [ThreadPool.setUnit_units, update_self, hphase]
    nofun
  | _ => exact hserves.elim

theorem outcome_foreign {a : ThreadPool.Action Job} {pool : ThreadPool Job}
    (hlone : Lone s.weight) (henabled : s.pool.queue.state ≠ .disabled) (hdue : s.Due)
    (hz : 0 < s.weight z) (hforeign : s.Foreign a) (hstep : s.pool.Step a pool) :
    Outcome s (.pool a) { s with pool := pool } z := by
  cases (foreign_effect henabled hforeign hstep).2 with
  | extracted i hcount hphase hunits =>
    refine .of_moves hlone hdue hz (moves_extracted hcount hphase hunits) rfl ?_
    simp [distance, hunits]
  | reposted i time hcount hphase hunits =>
    refine .of_moves hlone hdue hz (moves_reposted hcount hphase hunits) rfl ?_
    simp [distance, hphase]
  | stays hcount hunits =>
    have hz' : 0 < ({ s with pool := pool } : JobType).weight z := by
      rwa [weight_stays hcount hunits]
    cases z with
    | timed | hand | held t => exact .stays hdue hz' rfl fun hserves => by cases a <;> exact hserves
    | queued =>
      have hmem : .this ∈ s.pool.queue.queue := List.count_pos_iff.mp hz
      rcases foreign_ahead henabled hforeign hstep hmem hcount with hlt | ⟨heq, hne⟩
      · refine .passes hdue hz' (Prod.Lex.toLex_lt_toLex.mpr (.inr ⟨rfl, hlt⟩))
      · refine .stays hdue hz' (rank_congr Iff.rfl rfl heq) fun hserves => ?_
        cases a with
        | extract i => exact hne i rfl
        | _ => exact hserves
    | unit j =>
      rcases hunits j with heq | ⟨hnone, -⟩ | ⟨entered, hphase, hphase'⟩
      · refine .stays hdue hz' (rank_congr Iff.rfl ?_ rfl) fun hserves => ?_
        · simp [distance, heq]
        · exact unit_changes hstep hserves heq
      · simp [weight, hnone] at hz
      · refine .passes hdue hz' (rank_lt_of_distance (fun h => h) ?_)
        simp [distance, hphase, hphase']

theorem due_ne (h : s.Due) :
    s.state ≠ .idle ∧ s.state ≠ .executing ∧ s.state ≠ .revoking := by
  rcases h with h | h | h <;> rw [h] <;> exact ⟨nofun, nofun, nofun⟩

theorem outcome_advance {op : Operation} {state : State} (hdue : s.Due) (hz : 0 < s.weight z)
    (hop : s.operations t = op) (hadvance : Advances s.state op state operation) :
    Outcome s (.proceed t) (({ s with state := state } : JobType).setOperation t operation) z := by
  obtain ⟨hidle, hexecuting, hrevoking⟩ := due_ne hdue
  obtain ⟨hholds, hholds' | ⟨-, hstate, -⟩⟩ := hadvance.holds
  · have hop' : (s.operations t).holds = false := by rw [hop, hholds]
    have hz' : 0 < (({ s with state := state } : JobType).setOperation t operation).weight z := by
      have hweight := weight_operation (s := { s with state := state }) (t := t)
        (show operation.holds = _ from hholds'.trans hop'.symm) z
      rwa [hweight]
    have hserves := not_serves_proceed hz hop'
    cases hadvance with
    | submitHit hstate =>
      have hs : s.state = .schedule := hstate.resolve_left hexecuting
      exact .stays (.inr (.inl rfl)) hz' (rank_congr (by simp [setOperation, hs]) rfl rfl) hserves
    | rescheduleHit hstate =>
      have hs : s.state = .resubmit := hstate.resolve_left hexecuting
      exact .stays (.inr (.inr rfl)) hz' (rank_congr (by simp [setOperation, hs]) rfl rfl) hserves
    | rescheduleTake hstate => exact .takes ⟨hstate.resolve_right hidle, rfl⟩ hz'
    | requiredHit hstate => exact .revokes (.inl ⟨hrevoking, rfl⟩)
    | revokedHit hstate => exact absurd hstate hrevoking
    | submitMiss | rescheduleMiss | requiredMiss | requiredEnd | revokedMiss | idleMiss =>
      exact .of_operation hdue hz hop' hholds'
    | submitMake hk hstate | idleMake hstate => exact absurd hstate hidle
  · exact absurd hstate hidle

theorem outcome_timerRevoke {time : Option Nat} (hdue : s.Due) (hz : 0 < s.weight z)
    (hop : s.operations t = .timerRevoke time) :
    Outcome s (.proceed t) (({ s with timer := [] } : JobType).setOperation t (.poolRevoke time))
      z := by
  have hop' : (s.operations t).holds = false := by rw [hop]; rfl
  rcases eq_or_ne s.timer [] with hempty | hne
  · have hself : ({ s with timer := [] } : JobType) = s := by rw [← hempty]
    rw [hself]
    exact .of_operation hdue hz hop' rfl
  · refine .revokes (.inr ⟨?_, t, time, .inl ⟨hop, ?_⟩⟩)
    · have := List.length_pos_iff.mpr hne
      simp only [present, setOperation, List.length_nil]
      omega
    · simp [setOperation]

theorem outcome_poolRevoke {time : Option Nat} {pool : ThreadPool Job} (hdue : s.Due)
    (hz : 0 < s.weight z) (hop : s.operations t = .poolRevoke time)
    (hcount : pool.queue.queue.count .this = s.pool.queue.queue.count .this - 1)
    (hunits : pool.units = s.pool.units) :
    Outcome s (.proceed t) (({ s with pool := pool } : JobType).setOperation t (.revoking time))
      z := by
  have hop' : (s.operations t).holds = false := by rw [hop]; rfl
  rcases Nat.eq_zero_or_pos (s.pool.queue.queue.count .this) with hzero | hpos
  · have hqueued : z ≠ .queued := by
      rintro rfl
      exact absurd hzero (Nat.ne_of_gt hz)
    refine .stays hdue ?_ ?_ (not_serves_proceed hz hop')
    · rwa [weight_poolRevoke time hop' hcount hunits, if_neg hqueued]
    · refine rank_congr Iff.rfl ?_ ?_
      · cases z <;> simp [distance, setOperation, hunits]
      · cases z with
        | queued => exact absurd rfl hqueued
        | _ => rfl
  · refine .revokes (.inr ⟨?_, t, time, .inr ⟨hop, ?_⟩⟩)
    · simp only [present, setOperation, hcount]
      omega
    · simp [setOperation]

theorem outcome_dispatch {pool : ThreadPool Job} (hlone : Lone s.weight) (hdue : s.Due)
    (hz : 0 < s.weight z) (hphase : s.pool.units i = .extracted .this)
    (hunits : pool.units = update s.pool.units i (.dispatching .this (s.state = .submitted))) :
    Outcome s (.dispatch i) { s with
      pool := pool
      state := if s.state = .submitted then .executing else s.state } z := by
  obtain rfl := hlone.single z (.unit i) hz (weight_unit_pos (by rw [hphase]; rfl))
  split_ifs with hstate
  · refine .executes ⟨i, by rw [hphase]; nofun, ?_⟩
    simp [hunits, hstate]
  · refine .passes (y := .unit i) hdue ?_ (rank_lt_of_distance (fun h => h) ?_)
    · simp [weight, hunits, carries]
    · simp [distance, hunits, hphase]

theorem outcome_exchange {pool : ThreadPool Job} {k : Nat} (hlone : Lone s.weight)
    (hlinked : Linked s) (hok : s.Orderly (.exchange i)) (hdue : s.Due) (hz : 0 < s.weight z)
    (hphase : s.pool.units i = .completing .this k)
    (hstep : s.pool.Step (complete s.state s.time i k).2 pool) :
    Outcome s (.exchange i)
      { s with pool := pool, state := (complete s.state s.time i k).1 } z := by
  have hpos : 0 < s.weight (.unit i) := weight_unit_pos (by rw [hphase]; rfl)
  obtain rfl := hlone.single z (.unit i) hz hpos
  rcases complete_cases s.state s.time i k with ⟨-, hstate, -⟩ | ⟨hk, -, heq⟩ |
    ⟨-, hstate, time, heq⟩ | ⟨hk, hschedule, -⟩
  · exact absurd hstate (due_ne hdue).2.1
  · rw [heq] at hstep ⊢
    obtain ⟨hqueue, hunits⟩ := attempt_effect hphase hstep
    refine .passes (y := .unit i) hdue ?_ (rank_lt_of_distance (fun h => h) ?_)
    · simp [weight, hunits, carries]
    · simp only [distance, hunits, hphase, update_self]
      omega
  · rw [heq] at hstep ⊢
    obtain ⟨hqueue, hunits⟩ := resubmit_effect hphase hstep
    refine .passes (y := .unit i) (.inl rfl) ?_ (rank_lt_of_submitted ?_ rfl)
    · simp [weight, hunits, carries]
    · rcases hstate with hstate | hstate <;> rw [hstate] <;> rintro ⟨⟩
  · rcases hdue with hstate | hstate | hstate
    · -- a SUBMITTED job is not with a minion that has started it
      obtain ⟨z, hz', hplace⟩ := hlinked.submitted hstate
      have hstarted := hplace i (hlone.single z _ hz' hpos)
      rw [hphase] at hstarted
      exact absurd hstarted (by simp [started])
    · exact absurd ⟨hstate, k, hk, hphase⟩ hok.2
    · exact absurd hstate hschedule

theorem outcome_step {a : Action} (hlone : Lone s.weight)
    (henabled : s.pool.queue.state ≠ .disabled) (hlinked : Linked s) (hok : s.Orderly a)
    (hdue : s.Due) (hz : 0 < s.weight z) (hstep : s.Step a s') : Outcome s a s' z := by
  cases hstep with
  | pool hforeign hstep => exact outcome_foreign hlone henabled hdue hz hforeign hstep
  | begin hready hnone hbegin =>
    refine .stays hdue ?_ rfl (fun hserves => hserves)
    rw [weight_operation (by rw [hnone]; rcases hbegin with rfl | ⟨time, rfl⟩ | rfl <;> rfl)]
    exact hz
  | advance hadvance => exact outcome_advance hdue hz rfl (advance_cases hadvance)
  | @setTime t time hop =>
    have hop' : (s.operations t).holds = false := by rw [hop]; rfl
    refine .stays hdue ?_ rfl (not_serves_proceed hz hop')
    have hweight := weight_operation (s := { s with time := some time }) (t := t)
      (show Operation.none.holds = _ from hop'.symm) z
    rwa [hweight]
  | post hop hstep =>
    obtain ⟨-, hcount, hunits⟩ := submit_effect henabled hstep
    exact .of_moves hlone hdue hz (moves_posted (by rw [hop]; rfl) hcount hunits) rfl
      (by simp [distance])
  | timerRevoke hop => exact outcome_timerRevoke hdue hz hop
  | poolRevoke hop hstep =>
    obtain ⟨-, hcount, hunits⟩ := revoke_effect henabled hstep
    exact outcome_poolRevoke hdue hz hop hcount hunits
  | revoking hop hcall => exact .of_operation hdue hz (by rw [hop]; rfl) rfl
  | scheduleTimer hop =>
    exact .of_moves hlone hdue hz (moves_scheduled (by rw [hop]; rfl) _) rfl (by simp [distance])
  | scheduleSubmit hop hstep =>
    obtain ⟨-, hcount, hunits⟩ := submit_effect henabled hstep
    exact .of_moves hlone hdue hz (moves_posted (by rw [hop]; rfl) hcount hunits) rfl
      (by simp [distance])
  | dispatch hphase hstep =>
    exact outcome_dispatch hlone hdue hz hphase (dispatch_effect hphase hstep).2
  | exchange hphase hstep => exact outcome_exchange hlone hlinked hok hdue hz hphase hstep
  | reschedule hphase hstep =>
    obtain ⟨hqueue, hunits⟩ := reschedule_effect hphase hstep
    exact .of_moves hlone hdue hz (moves_rescheduled hphase hqueue hunits) rfl
      (by simp [distance, hphase])
  | fire hhand htimer =>
    exact .of_moves hlone hdue hz (moves_fired hhand htimer) rfl (by simp [distance])
  | deliver hhand hstep =>
    obtain ⟨-, hcount, hunits⟩ := submit_effect henabled hstep
    exact .of_moves hlone hdue hz (moves_delivered hhand hcount hunits) rfl (by simp [distance])

/-! ### Endless runs -/

/-- While an execution is due, whoever has a proxy comes to its next step. -/
def Fair (states : Nat → JobType) (ops : Nat → Option Action) : Prop :=
  ∀ n z, (states n).Due → 0 < (states n).weight z →
    ∃ m, n ≤ m ∧ ∃ a, ops m = some a ∧ Serves a z

/-- The step enters the implementation, or a `Revoke` takes the job by it. -/
def Goal (states : Nat → JobType) (n : Nat) : Prop :=
  Executes (states n) (states (n + 1)) ∨ Revokes (states n) (states (n + 1))

/-- When an endless run from `s` starts with the exchange from IDLE to SUBMITTED, the implementation
is entered or a `Revoke` takes the job, unless `Reschedule` puts it off without end. -/
def Followed (ok : JobType → Action → Prop) (s : JobType) : Prop :=
  ∀ (states : Nat → JobType) (ops : Nat → Option Action), states 0 = s →
    Endless Step ok states ops → Fair states ops →
    (states 0).state = .idle → (states 1).state = .submitted →
      (∃ n, 1 ≤ n ∧ Goal states n) ∨
        ∀ n, ∃ m, n ≤ m ∧ Takes (states m) (states (m + 1))

section

variable {states : Nat → JobType} {ops : Nat → Option Action} {n : Nat}

/-- Where the run is after `n` steps: a proxy at a place, with a rank. -/
def Here (states : Nat → JobType) (n : Nat) (x : Place × (ℕ ×ₗ ℕ)) : Prop :=
  (states n).Due ∧ 0 < (states n).weight x.1 ∧ (states n).rank x.1 = x.2

theorem eventually_of_due
    (hinv : ∀ n, (Lone (states n).weight ∧ (states n).pool.queue.state ≠ .disabled) ∧
      Linked (states n))
    (hrun : Endless Step Orderly states ops) (hfair : Fair states ops) (hdue : (states n).Due)
    (hz : 0 < (states n).weight z) :
    ∃ m, n ≤ m ∧ (Goal states m ∨ Takes (states m) (states (m + 1))) := by
  have houtcome : ∀ {n a}, ops n = some a → ∀ x, Here states n x →
      Outcome (states n) a (states (n + 1)) x.1 := by
    rintro n a hop x ⟨hdue, hz, -⟩
    obtain ⟨⟨hlone, henabled⟩, hlinked⟩ := hinv n
    obtain ⟨hok, hstep⟩ := hrun.next hop
    exact outcome_step hlone henabled hlinked hok hdue hz hstep
  have hhere : Here states n (z, (states n).rank z) := ⟨hdue, hz, rfl⟩
  refine eventually_of_rank (r := Prod.snd) ?_ ?_ hhere
  · rintro n x hx
    cases hop : ops n with
    | none =>
      refine .inr (.inl ?_)
      rwa [Here, hrun.pause hop]
    | some a =>
      cases houtcome hop x hx with
      | executes h => exact .inl (.inl (.inl h))
      | revokes h => exact .inl (.inl (.inr h))
      | takes h hz => exact .inl (.inr h)
      | @passes z' hdue hz hrank => exact .inr (.inr ⟨(z', _), hx.2.2 ▸ hrank, hdue, hz, rfl⟩)
      | stays hdue hz hrank hserves => exact .inr (.inl ⟨hdue, hz, hrank.trans hx.2.2⟩)
  · rintro n x ⟨hdue, hz, -⟩
    obtain ⟨m, hm, a, hop, hserves⟩ := hfair n x.1 hdue hz
    refine ⟨m, hm, fun hx => ?_⟩
    cases houtcome hop x hx with
    | executes h => exact .inl (.inl (.inl h))
    | revokes h => exact .inl (.inl (.inr h))
    | takes h hz => exact .inl (.inr h)
    | @passes z' hdue hz hrank => exact .inr ⟨(z', _), hx.2.2 ▸ hrank, hdue, hz, rfl⟩
    | stays hdue hz hrank hnot => exact absurd hserves hnot

/-- Until it is run or revoked the job stays due, and the proxy somewhere. -/
theorem due_step
    (hinv : (Lone (states n).weight ∧ (states n).pool.queue.state ≠ .disabled) ∧
      Linked (states n))
    (hrun : Endless Step Orderly states ops) (hgoal : ¬ Goal states n) (hdue : (states n).Due)
    (hz : 0 < (states n).weight z) :
    (states (n + 1)).Due ∧ ∃ z', 0 < (states (n + 1)).weight z' := by
  cases hop : ops n with
  | none =>
    rw [hrun.pause hop]
    exact ⟨hdue, z, hz⟩
  | some a =>
    obtain ⟨⟨hlone, henabled⟩, hlinked⟩ := hinv
    obtain ⟨hok, hstep⟩ := hrun.next hop
    cases outcome_step hlone henabled hlinked hok hdue hz hstep with
    | executes h => exact absurd (.inl h) hgoal
    | revokes h => exact absurd (.inr h) hgoal
    | takes h hz => exact ⟨.inr (.inr h.2), z, hz⟩
    | @passes z' hdue hz hrank => exact ⟨hdue, z', hz⟩
    | stays hdue hz hrank hserves => exact ⟨hdue, z, hz⟩

end

theorem followed_of_orderly {count queueSize : Nat} (marked : 0 < queueSize)
    (h : Reach Step Orderly (new count queueSize marked) s) : s.Followed Orderly := by
  rintro states ops rfl hrun hfair - hsubmitted
  have hinv := fun n => linked_of_orderly marked (h.trans (hrun.reach n))
  rw [or_iff_not_imp_left]
  intro hnever
  have hdue : ∀ d, (states (1 + d)).Due ∧ ∃ z, 0 < (states (1 + d)).weight z := by
    intro d
    induction d with
    | zero =>
      obtain ⟨z, hz, -⟩ := (hinv 1).2.submitted hsubmitted
      exact ⟨.inl hsubmitted, z, hz⟩
    | succ d ih =>
      obtain ⟨hdue, z, hz⟩ := ih
      exact due_step (hinv _) hrun (fun hgoal => hnever ⟨_, Nat.le_add_right 1 d, hgoal⟩) hdue hz
  intro n
  obtain ⟨hdue, z, hz⟩ := hdue n
  obtain ⟨m, hm, hgoal | htakes⟩ := eventually_of_due hinv hrun hfair hdue hz
  · exact absurd ⟨m, by omega, hgoal⟩ hnever
  · exact ⟨m, by omega, htakes⟩

/-- In every orderly run the job, between the operations, is SUBMITTED exactly when its proxy lies in
the timer's list or the queue, and lies in neither when the job is IDLE; and a submission that found
it IDLE is followed by an execution or a `Revoke`. -/
theorem kept_of_orderly {count queueSize : Nat} (marked : 0 < queueSize)
    (h : Reach Step Orderly (new count queueSize marked) s) :
    s.Settled ∧ s.Followed Orderly := by
  obtain ⟨⟨hlone, -⟩, hlinked⟩ := linked_of_orderly marked h
  exact ⟨settled_of_linked hlone hlinked, followed_of_orderly marked h⟩

/-- A thread has found the job IDLE; it submits the job, and a minion runs it. -/
def submitOnce : Nat → JobType
  | 0 => (((new 2 2 Nat.two_pos).setOperation (.other 0) (.submit 0)).setOperation (.other 0)
      (.submit 1)).setOperation (.other 0) (.submit 2)
  | 1 => { submitOnce 0 with state := .submitted }.setOperation (.other 0) .post
  | 2 =>
    { submitOnce 1 with
      pool := { (submitOnce 1).pool with
        queue := ((submitOnce 1).pool.queue.insert .this).1 } }.setOperation (.other 0) .none
  | 3 =>
    { submitOnce 2 with
      pool := { (submitOnce 2).pool with
        queue := (submitOnce 2).pool.queue.extract.1 }.setUnit 0 (.extracted .this) }
  | 4 =>
    { submitOnce 3 with
      pool := (submitOnce 3).pool.setUnit 0 (.dispatching .this true)
      state := .executing }
  | n + 5 => submitOnce (n + 4)

def submitOnceActions : Nat → Option Action
  | 0 | 1 => some (.proceed (.other 0))
  | 2 => some (.pool (.extract 0))
  | 3 => some (.dispatch 0)
  | _ => none

theorem kept_two :
    Reach Step Orderly (new 2 2 (by decide)) (submitOnce 0) ∧
      Endless Step Orderly submitOnce submitOnceActions ∧ Fair submitOnce submitOnceActions ∧
      (submitOnce 2).Quiet ∧ (submitOnce 2).present = 1 ∧
      ((∃ n, 1 ≤ n ∧ Goal submitOnce n) ∨
        ∀ n, ∃ m, n ≤ m ∧ Takes (submitOnce m) (submitOnce (m + 1))) := by
  have hready : ∀ s : JobType, (s.pool.calls (.other 0)).job = none → s.pool.Ready (.other 0) :=
    fun _ hcall => ⟨hcall, (by rintro _ ⟨⟩)⟩
  have hreach : Reach Step Orderly (new 2 2 (by decide)) (submitOnce 0) :=
    Reach.start
    |>.step (a := .begin (.other 0)) ⟨trivial, id⟩ (.begin (hready _ rfl) rfl (.inl rfl))
    |>.step (a := .proceed (.other 0)) ⟨fun _ hmakes => absurd hmakes (by decide), id⟩
      (.advance rfl)
    |>.step (a := .proceed (.other 0)) ⟨fun _ hmakes => absurd hmakes (by decide), id⟩
      (.advance rfl)
  have hrun : Endless Step Orderly submitOnce submitOnceActions := by
    intro n
    rcases n with _ | _ | _ | _ | n
    · refine ⟨⟨fun _ _ z => ?_, id⟩, .advance rfl⟩
      cases z with
      | held t =>
        rcases eq_or_ne t (.other 0) with rfl | hne
        · rfl
        · simp [submitOnce, weight, setOperation, new, hne]
      | _ => rfl
    · exact ⟨⟨fun hidle => absurd hidle (by decide), id⟩, .post rfl (.submit (hready _ rfl) rfl)⟩
    · exact ⟨⟨trivial, id⟩, .pool trivial (.extract (by decide) rfl rfl)⟩
    · exact ⟨⟨trivial, id⟩, .dispatch rfl (.dispatch (by decide) rfl)⟩
    · rfl
  have hexecuting : ∀ n, (submitOnce (n + 4)).state = .executing := by
    intro n
    induction n with
    | zero => rfl
    | succ n ih => exact ih
  have hlone := fun n => (linked_of_orderly (by decide) (hreach.trans (hrun.reach n))).1.1
  have hfair : Fair submitOnce submitOnceActions := by
    intro n z hdue hz
    rcases n with _ | _ | _ | _ | n
    · exact absurd rfl (due_ne hdue).1
    · obtain rfl := (hlone 1).single z (.held (.other 0)) hz (by decide)
      exact ⟨1, le_rfl, _, rfl, rfl⟩
    · obtain rfl := (hlone 2).single z .queued hz (by decide)
      exact ⟨2, le_rfl, _, rfl, trivial⟩
    · obtain rfl := (hlone 3).single z (.unit 0) hz (by decide)
      exact ⟨3, le_rfl, _, rfl, rfl⟩
    · exact absurd (hexecuting n) (due_ne hdue).2.1
  have hquiet : (submitOnce 2).Quiet := by
    refine ⟨fun t => ?_, rfl, fun i => ⟨(by rintro ⟨⟩), (by rintro _ ⟨⟩)⟩⟩
    simp [submitOnce, setOperation, new]
  have hsettled := (kept_of_orderly (by decide) (hreach.trans (hrun.reach 2))).1 hquiet
  have hfollowed := (kept_of_orderly (by decide) hreach).2 submitOnce submitOnceActions rfl hrun
    hfair rfl rfl
  exact ⟨hreach, hrun, hfair, hquiet, hsettled.1.mp rfl, hfollowed⟩

/-- A thread in `Submit` has made the job SUBMITTED and not yet posted it; a `Revoke` of another
thread goes through and leaves the job IDLE, and then the proxy is posted. -/
theorem not_kept_two : ¬ ∀ s : JobType,
    Reach Step (fun _ _ => True) (new 2 2 (by decide)) s →
      s.Settled ∧ s.Followed fun _ _ => True := by
  intro h
  have hready : ∀ (s : JobType) (k : Nat), (s.pool.calls (.other k)).job = none →
      s.pool.Ready (.other k) := fun _ _ hcall => ⟨hcall, nofun⟩
  have hreach : Reach Step (fun _ _ => True) (new 2 2 (by decide)) _ :=
    Reach.start
    |>.step (a := .begin (.other 0)) trivial (.begin (hready _ 0 rfl) rfl (.inl rfl))
    |>.step (a := .proceed (.other 0)) trivial (.advance rfl)
    |>.step (a := .proceed (.other 0)) trivial (.advance rfl)
    |>.step (a := .proceed (.other 0)) trivial (.advance rfl)
    |>.step (a := .begin (.other 1)) trivial (.begin (hready _ 1 rfl) rfl (.inr (.inr rfl)))
    |>.step (a := .proceed (.other 1)) trivial (.advance rfl)
    |>.step (a := .proceed (.other 1)) trivial (.advance rfl)
    |>.step (a := .proceed (.other 1)) trivial (.timerRevoke rfl)
    |>.step (a := .proceed (.other 1)) trivial
      (.poolRevoke rfl (.revokeMissed (hready _ 1 rfl) rfl))
    |>.step (a := .pool (.look (.other 1))) trivial
      (.pool trivial (.lookPast rfl (by decide) nofun nofun nofun))
    |>.step (a := .pool (.look (.other 1))) trivial
      (.pool trivial (.lookPast rfl (by decide) nofun nofun nofun))
    |>.step (a := .pool (.look (.other 1))) trivial (.pool trivial (.lookEnd rfl (by decide)))
    |>.step (a := .proceed (.other 1)) trivial (.revoking rfl rfl)
    |>.step (a := .proceed (.other 1)) trivial (.advance rfl)
    |>.step (a := .proceed (.other 0)) trivial (.post rfl (.submit (hready _ 0 rfl) rfl))
  have hsettled := (h _ hreach).1
  refine absurd ((hsettled ⟨fun t => ?_, rfl, fun i => ⟨nofun, nofun⟩⟩).2 rfl) nofun
  match t with
  | .unit _ | .timer | .monitor | .other 0 | .other 1 | .other (k + 2) => rfl

end Thunder.Core.JobType
