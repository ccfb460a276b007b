import Thunder.Core.JobExclusion

/-! The state word and the proxy.  They are changed in separate steps; `Linked` says how they go
together at every moment, and `Orderly` is what the steps have to meet for that. -/

namespace Thunder.Core.JobType

open Function Run Token

variable {s s' : JobType} {t : Thread} {operation : Operation} {i : Nat}

/-! ### The link -/

/-- The minion has the proxy, and its `Resubmit` is not through. -/
def runs : ThreadPool.Phase Job → Bool
  | .extracted .this | .dispatching .this _ | .completing .this _ => true
  | _ => false

/-- The minion has tried to enter the implementation, and its `Resubmit` is not through. -/
def started : ThreadPool.Phase Job → Bool
  | .dispatching .this _ | .completing .this _ => true
  | _ => false

/-- The minion may still take the job from executing to idle. -/
def inside : ThreadPool.Phase Job → Bool
  | .dispatching .this _ | .completing .this 0 => true
  | _ => false

/-- A `Reschedule` that has set the state word and is about to revoke. -/
def Operation.takesBack : Operation → Bool
  | .required (some _) _ => true
  | _ => false

/-- From `RevokeRequired` to `Revoked`. -/
def Operation.revokes : Operation → Bool
  | .timerRevoke _ | .poolRevoke _ | .revoking _ | .revoked _ => true
  | _ => false

/-- Every proxy is with a minion that runs it. -/
def Running (s : JobType) : Prop :=
  ∀ z, 0 < s.weight z → ∃ i, z = .unit i ∧ runs (s.pool.units i) = true

structure Linked (s : JobType) : Prop where
  submitted : s.state = .submitted →
    ∃ z, 0 < s.weight z ∧ ∀ i, z = .unit i → started (s.pool.units i) = false
  executing : s.state = .executing → ∃ i, inside (s.pool.units i) = true
  again : s.state = .resubmit ∨ s.state = .schedule →
    (∃ i, runs (s.pool.units i) = true) ∨ ∃ t, (s.operations t).takesBack = true
  revoking : s.state = .revoking → ∃ t, (s.operations t).revokes = true
  idle : s.state = .idle → s.Running

theorem runs_of_started {phase : ThreadPool.Phase Job} (h : started phase = true) :
    runs phase = true := by
  unfold started at h
  split at h <;> simp_all [runs]

theorem started_of_inside {phase : ThreadPool.Phase Job} (h : inside phase = true) :
    started phase = true := by
  unfold inside at h
  split at h <;> simp_all [started]

theorem carries_of_runs {phase : ThreadPool.Phase Job} (h : runs phase = true) :
    carries phase = true := by
  unfold runs at h
  split at h <;> simp_all [carries]

theorem Follows.same {phase phase' : ThreadPool.Phase Job} (h : Follows phase phase') :
    runs phase' = runs phase ∧ started phase' = started phase ∧ inside phase' = inside phase := by
  have hnone : ∀ {phase : ThreadPool.Phase Job}, carries phase = false →
      runs phase = false ∧ started phase = false ∧ inside phase = false := by
    intro phase hcarries
    have hruns : runs phase = false :=
      Bool.eq_false_iff.mpr fun hruns => by simp [carries_of_runs hruns] at hcarries
    have hstarted : started phase = false :=
      Bool.eq_false_iff.mpr fun hstarted => by simp [runs_of_started hstarted] at hruns
    have hinside : inside phase = false :=
      Bool.eq_false_iff.mpr fun hinside => by simp [started_of_inside hinside] at hstarted
    exact ⟨hruns, hstarted, hinside⟩
  rcases h with rfl | ⟨h, h'⟩ | ⟨entered, rfl, rfl⟩
  · exact ⟨rfl, rfl, rfl⟩
  · obtain ⟨hruns, hstarted, hinside⟩ := hnone h
    obtain ⟨hruns', hstarted', hinside'⟩ := hnone h'
    exact ⟨hruns'.trans hruns.symm, hstarted'.trans hstarted.symm, hinside'.trans hinside.symm⟩
  · exact ⟨rfl, rfl, rfl⟩

theorem weight_unit_pos (h : runs (s.pool.units i) = true) : 0 < s.weight (.unit i) := by
  simp [weight, carries_of_runs h]

/-! ### What the steps have to meet -/

/-- A step by which the state word and the proxy could part. -/
def Parts (s : JobType) : Action → Prop
  | .proceed t =>
    match s.operations t with
    -- `Revoked` while a proxy is on its way
    | .revoked _ => s.state = .revoking ∧ ¬ s.Running
    -- a late `Revoke` takes what has been submitted since
    | .timerRevoke _ => s.state = .submitted ∧ s.timer ≠ []
    | .poolRevoke _ => s.state = .submitted ∧ .this ∈ s.pool.queue.queue
    -- `RevokeRequired` has overlooked a change to RESUBMIT
    | .required (some _) k => 4 ≤ k ∧ s.state = .resubmit ∧ ∀ i, runs (s.pool.units i) = false
    | _ => False
  -- `Resubmit` has overlooked a change to RESUBMIT
  | .exchange i => s.state = .resubmit ∧ ∃ k, 2 ≤ k ∧ s.pool.units i = .completing .this k
  | _ => False

def Orderly (s : JobType) (a : Action) : Prop := s.MakesFirst a ∧ ¬ s.Parts a

/-! ### How the link is kept -/

theorem Linked.of_submitted {z : Place} (hstate : s.state = .submitted) (hz : 0 < s.weight z)
    (hplace : ∀ i, z = .unit i → started (s.pool.units i) = false) : Linked s where
  submitted _ := ⟨z, hz, hplace⟩
  executing h := absurd (hstate.symm.trans h) (by decide)
  again h := absurd h (by rw [hstate]; decide)
  revoking h := absurd (hstate.symm.trans h) (by decide)
  idle h := absurd (hstate.symm.trans h) (by decide)

theorem Linked.of_executing (hstate : s.state = .executing)
    (h : inside (s.pool.units i) = true) : Linked s where
  submitted h := absurd (hstate.symm.trans h) (by decide)
  executing _ := ⟨i, h⟩
  again h := absurd h (by rw [hstate]; decide)
  revoking h := absurd (hstate.symm.trans h) (by decide)
  idle h := absurd (hstate.symm.trans h) (by decide)

theorem Linked.of_again (hstate : s.state = .resubmit ∨ s.state = .schedule)
    (h : (∃ i, runs (s.pool.units i) = true) ∨ ∃ t, (s.operations t).takesBack = true) :
    Linked s where
  submitted h := by rcases hstate with hstate | hstate <;> exact absurd (hstate.symm.trans h) nofun
  executing h := by rcases hstate with hstate | hstate <;> exact absurd (hstate.symm.trans h) nofun
  again _ := h
  revoking h := by rcases hstate with hstate | hstate <;> exact absurd (hstate.symm.trans h) nofun
  idle h := by rcases hstate with hstate | hstate <;> exact absurd (hstate.symm.trans h) nofun

theorem Linked.of_revoking (hstate : s.state = .revoking)
    (h : (s.operations t).revokes = true) : Linked s where
  submitted h := absurd (hstate.symm.trans h) (by decide)
  executing h := absurd (hstate.symm.trans h) (by decide)
  again h := absurd h (by rw [hstate]; decide)
  revoking _ := ⟨t, h⟩
  idle h := absurd (hstate.symm.trans h) (by decide)

theorem Linked.of_idle (hstate : s.state = .idle) (h : s.Running) : Linked s where
  submitted h := absurd (hstate.symm.trans h) (by decide)
  executing h := absurd (hstate.symm.trans h) (by decide)
  again h := absurd h (by rw [hstate]; decide)
  revoking h := absurd (hstate.symm.trans h) (by decide)
  idle _ := h

/-- The other entries keep what they have when one changes that had nothing. -/
theorem keeps_update {κ β : Type} [DecidableEq κ] {g : κ → β} {f : β → Bool} {x x' : κ} {v : β}
    (hx : f (g x) = false) (hx' : f (g x') = true) : f (update g x v x') = true := by
  have hne : x' ≠ x := by
    rintro rfl
    rw [hx] at hx'
    exact absurd hx' (by decide)
  rwa [update_of_ne hne]

/-- The operations that the link rests on go on. -/
def KeepsOperations (s s' : JobType) : Prop :=
  ∀ t, (s.state = .resubmit ∨ s.state = .schedule → (s.operations t).takesBack = true →
      (s'.operations t).takesBack = true) ∧
    (s.state = .revoking → (s.operations t).revokes = true → (s'.operations t).revokes = true)

theorem keepsOperations_update {op : Operation} (hop : s.operations t = op)
    (htakes : s.state = .resubmit ∨ s.state = .schedule → op.takesBack = true →
      operation.takesBack = true)
    (hrevokes : s.state = .revoking → op.revokes = true → operation.revokes = true)
    (hoperations : s'.operations = update s.operations t operation) : KeepsOperations s s' := by
  subst hop
  intro t'
  rw [hoperations]
  rcases eq_or_ne t' t with rfl | hne
  · rw [update_self]
    exact ⟨htakes, hrevokes⟩
  · rw [update_of_ne hne]
    exact ⟨fun _ h => h, fun _ h => h⟩

/-- What the link says of the minions goes on. -/
def KeepsUnits (s s' : JobType) : Prop :=
  ∀ j, (runs (s.pool.units j) = true → runs (s'.pool.units j) = true) ∧
    (s.state = .submitted → started (s'.pool.units j) = started (s.pool.units j)) ∧
    (s.state = .executing → inside (s.pool.units j) = true → inside (s'.pool.units j) = true)

theorem keepsUnits_of_eq (h : s'.pool.units = s.pool.units) : KeepsUnits s s' := by
  intro j
  rw [h]
  exact ⟨fun h => h, fun _ => rfl, fun _ h => h⟩

theorem keepsUnits_of_follows (h : ∀ j, Follows (s.pool.units j) (s'.pool.units j)) :
    KeepsUnits s s' := by
  intro j
  obtain ⟨hruns, hstarted, hinside⟩ := (h j).same
  exact ⟨hruns.trans, fun _ => hstarted, fun _ => hinside.trans⟩

theorem keepsUnits_update {phase phase' : ThreadPool.Phase Job} (hphase : s.pool.units i = phase)
    (hunits : s'.pool.units = update s.pool.units i phase') (hruns : runs phase' = true)
    (hstarted : s.state = .submitted → started phase' = started phase)
    (hinside : s.state = .executing → inside phase = true → inside phase' = true) :
    KeepsUnits s s' := by
  subst hphase
  intro j
  rw [hunits]
  rcases eq_or_ne j i with rfl | hne
  · rw [update_self]
    exact ⟨fun _ => hruns, hstarted, hinside⟩
  · rw [update_of_ne hne]
    exact ⟨fun h => h, fun _ => rfl, fun _ h => h⟩

/-- The state word stays, and tokens are taken away at most. -/
theorem Linked.same (h : Linked s) (hstate : s'.state = s.state) (hunits : KeepsUnits s s')
    (hops : KeepsOperations s s') (hle : ∀ z, s'.weight z ≤ s.weight z)
    (hkept : s.state = .submitted → ∀ z, s'.weight z = s.weight z) : Linked s' where
  submitted hs := by
    rw [hstate] at hs
    obtain ⟨z, hz, hplace⟩ := h.submitted hs
    refine ⟨z, by rwa [hkept hs], fun i hi => ?_⟩
    rw [(hunits i).2.1 hs]
    exact hplace i hi
  executing hs := by
    rw [hstate] at hs
    obtain ⟨j, hj⟩ := h.executing hs
    exact ⟨j, (hunits j).2.2 hs hj⟩
  again hs := by
    rw [hstate] at hs
    rcases h.again hs with ⟨j, hj⟩ | ⟨t, ht⟩
    · exact .inl ⟨j, (hunits j).1 hj⟩
    · exact .inr ⟨t, (hops t).1 hs ht⟩
  revoking hs := by
    rw [hstate] at hs
    obtain ⟨t, ht⟩ := h.revoking hs
    exact ⟨t, (hops t).2 hs ht⟩
  idle hs := by
    intro z hz
    obtain ⟨j, hj, hruns⟩ := h.idle (hstate ▸ hs) z (Nat.lt_of_lt_of_le hz (hle z))
    exact ⟨j, hj, (hunits j).1 hruns⟩

/-- A token moves that no minion runs. -/
theorem Linked.moves (h : Linked s) {x y : Place} (hmoves : Moves s.weight s'.weight x y)
    (hx : ∀ i, x = .unit i → runs (s.pool.units i) = false)
    (hy : ∀ i, y = .unit i → started (s'.pool.units i) = false) (hstate : s'.state = s.state)
    (hunits : ∀ j, runs (s.pool.units j) = true → s'.pool.units j = s.pool.units j)
    (hops : KeepsOperations s s') : Linked s' where
  submitted _ := ⟨y, hmoves.arrives ▸ Nat.succ_pos _, hy⟩
  executing hs := by
    obtain ⟨j, hj⟩ := h.executing (hstate ▸ hs)
    refine ⟨j, ?_⟩
    rwa [hunits j (runs_of_started (started_of_inside hj))]
  again hs := by
    rcases h.again (hstate ▸ hs) with ⟨j, hj⟩ | ⟨t, ht⟩
    · refine .inl ⟨j, ?_⟩
      rwa [hunits j hj]
    · exact .inr ⟨t, (hops t).1 (hstate ▸ hs) ht⟩
  revoking hs := by
    obtain ⟨t, ht⟩ := h.revoking (hstate ▸ hs)
    exact ⟨t, (hops t).2 (hstate ▸ hs) ht⟩
  idle hs := by
    have hpos : 0 < s.weight x := hmoves.leaves ▸ Nat.succ_pos _
    obtain ⟨i, hi, hruns⟩ := h.idle (hstate ▸ hs) x hpos
    rw [hx i hi] at hruns
    exact absurd hruns (by decide)

/-! ### One step -/

theorem Linked.foreign {pool : ThreadPool Job} (h : Linked s) (heffect : Effect s.pool pool) :
    Linked { s with pool := pool } := by
  have hops : KeepsOperations s { s with pool := pool } := fun _ => ⟨fun _ h => h, fun _ h => h⟩
  cases heffect with
  | stays hcount hunits =>
    have hweight := weight_stays hcount hunits s.state
    exact h.same rfl (keepsUnits_of_follows hunits) hops (fun z => Nat.le_of_eq (hweight z))
      fun _ => hweight
  | extracted i hcount hphase hunits =>
    refine h.moves (moves_extracted hcount hphase hunits) nofun ?_ rfl (fun j hj => ?_) hops
    · rintro _ ⟨⟩
      simp [hunits, started]
    · have hne : j ≠ i := by
        rintro rfl
        simp [hphase, runs] at hj
      simp [hunits, hne]
  | reposted i time hcount hphase hunits =>
    refine h.moves (moves_reposted hcount hphase hunits) ?_ nofun rfl (fun j hj => ?_) hops
    · rintro _ ⟨⟩
      simp [hphase, runs]
    · have hne : j ≠ i := by
        rintro rfl
        simp [hphase, runs] at hj
      simp [hunits, hne]

/-- A thread goes on, and nothing else changes. -/
theorem Linked.setOperation {op : Operation} (h : Linked s) (hop : s.operations t = op)
    (hholds : operation.holds = op.holds)
    (htakes : s.state = .resubmit ∨ s.state = .schedule → op.takesBack = true →
      operation.takesBack = true)
    (hrevokes : s.state = .revoking → op.revokes = true → operation.revokes = true) :
    Linked (s.setOperation t operation) := by
  have hweight := weight_operation (t := t) (hholds.trans (congrArg Operation.holds hop.symm))
  exact h.same rfl (keepsUnits_of_eq rfl) (keepsOperations_update hop htakes hrevokes rfl)
    (fun z => Nat.le_of_eq (hweight z)) fun _ => hweight

theorem runs_of_executing (h : Linked s) (hstate : s.state = .executing) :
    ∃ i, runs (s.pool.units i) = true := by
  obtain ⟨i, hi⟩ := h.executing hstate
  exact ⟨i, runs_of_started (started_of_inside hi)⟩

/-- Who is to go on with the job stays when another thread's operation changes. -/
theorem again_setOperation {op : Operation} (hop : s.operations t = op)
    (htakes : op.takesBack = false)
    (h : (∃ i, runs (s.pool.units i) = true) ∨ ∃ t, (s.operations t).takesBack = true) :
    (∃ i, runs (s.pool.units i) = true) ∨
      ∃ t', ((s.setOperation t operation).operations t').takesBack = true := by
  subst hop
  rcases h with hruns | ⟨t', ht'⟩
  · exact .inl hruns
  · exact .inr ⟨t', keeps_update htakes ht'⟩

theorem Linked.advance {op : Operation} {state : State} (h : Linked s)
    (hop : s.operations t = op) (hok : s.Orderly (.proceed t))
    (hadvance : Advances s.state op state operation) :
    Linked (({ s with state := state } : JobType).setOperation t operation) := by
  have hmade : ∀ {operation : Operation}, operation.holds = true →
      Linked (({ s with state := .submitted } : JobType).setOperation t operation) := by
    intro operation hholds
    refine .of_submitted (z := .held t) rfl ?_ (by rintro _ ⟨⟩)
    simp [weight, JobType.setOperation, hholds]
  have hafter : ∀ time, (afterRevoke time).holds = false := by
    intro time
    cases time <;> rfl
  cases hadvance with
  | submitHit hstate =>
    refine .of_again (.inl rfl) (again_setOperation hop rfl ?_)
    rcases hstate with hstate | hstate
    · exact .inl (runs_of_executing h hstate)
    · exact h.again (.inr hstate)
  | submitMiss hnext =>
    exact h.setOperation hop (by rcases hnext with rfl | rfl <;> rfl) (by rintro _ ⟨⟩) (by rintro _ ⟨⟩)
  | submitMake hk hstate => exact hmade rfl
  | rescheduleHit hstate =>
    refine .of_again (.inr rfl) (again_setOperation hop rfl ?_)
    rcases hstate with hstate | hstate
    · exact .inl (runs_of_executing h hstate)
    · exact h.again (.inl hstate)
  | rescheduleTake hstate =>
    refine .of_again (.inr rfl) (.inr ⟨t, ?_⟩)
    simp [JobType.setOperation, Operation.takesBack]
  | rescheduleMiss hnext =>
    exact h.setOperation hop (by rcases hnext with rfl | rfl <;> rfl) (by rintro _ ⟨⟩) (by rintro _ ⟨⟩)
  | requiredHit hstate =>
    refine .of_revoking (t := t) rfl ?_
    simp [JobType.setOperation, Operation.revokes]
  | @requiredMiss time k =>
    cases time <;> exact h.setOperation hop rfl (fun _ h => h) (by rintro _ ⟨⟩)
  | @requiredEnd time k hk hstate =>
    cases time with
    | none => exact h.setOperation hop rfl (by rintro _ ⟨⟩) (by rintro _ ⟨⟩)
    | some time =>
      -- the thread no longer takes the job back, so a minion has to go on with it
      rcases eq_or_ne s.state .resubmit with hresubmit | hne
      · have hruns : ∃ i, runs (s.pool.units i) = true := by
          by_contra hnot
          refine hok.2 ?_
          simp only [Parts, hop]
          exact ⟨hk, hresubmit, fun i => Bool.eq_false_iff.mpr fun hi => hnot ⟨i, hi⟩⟩
        exact .of_again (.inl hresubmit) (.inl hruns)
      · refine h.setOperation hop rfl (fun hagain => ?_) (by rintro _ ⟨⟩)
        rcases hagain with hresubmit | hschedule
        · exact absurd hresubmit hne
        · exact absurd hschedule hstate
  | @revokedHit time hstate =>
    refine .of_idle rfl fun z hz => ?_
    have hrunning : s.Running := by
      by_contra hnot
      refine hok.2 ?_
      simp only [Parts, hop]
      exact ⟨hstate, hnot⟩
    have hweight := weight_operation (s := { s with state := .idle }) (t := t)
      ((hafter time).trans (congrArg Operation.holds hop).symm) z
    exact hrunning z (hweight ▸ hz)
  | @revokedMiss time hstate =>
    exact h.setOperation hop (hafter time) (by rintro _ ⟨⟩) fun hrevoking => absurd hrevoking hstate
  | idleMake hstate => exact hmade rfl
  | idleMiss => exact h.setOperation hop rfl (by rintro _ ⟨⟩) (by rintro _ ⟨⟩)

theorem Linked.timerRevoke {time : Option Nat} (h : Linked s)
    (hop : s.operations t = .timerRevoke time) (hok : s.Orderly (.proceed t)) :
    Linked (({ s with timer := [] } : JobType).setOperation t (.poolRevoke time)) := by
  have hweight := weight_timerRevoke (s := s) (t := t) time (by rw [hop]; rfl)
  refine h.same rfl (keepsUnits_of_eq rfl)
    (keepsOperations_update hop nofun (fun _ _ => rfl) rfl) (fun z => ?_) fun hstate z => ?_
  · rw [hweight]
    split_ifs
    · exact Nat.zero_le _
    · exact Nat.le_refl _
  · have hempty : s.timer = [] := by
      by_contra hne
      refine hok.2 ?_
      simp only [Parts, hop]
      exact ⟨hstate, hne⟩
    rw [hweight]
    split_ifs with hz
    · rw [hz, weight, hempty]
      rfl
    · rfl

theorem Linked.poolRevoke {time : Option Nat} {pool : ThreadPool Job} (h : Linked s)
    (hop : s.operations t = .poolRevoke time) (hok : s.Orderly (.proceed t))
    (hcount : pool.queue.queue.count .this = s.pool.queue.queue.count .this - 1)
    (hunits : pool.units = s.pool.units) :
    Linked (({ s with pool := pool } : JobType).setOperation t (.revoking time)) := by
  have hweight := weight_poolRevoke (s := s) (t := t) time (by rw [hop]; rfl) hcount hunits
  refine h.same rfl (keepsUnits_of_eq hunits)
    (keepsOperations_update hop nofun (fun _ _ => rfl) rfl) (fun z => ?_) fun hstate z => ?_
  · rw [hweight]
    split_ifs
    · exact Nat.sub_le _ _
    · exact Nat.le_refl _
  · have hmissing : .this ∉ s.pool.queue.queue := by
      intro hmem
      refine hok.2 ?_
      simp only [Parts, hop]
      exact ⟨hstate, hmem⟩
    rw [hweight]
    split_ifs with hz
    · rw [hz, weight, List.count_eq_zero_of_not_mem hmissing]
    · rfl

theorem Linked.dispatch {pool : ThreadPool Job} (h : Linked s)
    (hphase : s.pool.units i = .extracted .this) (hqueue : pool.queue = s.pool.queue)
    (hunits : pool.units = update s.pool.units i (.dispatching .this (s.state = .submitted))) :
    Linked { s with
      pool := pool
      state := if s.state = .submitted then .executing else s.state } := by
  split_ifs with hstate
  · refine .of_executing (i := i) rfl ?_
    simp [hunits, inside]
  · -- `Dispatch` is left at once, and the minion goes on to `Resubmit`
    refine h.same rfl (keepsUnits_update hphase hunits rfl (fun hs => absurd hs hstate) nofun)
      (fun _ => ⟨fun _ h => h, fun _ h => h⟩)
      (weight_unit_le (by rw [hphase]; rfl) hqueue hunits _) fun hs => absurd hs hstate

/-- A minion that is done with the only proxy leaves none. -/
theorem weight_released {pool : ThreadPool Job} {k : Nat} (hlone : Lone s.weight)
    (hphase : s.pool.units i = .completing .this k) (hqueue : pool.queue = s.pool.queue)
    (hunits : pool.units = update s.pool.units i (.releasing .this)) (state : State) (z : Place) :
    ({ s with pool := pool, state := state } : JobType).weight z = 0 := by
  rw [weight_unit hqueue hunits]
  split_ifs with hz
  · rfl
  · exact hlone.eq_zero (weight_unit_pos (by rw [hphase]; rfl)) hz

theorem Linked.exchange {pool : ThreadPool Job} {k : Nat} (h : Linked s) (hlone : Lone s.weight)
    (hphase : s.pool.units i = .completing .this k) (hok : s.Orderly (.exchange i))
    (hstep : s.pool.Step (complete s.state s.time i k).2 pool) :
    Linked { s with pool := pool, state := (complete s.state s.time i k).1 } := by
  have hpos : 0 < s.weight (.unit i) := weight_unit_pos (by rw [hphase]; rfl)
  rcases complete_cases s.state s.time i k with ⟨-, -, heq⟩ | ⟨hk, hmiss, heq⟩ |
    ⟨-, -, time, heq⟩ | ⟨hk, hschedule, heq⟩ <;> rw [heq] at hstep ⊢
  · obtain ⟨hqueue, hunits⟩ := resubmit_effect hphase hstep
    refine .of_idle rfl fun z hz => ?_
    rw [weight_released hlone hphase hqueue hunits] at hz
    exact absurd hz (Nat.lt_irrefl 0)
  · obtain ⟨hqueue, hunits⟩ := attempt_effect hphase hstep
    have hcarries : carries (s.pool.units i) = true := by rw [hphase]; rfl
    have hinside : s.state = .executing →
        inside (.completing .this k) = true → inside (.completing .this (k + 1)) = true := by
      intro hstate hinside
      cases k with
      | zero => exact absurd hstate (hmiss rfl)
      | succ k => exact absurd hinside (by simp [inside])
    refine h.same rfl (keepsUnits_update hphase hunits rfl (fun _ => rfl) hinside)
      (fun _ => ⟨fun _ h => h, fun _ h => h⟩) (weight_unit_le hcarries hqueue hunits _)
      fun _ z => ?_
    · rw [weight_unit hqueue hunits]
      split_ifs with hz
      · rw [hz, weight, hcarries]
        rfl
      · rfl
  · obtain ⟨hqueue, hunits⟩ := resubmit_effect hphase hstep
    refine .of_submitted (z := .unit i) rfl ?_ ?_
    · rw [weight_unit hqueue hunits, if_pos rfl]
      exact Nat.one_pos
    · rintro _ ⟨⟩
      simp [hunits, started]
  · obtain ⟨hqueue, hunits⟩ := resubmit_effect hphase hstep
    have hnone := weight_released hlone hphase hqueue hunits s.state
    cases hstate : s.state with
    | idle =>
      refine .of_idle rfl fun z hz => ?_
      rw [hstate] at hnone
      rw [hnone] at hz
      exact absurd hz (Nat.lt_irrefl 0)
    | submitted =>
      obtain ⟨z, hz, hplace⟩ := h.submitted hstate
      have hstarted := hplace i (hlone.single z _ hz hpos)
      rw [hphase] at hstarted
      exact absurd hstarted (by simp [started])
    | executing =>
      obtain ⟨j, hj⟩ := h.executing hstate
      have hat : j = i := by
        have hruns := runs_of_started (started_of_inside hj)
        exact Place.unit.inj (hlone.single _ _ (weight_unit_pos hruns) hpos)
      rw [hat, hphase] at hj
      obtain ⟨k, rfl⟩ : ∃ k', k = k' + 1 := ⟨k - 1, by omega⟩
      exact absurd hj (by simp [inside])
    | resubmit => exact absurd ⟨hstate, k, hk, hphase⟩ hok.2
    | schedule => exact absurd hstate hschedule
    | revoking =>
      obtain ⟨t, ht⟩ := h.revoking hstate
      exact .of_revoking rfl ht

theorem linked_step {a : Action} (h : Linked s) (hlone : Lone s.weight)
    (henabled : s.pool.queue.state ≠ .disabled) (hok : s.Orderly a) (hstep : s.Step a s') :
    Linked s' := by
  cases hstep with
  | pool hforeign hstep => exact h.foreign (foreign_effect henabled hforeign hstep).2
  | begin hready hnone hbegin =>
    exact h.setOperation hnone (by rcases hbegin with rfl | ⟨time, rfl⟩ | rfl <;> rfl) nofun nofun
  | advance hadvance => exact h.advance rfl hok (advance_cases hadvance)
  | @setTime t time hop =>
    have hweight := weight_operation (s := { s with time := some time }) (t := t)
      (show Operation.none.holds = _ from (congrArg Operation.holds hop).symm)
    exact h.same rfl (keepsUnits_of_eq rfl) (keepsOperations_update hop nofun nofun rfl)
      (fun z => Nat.le_of_eq (hweight z)) fun _ => hweight
  | post hop hstep =>
    obtain ⟨-, hcount, hunits⟩ := submit_effect henabled hstep
    exact h.moves (moves_posted (by rw [hop]; rfl) hcount hunits) nofun nofun rfl
      (fun j _ => congrFun hunits j) (keepsOperations_update hop nofun nofun rfl)
  | timerRevoke hop => exact h.timerRevoke hop hok
  | poolRevoke hop hstep =>
    obtain ⟨-, hcount, hunits⟩ := revoke_effect henabled hstep
    exact h.poolRevoke hop hok hcount hunits
  | revoking hop hcall => exact h.setOperation hop rfl nofun fun _ _ => rfl
  | scheduleTimer hop =>
    exact h.moves (moves_scheduled (by rw [hop]; rfl) _) nofun nofun rfl
      (fun _ _ => rfl) (keepsOperations_update hop nofun nofun rfl)
  | scheduleSubmit hop hstep =>
    obtain ⟨-, hcount, hunits⟩ := submit_effect henabled hstep
    exact h.moves (moves_posted (by rw [hop]; rfl) hcount hunits) nofun nofun rfl
      (fun j _ => congrFun hunits j) (keepsOperations_update hop nofun nofun rfl)
  | dispatch hphase hstep =>
    obtain ⟨hqueue, hunits⟩ := dispatch_effect hphase hstep
    exact h.dispatch hphase hqueue hunits
  | exchange hphase hstep => exact h.exchange hlone hphase hok hstep
  | @reschedule i time pool hphase hstep =>
    obtain ⟨hqueue, hunits⟩ := reschedule_effect hphase hstep
    refine h.moves (moves_rescheduled hphase hqueue hunits) ?_ nofun rfl (fun j hj => ?_)
      (fun _ => ⟨fun _ h => h, fun _ h => h⟩)
    · rintro _ ⟨⟩
      rw [hphase]
      rfl
    · have hne : j ≠ i := by
        rintro rfl
        rw [hphase] at hj
        exact absurd hj (by simp [runs])
      rw [hunits, update_of_ne hne]
  | fire hhand htimer =>
    exact h.moves (moves_fired hhand htimer) nofun nofun rfl (fun _ _ => rfl)
      (fun _ => ⟨fun _ h => h, fun _ h => h⟩)
  | deliver hhand hstep =>
    obtain ⟨-, hcount, hunits⟩ := submit_effect henabled hstep
    exact h.moves (moves_delivered hhand hcount hunits) nofun nofun rfl
      (fun j _ => congrFun hunits j) (fun _ => ⟨fun _ h => h, fun _ h => h⟩)

theorem linked_new (count queueSize : Nat) (marked : 0 < queueSize) :
    Linked (new count queueSize marked) :=
  .of_idle rfl fun z hz => absurd (weight_new count queueSize marked z) (Nat.ne_of_gt hz)

theorem linked_of_orderly {count queueSize : Nat} (marked : 0 < queueSize)
    (h : Reach Step Orderly (new count queueSize marked) s) :
    (Lone s.weight ∧ s.pool.queue.state ≠ .disabled) ∧ Linked s := by
  refine h.invariant (I := fun s => (Lone s.weight ∧ s.pool.queue.state ≠ .disabled) ∧ Linked s)
    ⟨⟨Lone.zero (weight_new count queueSize marked), nofun⟩, linked_new _ _ marked⟩ ?_
  rintro s a s' ⟨⟨hlone, henabled⟩, hlinked⟩ hok hstep
  exact ⟨lone_step hlone henabled hok.1 hstep, linked_step hlinked hlone henabled hok hstep⟩

/-! ### Between the operations -/

/-- No operation on the job is in progress.  A minion may be inside the implementation. -/
def Quiet (s : JobType) : Prop :=
  (∀ t, s.operations t = .none) ∧ s.hand = false ∧
    ∀ i, s.pool.units i ≠ .extracted .this ∧ ∀ time, s.pool.units i ≠ .posting .this time

/-- How often the proxy is in the timer's list and in the queue. -/
def present (s : JobType) : Nat := s.timer.length + s.pool.queue.queue.count .this

def Settled (s : JobType) : Prop :=
  s.Quiet → (s.state = .submitted ↔ s.present = 1) ∧ (s.state = .idle → s.present = 0)

theorem present_eq : s.present = s.weight .timed + s.weight .queued := rfl

theorem present_eq_one (hlone : Lone s.weight) {z : Place} (hz : z = .timed ∨ z = .queued)
    (hpos : 0 < s.weight z) : s.present = 1 := by
  have hone := hlone.le_one z
  rw [present_eq]
  rcases hz with rfl | rfl
  · have := hlone.eq_zero hpos (z := .queued) nofun
    omega
  · have := hlone.eq_zero hpos (z := .timed) nofun
    omega

theorem exists_of_present (h : s.present = 1) :
    ∃ z, (z = .timed ∨ z = .queued) ∧ 0 < s.weight z := by
  rw [present_eq] at h
  rcases Nat.eq_zero_or_pos (s.weight .timed) with hzero | hpos
  · exact ⟨.queued, .inr rfl, by omega⟩
  · exact ⟨.timed, .inl rfl, hpos⟩

theorem extracted_or_posting {phase : ThreadPool.Phase Job} (h : carries phase = true)
    (hstarted : started phase = false) :
    phase = .extracted .this ∨ ∃ time, phase = .posting .this time := by
  unfold carries at h
  split at h
  · exact .inl rfl
  · exact absurd hstarted (by simp [started])
  · exact absurd hstarted (by simp [started])
  · exact .inr ⟨_, rfl⟩
  · exact absurd h (by decide)

/-- Between the operations a proxy that is not being run lies in the timer's list or in the queue. -/
theorem Quiet.place (h : s.Quiet) {z : Place} (hpos : 0 < s.weight z)
    (hplace : ∀ i, z = .unit i → started (s.pool.units i) = false) : z = .timed ∨ z = .queued := by
  obtain ⟨hops, hhand, hunits⟩ := h
  cases z with
  | timed => exact .inl rfl
  | queued => exact .inr rfl
  | hand => simp [weight, hhand] at hpos
  | held t => simp [weight, hops t] at hpos
  | unit i =>
    obtain ⟨hextracted, hposting⟩ := hunits i
    have hcarries : carries (s.pool.units i) = true := by
      rw [← Bool.not_eq_false]
      intro hfalse
      simp [weight, hfalse] at hpos
    rcases extracted_or_posting hcarries (hplace i rfl) with heq | ⟨time, heq⟩
    · exact absurd heq hextracted
    · exact absurd heq (hposting time)

/-- A proxy that lies elsewhere is with no minion that runs it. -/
theorem runs_of_lone (hlone : Lone s.weight) {x : Place} (hx : 0 < s.weight x)
    (hplace : ∀ i, x = .unit i → runs (s.pool.units i) = false) (i : Nat) :
    runs (s.pool.units i) = false := by
  rw [Bool.eq_false_iff]
  intro hruns
  have hat := hlone.single x (.unit i) hx (weight_unit_pos hruns)
  rw [hplace i hat] at hruns
  exact absurd hruns (by decide)

theorem settled_of_linked (hlone : Lone s.weight) (h : Linked s) : s.Settled := by
  intro hquiet
  have hops := hquiet.1
  -- a proxy in the timer's list or in the queue is the only one, so no minion runs it
  have hruns : ∀ {z : Place}, z = .timed ∨ z = .queued → 0 < s.weight z →
      ∀ i, runs (s.pool.units i) = false := by
    intro z hz hpos
    exact runs_of_lone hlone hpos (by rintro i rfl; rcases hz with hz | hz <;> exact absurd hz nofun)
  refine ⟨⟨fun hstate => ?_, fun hpresent => ?_⟩, fun hstate => ?_⟩
  · obtain ⟨z, hpos, hplace⟩ := h.submitted hstate
    exact present_eq_one hlone (hquiet.place hpos hplace) hpos
  · obtain ⟨z, hz, hpos⟩ := exists_of_present hpresent
    have hnone := hruns hz hpos
    have hagain : ¬ ((∃ i, runs (s.pool.units i) = true) ∨ ∃ t, (s.operations t).takesBack = true) := by
      rintro (⟨i, hi⟩ | ⟨t, ht⟩)
      · exact absurd hi (by rw [hnone]; decide)
      · exact absurd ht (by rw [hops]; decide)
    cases hstate : s.state with
    | submitted => rfl
    | idle =>
      obtain ⟨i, -, hi⟩ := h.idle hstate z hpos
      exact absurd hi (by rw [hnone]; decide)
    | executing => exact absurd (.inl (runs_of_executing h hstate)) hagain
    | resubmit => exact absurd (h.again (.inl hstate)) hagain
    | schedule => exact absurd (h.again (.inr hstate)) hagain
    | revoking =>
      obtain ⟨t, ht⟩ := h.revoking hstate
      exact absurd ht (by rw [hops]; decide)
  · have hzero : ∀ z, (z = .timed ∨ z = .queued) → s.weight z = 0 := by
      rintro z hz
      rcases Nat.eq_zero_or_pos (s.weight z) with hzero | hpos
      · exact hzero
      · obtain ⟨i, rfl, -⟩ := h.idle hstate z hpos
        rcases hz with hz | hz <;> exact absurd hz nofun
    rw [present_eq, hzero _ (.inl rfl), hzero _ (.inr rfl)]

end Thunder.Core.JobType
