import Thunder.Library.Run
import Thunder.Plugins.VirtualInput
import Mathlib.Data.BitVec

/-! The locks of `VirtualInput::KeyEvent` and of the `RepeatKeyTimer`.  Any threads make key events,
and any threads of the pool run the job of the timer; what a thread does under a lock without
waiting in between is one step. -/

namespace Thunder.PluginHost

open Function Run

namespace KeyRepeat

/-- What `DispatchRegisteredKey` asks of the timer: `Reset` for a release, and `Arm` for a press,
with the code that was looked up. -/
inductive TimerCall
  | reset
  | arm (code pressed : BitVec 32)

/-- Where a thread is in `KeyEvent`.  From `sending` on it holds `_lock`; `revoking` is the `Revoke`
of `Arm`, and `arming` is behind it. -/
inductive Caller
  | idle
  | entering (pressed : Bool) (key : VirtualInput.Key)
  | sending (calls : List TimerCall)
  | revoking (code pressed : BitVec 32) (calls : List TimerCall)
  | arming (code pressed : BitVec 32) (calls : List TimerCall)

/-- Where a thread of the pool is in `Dispatch`.  From `dispatching` on it holds `_adminLock`; at
the `limit` it waits for `_lock`, which it holds while `releasing`. -/
inductive Firing
  | idle
  | entering
  | dispatching
  | limit
  | releasing
  | scheduling

/-- `θ` are the threads of the key events and `κ` those of the pool. -/
structure Locks (θ κ : Type) where
  lock : Option (θ ⊕ κ)
  adminLock : Option κ
  callers : θ → Caller
  firings : κ → Firing
  code : BitVec 32
  pressedCode : BitVec 32
  repeatCounter : BitVec 16

inductive Action (θ κ : Type)
  | call (t : θ) (pressed : Bool) (key : VirtualInput.Key)
  | lock (t : θ)
  | reset (t : θ)
  | arm (t : θ)
  | revoked (t : θ) (queued : Bool)
  | armed (t : θ)
  | unlock (t : θ)
  | fire (k : κ)
  | enter (k : κ)
  | repeatKey (k : κ)
  | release (k : κ)
  | released (k : κ)
  | leave (k : κ)

namespace Locks

open VirtualInput

variable {θ κ : Type} [DecidableEq θ] [DecidableEq κ]

def new : Locks θ κ := ⟨none, none, fun _ => .idle, fun _ => .idle, noCode, noCode, 0⟩

/-- What `KeyEvent` asks of the timer, with the code that is pressed when it gets `_lock`. -/
def calls (c : Config) (pressedCode : BitVec 32) (pressed : Bool) (key : Key) : List TimerCall :=
  match (c.mappingTables key.table).or c.defaultMap with
  | none => []
  | some conversionTable =>
    let sendCode := (conversionTable.convert key.code).2
    if pressed = false ∧ pressedCode ≠ sendCode ∧ c.isModifier sendCode = false then []
    else if sendCode ≠ noCode then
      if pressed then
        (if pressedCode ≠ noCode ∧ c.isModifier pressedCode = false then [.reset] else []) ++
          (if c.lookedUp sendCode ≠ noCode then [.arm (c.lookedUp sendCode) sendCode] else [])
      else [.reset]
    else []

def setCaller (s : Locks θ κ) (t : θ) (caller : Caller) : Locks θ κ :=
  { s with callers := update s.callers t caller }

def setFiring (s : Locks θ κ) (k : κ) (firing : Firing) : Locks θ κ :=
  { s with firings := update s.firings k firing }

/-- The steps.  `Revoke` returns when it has found the job in the queue, or when nobody runs it. -/
inductive Step (c : Config) (s : Locks θ κ) : Action θ κ → Locks θ κ → Prop
  | call {t : θ} {pressed : Bool} {key : Key} (hidle : s.callers t = .idle) :
    Step c s (.call t pressed key) (s.setCaller t (.entering pressed key))
  | lock {t : θ} {pressed : Bool} {key : Key} (hcaller : s.callers t = .entering pressed key)
    (hfree : s.lock = none) :
    Step c s (.lock t)
      { s.setCaller t (.sending (calls c s.pressedCode pressed key)) with lock := some (.inl t) }
  | reset {t : θ} {rest : List TimerCall} (hcaller : s.callers t = .sending (.reset :: rest))
    (hfree : s.adminLock = none) :
    Step c s (.reset t)
      { s.setCaller t (.sending rest) with code := noCode, pressedCode := noCode }
  | arm {t : θ} {code pressed : BitVec 32} {rest : List TimerCall}
    (hcaller : s.callers t = .sending (.arm code pressed :: rest)) (hstart : c.startTime ≠ 0) :
    Step c s (.arm t)
      { s.setCaller t (.revoking code pressed rest) with repeatCounter := c.repeatLimit }
  | armNot {t : θ} {code pressed : BitVec 32} {rest : List TimerCall}
    (hcaller : s.callers t = .sending (.arm code pressed :: rest)) (hstart : c.startTime = 0) :
    Step c s (.arm t)
      { s.setCaller t (.sending rest) with repeatCounter := c.repeatLimit, pressedCode := pressed }
  | revoked {t : θ} {code pressed : BitVec 32} {rest : List TimerCall} {queued : Bool}
    (hcaller : s.callers t = .revoking code pressed rest)
    (hdone : queued = true ∨ ∀ k, s.firings k = .idle) :
    Step c s (.revoked t queued) (s.setCaller t (.arming code pressed rest))
  | armed {t : θ} {code pressed : BitVec 32} {rest : List TimerCall}
    (hcaller : s.callers t = .arming code pressed rest) (hfree : s.adminLock = none) :
    Step c s (.armed t)
      { s.setCaller t (.sending rest) with code := code, pressedCode := pressed }
  | unlock {t : θ} (hcaller : s.callers t = .sending []) :
    Step c s (.unlock t) { s.setCaller t .idle with lock := none }
  | fire {k : κ} (hidle : s.firings k = .idle) : Step c s (.fire k) (s.setFiring k .entering)
  | enter {k : κ} (hfiring : s.firings k = .entering) (hfree : s.adminLock = none) :
    Step c s (.enter k)
      { s.setFiring k (if s.code ≠ noCode then .dispatching else .scheduling) with
        adminLock := some k }
  | repeatKey {k : κ} (hfiring : s.firings k = .dispatching) :
    Step c s (.repeatKey k)
      { s.setFiring k (if s.repeatCounter - 1 = 0 then .limit else .scheduling) with
        repeatCounter := s.repeatCounter - 1 }
  | release {k : κ} (hfiring : s.firings k = .limit) (hfree : s.lock = none) :
    Step c s (.release k) { s.setFiring k .releasing with lock := some (.inr k) }
  | released {k : κ} (hfiring : s.firings k = .releasing) :
    Step c s (.released k)
      { s.setFiring k .scheduling with
        code := if s.pressedCode ≠ noCode then noCode else s.code
        pressedCode := noCode
        lock := none }
  | leave {k : κ} (hfiring : s.firings k = .scheduling) :
    Step c s (.leave k) { s.setFiring k .idle with adminLock := none }

/-! ### What is claimed of it -/

end Locks

/-- The next thing that a caller with `_lock` does is to wait for the timer, at `Reset`, in `Revoke`
or for `_adminLock` behind it. -/
def Caller.waits : Caller → Bool
  | .sending (.reset :: _) | .revoking .. | .arming .. => true
  | _ => false

/-- What makes a caller wait: `Arm` does nothing without a start time. -/
def TimerCall.blocks (c : VirtualInput.Config) : TimerCall → Bool
  | .reset => true
  | .arm .. => c.startTime ≠ 0

/-- The caller has a wait for the timer ahead. -/
def Caller.ahead (c : VirtualInput.Config) : Caller → Bool
  | .sending calls => calls.any (·.blocks c)
  | .revoking .. | .arming .. => true
  | _ => false

namespace Locks

open VirtualInput

variable {θ κ : Type} [DecidableEq θ] [DecidableEq κ]

/-- A key event waits for the timer, and the job of the timer for the lock of this key event. -/
def Deadlock (s : Locks θ κ) : Prop :=
  ∃ t k, s.lock = some (.inl t) ∧ (s.callers t).waits = true ∧ s.firings k = .limit

/-- The job does not get to the repeat limit while the key event with `_lock` has a wait for the
timer ahead, and a key event that has one does not get `_lock` while the job waits for it. -/
def Apart (c : Config) (s : Locks θ κ) : Action θ κ → Prop
  | .lock t => ∀ pressed key, s.callers t = .entering pressed key →
      (calls c s.pressedCode pressed key).any (·.blocks c) = true → ∀ k, s.firings k ≠ .limit
  | .repeatKey _ => s.repeatCounter = 1 → ∀ t, s.lock = some (.inl t) →
      (s.callers t).ahead c = false
  | _ => True

/-! ### The steps -/

variable {c : Config} {s s' : Locks θ κ} {t : θ} {k : κ}

omit [DecidableEq κ] in
@[simp] theorem setCaller_self (caller : Caller) : (s.setCaller t caller).callers t = caller :=
  update_self ..

omit [DecidableEq κ] in
theorem setCaller_of_ne {t' : θ} (hne : t' ≠ t) (caller : Caller) :
    (s.setCaller t caller).callers t' = s.callers t' := update_of_ne hne ..

omit [DecidableEq θ] in
@[simp] theorem setFiring_self (firing : Firing) : (s.setFiring k firing).firings k = firing :=
  update_self ..

omit [DecidableEq θ] in
theorem setFiring_of_ne {k' : κ} (hne : k' ≠ k) (firing : Firing) :
    (s.setFiring k firing).firings k' = s.firings k' := update_of_ne hne ..

theorem waits_ahead {caller : Caller} (h : caller.waits = true) : caller.ahead c = true := by
  cases caller with
  | sending calls =>
    cases calls with
    | nil => cases h
    | cons call calls =>
      cases call with
      | reset => rfl
      | arm => cases h
  | idle | entering => cases h
  | revoking | arming => rfl

/-- While the job waits for `_lock`, the key event that holds it has no wait for the timer ahead. -/
def Passing (c : Config) (s : Locks θ κ) : Prop :=
  ∀ t k, s.lock = some (.inl t) → s.firings k = .limit → (s.callers t).ahead c = false

omit [DecidableEq κ] in
theorem Passing.setCaller (h : s.Passing c) (t : θ) {caller : Caller}
    (hahead : caller.ahead c = true → (s.callers t).ahead c = true) :
    (s.setCaller t caller).Passing c := by
  intro t' k hlock hlimit
  rcases eq_or_ne t' t with rfl | hne
  · have hfalse := h t' k hlock hlimit
    rw [setCaller_self]
    by_contra htrue
    rw [hahead (by simpa using htrue)] at hfalse
    cases hfalse
  · rw [setCaller_of_ne hne]
    exact h t' k hlock hlimit

omit [DecidableEq θ] in
theorem Passing.setFiring (h : s.Passing c) (k : κ) {firing : Firing} (hlimit : firing ≠ .limit) :
    (s.setFiring k firing).Passing c := by
  intro t k' hlock hat
  refine h t k' hlock ?_
  rcases eq_or_ne k' k with rfl | hne
  · rw [setFiring_self] at hat
    exact absurd hat hlimit
  · rwa [setFiring_of_ne hne] at hat

theorem Passing.step {a : Action θ κ} (h : s.Passing c) (hapart : s.Apart c a)
    (hstep : Step c s a s') : s'.Passing c := by
  cases hstep with
  | call => exact h.setCaller _ nofun
  | @lock t pressed key hcaller hfree =>
    intro t' k hlock hlimit
    obtain rfl : t = t' := Sum.inl.inj (Option.some.inj hlock)
    by_contra htrue
    rw [Bool.not_eq_false] at htrue
    simp only [setCaller_self] at htrue
    exact hapart pressed key hcaller htrue k hlimit
  | reset hcaller hfree =>
    refine h.setCaller _ fun _ => ?_
    rw [hcaller]
    rfl
  | arm hcaller hstart =>
    refine h.setCaller _ fun _ => ?_
    rw [hcaller]
    exact Bool.or_eq_true_iff.mpr (.inl (decide_eq_true hstart))
  | armNot hcaller hstart =>
    refine h.setCaller _ fun hahead => ?_
    rw [hcaller]
    exact Bool.or_eq_true_iff.mpr (.inr hahead)
  | revoked hcaller hdone =>
    refine h.setCaller _ fun _ => ?_
    rw [hcaller]
    rfl
  | armed hcaller hfree =>
    refine h.setCaller _ fun _ => ?_
    rw [hcaller]
    rfl
  | unlock => exact nofun
  | fire => exact h.setFiring _ nofun
  | enter hfiring hfree =>
    refine h.setFiring _ ?_
    split_ifs <;> exact nofun
  | @repeatKey k hfiring =>
    by_cases hzero : s.repeatCounter - 1 = 0
    · intro t k' hlock hlimit
      exact hapart (sub_eq_zero.mp hzero) t hlock
    · rw [if_neg hzero]
      exact h.setFiring _ nofun
  | release => exact nofun
  | released => exact nofun
  | leave => exact h.setFiring _ nofun

/-! ### Deadlocks -/

/-- A key event that has a wait for the timer ahead gets there by itself, and then nobody moves. -/
theorem deadlock_of_sending (calls : List TimerCall) (hlock : s.lock = some (.inl t))
    (hcaller : s.callers t = .sending calls) (hahead : calls.any (·.blocks c) = true)
    (hlimit : s.firings k = .limit) :
    ∃ s', Reach (Step c) (fun _ _ => True) s s' ∧ s'.Deadlock := by
  induction calls generalizing s with
  | nil => cases hahead
  | cons call rest ih =>
    cases call with
    | reset => exact ⟨s, .start, t, k, hlock, by rw [hcaller]; rfl, hlimit⟩
    | arm code pressed =>
      by_cases hstart : c.startTime = 0
      · have hrest : rest.any (·.blocks c) = true := by
          simpa [TimerCall.blocks, hstart] using hahead
        have hstep : Step c s (.arm t)
            { s.setCaller t (.sending rest) with
              repeatCounter := c.repeatLimit, pressedCode := pressed } := .armNot hcaller hstart
        obtain ⟨s', hreach, hdead⟩ := ih (s := { s.setCaller t (.sending rest) with
          repeatCounter := c.repeatLimit, pressedCode := pressed }) hlock (setCaller_self _) hrest
          hlimit
        exact ⟨s', (Reach.start.step trivial hstep).trans hreach, hdead⟩
      · refine ⟨_, Reach.start.step trivial (.arm hcaller hstart), t, k, hlock, ?_, hlimit⟩
        simp [Caller.waits]

/-- Where the two are not passing each other a deadlock follows. -/
theorem deadlock_of_not_passing (h : ¬ s.Passing c) :
    ∃ s', Reach (Step c) (fun _ _ => True) s s' ∧ s'.Deadlock := by
  simp only [Passing, not_forall, Bool.not_eq_false] at h
  obtain ⟨t, k, hlock, hlimit, hahead⟩ := h
  cases hcaller : s.callers t with
  | idle | entering =>
    rw [hcaller] at hahead
    cases hahead
  | sending calls =>
    rw [hcaller] at hahead
    exact deadlock_of_sending calls hlock hcaller hahead hlimit
  | revoking | arming => exact ⟨s, .start, t, k, hlock, by rw [hcaller]; rfl, hlimit⟩

theorem not_passing_of_not_apart {a : Action θ κ} (hstep : Step c s a s') (h : ¬ s.Apart c a) :
    ¬ s'.Passing c := by
  cases hstep with
  | @lock t pressed key hcaller hfree =>
    intro hpassing
    refine h fun pressed' key' hcaller' hahead k hlimit => ?_
    cases hcaller.symm.trans hcaller'
    have hfalse := hpassing t k rfl hlimit
    simp only [setCaller_self] at hfalse
    exact absurd hahead (by simpa [Caller.ahead] using hfalse)
  | @repeatKey k hfiring =>
    intro hpassing
    refine h fun hcounter t hlock => ?_
    refine hpassing t k hlock ?_
    simp [hcounter]
  | call | reset | arm | armNot | revoked | armed | unlock | fire | enter | release | released |
    leave => exact absurd trivial h

/-- No deadlock is reached while the job and the key events keep apart, and every step in which they
do not leads to one. -/
theorem deadlock_exact (c : Config) :
    (∀ s : Locks θ κ, Reach (Step c) (Apart c) new s → ¬ s.Deadlock) ∧
    ∀ (s s' : Locks θ κ) (a : Action θ κ), Step c s a s' → ¬ s.Apart c a →
      ∃ s'', Reach (Step c) (fun _ _ => True) s' s'' ∧ s''.Deadlock := by
  constructor
  · rintro s hreach ⟨t, k, hlock, hwaits, hlimit⟩
    have hpassing : s.Passing c := hreach.invariant nofun fun _ _ _ h => h.step
    have hfalse := hpassing t k hlock hlimit
    rw [waits_ahead hwaits] at hfalse
    cases hfalse
  · exact fun s s' a hstep hnot => deadlock_of_not_passing (not_passing_of_not_apart hstep hnot)

/-- Every key goes through as it is, and repeats once. -/
def limitConfig : Config where
  mappingTables _ := none
  defaultMap := some ⟨fun _ => none, true⟩
  conversions := []
  key _ := 42
  startTime := 500
  repeatLimit := 1

def limitKey : Key := ⟨30, ""⟩

/-- The key is released while the job gets to the repeat limit. -/
theorem deadlock_reached : ¬ ∀ (c : Config) (s : Locks Unit Unit),
    Reach (Step c) (fun _ _ => True) new s → ¬ s.Deadlock := by
  intro h
  have hnew : Reach (Step limitConfig) (fun _ _ => True) (new : Locks Unit Unit) new := .start
  have hcall := hnew.step (a := .call () true limitKey) trivial (.call rfl)
  have hlock := hcall.step (a := .lock ()) trivial (.lock rfl rfl)
  have harm := hlock.step (a := .arm ()) trivial (.arm rfl (by decide))
  have hrevoked := harm.step (a := .revoked () false) trivial (.revoked rfl (.inr fun _ => rfl))
  have harmed := hrevoked.step (a := .armed ()) trivial (.armed rfl rfl)
  have hunlock := harmed.step (a := .unlock ()) trivial (.unlock rfl)
  have hfire := hunlock.step (a := .fire ()) trivial (.fire rfl)
  have henter := hfire.step (a := .enter ()) trivial (.enter rfl rfl)
  have hlimit := henter.step (a := .repeatKey ()) trivial (.repeatKey rfl)
  have hcall' := hlimit.step (a := .call () false limitKey) trivial (.call rfl)
  have hlock' := hcall'.step (a := .lock ()) trivial (.lock rfl rfl)
  exact h limitConfig _ hlock' ⟨(), (), rfl, rfl, rfl⟩

end Locks

end KeyRepeat

end Thunder.PluginHost
