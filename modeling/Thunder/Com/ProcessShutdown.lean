import Thunder.Library.Run
import Thunder.Library.Threads
import Mathlib.Data.List.Basic
import Mathlib.Data.List.Count
import Mathlib.Data.List.Nodup
import Mathlib.Tactic.SplitIfs

/-! `ProcessShutdown`: the processes that are to end, softly first.  An entry goes by the id of its
connection; threads in `ForceDestruct` are those of an arbitrary type. -/

namespace Thunder.RPC

open Function Threads

/-- A `LocalProcess`.  `signals` are those that `Worker` has sent, the last one first: whether it
was a hard one, and when.  `taken` and `given` count the references of the map, `reported` the
calls of `Terminated` and `left` how often the entry was erased. -/
structure Entry where
  parent : Nat
  active : Bool
  cycle : Nat := 0
  time : Nat := 0
  signals : List (Bool × Nat) := []
  taken : Nat := 0
  given : Nat := 0
  reported : Nat := 0
  left : Nat := 0

/-- `Communicator::SoftKillCheckWaitTime` and `HardKillCheckWaitTime`, in seconds. -/
structure WaitTimes where
  soft : Nat
  hard : Nat

namespace Entry

def isTerminated (e : Entry) : Bool := e.cycle = 255

/-- What `EndProcess` returns: how long to wait for a signal that was sent, or 0. -/
def endProcess (e : Entry) (w : WaitTimes) : Nat :=
  if e.active then (if e.cycle = 0 then w.soft else w.hard) else 0

def nextCycle (e : Entry) : Entry := { e with cycle := (e.cycle + 1) % 256 }

/-- The counter is set to all ones, and the observers are told. -/
def terminated (e : Entry) : Entry := { e with cycle := 255, reported := e.reported + 1 }

/-- `Destruct()` in one go, where the process ignores the signals of some rounds. -/
def destruct (w : WaitTimes) : Nat → Entry → Entry
  | 0, e => { e with active := false }.terminated
  | rounds + 1, e => if e.endProcess w = 0 then e.terminated else destruct w rounds e.nextCycle

end Entry

/-- How far a thread is in `ForceDestruct` of an entry that it has found. -/
inductive ProcessShutdown.Phase
  | forcing
  | ended
  | reported
  | released
  deriving DecidableEq

/-- How far `Worker` is: it has read the clock, or holds the lock with entries to look at. -/
inductive ProcessShutdown.Worker
  | idle
  | started (now : Nat)
  | locked (now : Nat) (remaining : List Nat)

/-- The map, all entries, the threads in `ForceDestruct`, the ids that a `ForceDestruct` has not
found and the worker.  `used` records the uses of an entry that the map has no reference of any
more. -/
structure ProcessShutdown (τ : Type) where
  clock : Nat
  destructors : List Nat
  entries : Nat → Entry
  forces : τ → Option (ProcessShutdown.Phase × Nat)
  missed : List Nat
  worker : ProcessShutdown.Worker
  used : List Nat

namespace ProcessShutdown

/-- Time passes, a process ends, and what is called: each section under the lock and each step
outside of it is one action. -/
inductive Action (τ : Type)
  | pass (ticks : Nat)
  | ends (id : Nat)
  | destruct (id : Nat)
  | force (t : τ) (id : Nat)
  | forceRound (t : τ) (id : Nat)
  | forceReport (t : τ) (id : Nat)
  | forceRelease (t : τ) (id : Nat)
  | forceErase (t : τ) (id : Nat)
  | forceMissed (id : Nat)
  | waitForCompletion (parent : Nat) (rounds : Nat → Nat)
  | workerStart
  | workerLock
  | workerEntry (ticks : Nat)
  | workerDone

variable {τ : Type} [DecidableEq τ]

/-- The processes at first, some of which are active. -/
def new (τ : Type) (parent : Nat → Nat) (active : Nat → Bool) : ProcessShutdown τ where
  clock := 0
  destructors := []
  entries id := { parent := parent id, active := active id }
  forces _ := none
  missed := []
  worker := .idle
  used := []

def unlocked (s : ProcessShutdown τ) : Bool :=
  match s.worker with
  | .locked .. => false
  | _ => true

def change (s : ProcessShutdown τ) (id : Nat) (f : Entry → Entry) : ProcessShutdown τ :=
  { s with entries := update s.entries id (f (s.entries id)) }

/-- A use of an entry. -/
def use (s : ProcessShutdown τ) (id : Nat) : ProcessShutdown τ :=
  { s with used := if (s.entries id).taken = (s.entries id).given then id :: s.used else s.used }

def goes (s : ProcessShutdown τ) (t : τ) (phase : Option (Phase × Nat)) : ProcessShutdown τ :=
  { s with forces := update s.forces t phase }

/-- An entry is erased from the map, where it is there. -/
def erase (s : ProcessShutdown τ) (id : Nat) : ProcessShutdown τ :=
  if id ∈ s.destructors then
    { s.change id fun e => { e with left := e.left + 1 } with
      destructors := s.destructors.erase id }
  else s

def destruct (s : ProcessShutdown τ) (id : Nat) : ProcessShutdown τ :=
  if (s.entries id).isTerminated = false ∧ id ∉ s.destructors then
    { s.change id fun e => { e with taken := e.taken + 1 } with destructors := id :: s.destructors }
  else s

def waitForCompletion (w : WaitTimes) (s : ProcessShutdown τ) (parent : Nat) (rounds : Nat → Nat) :
    ProcessShutdown τ :=
  { s with
    entries := fun id =>
      if id ∈ s.destructors ∧ (s.entries id).parent = parent then
        { (s.entries id).destruct w (rounds id) with left := (s.entries id).left + 1 }
      else s.entries id
    destructors := s.destructors.filter fun id => (s.entries id).parent ≠ parent
    used := s.destructors.filter (fun id => (s.entries id).taken = (s.entries id).given) ++ s.used }

/-- `Destruct(now)` of an entry: a signal and the time of the next look, or the end. -/
def destructTimed (w : WaitTimes) (s : ProcessShutdown τ) (now : Nat) (id : Nat) (ticks : Nat) :
    ProcessShutdown τ × Nat :=
  let e := s.entries id
  if e.time ≤ now then
    let delay := e.endProcess w
    let e := if e.active then { e with signals := (e.cycle ≠ 0, s.clock) :: e.signals } else e
    if delay = 0 then ({ s with entries := update s.entries id e.terminated }, now)
    else
      let timeSlot := s.clock + ticks
      ({ s with
        clock := timeSlot
        entries := update s.entries id
          { e.nextCycle with time := timeSlot + delay * 1000 * 1000 } }, timeSlot)
  else (s, now)

/-- A turn of the loop of `Worker`. -/
def workerEntry (w : WaitTimes) (s : ProcessShutdown τ) (now : Nat) (id : Nat)
    (remaining : List Nat)
    (ticks : Nat) : ProcessShutdown τ :=
  let r := destructTimed w (s.use id) now id ticks
  let s := { r.1 with worker := .locked r.2 remaining }
  if (s.entries id).isTerminated then
    (s.change id fun e => { e with given := e.given + 1 }).erase id
  else s

def step (w : WaitTimes) (s : ProcessShutdown τ) : Action τ → Option (ProcessShutdown τ)
  | .pass ticks => some { s with clock := s.clock + ticks }
  | .ends id => some (s.change id fun e => { e with active := false })
  | .destruct id => if s.unlocked then some (s.destruct id) else none
  | .force t id =>
    if s.forces t = none ∧ s.unlocked = true then
      some (if id ∈ s.destructors then s.goes t (some (.forcing, id))
        else { s with missed := id :: s.missed })
    else none
  | .forceRound t id =>
    if s.forces t = some (.forcing, id) then
      some (if (s.entries id).endProcess w ≠ 0 then (s.use id).change id Entry.nextCycle
        else (s.use id).goes t (some (.ended, id)))
    else none
  | .forceReport t id =>
    if s.forces t = some (.ended, id) then
      some (((s.use id).change id Entry.terminated).goes t (some (.reported, id)))
    else none
  | .forceRelease t id =>
    if s.forces t = some (.reported, id) then
      some (((s.use id).change id fun e => { e with given := e.given + 1 }).goes t
        (some (.released, id)))
    else none
  | .forceErase t id =>
    if s.forces t = some (.released, id) ∧ s.unlocked = true then some ((s.erase id).goes t none)
    else none
  | .forceMissed id =>
    if id ∈ s.missed ∧ s.unlocked = true then
      some { s.erase id with missed := s.missed.erase id }
    else none
  | .waitForCompletion parent rounds =>
    if s.unlocked then some (s.waitForCompletion w parent rounds) else none
  | .workerStart =>
    match s.worker with
    | .idle => some { s with worker := .started s.clock }
    | _ => none
  | .workerLock =>
    match s.worker with
    | .started now => some { s with worker := .locked now s.destructors }
    | _ => none
  | .workerEntry ticks =>
    match s.worker with
    | .locked now (id :: remaining) => some (s.workerEntry w now id remaining ticks)
    | _ => none
  | .workerDone =>
    match s.worker with
    | .locked _ [] => some { s with worker := .idle }
    | _ => none

/-! ### What is claimed of it -/

/-- Of the signals of `Worker` the first one is soft, and all others are hard and come later by the
soft waiting time at least. -/
def Gentle (w : WaitTimes) (signals : List (Bool × Nat)) : Prop :=
  signals = [] ∨ ∃ hard first, signals = hard ++ [(false, first)] ∧
    ∀ signal ∈ hard, signal.1 = true ∧ first + w.soft * 1000 * 1000 ≤ signal.2

/-- Each entry is shut down once, and gently first.  The map has one reference of an entry, but for
the time between the release and the erase of a `ForceDestruct`. -/
structure Sound (w : WaitTimes) (s : ProcessShutdown τ) : Prop where
  held : ∀ id ∈ s.destructors, (∀ t, s.forces t ≠ some (.released, id)) →
    (s.entries id).taken = (s.entries id).given + 1
  given : ∀ id, id ∉ s.destructors → (s.entries id).taken = (s.entries id).left ∧
    (s.entries id).given = (s.entries id).left
  unused : s.used = []
  reported : ∀ id, (s.entries id).reported ≤ 1 ∧
    ((s.entries id).left ≠ 0 → (s.entries id).reported = 1)
  ended : ∀ id, (s.entries id).reported ≠ 0 ∨ (s.entries id).left ≠ 0 →
    (s.entries id).active = false
  gentle : ∀ id, Gentle w (s.entries id).signals

/-- Nobody is in `ForceDestruct` of an entry. -/
def Unforced (s : ProcessShutdown τ) (id : Nat) : Prop := ∀ t phase, s.forces t ≠ some (phase, id)

/-- `ForceDestruct` is alone with an entry that it has found, and its second section finds one that
the first one has not found only where another thread has given back the reference;
`WaitForCompletion` finds no entry of its parent, nor one that a `ForceDestruct` has released.  No
waiting time of a signal is zero. `Worker` has counted all of the cycles of an entry that it sends
a signal to, but for the soft one, and does not get to 255; and it finds no entry of a
`ForceDestruct` whose process has ended or that is terminated. -/
def Proper (w : WaitTimes) (s : ProcessShutdown τ) : Action τ → Prop
  | .force _ id => id ∈ s.destructors → s.Unforced id
  | .forceRound _ id => (s.entries id).active = true → (s.entries id).endProcess w ≠ 0
  | .forceMissed id => id ∈ s.destructors → ∃ t, s.forces t = some (.released, id)
  | .waitForCompletion parent _ => ∀ id ∈ s.destructors,
    (s.entries id).parent ≠ parent ∧ ∀ t, s.forces t ≠ some (.released, id)
  | .workerEntry _ => ∀ now id remaining, s.worker = .locked now (id :: remaining) →
    if (s.entries id).time ≤ now then
      if (s.entries id).active = true then
        (s.entries id).cycle ≠ 254 ∧ (s.entries id).endProcess w ≠ 0 ∧
          ((s.entries id).cycle = 0 ↔ (s.entries id).signals = [])
      else s.Unforced id
    else (s.entries id).isTerminated = false
  | _ => True

/-! ### One entry -/

/-- What there is of one entry. -/
structure View (τ : Type) where
  entries : Nat
  entry : Entry
  used : Nat
  phase : τ → Option Phase

def view (s : ProcessShutdown τ) (id : Nat) : View τ where
  entries := s.destructors.count id
  entry := s.entries id
  used := s.used.count id
  phase t := phaseAt id (s.forces t)

/-- The references of the map that were taken and given back, the reports and the erases. -/
def Counts (e : Entry) (taken given reported left : Nat) : Prop :=
  e.taken = taken ∧ e.given = given ∧ e.reported = reported ∧ e.left = left

/-- The next signal of `Worker` is not due before the soft waiting time is over. -/
def Timed (w : WaitTimes) (e : Entry) : Prop :=
  e.signals = [] ∨ ∃ hard first, e.signals = hard ++ [(false, first)] ∧
    (∀ signal ∈ hard, signal.1 = true ∧ first + w.soft * 1000 * 1000 ≤ signal.2) ∧
    first + w.soft * 1000 * 1000 ≤ e.time

/-- An entry in a `ForceDestruct`, and how often it is in the map. -/
def Forced (e : Entry) (entries : Nat) : Phase → Prop
  | .forcing => Counts e 1 0 0 0 ∧ entries = 1
  | .ended => Counts e 1 0 0 0 ∧ entries = 1 ∧ e.active = false
  | .reported => Counts e 1 0 1 0 ∧ entries = 1 ∧ e.active = false ∧ e.cycle = 255
  | .released => Counts e 1 1 1 (1 - entries) ∧ entries ≤ 1 ∧ e.active = false ∧ e.cycle = 255

/-- An entry is not there yet, or `Worker` looks after it, or one thread forces it, or it is gone.
-/
inductive View.Valid (w : WaitTimes) : View τ → Prop
  | absent (parent : Nat) (active : Bool) : Valid w ⟨0, { parent, active }, 0, fun _ => none⟩
  | waiting (e : Entry) (hcounts : Counts e 1 0 0 0) (hcycle : e.cycle < 255) (htimed : Timed w e)
    (hcycles : e.cycle = 0 ↔ e.signals = []) : Valid w ⟨1, e, 0, fun _ => none⟩
  | forced (t : τ) (phase : Phase) (e : Entry) (n : Nat) (hforced : Forced e n phase)
    (hcycle : e.cycle < 256) (htimed : Timed w e) :
    Valid w ⟨n, e, 0, update (fun _ => none) t (some phase)⟩
  | gone (e : Entry) (hcounts : Counts e 1 1 1 1) (hactive : e.active = false)
    (hcycle : e.cycle = 255) (htimed : Timed w e) : Valid w ⟨0, e, 0, fun _ => none⟩

/-- The time of `Worker` is not in the future, and what it has left to look at is in the map. -/
def WorkerValid (s : ProcessShutdown τ) : Prop :=
  match s.worker with
  | .idle => True
  | .started now => now ≤ s.clock
  | .locked now remaining => now ≤ s.clock ∧ remaining.Nodup ∧ ∀ id ∈ remaining, id ∈ s.destructors

structure Inv (w : WaitTimes) (s : ProcessShutdown τ) : Prop where
  valid : ∀ id, (s.view id).Valid w
  worker : s.WorkerValid

section

variable {w : WaitTimes} {s s' : ProcessShutdown τ} {e : Entry} {t : τ} {id : Nat} {phase : Phase}

omit [DecidableEq τ] in
theorem Timed.gentle (h : Timed w e) : Gentle w e.signals := by
  rcases h with hnil | ⟨hard, first, heq, hhard, -⟩
  · exact .inl hnil
  · exact .inr ⟨hard, first, heq, hhard⟩

omit [DecidableEq τ] in
theorem WorkerValid.of_same (h : s.WorkerValid) (hworker : s'.worker = s.worker)
    (hclock : s.clock ≤ s'.clock) (hdestructors : s'.destructors = s.destructors) :
    s'.WorkerValid := by
  rw [WorkerValid] at h ⊢
  rw [hworker, hdestructors]
  cases hw : s.worker with
  | idle => trivial
  | started now =>
    rw [hw] at h
    exact Nat.le_trans h hclock
  | locked now remaining =>
    rw [hw] at h
    exact ⟨Nat.le_trans h.1 hclock, h.2⟩

omit [DecidableEq τ] in
theorem WorkerValid.of_unlocked (h : s.WorkerValid) (hunlocked : s.unlocked = true)
    (hworker : s'.worker = s.worker) (hclock : s'.clock = s.clock) : s'.WorkerValid := by
  rw [WorkerValid] at h ⊢
  rw [unlocked] at hunlocked
  rw [hworker, hclock]
  cases hw : s.worker with
  | idle => trivial
  | started now =>
    rw [hw] at h
    exact h
  | locked now remaining =>
    rw [hw] at hunlocked
    cases hunlocked

theorem Inv.of_one (h : Inv w s) (id : Nat) (hothers : ∀ x, x ≠ id → s'.view x = s.view x)
    (hvalid : (s'.view id).Valid w) (hworker : s'.WorkerValid) : Inv w s' := by
  refine ⟨fun x => ?_, hworker⟩
  rcases eq_or_ne x id with rfl | hne
  · exact hvalid
  · rw [hothers x hne]
    exact h.valid x

omit [DecidableEq τ] in
theorem mem_destructors : id ∈ s.destructors ↔ (s.view id).entries ≠ 0 := by
  rw [view, ← Nat.pos_iff_ne_zero, List.count_pos_iff]

/-- The entry of a thread in `ForceDestruct`. -/
theorem Inv.busy (h : Inv w s) (ht : s.forces t = some (phase, id)) :
    ∃ e n, Forced e n phase ∧ e.cycle < 256 ∧ Timed w e ∧
      s.view id = ⟨n, e, 0, update (fun _ => none) t (some phase)⟩ := by
  have hphase : (s.view id).phase t = some phase := (congrArg (phaseAt id) ht).trans phaseAt_self
  have hvalid := h.valid id
  revert hphase
  generalize s.view id = v at hvalid
  cases hvalid with
  | absent | waiting | gone => exact nofun
  | forced t' phase' e n hforced hcycle htimed =>
    intro hphase
    obtain ⟨rfl, rfl⟩ := alone hphase
    exact ⟨e, n, hforced, hcycle, htimed, rfl⟩

/-- An entry of the map that nobody forces. -/
theorem Inv.of_unforced (h : Inv w s) (hmem : id ∈ s.destructors) (hfree : s.Unforced id) :
    ∃ e, Counts e 1 0 0 0 ∧ e.cycle < 255 ∧ Timed w e ∧ s.view id = ⟨1, e, 0, fun _ => none⟩ := by
  have hnone : ∀ t, (s.view id).phase t = none := by
    intro t
    refine Option.eq_none_iff_forall_ne_some.mpr fun phase hphase => ?_
    exact hfree t phase (phaseAt_eq_some.mp hphase)
  rw [mem_destructors] at hmem
  have hvalid := h.valid id
  revert hmem hnone
  generalize s.view id = v at hvalid
  cases hvalid with
  | absent | gone => exact fun hmem => absurd rfl hmem
  | waiting e hcounts hcycle htimed => exact fun _ _ => ⟨e, hcounts, hcycle, htimed, rfl⟩
  | forced t' phase' e =>
    intro _ hnone
    have hself : update (fun _ => none) t' (some phase') t' = some phase' := update_self ..
    cases (hnone t').symm.trans hself

/-- An entry of the map that no `ForceDestruct` has released has its reference. -/
theorem Inv.held (h : Inv w s) (hmem : id ∈ s.destructors)
    (hnot : ∀ t, s.forces t ≠ some (.released, id)) :
    (s.entries id).taken = (s.entries id).given + 1 := by
  have hphase : ∀ t, (s.view id).phase t ≠ some .released :=
    fun t heq => hnot t (phaseAt_eq_some.mp heq)
  rw [mem_destructors] at hmem
  change (s.view id).entry.taken = (s.view id).entry.given + 1
  have hvalid := h.valid id
  revert hmem hphase
  generalize s.view id = v at hvalid
  cases hvalid with
  | absent | gone => exact fun hmem => absurd rfl hmem
  | waiting e hcounts =>
    intro _ _
    obtain ⟨htaken, hgiven, -⟩ := hcounts
    change e.taken = e.given + 1
    rw [htaken, hgiven]
  | forced t phase e n hforced =>
    intro _ hphase
    change e.taken = e.given + 1
    cases phase with
    | forcing => rw [hforced.1.1, hforced.1.2.1]
    | ended => rw [hforced.1.1, hforced.1.2.1]
    | reported => rw [hforced.1.1, hforced.1.2.1]
    | released =>
      have hself : update (fun _ => none) t (some Phase.released) t = some .released :=
        update_self ..
      exact (hphase t hself).elim

omit [DecidableEq τ] in
theorem view_change_self {f : Entry → Entry} :
    (s.change id f).view id = { s.view id with entry := f (s.view id).entry } := by
  simp [view, change]

omit [DecidableEq τ] in
theorem view_change_of_ne {f : Entry → Entry} {x : Nat} (hne : x ≠ id) :
    (s.change id f).view x = s.view x := by
  simp [view, change, hne]

theorem view_goes_self {p : Option Phase} : (s.goes t (p.map (·, id))).view id =
    { s.view id with phase := update (s.view id).phase t p } := by
  have hp : phaseAt id (p.map (·, id)) = p := by cases p <;> simp
  simp only [view, goes, phase_update, hp]

/-- A thread that is at an entry, or comes to it, seen from another entry. -/
theorem view_goes_of_ne {p : Option Phase} {x : Nat} (hne : x ≠ id)
    (hbefore : ∀ z phase, s.forces t = some (phase, z) → z = id) :
    (s.goes t (p.map (·, id))).view x = s.view x := by
  have hphase := phase_other s.forces (t := t) hne hbefore (p := p.map (·, id)) (by
    intro z phase hz
    cases p <;> cases hz
    rfl)
  rw [view, view, goes, hphase]

omit [DecidableEq τ] in
theorem use_eq (hrefs : (s.entries id).taken ≠ (s.entries id).given) : s.use id = s := by
  rw [use, if_neg hrefs]

/-- A process ends by itself. -/
theorem Inv.ends (h : Inv w s) : Inv w (s.change id fun e => { e with active := false }) := by
  refine h.of_one id (fun x hne => view_change_of_ne hne) ?_
    (h.worker.of_same rfl (Nat.le_refl _) rfl)
  rw [view_change_self]
  have hvalid := h.valid id
  generalize s.view id = v at hvalid
  cases hvalid with
  | absent parent active => exact .absent parent false
  | waiting e hcounts hcycle htimed hcycles => exact .waiting _ hcounts hcycle htimed hcycles
  | forced t phase e n hforced hcycle htimed =>
    refine .forced t phase _ n ?_ hcycle htimed
    cases phase with
    | forcing => exact hforced
    | ended => exact ⟨hforced.1, hforced.2.1, rfl⟩
    | reported => exact ⟨hforced.1, hforced.2.1, rfl, hforced.2.2.2⟩
    | released => exact ⟨hforced.1, hforced.2.1, rfl, hforced.2.2.2⟩
  | gone e hcounts _ hcycle htimed => exact .gone _ hcounts rfl hcycle htimed

theorem Inv.destruct (h : Inv w s) (hunlocked : s.unlocked = true) : Inv w (s.destruct id) := by
  rw [ProcessShutdown.destruct]
  split_ifs with hnew
  · obtain ⟨hterminated, hmem⟩ := hnew
    refine h.of_one id (fun x hne => ?_) ?_ (h.worker.of_unlocked hunlocked rfl rfl)
    · simp [view, change, hne, hne.symm]
    · have hview : view { s.change id fun e => { e with taken := e.taken + 1 } with
            destructors := id :: s.destructors } id =
          { s.view id with
            entries := (s.view id).entries + 1
            entry := { (s.view id).entry with taken := (s.view id).entry.taken + 1 } } := by
        simp [view, change]
      rw [hview]
      rw [mem_destructors, not_not] at hmem
      replace hterminated : (s.view id).entry.isTerminated = false := hterminated
      have hvalid := h.valid id
      revert hmem hterminated
      generalize s.view id = v at hvalid
      cases hvalid with
      | absent parent active =>
        exact fun _ _ => .waiting _ ⟨rfl, rfl, rfl, rfl⟩ (by decide : 0 < 255) (.inl rfl) (by simp)
      | waiting => rintro ⟨⟩
      | forced t phase e n hforced =>
        intro hmem hterminated
        rw [Entry.isTerminated, decide_eq_false_iff_not] at hterminated
        cases phase with
        | forcing => exact absurd (hforced.2.symm.trans hmem) Nat.one_ne_zero
        | ended => exact absurd (hforced.2.1.symm.trans hmem) Nat.one_ne_zero
        | reported => exact absurd (hforced.2.1.symm.trans hmem) Nat.one_ne_zero
        | released => exact absurd hforced.2.2.2 hterminated
      | gone e _ _ hcycle =>
        intro _ hterminated
        rw [Entry.isTerminated, decide_eq_false_iff_not] at hterminated
        exact absurd hcycle hterminated
  · exact h

theorem Inv.force (h : Inv w s) (ht : s.forces t = none) (hmem : id ∈ s.destructors)
    (hfree : s.Unforced id) : Inv w (s.goes t (some (.forcing, id))) := by
  obtain ⟨e, hcounts, hcycle, htimed, hview⟩ := h.of_unforced hmem hfree
  refine h.of_one id (fun x hne => ?_) ?_ (h.worker.of_same rfl (Nat.le_refl _) rfl)
  · exact view_goes_of_ne (p := some .forcing) hne (by rw [ht]; exact nofun)
  · rw [show s.goes t (some (.forcing, id)) = s.goes t ((some .forcing).map (·, id)) from rfl,
      view_goes_self, hview]
    exact .forced t .forcing e 1 ⟨hcounts, rfl⟩ (Nat.lt_succ_of_lt hcycle) htimed

omit [DecidableEq τ] in
theorem forces_before (ht : s.forces t = some (phase, id)) :
    ∀ z phase', s.forces t = some (phase', z) → z = id := by
  rw [ht]
  rintro z phase' ⟨⟩
  rfl

/-- A thread in `ForceDestruct` goes on with its entry. -/
theorem Inv.goes (h : Inv w s) (ht : s.forces t = some (phase, id)) {f : Entry → Entry}
    {phase' : Phase}
    (hforced : ∀ e n, s.entries id = e → Forced e n phase → Forced (f e) n phase')
    (hcycle : ∀ e, e.cycle < 256 → (f e).cycle < 256)
    (hsignals : ∀ e, (f e).signals = e.signals ∧ (f e).time = e.time) :
    Inv w ((s.change id f).goes t (some (phase', id))) := by
  obtain ⟨e, n, he, hlt, htimed, hview⟩ := h.busy ht
  have hentry : s.entries id = e := congrArg View.entry hview
  refine h.of_one id (fun x hne => ?_) ?_ (h.worker.of_same rfl (Nat.le_refl _) rfl)
  · have hgoes := view_goes_of_ne (s := s.change id f) (p := some phase') hne (forces_before ht)
    exact hgoes.trans (view_change_of_ne hne)
  · rw [show (s.change id f).goes t (some (phase', id)) =
        (s.change id f).goes t ((some phase').map (·, id)) from rfl,
      view_goes_self, view_change_self, hview, update_idem]
    refine .forced t phase' _ n (hforced e n hentry he) (hcycle e hlt) ?_
    rw [Timed, (hsignals e).1, (hsignals e).2]
    exact htimed

omit [DecidableEq τ] in
theorem view_erase_self : (s.erase id).view id =
    if id ∈ s.destructors then
      { s.view id with
        entries := (s.view id).entries - 1
        entry := { (s.view id).entry with left := (s.view id).entry.left + 1 } }
    else s.view id := by
  rw [erase]
  split_ifs with hmem
  · simp [view, change]
  · rfl

omit [DecidableEq τ] in
theorem view_erase_of_ne {x : Nat} (hne : x ≠ id) : (s.erase id).view x = s.view x := by
  rw [erase]
  split_ifs
  · simp [view, change, hne, List.count_erase_of_ne]
  · rfl

omit [DecidableEq τ] in
theorem erase_same (s : ProcessShutdown τ) (id : Nat) :
    (s.erase id).forces = s.forces ∧ (s.erase id).worker = s.worker ∧
    (s.erase id).clock = s.clock := by
  rw [erase]
  split_ifs <;> exact ⟨rfl, rfl, rfl⟩

/-- The erase of an entry whose reference a `ForceDestruct` has given back. -/
theorem Inv.erase_released (h : Inv w s) (ht : s.forces t = some (.released, id)) :
    ∃ e, Counts e 1 1 1 1 ∧ e.active = false ∧ e.cycle = 255 ∧ Timed w e ∧
      (s.erase id).view id = ⟨0, e, 0, update (fun _ => none) t (some .released)⟩ := by
  obtain ⟨e, n, ⟨⟨htaken, hgiven, hreported, hleft⟩, hn, hactive, hcycle⟩, -, htimed, hview⟩ :=
    h.busy ht
  rw [view_erase_self]
  split_ifs with hmem
  · rw [mem_destructors, hview] at hmem
    have hone : n = 1 := by
      replace hmem : n ≠ 0 := hmem
      omega
    subst hone
    refine ⟨{ e with left := e.left + 1 },
      ⟨htaken, hgiven, hreported, congrArg (· + 1) hleft⟩, hactive, hcycle, htimed, ?_⟩
    rw [hview]
    rfl
  · rw [mem_destructors, not_not, hview] at hmem
    replace hmem : n = 0 := hmem
    subst hmem
    exact ⟨e, ⟨htaken, hgiven, hreported, hleft⟩, hactive, hcycle, htimed, hview⟩

theorem Inv.forceErase (h : Inv w s) (ht : s.forces t = some (.released, id))
    (hunlocked : s.unlocked = true) : Inv w ((s.erase id).goes t none) := by
  obtain ⟨hforces, hworker, hclock⟩ := erase_same s id
  obtain ⟨e, hcounts, hactive, hcycle, htimed, herased⟩ := h.erase_released ht
  refine h.of_one id (fun x hne => ?_) ?_ (h.worker.of_unlocked hunlocked hworker hclock)
  · have hgoes := view_goes_of_ne (s := s.erase id) (p := none) hne
      (forces_before ((congrFun hforces t).trans ht))
    exact hgoes.trans (view_erase_of_ne hne)
  · rw [show (s.erase id).goes t none = (s.erase id).goes t (Option.map (·, id) none) from rfl,
      view_goes_self, herased, update_idem, update_eq_self_iff.mpr rfl]
    exact .gone e hcounts hactive hcycle htimed

theorem Inv.forceMissed (h : Inv w s) (hunlocked : s.unlocked = true)
    (hok : id ∈ s.destructors → ∃ t, s.forces t = some (.released, id)) :
    Inv w { s.erase id with missed := s.missed.erase id } := by
  obtain ⟨-, hworker, hclock⟩ := erase_same s id
  refine h.of_one id (fun x hne => view_erase_of_ne hne) ?_
    (h.worker.of_unlocked hunlocked hworker hclock)
  change ((s.erase id).view id).Valid w
  by_cases hmem : id ∈ s.destructors
  · obtain ⟨t, ht⟩ := hok hmem
    obtain ⟨e, hcounts, hactive, hcycle, htimed, herased⟩ := h.erase_released ht
    rw [herased]
    refine .forced t .released e 0 ⟨hcounts, Nat.zero_le 1, hactive, hcycle⟩ ?_ htimed
    rw [hcycle]
    decide
  · rw [erase, if_neg hmem]
    exact h.valid id

/-- The entries of `WaitForCompletion` are not there, so it does nothing. -/
theorem Inv.waitForCompletion (h : Inv w s) {parent : Nat} {rounds : Nat → Nat}
    (hnone : ∀ id ∈ s.destructors,
      (s.entries id).parent ≠ parent ∧ ∀ t, s.forces t ≠ some (.released, id)) :
    Inv w (s.waitForCompletion w parent rounds) := by
  have hused :
      s.destructors.filter (fun id => (s.entries id).taken = (s.entries id).given) = [] := by
    rw [List.filter_eq_nil_iff]
    intro id hid
    rw [decide_eq_true_eq, h.held hid (hnone id hid).2]
    exact Nat.succ_ne_self _
  have hsame : s.waitForCompletion w parent rounds = s := by
    rw [ProcessShutdown.waitForCompletion, hused]
    congr 1
    · rw [List.filter_eq_self]
      intro id hid
      exact decide_eq_true (hnone id hid).1
    · funext id
      exact if_neg fun hid => (hnone id hid.1).1 hid.2
  rw [hsame]
  exact h

theorem Inv.nodup (h : Inv w s) : s.destructors.Nodup := by
  rw [List.nodup_iff_count_le_one]
  intro id
  change (s.view id).entries ≤ 1
  have hvalid := h.valid id
  generalize s.view id = v at hvalid
  cases hvalid with
  | forced t phase e n hforced => cases phase <;> simp_all [Forced]
  | _ => simp

section

variable {now ticks : Nat} {remaining : List Nat}

omit [DecidableEq τ] in
/-- The entry of a turn in which it is not due yet. -/
theorem workerEntry_early (hrefs : (s.entries id).taken ≠ (s.entries id).given)
    (hearly : now < (s.entries id).time) (hterminated : (s.entries id).isTerminated = false) :
    s.workerEntry w now id remaining ticks = { s with worker := .locked now remaining } := by
  have hdue : ¬ (s.entries id).time ≤ now := Nat.not_le.mpr hearly
  simp [workerEntry, use_eq hrefs, destructTimed, hdue, hterminated]

/-- An active entry that is due gets a signal. -/
def signalled (w : WaitTimes) (clock ticks : Nat) (e : Entry) : Entry :=
  { e with
    cycle := (e.cycle + 1) % 256
    time := clock + ticks + e.endProcess w * 1000 * 1000
    signals := (e.cycle ≠ 0, clock) :: e.signals }

omit [DecidableEq τ] in
theorem workerEntry_signal (hrefs : (s.entries id).taken ≠ (s.entries id).given)
    (hdue : (s.entries id).time ≤ now) (hactive : (s.entries id).active = true)
    (hdelay : (s.entries id).endProcess w ≠ 0) (hcycle : ((s.entries id).cycle + 1) % 256 ≠ 255) :
    s.workerEntry w now id remaining ticks =
      { s with
        clock := s.clock + ticks
        entries := update s.entries id (signalled w s.clock ticks (s.entries id))
        worker := .locked (s.clock + ticks) remaining } := by
  simp [workerEntry, use_eq hrefs, destructTimed, hdue, hactive, hdelay, Entry.isTerminated,
    Entry.nextCycle, hcycle, signalled]

omit [DecidableEq τ] in
theorem workerEntry_end (hrefs : (s.entries id).taken ≠ (s.entries id).given)
    (hdue : (s.entries id).time ≤ now) (hactive : (s.entries id).active = false)
    (hmem : id ∈ s.destructors) :
    s.workerEntry w now id remaining ticks =
      { s.change id fun e =>
          { e.terminated with given := e.given + 1, left := e.left + 1 } with
        destructors := s.destructors.erase id
        worker := .locked now remaining } := by
  simp [workerEntry, use_eq hrefs, destructTimed, hdue, hactive, Entry.isTerminated,
    Entry.endProcess, Entry.terminated, change, erase, hmem]

theorem Inv.early (h : Inv w s) (hworker : s.worker = .locked now (id :: remaining))
    (hrefs : (s.entries id).taken ≠ (s.entries id).given)
    (hearly : now < (s.entries id).time) (hterminated : (s.entries id).isTerminated = false) :
    Inv w (s.workerEntry w now id remaining ticks) := by
  rw [workerEntry_early hrefs hearly hterminated]
  have hvalid := h.worker
  rw [WorkerValid, hworker] at hvalid
  obtain ⟨hclock, hnodup, hmem⟩ := hvalid
  exact ⟨h.valid, hclock, hnodup.of_cons, fun x hx => hmem x (List.mem_cons_of_mem _ hx)⟩

/-- The signal of a turn comes later than the first one by the soft waiting time. -/
theorem Timed.signalled {clock : Nat} (h : Timed w e) (hcycles : e.cycle = 0 ↔ e.signals = [])
    (hactive : e.active = true) (hdue : e.time ≤ clock) : Timed w (signalled w clock ticks e) := by
  rcases h with hnil | ⟨hard, first, heq, hhard, htime⟩
  · have hzero := hcycles.mpr hnil
    refine .inr ⟨[], clock, by simp [ProcessShutdown.signalled, hzero, hnil], nofun, ?_⟩
    simp only [ProcessShutdown.signalled, Entry.endProcess, hactive, hzero, if_true]
    omega
  · have hcycle : e.cycle ≠ 0 := by
      intro hzero
      have hnil := hcycles.mp hzero
      rw [heq] at hnil
      exact absurd hnil (List.concat_ne_nil _ _)
    refine .inr ⟨(true, clock) :: hard, first, by simp [ProcessShutdown.signalled, hcycle, heq],
      ?_, ?_⟩
    · intro signal hsignal
      rcases List.mem_cons.mp hsignal with rfl | hsignal
      · exact ⟨rfl, Nat.le_trans htime hdue⟩
      · exact hhard signal hsignal
    · refine Nat.le_trans (Nat.le_trans htime hdue) ?_
      rw [ProcessShutdown.signalled, Nat.add_assoc]
      exact Nat.le_add_right ..

/-- An active entry of the map has its reference, and a signal leaves it valid. -/
theorem View.Valid.signalled {v : View τ} {clock : Nat} (h : v.Valid w) (ticks : Nat)
    (hentries : v.entries ≠ 0)
    (hactive : v.entry.active = true) (hcycle : v.entry.cycle ≠ 254)
    (hcycles : v.entry.cycle = 0 ↔ v.entry.signals = []) (hdue : v.entry.time ≤ clock) :
    v.entry.taken = 1 ∧ v.entry.given = 0 ∧ v.entry.cycle < 256 ∧
      View.Valid w { v with entry := ProcessShutdown.signalled w clock ticks v.entry } := by
  cases h with
  | absent | gone => exact absurd rfl hentries
  | waiting e hcounts hlt htimed _ =>
    have hnext : (e.cycle + 1) % 256 = e.cycle + 1 := Nat.mod_eq_of_lt (by omega)
    refine ⟨hcounts.1, hcounts.2.1, Nat.lt_succ_of_lt hlt, ?_⟩
    refine .waiting _ hcounts ?_ (htimed.signalled hcycles hactive hdue) ?_
    · change (e.cycle + 1) % 256 < 255
      replace hcycle : e.cycle ≠ 254 := hcycle
      omega
    · simp [ProcessShutdown.signalled, hnext]
  | forced t phase e n hforced hlt htimed =>
    cases phase with
    | forcing =>
      refine ⟨hforced.1.1, hforced.1.2.1, hlt, ?_⟩
      refine .forced t .forcing _ n hforced ?_ (htimed.signalled hcycles hactive hdue)
      exact Nat.mod_lt _ (by decide)
    | ended => cases hactive.symm.trans hforced.2.2
    | reported => cases hactive.symm.trans hforced.2.2.1
    | released => cases hactive.symm.trans hforced.2.2.1

theorem Inv.signal (h : Inv w s) (hworker : s.worker = .locked now (id :: remaining))
    (hdue : (s.entries id).time ≤ now) (hactive : (s.entries id).active = true)
    (hcycle : (s.entries id).cycle ≠ 254) (hdelay : (s.entries id).endProcess w ≠ 0)
    (hcycles : (s.entries id).cycle = 0 ↔ (s.entries id).signals = []) :
    Inv w (s.workerEntry w now id remaining ticks) := by
  have hvalid := h.worker
  rw [WorkerValid, hworker] at hvalid
  obtain ⟨hclock, hnodup, hmem⟩ := hvalid
  obtain ⟨htaken, hgiven, hlt, hsignalled⟩ := (h.valid id).signalled ticks
    (mem_destructors.mp (hmem id List.mem_cons_self)) hactive hcycle hcycles
    (Nat.le_trans hdue hclock)
  replace htaken : (s.entries id).taken = 1 := htaken
  replace hgiven : (s.entries id).given = 0 := hgiven
  replace hlt : (s.entries id).cycle < 256 := hlt
  rw [workerEntry_signal (by rw [htaken, hgiven]; exact Nat.one_ne_zero) hdue hactive hdelay
    (by omega)]
  refine h.of_one id (fun x hne => ?_) ?_ ?_
  · simp [view, hne]
  · have hnew : view { s with
          clock := s.clock + ticks
          entries := update s.entries id (signalled w s.clock ticks (s.entries id))
          worker := .locked (s.clock + ticks) remaining } id =
        { s.view id with entry := signalled w s.clock ticks (s.view id).entry } := by
      simp [view]
    rw [hnew]
    exact hsignalled
  · exact ⟨Nat.le_refl _, hnodup.of_cons, fun x hx => hmem x (List.mem_cons_of_mem _ hx)⟩

theorem Inv.endTurn (h : Inv w s) (hworker : s.worker = .locked now (id :: remaining))
    (hfree : s.Unforced id) (hdue : (s.entries id).time ≤ now)
    (hactive : (s.entries id).active = false) :
    Inv w (s.workerEntry w now id remaining ticks) := by
  have hvalid := h.worker
  rw [WorkerValid, hworker] at hvalid
  obtain ⟨hclock, hnodup, hmem⟩ := hvalid
  have hid := hmem id List.mem_cons_self
  obtain ⟨e, ⟨htaken, hgiven, hreported, hleft⟩, -, htimed, hview⟩ := h.of_unforced hid hfree
  have hentry : s.entries id = e := congrArg View.entry hview
  rw [workerEntry_end (by rw [hentry, htaken, hgiven]; exact Nat.one_ne_zero) hdue hactive hid]
  refine h.of_one id (fun x hne => ?_) ?_ ?_
  · simp [view, change, hne, List.count_erase_of_ne]
  · have hnew : view { s.change id fun e =>
            { e.terminated with given := e.given + 1, left := e.left + 1 } with
          destructors := s.destructors.erase id
          worker := .locked now remaining } id =
        { s.view id with
          entries := (s.view id).entries - 1
          entry := { (s.view id).entry.terminated with
            given := (s.view id).entry.given + 1
            left := (s.view id).entry.left + 1 } } := by
      simp [view, change]
    rw [hnew, hview]
    refine .gone _ ⟨htaken, congrArg (· + 1) hgiven, congrArg (· + 1) hreported,
      congrArg (· + 1) hleft⟩ ?_ rfl htimed
    rw [hentry] at hactive
    exact hactive
  · refine ⟨hclock, hnodup.of_cons, fun x hx => ?_⟩
    have hne : x ≠ id := fun heq => (List.nodup_cons.mp hnodup).1 (heq ▸ hx)
    exact (List.mem_erase_of_ne hne).mpr (hmem x (List.mem_cons_of_mem _ hx))

end

theorem Inv.refs (h : Inv w s) (ht : s.forces t = some (phase, id)) (hphase : phase ≠ .released) :
    s.use id = s := by
  obtain ⟨e, n, he, -, -, hview⟩ := h.busy ht
  have hentry : s.entries id = e := congrArg View.entry hview
  have hrefs : e.taken = 1 ∧ e.given = 0 := by
    cases phase with
    | forcing => exact ⟨he.1.1, he.1.2.1⟩
    | ended => exact ⟨he.1.1, he.1.2.1⟩
    | reported => exact ⟨he.1.1, he.1.2.1⟩
    | released => exact absurd rfl hphase
  exact use_eq (by rw [hentry, hrefs.1, hrefs.2]; exact Nat.one_ne_zero)

theorem Inv.forceRound (h : Inv w s) (ht : s.forces t = some (.forcing, id))
    (hok : (s.entries id).active = true → (s.entries id).endProcess w ≠ 0) :
    Inv w (if (s.entries id).endProcess w ≠ 0 then (s.use id).change id Entry.nextCycle
      else (s.use id).goes t (some (.ended, id))) := by
  rw [h.refs ht nofun]
  split_ifs with hdelay
  · have hsame : (s.change id Entry.nextCycle).goes t (some (.forcing, id)) =
        s.change id Entry.nextCycle := by
      rw [ProcessShutdown.goes, show (s.change id Entry.nextCycle).forces = s.forces from rfl, ← ht,
        update_eq_self]
      rfl
    rw [← hsame]
    exact h.goes ht (fun _ _ _ hforced => hforced) (fun _ _ => Nat.mod_lt _ (by decide))
      fun _ => ⟨rfl, rfl⟩
  · have hsame : s.change id (fun e => e) = s := by
      rw [change, update_eq_self]
    rw [← hsame]
    refine h.goes ht (fun e n heq hforced => ⟨hforced.1, hforced.2, ?_⟩) (fun _ hlt => hlt)
      fun _ => ⟨rfl, rfl⟩
    rw [heq] at hok hdelay
    exact Bool.eq_false_iff.mpr fun hactive => hdelay (hok hactive)

/-- An entry of the map that is not terminated has its reference. -/
theorem Inv.refs_of_mem (h : Inv w s) (hmem : id ∈ s.destructors)
    (hterminated : (s.entries id).isTerminated = false) :
    (s.entries id).taken ≠ (s.entries id).given := by
  rw [h.held hmem fun t ht => ?_]
  · exact Nat.succ_ne_self _
  · obtain ⟨e, n, ⟨-, -, -, hcycle⟩, -, -, hview⟩ := h.busy ht
    rw [Entry.isTerminated, decide_eq_false_iff_not,
      show s.entries id = e from congrArg View.entry hview] at hterminated
    exact hterminated hcycle

theorem Inv.workerTurn {now ticks : Nat} {remaining : List Nat} (h : Inv w s)
    (hworker : s.worker = .locked now (id :: remaining))
    (hok : if (s.entries id).time ≤ now then
        if (s.entries id).active = true then
          (s.entries id).cycle ≠ 254 ∧ (s.entries id).endProcess w ≠ 0 ∧
            ((s.entries id).cycle = 0 ↔ (s.entries id).signals = [])
        else s.Unforced id
      else (s.entries id).isTerminated = false) :
    Inv w (s.workerEntry w now id remaining ticks) := by
  split_ifs at hok with hdue hactive
  · exact h.signal hworker hdue hactive hok.1 hok.2.1 hok.2.2
  · exact h.endTurn hworker hok hdue (Bool.not_eq_true _ ▸ hactive)
  · have hvalid := h.worker
    rw [WorkerValid, hworker] at hvalid
    exact h.early hworker (h.refs_of_mem (hvalid.2.2 id List.mem_cons_self) hok)
      (Nat.lt_of_not_le hdue) hok

/-- A proper step keeps what there is of each entry. -/
theorem Inv.step {a : Action τ} (h : Inv w s) (hok : s.Proper w a) (hstep : s.step w a = some s') :
    Inv w s' := by
  cases a with
  | pass ticks =>
    cases hstep
    exact ⟨h.valid, h.worker.of_same rfl (Nat.le_add_right ..) rfl⟩
  | ends id =>
    cases hstep
    exact h.ends
  | destruct id =>
    simp only [ProcessShutdown.step, Option.ite_none_right_eq_some, Option.some.injEq] at hstep
    exact hstep.2 ▸ h.destruct hstep.1
  | force t id =>
    simp only [ProcessShutdown.step, Option.ite_none_right_eq_some, Option.some.injEq] at hstep
    obtain ⟨⟨ht, -⟩, rfl⟩ := hstep
    split_ifs with hmem
    · exact h.force ht hmem (hok hmem)
    · exact ⟨h.valid, h.worker.of_same rfl (Nat.le_refl _) rfl⟩
  | forceRound t id =>
    simp only [ProcessShutdown.step, Option.ite_none_right_eq_some, Option.some.injEq] at hstep
    exact hstep.2 ▸ h.forceRound hstep.1 hok
  | forceReport t id =>
    simp only [ProcessShutdown.step, Option.ite_none_right_eq_some, Option.some.injEq] at hstep
    obtain ⟨ht, rfl⟩ := hstep
    rw [h.refs ht nofun]
    refine h.goes ht (fun e n _ hforced => ?_) (fun _ _ => (by decide : 255 < 256))
      fun _ => ⟨rfl, rfl⟩
    obtain ⟨⟨htaken, hgiven, hreported, hleft⟩, hn, hactive⟩ := hforced
    exact ⟨⟨htaken, hgiven, congrArg (· + 1) hreported, hleft⟩, hn, hactive, rfl⟩
  | forceRelease t id =>
    simp only [ProcessShutdown.step, Option.ite_none_right_eq_some, Option.some.injEq] at hstep
    obtain ⟨ht, rfl⟩ := hstep
    rw [h.refs ht nofun]
    refine h.goes ht (fun e n _ hforced => ?_) (fun _ hlt => hlt) fun _ => ⟨rfl, rfl⟩
    obtain ⟨⟨htaken, hgiven, hreported, hleft⟩, rfl, hended⟩ := hforced
    exact ⟨⟨htaken, congrArg (· + 1) hgiven, hreported, hleft⟩, Nat.le_refl 1, hended⟩
  | forceErase t id =>
    simp only [ProcessShutdown.step, Option.ite_none_right_eq_some, Option.some.injEq] at hstep
    exact hstep.2 ▸ h.forceErase hstep.1.1 hstep.1.2
  | forceMissed id =>
    simp only [ProcessShutdown.step, Option.ite_none_right_eq_some, Option.some.injEq] at hstep
    exact hstep.2 ▸ h.forceMissed hstep.1.2 hok
  | waitForCompletion parent rounds =>
    simp only [ProcessShutdown.step, Option.ite_none_right_eq_some, Option.some.injEq] at hstep
    exact hstep.2 ▸ h.waitForCompletion hok
  | workerStart =>
    rw [ProcessShutdown.step] at hstep
    split at hstep
    · cases hstep
      exact ⟨h.valid, Nat.le_refl _⟩
    · cases hstep
  | workerLock =>
    rw [ProcessShutdown.step] at hstep
    have hvalid := h.worker
    rw [WorkerValid] at hvalid
    split at hstep
    next hworker =>
      cases hstep
      rw [hworker] at hvalid
      exact ⟨h.valid, hvalid, h.nodup, fun _ hx => hx⟩
    · cases hstep
  | workerEntry ticks =>
    rw [ProcessShutdown.step] at hstep
    split at hstep
    next now id remaining hworker =>
      cases hstep
      exact h.workerTurn hworker (hok now id remaining hworker)
    · cases hstep
  | workerDone =>
    rw [ProcessShutdown.step] at hstep
    split at hstep
    · cases hstep
      exact ⟨h.valid, trivial⟩
    · cases hstep

theorem inv_new (w : WaitTimes) (parent : Nat → Nat) (active : Nat → Bool) :
    Inv w (new τ parent active) :=
  ⟨fun id => .absent (parent id) (active id), trivial⟩

theorem Inv.sound (h : Inv w s) : s.Sound w where
  held id hmem hnot := h.held hmem hnot
  given id hmem := by
    rw [mem_destructors, not_not] at hmem
    change (s.view id).entry.taken = (s.view id).entry.left ∧
      (s.view id).entry.given = (s.view id).entry.left
    have hvalid := h.valid id
    revert hmem
    generalize s.view id = v at hvalid
    cases hvalid with
    | absent => exact fun _ => ⟨rfl, rfl⟩
    | waiting => exact nofun
    | forced t phase e n hforced => cases phase <;> simp_all [Forced, Counts]
    | gone e hcounts =>
      obtain ⟨htaken, hgiven, -, hleft⟩ := hcounts
      exact fun _ => ⟨htaken.trans hleft.symm, hgiven.trans hleft.symm⟩
  unused := by
    refine List.eq_nil_iff_forall_not_mem.mpr fun id hid => ?_
    have hused : (s.view id).used = 0 := by
      have hvalid := h.valid id
      generalize s.view id = v at hvalid
      cases hvalid <;> rfl
    exact List.count_eq_zero.mp hused hid
  reported id := by
    change (s.view id).entry.reported ≤ 1 ∧
      ((s.view id).entry.left ≠ 0 → (s.view id).entry.reported = 1)
    have hvalid := h.valid id
    generalize s.view id = v at hvalid
    cases hvalid with
    | absent => simp
    | waiting e hcounts =>
      obtain ⟨-, -, hreported, hleft⟩ := hcounts
      simp [hreported, hleft]
    | forced t phase e n hforced => cases phase <;> simp_all [Forced, Counts]
    | gone e hcounts => simp [hcounts.2.2.1]
  ended id := by
    change (s.view id).entry.reported ≠ 0 ∨ (s.view id).entry.left ≠ 0 →
      (s.view id).entry.active = false
    have hvalid := h.valid id
    generalize s.view id = v at hvalid
    cases hvalid with
    | absent => simp
    | waiting e hcounts =>
      obtain ⟨-, -, hreported, hleft⟩ := hcounts
      simp [hreported, hleft]
    | forced t phase e n hforced => cases phase <;> simp_all [Forced, Counts]
    | gone e _ hactive => exact fun _ => hactive
  gentle id := by
    change Gentle w (s.view id).entry.signals
    have hvalid := h.valid id
    generalize s.view id = v at hvalid
    cases hvalid with
    | absent => exact .inl rfl
    | waiting e _ _ htimed => exact htimed.gentle
    | forced _ _ _ _ _ _ htimed => exact htimed.gentle
    | gone _ _ _ _ htimed => exact htimed.gentle

end

end ProcessShutdown

end Thunder.RPC
