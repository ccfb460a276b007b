import Thunder.Library.Run
import Thunder.Library.Stacks
import Thunder.Server.Condition

/-! `Service::Evaluate`, with the activations and deactivations of the services around it.  A thread
has the sections of the calls that it is in on a stack; each section under the lock of a service is
one step. -/

namespace Thunder.PluginHost

open Function Stacks

/-! ### Conditions -/

namespace Condition

/-- Whether the condition is met by the subsystems, as an evaluation finds it. -/
def met (c : Condition) (subsystems : Nat) : Bool := (c.evaluate subsystems).2.isMet

variable {c : Condition} {subsystems subsystems' : Nat}

/-- The bit that is toggled is no bit of the kind. -/
theorem toggle (s : UInt8) :
    ((s ^^^ stateOk) &&& stateOk = 0 ↔ s &&& stateOk ≠ 0) ∧
    (s ^^^ stateOk) &&& 0x03 = s &&& 0x03 := by
  have hbits : ∀ b : BitVec 8, ((b ^^^ 0x80#8) &&& 0x80#8 = 0#8 ↔ b &&& 0x80#8 ≠ 0#8) ∧
      (b ^^^ 0x80#8) &&& 3#8 = b &&& 3#8 := by decide
  obtain ⟨hok, hkind⟩ := hbits s.toBitVec
  constructor
  · rw [ne_eq, ← UInt8.toBitVec_inj, ← UInt8.toBitVec_inj]
    exact hok
  · rw [← UInt8.toBitVec_inj]
    exact hkind

theorem met_eq : c.met subsystems = if c.mask ≠ 0 then c.compliant subsystems else c.isMet := by
  rw [met, evaluate]
  split_ifs with hchange hmask hmask
  · have htoggle : isMet { c with state := c.state ^^^ stateOk } = !c.isMet := by
      simp only [isMet, ne_eq, (toggle c.state).1]
      by_cases hok : c.state &&& stateOk = 0 <;> simp [hok]
    rw [htoggle]
    cases hmet : c.isMet <;> cases hcompliant : c.compliant subsystems <;> simp_all
  · exact absurd hchange.1 hmask
  · by_contra hne
    exact hchange ⟨hmask, fun heq => hne heq.symm⟩
  · rfl

/-- An evaluation tells whether what is met has changed. -/
theorem evaluate_changed : (c.evaluate subsystems).1 = true ↔ c.isMet ≠ c.met subsystems := by
  rw [met_eq, evaluate]
  split_ifs with hchange hmask hmask
  · simpa using fun heq => hchange.2 heq.symm
  · exact absurd hchange.1 hmask
  · simp only [false_iff, not_not]
    by_contra hne
    exact hchange ⟨hmask, fun heq => hne heq.symm⟩
  · simp

theorem compliant_evaluate :
    (c.evaluate subsystems).2.compliant subsystems' = c.compliant subsystems' := by
  rw [evaluate]
  split_ifs
  · simp only [compliant, (toggle c.state).2]
  · rfl

/-- An evaluation leaves what the condition asks for. -/
@[simp] theorem met_evaluate : (c.evaluate subsystems).2.met subsystems' = c.met subsystems' := by
  rw [met_eq, met_eq, compliant_evaluate]
  have hmask : (c.evaluate subsystems).2.mask = c.mask := by
    rw [evaluate]
    split_ifs <;> rfl
  rw [hmask]
  split_ifs with hzero
  · rfl
  · rw [evaluate, if_neg fun h => hzero h.1]

@[simp] theorem isMet_evaluate : (c.evaluate subsystems).2.isMet = c.met subsystems := rfl

theorem isMet_load {input : List Entry} (hmask : (c.load input).mask ≠ 0) :
    (c.load input).isMet = false := by
  have hbits : ∀ b : BitVec 8, b &&& ~~~0x80#8 &&& 0x80#8 = 0#8 := by decide
  rw [load] at hmask ⊢
  simp only [if_neg hmask, isMet, ne_eq, decide_eq_false_iff_not, not_not]
  rw [← UInt8.toBitVec_inj]
  exact hbits _

theorem isMet_new {andOperation : Bool} {input : List Entry}
    (hmask : (new andOperation input).mask ≠ 0) : (new andOperation input).isMet = false := by
  have hempty : Has andOperation [] false ⟨0, 0, if andOperation then stateAnd else stateOr⟩ := by
    refine ⟨fun i => by simp, fun _ => ?_, fun hnot => absurd (by simp) hnot⟩
    cases andOperation <;> exact ⟨by decide, by decide⟩
  have h := hempty.addBits input
  rw [new] at hmask ⊢
  generalize Condition.addBits _ input = c at h hmask ⊢
  by_cases hzero : c.mask = 0
  · rw [if_pos hzero] at hmask
    exact absurd hzero hmask
  · rw [if_neg hzero]
    by_cases hall : ∀ e ∈ [] ++ input, Fits andOperation e
    · exact h.isMet hall
    · exact h.isMet_error hall

theorem compliant_zero {andOperation met : Bool} {entries : List Entry}
    (h : Has andOperation entries met c) (hmask : c.mask ≠ 0) : c.compliant 0 = false := by
  rw [compliant, Nat.zero_and, Nat.zero_xor]
  by_cases hall : ∀ e ∈ entries, Fits andOperation e
  · obtain ⟨hstate, hevents⟩ := h.fits hall
    rw [hstate]
    cases andOperation with
    | true =>
      rw [if_pos (by cases met <;> decide), hevents]
      simpa using hmask
    | false =>
      rw [if_neg (by cases met <;> decide), if_pos (by cases met <;> decide)]
      simp
  · rw [h.error hall]
    cases andOperation <;> rfl

/-- No condition of any entries is met without subsystems. -/
theorem isMet_ofLists (andOperation : Bool) (configured : List Entry) (loaded : List (List Entry)) :
    (ofLists andOperation configured loaded).isMet =
      (ofLists andOperation configured loaded).met 0 := by
  obtain ⟨met, h, -⟩ := ofLists_has andOperation configured loaded
  rw [met_eq]
  split_ifs with hmask
  · rw [compliant_zero h hmask]
    obtain rfl | ⟨before, input, rfl⟩ := List.eq_nil_or_concat loaded
    · exact isMet_new hmask
    · rw [List.concat_eq_append, ofLists, List.foldl_append] at hmask ⊢
      exact isMet_load hmask
  · rfl

end Condition

namespace Server

/-- `IShell::state`, as far as activations and deactivations get. -/
inductive Service.State
  | unavailable
  | deactivated
  | activated
  | deactivation
  | activation
  | precondition
  deriving DecidableEq

/-- `IShell::reason`. -/
inductive Service.Reason
  | conditions
  | initializationFailed
  | other
  deriving DecidableEq

/-- `handler` says that the interfaces are acquired, `locked` that `Deactivate` holds the lock to
unset subsystems, and `held` that a thread holds `_queryInterfaceLock`.  `since` records whether
the termination has become violated since the activation began. -/
structure Service where
  state : Service.State
  precondition : Condition
  termination : Condition
  control : List Subsystem
  handler : Bool := false
  locked : Bool := false
  held : Bool := false
  since : Bool := false

/-- What a plugin is configured with, and what its metadata adds. -/
structure Plugin where
  unavailable : Bool
  precondition : List Entry
  termination : List Entry
  loadedPrecondition : List (List Entry)
  loadedTermination : List (List Entry)
  control : List Subsystem

namespace Service

def new (plugin : Plugin) : Service where
  state := if plugin.unavailable then .unavailable else .deactivated
  precondition := .ofLists true plugin.precondition plugin.loadedPrecondition
  termination := .ofLists false plugin.termination plugin.loadedTermination
  control := plugin.control

/-- The flags of the subsystems go from one value to another. -/
def observes (service : Service) (before after : Nat) : Service :=
  { service with
    since := service.since || service.termination.met before && !service.termination.met after }

/-- The precondition is evaluated: the service, and whether it is to be activated. -/
def evaluatePrecondition (service : Service) (subsystems : Nat) (current : State) :
    Service × Bool :=
  let r := service.precondition.evaluate subsystems
  ({ service with precondition := r.2 }, r.1 ∧ current = .precondition ∧ r.2.isMet = true)

/-- The termination is evaluated: the service, and whether it is to be deactivated. -/
def evaluateTermination (service : Service) (subsystems : Nat) (current : State) :
    Service × Bool :=
  let r := service.termination.evaluate subsystems
  ({ service with termination := r.2 }, r.1 ∧ current = .activated ∧ r.2.isMet = false)

/-- `AcquireInterfaces`, where the plugin can be loaded or not. -/
def acquireInterfaces (service : Service) (subsystems : Nat) (loads : Bool) : Service :=
  if loads then
    { service with
      handler := true
      precondition := (service.precondition.evaluate subsystems).2
      termination := (service.termination.evaluate subsystems).2 }
  else service

/-- The state that `Deactivate` ends in. -/
def afterwards (why : Reason) : State := if why = .conditions then .precondition else .deactivated

end Service

/-- The sections that a thread has before it.  `terminate` is what is left of an `Evaluate` that has
called `Activate`, with the subsystems and the state that it has read before. -/
inductive ServiceMap.Frame (α : Type)
  | walk (remaining : List α)
  | activate (x : α)
  | terminate (x : α) (subsystems : Nat) (current : Service.State)
  | initializing (x : α)
  | deactivate (x : α) (why : Service.Reason)
  | unset (x : α) (why : Service.Reason) (systems : List Subsystem)
  | teardown (x : α) (why : Service.Reason)
  | deinitializing (x : α) (why : Service.Reason)
  | done

/-- The job of the subsystems. -/
inductive ServiceMap.Job
  | idle
  | submitted
  | executing
  | resubmit
  deriving DecidableEq

structure ServiceMap (τ α : Type) where
  flags : Nat
  services : α → Service
  job : ServiceMap.Job
  threads : τ → List (ServiceMap.Frame α)

namespace ServiceMap

/-- A subsystem is set, an idle thread makes a call, the worker pool runs the job, or a thread goes
on with its next section, in which loading or initializing may fail. -/
inductive Action (τ α : Type)
  | set (system : Subsystem)
  | activate (t : τ) (x : α)
  | deactivate (t : τ) (x : α) (why : Service.Reason)
  | run (t : τ)
  | turn (t : τ) (succeeds : Bool)

variable {τ α : Type}

section

variable [DecidableEq τ] [DecidableEq α]

def new (τ : Type) (plugins : α → Plugin) : ServiceMap τ α where
  flags := 0
  services x := .new (plugins x)
  job := .idle
  threads _ := []

def Job.submit : Job → Job
  | .idle => .submitted
  | .executing => .resubmit
  | job => job

/-- Behind the evaluation the job is idle, or it is submitted again. -/
def Job.finish : Job → Job
  | .executing => .idle
  | _ => .submitted

def put (s : ServiceMap τ α) (x : α) (service : Service) : ServiceMap τ α :=
  { s with services := update s.services x service }

def goes (s : ServiceMap τ α) (t : τ) (frames : List (Frame α)) : ServiceMap τ α :=
  { s with threads := update s.threads t frames }

def withFlags (s : ServiceMap τ α) (flags : Nat) : ServiceMap τ α :=
  { s with flags := flags, services := fun x => (s.services x).observes s.flags flags }

/-- `SystemInfo::Set`. -/
def flagsSet (s : ServiceMap τ α) (system : Subsystem) : Nat := s.flags ||| 1 <<< system.bitNr

def set (s : ServiceMap τ α) (system : Subsystem) : ServiceMap τ α :=
  if s.flags.testBit system.bitNr then s
  else { s.withFlags (s.flagsSet system) with job := s.job.submit }

/-- `SystemInfo::Unset`, which submits nothing. -/
def flagsUnset (s : ServiceMap τ α) (system : Subsystem) : Nat :=
  s.flags &&& (2 ^ 32 - 1 ^^^ 1 <<< system.bitNr)

/-- The second half of `Evaluate`. -/
def terminate (s : ServiceMap τ α) (t : τ) (x : α) (subsystems : Nat) (current : Service.State)
    (rest : List (Frame α)) : ServiceMap τ α :=
  let r := (s.services x).evaluateTermination subsystems current
  (s.put x r.1).goes t (if r.2 then .deactivate x .conditions :: rest else rest)

def evaluate (s : ServiceMap τ α) (t : τ) (x : α) (rest : List (Frame α)) : ServiceMap τ α :=
  let current := (s.services x).state
  let r := (s.services x).evaluatePrecondition s.flags current
  if r.2 then (s.put x r.1).goes t (.activate x :: .terminate x s.flags current :: rest)
  else (s.put x r.1).terminate t x s.flags current rest

/-- `Activate` up to `Initialize`. -/
def activate (s : ServiceMap τ α) (t : τ) (x : α) (loads : Bool) (rest : List (Frame α)) :
    ServiceMap τ α :=
  if (s.services x).state = .deactivated ∨ (s.services x).state = .precondition then
    let service := if (s.services x).handler then s.services x
      else (s.services x).acquireInterfaces s.flags loads
    if service.handler = false then (s.put x { service with state := .deactivated }).goes t rest
    else if service.precondition.isMet = false then
      (s.put x { service with state := .precondition }).goes t rest
    else
      (s.put x { service with state := .activation, held := true, since := false }).goes t
        (.initializing x :: rest)
  else s.goes t rest

/-- What follows `Initialize`. -/
def initialized (s : ServiceMap τ α) (t : τ) (x : α) (succeeds : Bool) (rest : List (Frame α)) :
    ServiceMap τ α :=
  (s.put x (if succeeds then { s.services x with state := .activated, held := false }
    else { s.services x with state := .deactivated, handler := false, held := false })).goes t rest

/-- `Deactivate` up to the subsystems that are unset. -/
def deactivate (s : ServiceMap τ α) (t : τ) (x : α) (why : Service.Reason)
    (rest : List (Frame α)) : ServiceMap τ α :=
  let service := s.services x
  if service.state = .activated ∨ service.state = .activation ∧ why = .initializationFailed then
    (s.put x { service with state := .deactivation, locked := true }).goes t
      (.unset x why service.control :: rest)
  else if service.state = .unavailable ∨ service.state = .precondition then
    (s.put x { service with state := Service.afterwards why, handler := false }).goes t rest
  else s.goes t rest

/-- What follows `Deinitialize`. -/
def deinitialized (s : ServiceMap τ α) (t : τ) (x : α) (why : Service.Reason)
    (rest : List (Frame α)) : ServiceMap τ α :=
  (s.put x { s.services x with
    state := Service.afterwards why, handler := false, held := false }).goes t rest

/-- Whether the next section of a thread has to wait for a lock. -/
def waits (s : ServiceMap τ α) : Frame α → Bool
  | .walk [] => false
  | .walk (x :: _) => (s.services x).locked
  | .activate x =>
    (s.services x).locked || (s.services x).held &&
      ((s.services x).state = .deactivated ∨ (s.services x).state = .precondition)
  | .terminate x .. => (s.services x).locked
  | .initializing x => (s.services x).locked
  | .deactivate x _ => (s.services x).locked
  | .unset .. => false
  | .teardown x _ => (s.services x).held
  | .deinitializing x _ => (s.services x).locked
  | .done => false

/-- The next section of a thread, which is on top of the others. -/
def turn (callsigns : List α) (s : ServiceMap τ α) (t : τ) (succeeds : Bool)
    (rest : List (Frame α)) : Frame α → ServiceMap τ α
  | .walk [] => s.goes t rest
  | .walk (x :: remaining) => s.evaluate t x (.walk remaining :: rest)
  | .activate x => s.activate t x succeeds rest
  | .terminate x subsystems current => s.terminate t x subsystems current rest
  | .initializing x => s.initialized t x succeeds rest
  | .deactivate x why => s.deactivate t x why rest
  | .unset x why (system :: systems) =>
    (s.withFlags (s.flagsUnset system)).goes t (.unset x why systems :: rest)
  | .unset x why [] =>
    (s.put x { s.services x with locked := false }).goes t
      (.walk callsigns.reverse :: .teardown x why :: rest)
  | .teardown x why =>
    (s.put x { s.services x with held := true }).goes t (.deinitializing x why :: rest)
  | .deinitializing x why => s.deinitialized t x why rest
  | .done => { s with job := s.job.finish }.goes t rest

def step (callsigns : List α) (s : ServiceMap τ α) : Action τ α → Option (ServiceMap τ α)
  | .set system => some (s.set system)
  | .activate t x => if s.threads t = [] then some (s.goes t [.activate x]) else none
  | .deactivate t x why => if s.threads t = [] then some (s.goes t [.deactivate x why]) else none
  | .run t =>
    if s.threads t = [] ∧ s.job = .submitted then
      some ({ s with job := .executing }.goes t [.walk callsigns.reverse, .done])
    else none
  | .turn t succeeds =>
    match s.threads t with
    | [] => none
    | frame :: rest =>
      if s.waits frame then none else some (s.turn callsigns t succeeds rest frame)

end

/-! ### What is claimed of it -/

/-- Nothing is to be evaluated, and no service is in transition. -/
structure Quiescent (s : ServiceMap τ α) : Prop where
  job : s.job = .idle
  threads : ∀ t, s.threads t = []

/-- No change of a subsystem is missed. -/
structure Settled (callsigns : List α) (s : ServiceMap τ α) : Prop where
  activated : s.Quiescent → ∀ x ∈ callsigns, (s.services x).state = .precondition →
    (s.services x).precondition.met s.flags = false
  deactivated : s.Quiescent → ∀ x ∈ callsigns, (s.services x).state = .activated →
    (s.services x).since = true → (s.services x).termination.met s.flags = true

/-! ### What is under way -/

namespace Frame

/-- The service that a frame is about, but for the services that are still to be evaluated. -/
def object : Frame α → Option α
  | .walk _ | .done => none
  | .activate x | .terminate x .. | .initializing x | .deactivate x _ | .unset x .. | .teardown x _
  | .deinitializing x _ => some x

def Activates (x : α) (f : Frame α) : Prop := f = .activate x

def Initializes (x : α) (f : Frame α) : Prop := f = .initializing x

def Deactivates (x : α) (f : Frame α) : Prop := ∃ why, f = .deactivate x why

/-- A deactivation that has begun, up to `Deinitialize`. -/
def Stops (x : α) (f : Frame α) : Prop :=
  (∃ why systems, f = .unset x why systems) ∨ ∃ why, f = .teardown x why

def Ends (x : α) (f : Frame α) : Prop := ∃ why, f = .deinitializing x why

/-- The termination is to be evaluated with subsystems that were read before. -/
def Judges (x : α) (subsystems : Nat) (f : Frame α) : Prop :=
  ∃ current, f = .terminate x subsystems current

/-- The service is to be evaluated; behind the subsystems that are unset all of them are. -/
def Visits (x : α) : Frame α → Prop
  | .walk remaining => x ∈ remaining
  | .unset .. => True
  | _ => False

/-- The sections with `_queryInterfaceLock`. -/
def holds [DecidableEq α] (x : α) : Frame α → Bool
  | .initializing y | .deinitializing y _ => y = x
  | _ => false

end Frame

/-- An evaluation of the service is to come. -/
def Due (s : ServiceMap τ α) (x : α) : Prop :=
  s.job = .submitted ∨ s.job = .resubmit ∨ Somewhere (Frame.Visits x) s.threads

/-- A deactivation has begun, or will as things are. -/
def Covered (s : ServiceMap τ α) (x : α) : Prop :=
  (s.services x).state = .activated ∧ Somewhere (Frame.Deactivates x) s.threads ∨
    Somewhere (Frame.Stops x) s.threads ∨ Somewhere (Frame.Ends x) s.threads

def Started (s : ServiceMap τ α) (x : α) : Prop :=
  (s.services x).state = .activation ∨ (s.services x).state = .activated

/-- A change that violates the termination of a service that is active finds it evaluated as met. -/
def Watched (callsigns : List α) (s : ServiceMap τ α) (flags : Nat) : Prop :=
  ∀ x ∈ callsigns, s.Started x → (s.services x).termination.met s.flags = true →
    (s.services x).termination.met flags = false →
    (s.services x).termination.isMet = true ∨ s.Covered x

/-- No evaluation of a service finds in an activation that the termination has become violated
since it began.  What an evaluation says of the termination behind an activation of its own is
right, or it is evaluated again, and it is no such violation either.  A deactivation for conditions
does not end in waiting for a precondition that is met. -/
def Heeds (callsigns : List α) (s : ServiceMap τ α) : Action τ α → Prop
  | .set system => s.Watched callsigns (s.flagsSet system)
  | .turn t _ =>
    match s.threads t with
    | .walk (x :: _) :: _ =>
      (s.services x).state = .activation → (s.services x).since = true →
        (s.services x).termination.isMet = true →
        (s.services x).termination.met s.flags = false → s.Covered x
    | .terminate x subsystems _ :: _ =>
      (s.services x).termination.isMet ≠ (s.services x).termination.met subsystems →
        ((s.services x).termination.met subsystems = (s.services x).termination.met s.flags ∨
          s.Due x) ∧
        ((s.services x).termination.met subsystems = false → s.Started x →
          (s.services x).since = true → (s.services x).termination.met s.flags = false →
          s.Covered x)
    | .unset _ _ (system :: _) :: _ => s.Watched callsigns (s.flagsUnset system)
    | .deactivate x .conditions :: _ =>
      (s.services x).state = .unavailable → (s.services x).precondition.isMet = false
    | .deinitializing x .conditions :: _ => (s.services x).precondition.isMet = false
    | _ => True
  | _ => True

/-- What is right about a service in every state: whatever has changed is due to be evaluated, and
what was evaluated is under way. -/
structure Valid [DecidableEq α] (s : ServiceMap τ α) (x : α) : Prop where
  lone : Token.Lone (weight (Frame.holds x) s.threads)
  free : (s.services x).held = false → ∀ t, weight (Frame.holds x) s.threads t = 0
  initializing : Somewhere (Frame.Initializes x) s.threads →
    (s.services x).state = .activation ∨
      (s.services x).state = .deactivation ∧ Somewhere (Frame.Stops x) s.threads
  activating : (s.services x).state = .precondition → (s.services x).precondition.isMet = true →
    Somewhere (Frame.Activates x) s.threads
  told : s.Started x → (s.services x).since = true →
    (s.services x).termination.met s.flags = false →
    (s.services x).termination.isMet = true ∨ s.Covered x
  precondition :
    (s.services x).precondition.isMet = (s.services x).precondition.met s.flags ∨ s.Due x
  termination :
    (s.services x).termination.isMet = (s.services x).termination.met s.flags ∨ s.Due x ∨
      ∃ subsystems, Somewhere (Frame.Judges x subsystems) s.threads ∧
        (s.services x).termination.met subsystems = (s.services x).termination.met s.flags

theorem Valid.settled [DecidableEq α] {callsigns : List α} {s : ServiceMap τ α}
    (h : ∀ x ∈ callsigns, s.Valid x) :
    s.Settled callsigns := by
  have hdue : s.Quiescent → ∀ x, ¬ s.Due x := by
    rintro hquiet x (hjob | hjob | hvisit)
    · rw [hquiet.job] at hjob
      cases hjob
    · rw [hquiet.job] at hjob
      cases hjob
    · exact not_somewhere hquiet.threads hvisit
  constructor
  · intro hquiet x hx hstate
    have heq := (h x hx).precondition.resolve_right (hdue hquiet x)
    rw [← heq, ← Bool.not_eq_true]
    intro hmet
    exact not_somewhere hquiet.threads ((h x hx).activating hstate hmet)
  · intro hquiet x hx hstate hsince
    rw [← Bool.not_eq_false]
    intro hviolated
    have hcovered : ¬ s.Covered x := by
      rintro (⟨-, hsome⟩ | hsome | hsome) <;> exact not_somewhere hquiet.threads hsome
    have hmet := ((h x hx).told (.inr hstate) hsince hviolated).resolve_right hcovered
    rcases (h x hx).termination with heq | hsome | ⟨_, hsome, -⟩
    · rw [hmet, hviolated] at heq
      cases heq
    · exact hdue hquiet x hsome
    · exact not_somewhere hquiet.threads hsome

/-! ### Steps that a service has no part in -/

section

variable {callsigns : List α} {s s' : ServiceMap τ α} {x : α} {t : τ} {top : Frame α}
  {calls rest : List (Frame α)}

namespace Frame

variable {f : Frame α}

theorem Activates.object (h : Activates x f) : f.object = some x := by
  rw [h]
  rfl

theorem Initializes.object (h : Initializes x f) : f.object = some x := by
  rw [h]
  rfl

theorem Deactivates.object (h : Deactivates x f) : f.object = some x := by
  obtain ⟨why, rfl⟩ := h
  rfl

theorem Stops.object (h : Stops x f) : f.object = some x := by
  obtain ⟨why, systems, rfl⟩ | ⟨why, rfl⟩ := h <;> rfl

theorem Ends.object (h : Ends x f) : f.object = some x := by
  obtain ⟨why, rfl⟩ := h
  rfl

theorem Judges.object {subsystems : Nat} (h : Judges x subsystems f) : f.object = some x := by
  obtain ⟨current, rfl⟩ := h
  rfl

theorem object_of_holds [DecidableEq α] (h : f.holds x = true) : f.object = some x := by
  cases f with
  | initializing y => rw [object, of_decide_eq_true h]
  | deinitializing y why => rw [object, of_decide_eq_true h]
  | _ => cases h

end Frame

section

variable [DecidableEq τ]

/-- A step of a thread: its next section is taken away, and calls are pushed. -/
structure Turns (s s' : ServiceMap τ α) (t : τ) (top : Frame α) (calls rest : List (Frame α)) :
    Prop where
  top : s.threads t = top :: rest
  threads : s'.threads = update s.threads t (calls ++ rest)

namespace Turns

variable {p : Frame α → Prop}

theorem keep (h : Turns s s' t top calls rest) (hsome : Somewhere p s.threads) (hnot : ¬ p top) :
    Somewhere p s'.threads := by
  rw [h.threads]
  exact hsome.keep h.top hnot

theorem pushed {f : Frame α} (h : Turns s s' t top calls rest) (hf : f ∈ calls) (hp : p f) :
    Somewhere p s'.threads := by
  rw [h.threads]
  exact .pushed hf hp

theorem before (h : Turns s s' t top calls rest) (hsome : Somewhere p s'.threads)
    (hnot : ∀ f ∈ calls, ¬ p f) : Somewhere p s.threads := by
  rw [h.threads] at hsome
  exact (hsome.before h.top).resolve_left fun ⟨f, hf, hp⟩ => hnot f hf hp

theorem weight_le {c : Frame α → Bool} (h : Turns s s' t top calls rest)
    (hcalls : ∀ f ∈ calls, c f = false) (t' : τ) :
    weight c s'.threads t' ≤ weight c s.threads t' := by
  rw [h.threads]
  refine Stacks.weight_le h.top ?_ t'
  rw [List.countP_eq_zero.mpr fun f hf => by simp [hcalls f hf]]
  exact Nat.zero_le _

/-- What is under way stays so, but for the section that is taken away. -/
theorem covered (h : Turns s s' t top calls rest) (hcovered : s.Covered x)
    (hstate : (s'.services x).state = (s.services x).state)
    (hdeactivates : ¬ top.Deactivates x) (hstops : ¬ top.Stops x) (hends : ¬ top.Ends x) :
    s'.Covered x := by
  obtain ⟨hactive, hsome⟩ | hsome | hsome := hcovered
  · exact .inl ⟨hstate.trans hactive, h.keep hsome hdeactivates⟩
  · exact .inr (.inl (h.keep hsome hstops))
  · exact .inr (.inr (h.keep hsome hends))

theorem due (h : Turns s s' t top calls rest) (hdue : s.Due x) (hjob : s'.job = s.job)
    (hvisits : top.Visits x → ∃ f ∈ calls, f.Visits x) : s'.Due x := by
  rw [Due, hjob]
  obtain hjob | hjob | hsome := hdue
  · exact .inl hjob
  · exact .inr (.inl hjob)
  · refine .inr (.inr ?_)
    by_cases htop : top.Visits x
    · obtain ⟨f, hf, hvisit⟩ := hvisits htop
      exact h.pushed hf hvisit
    · exact h.keep hsome htop

end Turns

variable [DecidableEq α]

/-- A section that is not about the service, and changes nothing that it reads. -/
theorem Valid.other (h : s.Valid x) (hturns : Turns s s' t top calls rest)
    (hservice : s'.services x = s.services x) (hflags : s'.flags = s.flags)
    (hx : top.object ≠ some x) (hcalls : ∀ f ∈ calls, f.object ≠ some x)
    (hdue : s.Due x → s'.Due x) : s'.Valid x := by
  have hle : ∀ t', weight (Frame.holds x) s'.threads t' ≤ weight (Frame.holds x) s.threads t' :=
    hturns.weight_le fun f hf => by
      rw [← Bool.not_eq_true]
      exact fun hholds => hcalls f hf (Frame.object_of_holds hholds)
  have hcovered : s.Covered x → s'.Covered x := fun hcovered =>
    hturns.covered hcovered (by rw [hservice]) (fun hd => hx hd.object) (fun hd => hx hd.object)
      fun hd => hx hd.object
  constructor
  · exact h.lone.of_le hle
  · intro hheld t'
    rw [hservice] at hheld
    exact Nat.le_zero.mp ((hle t').trans_eq (h.free hheld t'))
  · intro hsome
    rw [hservice]
    refine (h.initializing (hturns.before hsome fun f hf hp => hcalls f hf hp.object)).imp id ?_
    exact fun ⟨hstate, hstops⟩ => ⟨hstate, hturns.keep hstops fun hd => hx hd.object⟩
  · intro hstate hmet
    rw [hservice] at hstate hmet
    exact hturns.keep (h.activating hstate hmet) fun hd => hx hd.object
  · intro hstarted hsince hviolated
    rw [Started, hservice] at hstarted
    rw [hservice] at hsince
    rw [hservice, hflags] at hviolated
    rw [hservice]
    exact (h.told hstarted hsince hviolated).imp id hcovered
  · rw [hservice, hflags]
    exact h.precondition.imp id hdue
  · rw [hservice, hflags]
    refine h.termination.imp id (.imp hdue ?_)
    exact fun ⟨subsystems, hsome, heq⟩ => ⟨subsystems, hturns.keep hsome fun hd => hx hd.object,
      heq⟩

/-- An idle thread makes a call that holds nothing, or the worker pool runs the job. -/
theorem Valid.call (h : s.Valid x) (hidle : s.threads t = [])
    (hthreads : s'.threads = update s.threads t calls) (hservices : s'.services = s.services)
    (hflags : s'.flags = s.flags) (hcalls : ∀ f ∈ calls, f.holds x = false)
    (hdue : s.Due x → s'.Due x) : s'.Valid x := by
  have hkeep : ∀ {p : Frame α → Prop}, Somewhere p s.threads → Somewhere p s'.threads := by
    intro p hsome
    rw [hthreads]
    exact hsome.call hidle
  have hweight : ∀ t',
      weight (Frame.holds x) s'.threads t' = weight (Frame.holds x) s.threads t' := by
    rw [hthreads]
    exact weight_call hidle (List.countP_eq_zero.mpr fun f hf => by simp [hcalls f hf])
  have hinit : Somewhere (Frame.Initializes x) s'.threads →
      Somewhere (Frame.Initializes x) s.threads := by
    intro hsome
    rw [hthreads] at hsome
    refine hsome.before_call.resolve_left ?_
    rintro ⟨f, hf, rfl⟩
    simpa [Frame.holds] using hcalls _ hf
  have hcovered : s.Covered x → s'.Covered x := by
    rintro (⟨hactive, hsome⟩ | hsome | hsome)
    · exact .inl ⟨by rwa [hservices], hkeep hsome⟩
    · exact .inr (.inl (hkeep hsome))
    · exact .inr (.inr (hkeep hsome))
  constructor
  · exact h.lone.of_le fun t' => (hweight t').le
  · intro hheld t'
    rw [hservices] at hheld
    exact (hweight t').trans (h.free hheld t')
  · intro hsome
    rw [hservices]
    exact (h.initializing (hinit hsome)).imp id fun ⟨hstate, hstops⟩ => ⟨hstate, hkeep hstops⟩
  · intro hstate hmet
    rw [hservices] at hstate hmet
    exact hkeep (h.activating hstate hmet)
  · intro hstarted hsince hviolated
    rw [Started, hservices] at hstarted
    rw [hservices] at hsince
    rw [hservices, hflags] at hviolated
    rw [hservices]
    exact (h.told hstarted hsince hviolated).imp id hcovered
  · rw [hservices, hflags]
    exact h.precondition.imp id hdue
  · rw [hservices, hflags]
    refine h.termination.imp id (.imp hdue ?_)
    exact fun ⟨subsystems, hsome, heq⟩ => ⟨subsystems, hkeep hsome, heq⟩

end

end

/-! ### Evaluations -/

section

variable {callsigns : List α} {s s' : ServiceMap τ α} {x : α} {t : τ} {top : Frame α}
  {calls rest : List (Frame α)}

@[simp] theorem services_goes [DecidableEq τ] (frames : List (Frame α)) :
    (s.goes t frames).services = s.services := rfl

variable [DecidableEq α]

@[simp] theorem services_put (service : Service) : (s.put x service).services x = service :=
  update_self ..

theorem services_put_of_ne {y : α} (hne : x ≠ y) (service : Service) :
    (s.put y service).services x = s.services x := update_of_ne hne ..

variable [DecidableEq τ]

/-- A section that only evaluates; what it finds is said of the two conditions alone. -/
theorem Valid.evaluated (h : s.Valid x) (hturns : Turns s s' t top calls rest)
    (htop : (∃ remaining, top = .walk remaining) ∨
      ∃ subsystems current, top = .terminate x subsystems current)
    (hstate : (s'.services x).state = (s.services x).state)
    (hheld : (s'.services x).held = (s.services x).held) (hcalls : ∀ f ∈ calls, f.holds x = false)
    (hactivating : (s.services x).state = .precondition →
      (s'.services x).precondition.isMet = true →
        (s.services x).precondition.isMet = true ∨ .activate x ∈ calls)
    (htold : s'.Started x → (s'.services x).since = true →
      (s'.services x).termination.met s'.flags = false →
        (s'.services x).termination.isMet = true ∨ s.Covered x ∨
          (s.services x).state = .activated ∧ .deactivate x .conditions ∈ calls)
    (hprecondition :
      (s'.services x).precondition.isMet = (s'.services x).precondition.met s'.flags ∨ s'.Due x)
    (htermination : (s'.services x).termination.isMet = (s'.services x).termination.met s'.flags ∨
      s'.Due x ∨ ∃ subsystems, Somewhere (Frame.Judges x subsystems) s'.threads ∧
        (s'.services x).termination.met subsystems = (s'.services x).termination.met s'.flags) :
    s'.Valid x := by
  have hquiet : ¬ top.Activates x ∧ ¬ top.Deactivates x ∧ ¬ top.Stops x ∧ ¬ top.Ends x := by
    obtain ⟨remaining, rfl⟩ | ⟨subsystems, current, rfl⟩ := htop <;>
      refine ⟨nofun, ?_, ?_, ?_⟩ <;> simp [Frame.Deactivates, Frame.Stops, Frame.Ends]
  obtain ⟨hactivates, hdeactivates, hstops, hends⟩ := hquiet
  have hle := hturns.weight_le hcalls
  constructor
  · exact h.lone.of_le hle
  · intro hfree t'
    exact Nat.le_zero.mp ((hle t').trans_eq (h.free (hheld ▸ hfree) t'))
  · intro hsome
    rw [hstate]
    refine (h.initializing (hturns.before hsome ?_)).imp id ?_
    · rintro f hf rfl
      simpa [Frame.holds] using hcalls _ hf
    · exact fun ⟨hactive, hstop⟩ => ⟨hactive, hturns.keep hstop hstops⟩
  · intro hactive hmet
    rw [hstate] at hactive
    obtain hbefore | hpushed := hactivating hactive hmet
    · exact hturns.keep (h.activating hactive hbefore) hactivates
    · exact hturns.pushed hpushed rfl
  · intro hstarted hsince hviolated
    obtain hmet | hcovered | ⟨hactive, hpushed⟩ := htold hstarted hsince hviolated
    · exact .inl hmet
    · exact .inr (hturns.covered hcovered hstate hdeactivates hstops hends)
    · exact .inr (.inl ⟨hstate.trans hactive, hturns.pushed hpushed ⟨_, rfl⟩⟩)
  · exact hprecondition
  · exact htermination

/-- The second half of an evaluation, behind which `more` is to be done.  `service` is what the
first half has left, where there was one. -/
theorem Valid.terminated {service : Service} {more : List (Frame α)} {subsystems : Nat}
    {current : Service.State} (h : s.Valid x) (htop : s.threads t = top :: rest)
    (hs' : s' = (s.put x service).terminate t x subsystems current (more ++ rest))
    (hframe : (∃ remaining, top = .walk remaining) ∨
      ∃ subsystems current, top = .terminate x subsystems current)
    (hstate : service.state = (s.services x).state)
    (hheld : service.held = (s.services x).held) (hsince : service.since = (s.services x).since)
    (hsame : service.termination = (s.services x).termination)
    (hmore : ∀ f ∈ more, f.holds x = false)
    (hactivating : service.state = .precondition → service.precondition.isMet = true →
      (s.services x).precondition.isMet = true)
    (hmissed : (s.services x).termination.isMet = true →
      (s.services x).termination.met subsystems = false → s.Started x →
      (s.services x).since = true → (s.services x).termination.met s.flags = false →
      s.Covered x ∨ (s.services x).state = .activated ∧ current = .activated)
    (hprecondition : service.precondition.isMet = service.precondition.met s.flags ∨ s'.Due x)
    (htermination :
      (s.services x).termination.met subsystems = (s.services x).termination.met s.flags ∨
        s'.Due x ∨ ∃ subsystems', Somewhere (Frame.Judges x subsystems') s'.threads ∧
          (s.services x).termination.met subsystems' = (s.services x).termination.met s.flags) :
    s'.Valid x := by
  let calls : List (Frame α) :=
    if (service.evaluateTermination subsystems current).2 then [.deactivate x .conditions] else []
  have hservice : s'.services x = (service.evaluateTermination subsystems current).1 := by
    rw [hs', terminate, services_put]
    simp
  have hthreads : s'.threads = update s.threads t ((calls ++ more) ++ rest) := by
    rw [hs', terminate, services_put]
    simp only [calls]
    split_ifs <;> rfl
  have hflags : s'.flags = s.flags := by
    rw [hs']
    rfl
  have hterminates :
      (s'.services x).termination.isMet = (s.services x).termination.met subsystems := by
    rw [hservice, ← hsame]
    rfl
  have hmet : ∀ flags,
      (s'.services x).termination.met flags = (s.services x).termination.met flags := by
    intro flags
    rw [hservice, ← hsame]
    exact Condition.met_evaluate
  refine h.evaluated ⟨htop, hthreads⟩ hframe (by rw [hservice]; exact hstate)
    (by rw [hservice]; exact hheld) ?_ ?_ ?_ ?_ ?_
  · rw [List.forall_mem_append]
    refine ⟨?_, hmore⟩
    simp only [calls]
    split_ifs <;> simp [Frame.holds]
  · intro hactive hisMet
    rw [hservice] at hisMet
    exact .inl (hactivating (hstate.trans hactive) hisMet)
  · intro hstarted hviolatedSince hviolated
    rw [hmet, hflags] at hviolated
    rw [Started, hservice] at hstarted
    rw [hservice] at hviolatedSince
    have hstarted : s.Started x := by
      rw [Started, ← hstate]
      exact hstarted
    have hviolatedSince : (s.services x).since = true := hsince ▸ hviolatedSince
    rw [hterminates]
    cases hjudged : (s.services x).termination.met subsystems with
    | true => exact .inl rfl
    | false =>
      refine .inr ?_
      cases hbefore : (s.services x).termination.isMet with
      | false =>
        have hcovered := (h.told hstarted hviolatedSince hviolated).resolve_left (by simp [hbefore])
        exact .inl hcovered
      | true =>
        refine (hmissed hbefore hjudged hstarted hviolatedSince hviolated).imp id ?_
        rintro ⟨hactive, rfl⟩
        have hdeactivates : (service.evaluateTermination subsystems .activated).2 = true := by
          have hchanged : (service.termination.evaluate subsystems).1 = true := by
            rw [Condition.evaluate_changed, hsame, hbefore, hjudged]
            simp
          have hunmet : (service.termination.evaluate subsystems).2.isMet = false := by
            rw [Condition.isMet_evaluate, hsame, hjudged]
          simp [Service.evaluateTermination, hchanged, hunmet]
        exact ⟨hactive, by simp [calls, hdeactivates]⟩
  · rw [hservice, hflags]
    exact hprecondition
  · rw [hterminates, hmet, hflags]
    simp only [hmet]
    exact htermination

/-- What is left of an evaluation that has activated the service. -/
theorem Valid.terminate {subsystems : Nat} {current : Service.State} (h : s.Valid x)
    (htop : s.threads t = .terminate x subsystems current :: rest)
    (hright : (s.services x).termination.isMet ≠ (s.services x).termination.met subsystems →
      (s.services x).termination.met subsystems = (s.services x).termination.met s.flags ∨ s.Due x)
    (hmissed : (s.services x).termination.isMet = true →
      (s.services x).termination.met subsystems = false → s.Started x →
      (s.services x).since = true → (s.services x).termination.met s.flags = false → s.Covered x) :
    (s.terminate t x subsystems current rest).Valid x := by
  have hput : s = s.put x (s.services x) := by
    rw [put, update_eq_self]
  have hs' : s.terminate t x subsystems current rest =
      (s.put x (s.services x)).terminate t x subsystems current ([] ++ rest) := by
    rw [← hput]
    rfl
  have hturns : ∃ calls, Turns s (s.terminate t x subsystems current rest) t
      (.terminate x subsystems current) calls rest := by
    rw [ServiceMap.terminate]
    split_ifs
    · exact ⟨[_], htop, rfl⟩
    · exact ⟨[], htop, rfl⟩
  obtain ⟨calls, hturns⟩ := hturns
  have hdue : s.Due x → (s.terminate t x subsystems current rest).Due x :=
    fun hdue => hturns.due hdue rfl fun hvisits => absurd hvisits id
  refine h.terminated htop hs' (.inr ⟨_, _, rfl⟩) rfl rfl rfl rfl (by simp) (fun _ => id)
    (fun hm hj hs hv hf => .inl (hmissed hm hj hs hv hf)) (h.precondition.imp id hdue) ?_
  by_cases hsame : (s.services x).termination.met subsystems =
    (s.services x).termination.met s.flags
  · exact .inl hsame
  · refine .inr ?_
    by_cases hchanged : (s.services x).termination.isMet = (s.services x).termination.met subsystems
    · rcases h.termination with heq | hsome | ⟨subsystems', hsome, heq⟩
      · exact absurd (hchanged.symm.trans heq) hsame
      · exact .inl (hdue hsome)
      · refine .inr ⟨subsystems', hturns.keep hsome ?_, heq⟩
        rintro ⟨current', hframe⟩
        obtain ⟨-, rfl, -⟩ := Frame.terminate.inj hframe
        exact hsame heq
    · exact .inl (hdue ((hright hchanged).resolve_left hsame))

/-- An evaluation of a service on the way through all of them. -/
theorem Valid.evaluate {remaining : List α} (h : s.Valid x)
    (htop : s.threads t = .walk (x :: remaining) :: rest)
    (hmissed : (s.services x).state = .activation → (s.services x).since = true →
      (s.services x).termination.isMet = true →
      (s.services x).termination.met s.flags = false → s.Covered x) :
    (s.evaluate t x (.walk remaining :: rest)).Valid x := by
  by_cases hactivates :
    ((s.services x).evaluatePrecondition s.flags (s.services x).state).2 = true
  · have hs' : s.evaluate t x (.walk remaining :: rest) =
        (s.put x ((s.services x).evaluatePrecondition s.flags (s.services x).state).1).goes t
          ([.activate x, .terminate x s.flags (s.services x).state, .walk remaining] ++ rest) := by
      rw [ServiceMap.evaluate]
      simp only [hactivates, if_true]
      rfl
    have hstate : (s.services x).state = .precondition := by
      have hall := of_decide_eq_true hactivates
      exact hall.2.1
    rw [hs']
    have hturns : Turns s ((s.put x ((s.services x).evaluatePrecondition s.flags
        (s.services x).state).1).goes t
          ([.activate x, .terminate x s.flags (s.services x).state, .walk remaining] ++ rest)) t
        (.walk (x :: remaining)) [.activate x, .terminate x s.flags (s.services x).state,
          .walk remaining]
        rest := ⟨htop, rfl⟩
    refine h.evaluated hturns (.inl ⟨_, rfl⟩) (by simp [Service.evaluatePrecondition])
      (by simp [Service.evaluatePrecondition]) (by simp [Frame.holds]) ?_ ?_ ?_ ?_
    · exact fun _ _ => .inr (by simp)
    · intro hstarted
      simp [Started, Service.evaluatePrecondition, hstate] at hstarted
    · left
      simp only [services_goes, services_put]
      exact Condition.met_evaluate.symm
    · have hjudges : (Frame.terminate x s.flags (s.services x).state).Judges x s.flags := ⟨_, rfl⟩
      exact .inr (.inr ⟨s.flags, hturns.pushed (by simp) hjudges, rfl⟩)
  · have hs' : s.evaluate t x (.walk remaining :: rest) =
        (s.put x ((s.services x).evaluatePrecondition s.flags (s.services x).state).1).terminate t x
          s.flags (s.services x).state ([.walk remaining] ++ rest) := by
      rw [ServiceMap.evaluate]
      simp only [hactivates]
      rfl
    refine h.terminated htop hs' (.inl ⟨_, rfl⟩) rfl rfl rfl rfl (by simp [Frame.holds]) ?_ ?_
      (.inl Condition.met_evaluate.symm) (.inl rfl)
    · intro hstate hmet
      by_contra hbefore
      refine hactivates (decide_eq_true ⟨Condition.evaluate_changed.mpr ?_, hstate, hmet⟩)
      intro heq
      exact hbefore (heq.trans hmet)
    · intro hmet hviolated hstarted hsince hfalse
      obtain hstate | hstate := hstarted
      · exact .inl (hmissed hstate hsince hmet hfalse)
      · exact .inr ⟨hstate, hstate⟩

end

/-! ### Transitions -/

section

variable [DecidableEq α] {callsigns : List α} {s s' : ServiceMap τ α} {x : α} {t : τ}
  {top : Frame α} {calls rest : List (Frame α)}

/-- A service with both conditions evaluated or as they were. -/
structure Kept (s : ServiceMap τ α) (x : α) (service : Service) : Prop where
  precondition : service.precondition.isMet = service.precondition.met s.flags ∨ s.Due x
  termination : service.termination.isMet = service.termination.met s.flags ∨ s.Due x ∨
    ∃ subsystems, Somewhere (Frame.Judges x subsystems) s.threads ∧
      service.termination.met subsystems = service.termination.met s.flags

theorem Valid.kept (h : s.Valid x) : s.Kept x (s.services x) := ⟨h.precondition, h.termination⟩

/-- `AcquireInterfaces` evaluates both conditions. -/
theorem Valid.kept_acquire (h : s.Valid x) (loads : Bool) :
    s.Kept x (if (s.services x).handler then s.services x
      else (s.services x).acquireInterfaces s.flags loads) := by
  rw [Service.acquireInterfaces]
  split_ifs
  · exact h.kept
  · exact ⟨.inl Condition.met_evaluate.symm, .inl Condition.met_evaluate.symm⟩
  · exact h.kept

/-- No `Initialize` is under way where a service can be activated. -/
theorem Valid.not_initializing (h : s.Valid x)
    (hstate : (s.services x).state ≠ .activation ∧ (s.services x).state ≠ .deactivation) :
    ¬ Somewhere (Frame.Initializes x) s.threads := by
  intro hsome
  rcases h.initializing hsome with hactivation | ⟨hdeactivation, -⟩
  · exact hstate.1 hactivation
  · exact hstate.2 hdeactivation

/-- With nothing held there is no `Initialize`. -/
theorem not_initializing_of_weight (hzero : ∀ t, weight (Frame.holds x) s.threads t = 0) :
    ¬ Somewhere (Frame.Initializes x) s.threads := by
  rintro ⟨t, f, hf, rfl⟩
  have hpos : 0 < weight (Frame.holds x) s.threads t :=
    weight_pos.mpr ⟨_, hf, by simp [Frame.holds]⟩
  exact absurd (hzero t) (Nat.ne_of_gt hpos)

variable [DecidableEq τ]

/-- A section that takes a service to a state in which nothing is to be told of it, or that is
told. -/
theorem Valid.transition (hturns : Turns s s' t top calls rest)
    (hflags : s'.flags = s.flags) (hdue : s.Due x → s'.Due x)
    (hkept : s.Kept x (s'.services x)) (hjudges : ∀ subsystems, ¬ top.Judges x subsystems)
    (hlone : Token.Lone (weight (Frame.holds x) s'.threads))
    (hfree : (s'.services x).held = false → ∀ t, weight (Frame.holds x) s'.threads t = 0)
    (hinitializing : Somewhere (Frame.Initializes x) s'.threads →
      (s'.services x).state = .activation ∨
        (s'.services x).state = .deactivation ∧ Somewhere (Frame.Stops x) s'.threads)
    (hactivating : (s'.services x).state = .precondition →
      (s'.services x).precondition.isMet = true → Somewhere (Frame.Activates x) s'.threads)
    (htold : s'.Started x → (s'.services x).since = true →
      (s'.services x).termination.met s'.flags = false →
        (s'.services x).termination.isMet = true ∨ s'.Covered x) : s'.Valid x := by
  refine ⟨hlone, hfree, hinitializing, hactivating, htold, ?_, ?_⟩
  · rw [hflags]
    exact hkept.precondition.imp id hdue
  · rw [hflags]
    refine hkept.termination.imp id (.imp hdue ?_)
    exact fun ⟨subsystems, hsome, heq⟩ => ⟨subsystems, hturns.keep hsome (hjudges subsystems), heq⟩

/-- A section that takes nothing that is held. -/
theorem Valid.untaken (h : s.Valid x) (hturns : Turns s s' t top calls rest)
    (hcalls : ∀ f ∈ calls, f.holds x = false)
    (hheld : (s'.services x).held = false → (s.services x).held = false) :
    Token.Lone (weight (Frame.holds x) s'.threads) ∧
      ((s'.services x).held = false → ∀ t, weight (Frame.holds x) s'.threads t = 0) :=
  ⟨h.lone.of_le (hturns.weight_le hcalls), fun hfree t' =>
    Nat.le_zero.mp ((hturns.weight_le hcalls t').trans_eq (h.free (hheld hfree) t'))⟩

/-- A section that takes what is free. -/
theorem Valid.taken (h : s.Valid x) (hturns : Turns s s' t top calls rest)
    (htop : top.holds x = false) (hcalls : calls.countP (Frame.holds x) = 1)
    (hfree : (s.services x).held = false) : Token.Lone (weight (Frame.holds x) s'.threads) := by
  rw [hturns.threads]
  exact .appears (h.free hfree) (appears hturns.top htop hcalls)

/-- A section that gives back what is held. -/
theorem Valid.given (h : s.Valid x) (hturns : Turns s s' t top [] rest)
    (htop : top.holds x = true) :
    Token.Lone (weight (Frame.holds x) s'.threads) ∧
      ∀ t, weight (Frame.holds x) s'.threads t = 0 := by
  have hzero : ∀ t, weight (Frame.holds x) s'.threads t = 0 := by
    rw [hturns.threads]
    exact Lone.released h.lone hturns.top htop rfl
  exact ⟨.zero hzero, hzero⟩

/-- A section that leaves the service inactive. -/
theorem Valid.inactive (hturns : Turns s s' t top [] rest)
    (hflags : s'.flags = s.flags) (hjob : s'.job = s.job) (hkept : s.Kept x (s'.services x))
    (hjudges : ∀ subsystems, ¬ top.Judges x subsystems) (hvisits : ¬ top.Visits x)
    (hlone : Token.Lone (weight (Frame.holds x) s'.threads) ∧
      ((s'.services x).held = false → ∀ t, weight (Frame.holds x) s'.threads t = 0))
    (hinitializing : ¬ Somewhere (Frame.Initializes x) s'.threads)
    (hstate : (s'.services x).state = .deactivated ∨ (s'.services x).state = .precondition ∧
      ((s'.services x).precondition.isMet = true → Somewhere (Frame.Activates x) s'.threads)) :
    s'.Valid x := by
  refine Valid.transition hturns hflags
    (fun hdue => hturns.due hdue hjob fun hvisit => absurd hvisit hvisits) hkept hjudges hlone.1
    hlone.2 (fun hsome => absurd hsome hinitializing) ?_ ?_
  · intro hactive hmet
    obtain hdeactivated | ⟨-, hactivates⟩ := hstate
    · rw [hdeactivated] at hactive
      cases hactive
    · exact hactivates hmet
  · intro hstarted
    rw [Started] at hstarted
    obtain hdeactivated | ⟨hactive, -⟩ := hstate
    · simp [hdeactivated] at hstarted
    · simp [hactive] at hstarted

theorem Valid.activate (h : s.Valid x) (htop : s.threads t = .activate x :: rest)
    (hwaits : s.waits (.activate x) = false) (loads : Bool) :
    (s.activate t x loads rest).Valid x := by
  have hkept := h.kept_acquire loads
  have hheld : (if (s.services x).handler then s.services x
      else (s.services x).acquireInterfaces s.flags loads).held = (s.services x).held := by
    rw [Service.acquireInterfaces]
    split_ifs <;> rfl
  have hnone : (s.services x).state = .deactivated ∨ (s.services x).state = .precondition →
      ¬ Somewhere (Frame.Initializes x) s.threads := by
    intro hstate
    refine h.not_initializing ?_
    rcases hstate with hstate | hstate <;> simp [hstate]
  have hfree : (s.services x).state = .deactivated ∨ (s.services x).state = .precondition →
      (s.services x).held = false := by
    intro hstate
    simp only [waits, Bool.or_eq_false_iff, Bool.and_eq_false_iff,
      decide_eq_false_iff_not] at hwaits
    exact hwaits.2.resolve_right (not_not.mpr hstate)
  rw [ServiceMap.activate]
  generalize (if (s.services x).handler then s.services x
    else (s.services x).acquireInterfaces s.flags loads) = service at hkept hheld
  dsimp only
  split_ifs with hstate hhandler hmet
  · have hturns : Turns s ((s.put x { service with state := .deactivated }).goes t rest) t
        (.activate x) [] rest := ⟨htop, rfl⟩
    refine Valid.inactive hturns rfl rfl ?_ (fun _ => nofun) id (h.untaken hturns nofun ?_) ?_
      (.inl ?_)
    · simpa using ⟨hkept.precondition, hkept.termination⟩
    · simp [hheld]
    · exact fun hsome => hnone hstate (hturns.before hsome nofun)
    · simp
  · have hturns : Turns s ((s.put x { service with state := .precondition }).goes t rest) t
        (.activate x) [] rest := ⟨htop, rfl⟩
    refine Valid.inactive hturns rfl rfl ?_ (fun _ => nofun) id (h.untaken hturns nofun ?_) ?_
      (.inr ⟨?_, ?_⟩)
    · simpa using ⟨hkept.precondition, hkept.termination⟩
    · simp [hheld]
    · exact fun hsome => hnone hstate (hturns.before hsome nofun)
    · simp
    · simp [hmet]
  · have hturns : Turns s ((s.put x { service with
        state := .activation, held := true, since := false }).goes t (.initializing x :: rest)) t
        (.activate x) [.initializing x] rest := ⟨htop, rfl⟩
    refine Valid.transition hturns rfl (fun hdue => hturns.due hdue rfl fun hv => absurd hv id) ?_
      (fun _ => nofun) (h.taken hturns rfl ?_ (hfree hstate)) ?_ ?_ ?_ ?_
    · simpa using ⟨hkept.precondition, hkept.termination⟩
    · simp [Frame.holds]
    · simp
    · simp
    · simp
    · simp
  · have hturns : Turns s (s.goes t rest) t (.activate x) [] rest := ⟨htop, rfl⟩
    obtain ⟨hlone, hfree⟩ := h.untaken hturns nofun id
    refine Valid.transition hturns rfl (fun hdue => hturns.due hdue rfl fun hv => absurd hv id)
      h.kept (fun _ => nofun) hlone hfree ?_ ?_ ?_
    · intro hsome
      refine (h.initializing (hturns.before hsome nofun)).imp id ?_
      exact fun ⟨hactive, hstops⟩ => ⟨hactive, hturns.keep hstops (by simp [Frame.Stops])⟩
    · exact fun hactive => absurd (.inr hactive) hstate
    · intro hstarted hsince hviolated
      refine (h.told hstarted hsince hviolated).imp id fun hcovered => ?_
      exact hturns.covered hcovered rfl (by simp [Frame.Deactivates]) (by simp [Frame.Stops])
        (by simp [Frame.Ends])

/-- `Initialize` is over. -/
theorem Valid.initialized (h : s.Valid x) (htop : s.threads t = .initializing x :: rest)
    (succeeds : Bool) : (s.initialized t x succeeds rest).Valid x := by
  have hturns : Turns s (s.initialized t x succeeds rest) t (.initializing x) [] rest := ⟨htop, rfl⟩
  obtain ⟨hlone, hzero⟩ := h.given hturns (by simp [Frame.holds])
  have hbefore := h.initializing ⟨t, .initializing x, by simp [htop], rfl⟩
  cases succeeds with
  | false =>
    refine Valid.inactive hturns rfl rfl ?_ (fun _ => nofun) id ⟨hlone, fun _ => hzero⟩
      (not_initializing_of_weight hzero) (.inl ?_)
    · simpa [ServiceMap.initialized] using ⟨h.precondition, h.termination⟩
    · simp [ServiceMap.initialized]
  | true =>
    refine Valid.transition hturns rfl (fun hdue => hturns.due hdue rfl fun hv => absurd hv id) ?_
      (fun _ => nofun) hlone (fun _ => hzero) (fun hsome =>
        absurd hsome (not_initializing_of_weight hzero)) ?_ ?_
    · simpa [ServiceMap.initialized] using ⟨h.precondition, h.termination⟩
    · simp [ServiceMap.initialized]
    · intro _ hsince hviolated
      simp only [ServiceMap.initialized, services_goes, services_put, if_true] at hsince hviolated ⊢
      rcases hbefore with hactivation | ⟨-, hstops⟩
      · refine (h.told (.inl hactivation) hsince hviolated).imp id ?_
        rintro (⟨hactive, -⟩ | hstops | hends)
        · rw [hactivation] at hactive
          cases hactive
        · exact .inr (.inl (hturns.keep hstops (by simp [Frame.Stops])))
        · exact .inr (.inr (hturns.keep hends (by simp [Frame.Ends])))
      · exact .inr (.inr (.inl (hturns.keep hstops (by simp [Frame.Stops]))))

theorem Valid.deactivate {why : Service.Reason} (h : s.Valid x)
    (htop : s.threads t = .deactivate x why :: rest)
    (hready : why = .conditions → (s.services x).state = .unavailable →
      (s.services x).precondition.isMet = false) :
    (s.deactivate t x why rest).Valid x := by
  rw [ServiceMap.deactivate]
  split_ifs with hstate hdirect
  · have hturns : Turns s ((s.put x { s.services x with
        state := .deactivation, locked := true }).goes t
        (.unset x why (s.services x).control :: rest)) t (.deactivate x why)
        [.unset x why (s.services x).control] rest := ⟨htop, rfl⟩
    obtain ⟨hlone, hfree⟩ := h.untaken hturns (by simp [Frame.holds]) (by simp)
    refine Valid.transition hturns rfl (fun hdue => hturns.due hdue rfl fun hv => absurd hv id) ?_
      (fun _ => nofun) hlone hfree ?_ ?_ ?_
    · simpa using ⟨h.precondition, h.termination⟩
    · exact fun _ => .inr ⟨by simp, hturns.pushed (List.mem_singleton_self _) (.inl ⟨_, _, rfl⟩)⟩
    · simp
    · simp [Started]
  · have hturns : Turns s ((s.put x { s.services x with
        state := Service.afterwards why, handler := false }).goes t rest) t (.deactivate x why) []
        rest := ⟨htop, rfl⟩
    refine Valid.inactive hturns rfl rfl ?_ (fun _ => nofun) id
      (h.untaken hturns nofun (by simp)) ?_ ?_
    · simpa using ⟨h.precondition, h.termination⟩
    · intro hsome
      refine h.not_initializing ?_ (hturns.before hsome nofun)
      rcases hdirect with hdirect | hdirect <;> simp [hdirect]
    · simp only [services_goes, services_put, Service.afterwards]
      split_ifs with hwhy
      · refine .inr ⟨rfl, fun hmet => ?_⟩
        rcases hdirect with hdirect | hdirect
        · rw [hready hwhy hdirect] at hmet
          cases hmet
        · exact hturns.keep (h.activating hdirect hmet) nofun
      · exact .inl rfl
  · have hturns : Turns s (s.goes t rest) t (.deactivate x why) [] rest := ⟨htop, rfl⟩
    obtain ⟨hlone, hfree⟩ := h.untaken hturns nofun id
    refine Valid.transition hturns rfl (fun hdue => hturns.due hdue rfl fun hv => absurd hv id)
      h.kept (fun _ => nofun) hlone hfree ?_ ?_ ?_
    · intro hsome
      refine (h.initializing (hturns.before hsome nofun)).imp id ?_
      exact fun ⟨hactive, hstops⟩ => ⟨hactive, hturns.keep hstops (by simp [Frame.Stops])⟩
    · exact fun hactive => absurd (.inr hactive) hdirect
    · intro hstarted hsince hviolated
      refine (h.told hstarted hsince hviolated).imp id ?_
      rintro (⟨hactive, -⟩ | hstops | hends)
      · exact absurd (.inl hactive) hstate
      · exact .inr (.inl (hturns.keep hstops (by simp [Frame.Stops])))
      · exact .inr (.inr (hturns.keep hends (by simp [Frame.Ends])))

/-- `Deinitialize` is over. -/
theorem Valid.deinitialized {why : Service.Reason} (h : s.Valid x)
    (htop : s.threads t = .deinitializing x why :: rest)
    (hready : why = .conditions → (s.services x).precondition.isMet = false) :
    (s.deinitialized t x why rest).Valid x := by
  have hturns : Turns s (s.deinitialized t x why rest) t (.deinitializing x why) [] rest :=
    ⟨htop, rfl⟩
  obtain ⟨hlone, hzero⟩ := h.given hturns (by simp [Frame.holds])
  refine Valid.inactive hturns rfl rfl ?_ (fun _ => nofun) id ⟨hlone, fun _ => hzero⟩
    (not_initializing_of_weight hzero) ?_
  · simpa [ServiceMap.deinitialized] using ⟨h.precondition, h.termination⟩
  · simp only [ServiceMap.deinitialized, services_goes, services_put, Service.afterwards]
    split_ifs with hwhy
    · refine .inr ⟨rfl, fun hmet => ?_⟩
      rw [hready hwhy] at hmet
      cases hmet
    · exact .inl rfl

end

/-! ### Runs -/

section

variable [DecidableEq α] {callsigns : List α} {s s' : ServiceMap τ α} {x y : α} {t : τ}
  {top : Frame α} {calls rest : List (Frame α)}

/-- The flags of the subsystems change, and an evaluation is to come. -/
theorem Valid.changed {flags : Nat} (h : s.Valid x) (hx : x ∈ callsigns)
    (hwatched : s.Watched callsigns flags) (hflags : s'.flags = flags)
    (hservice : s'.services x = (s.services x).observes s.flags flags)
    (hthreads : s'.threads = s.threads) (hdue : s'.Due x) : s'.Valid x := by
  refine ⟨?_, ?_, ?_, ?_, ?_, .inr hdue, .inr (.inl hdue)⟩
  · rw [hthreads]
    exact h.lone
  · rw [hthreads, hservice]
    exact h.free
  · rw [hthreads, hservice]
    exact h.initializing
  · rw [hthreads, hservice]
    exact h.activating
  · intro hstarted hsince hviolated
    rw [Started, hservice] at hstarted
    rw [hservice] at hsince
    rw [hservice, hflags] at hviolated
    rw [Covered, hthreads, hservice]
    replace hstarted : s.Started x := hstarted
    replace hviolated : (s.services x).termination.met flags = false := hviolated
    cases hbefore : (s.services x).termination.met s.flags with
    | true => exact hwatched x hx hstarted hbefore hviolated
    | false =>
      have hsince : (s.services x).since = true := by
        simpa [Service.observes, hbefore] using hsince
      exact h.told hstarted hsince hbefore

theorem Valid.set (h : s.Valid x) (hx : x ∈ callsigns) {system : Subsystem}
    (hwatched : s.Watched callsigns (s.flagsSet system)) : (s.set system).Valid x := by
  rw [ServiceMap.set]
  split_ifs
  · exact h
  · refine h.changed hx hwatched rfl rfl rfl ?_
    cases hjob : s.job with
    | idle => exact .inl rfl
    | submitted => exact .inl rfl
    | executing => exact .inr (.inl rfl)
    | resubmit => exact .inr (.inl rfl)

variable [DecidableEq τ]

/-- The next section of a deactivation that has begun. -/
theorem Valid.stops (h : s.Valid x) (hturns : Turns s s' t top calls rest) (hstops : top.Stops x)
    (hflags : s'.flags = s.flags) (hdue : s.Due x → s'.Due x)
    (hstate : (s'.services x).state = (s.services x).state)
    (hprecondition : (s'.services x).precondition = (s.services x).precondition)
    (htermination : (s'.services x).termination = (s.services x).termination)
    (hlone : Token.Lone (weight (Frame.holds x) s'.threads))
    (hfree : (s'.services x).held = false → ∀ t, weight (Frame.holds x) s'.threads t = 0)
    (hcalls : (∃ f ∈ calls, f.Stops x) ∨
      (∃ f ∈ calls, f.Ends x) ∧ ¬ Somewhere (Frame.Initializes x) s.threads)
    (hinitializes : ∀ f ∈ calls, ¬ f.Initializes x) : s'.Valid x := by
  have hkept : s.Kept x (s'.services x) :=
    ⟨by rw [hprecondition]; exact h.precondition, by rw [htermination]; exact h.termination⟩
  have hjudges : ∀ subsystems, ¬ top.Judges x subsystems := by
    obtain ⟨why, systems, rfl⟩ | ⟨why, rfl⟩ := hstops <;> simp [Frame.Judges]
  refine Valid.transition hturns hflags hdue hkept hjudges hlone hfree ?_ ?_ ?_
  · intro hsome
    have hbefore := hturns.before hsome hinitializes
    rw [hstate]
    refine (h.initializing hbefore).imp id fun hstopping => ⟨hstopping.1, ?_⟩
    obtain ⟨f, hf, hstop⟩ | ⟨-, hnone⟩ := hcalls
    · exact hturns.pushed hf hstop
    · exact absurd hbefore hnone
  · intro hactive hmet
    rw [hstate] at hactive
    rw [hprecondition] at hmet
    refine hturns.keep (h.activating hactive hmet) ?_
    obtain ⟨why, systems, rfl⟩ | ⟨why, rfl⟩ := hstops <;> exact nofun
  · intro _ _ _
    refine .inr (.inr ?_)
    obtain ⟨f, hf, hstop⟩ | ⟨⟨f, hf, hend⟩, -⟩ := hcalls
    · exact .inl (hturns.pushed hf hstop)
    · exact .inr (hturns.pushed hf hend)

/-- What a section does to the other services: nothing, and they are still to be evaluated. -/
structure Apart (s s' : ServiceMap τ α) (x : α) (t : τ) (top : Frame α)
    (calls rest : List (Frame α)) :
    Prop where
  turns : Turns s s' t top calls rest
  service : s'.services x = s.services x
  flags : s'.flags = s.flags
  job : s'.job = s.job
  objects : ∀ f ∈ calls, f.object ≠ some x
  visits : top.Visits x → ∃ f ∈ calls, f.Visits x

theorem apart_terminate (hne : y ≠ x) (htop : s.threads t = top :: rest) (service : Service)
    (subsystems : Nat) (current : Service.State) (more : List (Frame α))
    (hmore : ∀ f ∈ more, f.object ≠ some x) (hvisits : top.Visits x → ∃ f ∈ more, f.Visits x) :
    ∃ calls, Apart s ((s.put y service).terminate t y subsystems current (more ++ rest)) x t top
      calls rest := by
  have hservice : ((s.put y service).terminate t y subsystems current (more ++ rest)).services x =
      s.services x := by
    rw [ServiceMap.terminate, services_goes, services_put_of_ne hne.symm,
      services_put_of_ne hne.symm]
  rw [ServiceMap.terminate] at hservice ⊢
  split_ifs at hservice ⊢
  · refine ⟨.deactivate y .conditions :: more, ⟨htop, rfl⟩, hservice, rfl, rfl, ?_, ?_⟩
    · rw [List.forall_mem_cons]
      exact ⟨by simpa [Frame.object] using hne, hmore⟩
    · intro hvisit
      obtain ⟨f, hf, hv⟩ := hvisits hvisit
      exact ⟨f, List.mem_cons_of_mem _ hf, hv⟩
  · exact ⟨more, ⟨htop, rfl⟩, hservice, rfl, rfl, hmore, hvisits⟩

theorem apart_evaluate (hne : y ≠ x) {remaining : List α}
    (htop : s.threads t = .walk (y :: remaining) :: rest) :
    ∃ calls, Apart s (s.evaluate t y (.walk remaining :: rest)) x t (.walk (y :: remaining)) calls
      rest := by
  have hwalk : (Frame.walk (y :: remaining)).Visits x → (Frame.walk remaining).Visits x :=
    fun hvisit => (List.mem_cons.mp hvisit).resolve_left hne.symm
  rw [ServiceMap.evaluate]
  split_ifs
  · refine ⟨[.activate y, .terminate y s.flags (s.services y).state, .walk remaining],
      ⟨htop, rfl⟩, ?_, rfl, rfl, ?_, ?_⟩
    · rw [services_goes, services_put_of_ne hne.symm]
    · simpa [Frame.object] using hne
    · exact fun hvisit => ⟨.walk remaining, by simp, hwalk hvisit⟩
  · exact apart_terminate hne htop _ _ _ [.walk remaining] (by simp [Frame.object])
      fun hvisit => ⟨_, List.mem_singleton_self _, hwalk hvisit⟩

theorem apart_goes (calls : List (Frame α)) (hne : y ≠ x) (htop : s.threads t = top :: rest)
    (service : Service) (hcalls : ∀ f ∈ calls, f.object ≠ some x)
    (hvisits : top.Visits x → ∃ f ∈ calls, f.Visits x) :
    Apart s ((s.put y service).goes t (calls ++ rest)) x t top calls rest :=
  ⟨⟨htop, rfl⟩, by rw [services_goes, services_put_of_ne hne.symm], rfl, rfl, hcalls,
    hvisits⟩

omit [DecidableEq α] in
theorem apart_skip (htop : s.threads t = top :: rest) (hvisits : ¬ top.Visits x) :
    Apart s (s.goes t rest) x t top [] rest :=
  ⟨⟨htop, rfl⟩, rfl, rfl, rfl, nofun, fun hvisit => absurd hvisit hvisits⟩

theorem apart_activate (hne : y ≠ x) (htop : s.threads t = .activate y :: rest) (loads : Bool) :
    ∃ calls, Apart s (s.activate t y loads rest) x t (.activate y) calls rest := by
  rw [ServiceMap.activate]
  generalize (if (s.services y).handler then s.services y
    else (s.services y).acquireInterfaces s.flags loads) = service
  dsimp only
  split_ifs
  · exact ⟨[], apart_goes [] hne htop _ nofun fun hv => absurd hv id⟩
  · exact ⟨[], apart_goes [] hne htop _ nofun fun hv => absurd hv id⟩
  · exact ⟨[.initializing y], apart_goes [_] hne htop _ (by simpa [Frame.object] using hne) nofun⟩
  · exact ⟨[], apart_skip htop id⟩

theorem apart_deactivate {why : Service.Reason} (hne : y ≠ x)
    (htop : s.threads t = .deactivate y why :: rest) :
    ∃ calls, Apart s (s.deactivate t y why rest) x t (.deactivate y why) calls rest := by
  rw [ServiceMap.deactivate]
  split_ifs
  · exact ⟨[_], apart_goes [.unset y why (s.services y).control] hne htop _
      (by simpa [Frame.object] using hne) nofun⟩
  · exact ⟨[], apart_goes [] hne htop _ nofun fun hv => absurd hv id⟩
  · exact ⟨[], apart_skip htop id⟩

theorem Valid.apart (h : s.Valid x) (happart : Apart s s' x t top calls rest)
    (hx : top.object ≠ some x) : s'.Valid x :=
  h.other happart.turns happart.service happart.flags hx happart.objects fun hdue =>
    happart.turns.due hdue happart.job happart.visits

/-- A subsystem is unset, and others may follow. -/
theorem Valid.unset {why : Service.Reason} {system : Subsystem} {systems : List Subsystem}
    (h : s.Valid x) (hx : x ∈ callsigns)
    (htop : s.threads t = .unset y why (system :: systems) :: rest)
    (hwatched : s.Watched callsigns (s.flagsUnset system)) :
    ((s.withFlags (s.flagsUnset system)).goes t (.unset y why systems :: rest)).Valid x := by
  have hchanged : (s.withFlags (s.flagsUnset system)).Valid x :=
    h.changed hx hwatched rfl rfl rfl (.inr (.inr ⟨t, .unset y why (system :: systems), by
      simp [withFlags, htop], trivial⟩))
  have hturns : Turns (s.withFlags (s.flagsUnset system))
      ((s.withFlags (s.flagsUnset system)).goes t (.unset y why systems :: rest)) t
      (.unset y why (system :: systems)) [.unset y why systems] rest := ⟨htop, rfl⟩
  have hdue := fun hdue : (s.withFlags (s.flagsUnset system)).Due x =>
    hturns.due hdue rfl fun _ => ⟨_, List.mem_singleton_self _, trivial⟩
  by_cases hyx : y = x
  · obtain rfl := hyx
    obtain ⟨hlone, hfree⟩ := hchanged.untaken hturns (by simp [Frame.holds]) id
    exact hchanged.stops hturns (.inl ⟨_, _, rfl⟩) rfl hdue rfl rfl rfl hlone hfree
      (.inl ⟨_, List.mem_singleton_self _, .inl ⟨_, _, rfl⟩⟩) (by simp [Frame.Initializes])
  · refine hchanged.other hturns rfl rfl ?_ ?_ hdue
    · simpa [Frame.object] using hyx
    · simpa [Frame.object] using hyx

theorem Valid.unsetAll {why : Service.Reason} (h : s.Valid x) (hx : x ∈ callsigns)
    (htop : s.threads t = .unset y why [] :: rest) :
    ((s.put y { s.services y with locked := false }).goes t
      (.walk callsigns.reverse :: .teardown y why :: rest)).Valid x := by
  have hvisits : (Frame.unset y why []).Visits x →
      ∃ f ∈ [Frame.walk callsigns.reverse, .teardown y why], f.Visits x :=
    fun _ => ⟨.walk callsigns.reverse, by simp, List.mem_reverse.mpr hx⟩
  by_cases hyx : y = x
  · obtain rfl := hyx
    have hturns : Turns s ((s.put y { s.services y with locked := false }).goes t
        (.walk callsigns.reverse :: .teardown y why :: rest)) t (.unset y why [])
        [.walk callsigns.reverse, .teardown y why] rest := ⟨htop, rfl⟩
    obtain ⟨hlone, hfree⟩ := h.untaken hturns (by simp [Frame.holds]) (by simp)
    exact h.stops hturns (.inl ⟨_, _, rfl⟩) rfl (fun hdue => hturns.due hdue rfl hvisits) (by simp)
      (by simp) (by simp) hlone hfree (.inl ⟨.teardown y why, by simp, .inr ⟨_, rfl⟩⟩)
      (by simp [Frame.Initializes])
  · have happart : Apart s ((s.put y { s.services y with locked := false }).goes t
        (.walk callsigns.reverse :: .teardown y why :: rest)) x t (.unset y why [])
        [.walk callsigns.reverse, .teardown y why] rest :=
      apart_goes [_, _] hyx htop _ (by simpa [Frame.object] using hyx) hvisits
    exact h.apart happart (by simpa [Frame.object] using hyx)

theorem Valid.teardown {why : Service.Reason} (h : s.Valid x)
    (htop : s.threads t = .teardown y why :: rest) (hwaits : (s.services y).held = false) :
    ((s.put y { s.services y with held := true }).goes t
      (.deinitializing y why :: rest)).Valid x := by
  by_cases hyx : y = x
  · obtain rfl := hyx
    have hturns : Turns s ((s.put y { s.services y with held := true }).goes t
        (.deinitializing y why :: rest)) t (.teardown y why) [.deinitializing y why] rest :=
      ⟨htop, rfl⟩
    have hlone := h.taken hturns rfl (by simp [Frame.holds]) hwaits
    exact h.stops hturns (.inr ⟨_, rfl⟩) rfl
      (fun hdue => hturns.due hdue rfl fun hv => absurd hv id) (by simp) (by simp) (by simp) hlone
      (by simp)
      (.inr ⟨⟨_, List.mem_singleton_self _, _, rfl⟩, not_initializing_of_weight (h.free hwaits)⟩)
      (by simp [Frame.Initializes])
  · have happart : Apart s ((s.put y { s.services y with held := true }).goes t
        (.deinitializing y why :: rest)) x t (.teardown y why) [.deinitializing y why] rest :=
      apart_goes [_] hyx htop _ (by simpa [Frame.object] using hyx) fun hv => absurd hv id
    exact h.apart happart (by simpa [Frame.object] using hyx)

theorem Valid.done (h : s.Valid x) (htop : s.threads t = .done :: rest) :
    ({ s with job := s.job.finish }.goes t rest : ServiceMap τ α).Valid x := by
  have hturns : Turns s ({ s with job := s.job.finish }.goes t rest : ServiceMap τ α) t .done []
      rest := ⟨htop, rfl⟩
  refine h.other hturns rfl rfl nofun nofun ?_
  rintro (hjob | hjob | hsome)
  · exact .inl (by simp [goes, hjob, Job.finish])
  · exact .inl (by simp [goes, hjob, Job.finish])
  · exact .inr (.inr (hturns.keep hsome id))

/-- A section of a thread, whatever service it is about. -/
theorem Valid.turn (h : s.Valid x) (hx : x ∈ callsigns) (succeeds : Bool)
    (htop : s.threads t = top :: rest) (hwaits : s.waits top = false)
    (hheeds : s.Heeds callsigns (.turn t succeeds)) :
    (s.turn callsigns t succeeds rest top).Valid x := by
  rw [Heeds, htop] at hheeds
  cases top with
  | walk remaining =>
    cases remaining with
    | nil => exact h.apart (apart_skip htop nofun) nofun
    | cons y remaining =>
      by_cases hyx : y = x
      · obtain rfl := hyx
        exact h.evaluate htop hheeds
      · obtain ⟨calls, happart⟩ := apart_evaluate hyx htop
        exact h.apart happart nofun
  | activate y =>
    by_cases hyx : y = x
    · obtain rfl := hyx
      exact h.activate htop hwaits succeeds
    · obtain ⟨calls, happart⟩ := apart_activate hyx htop succeeds
      exact h.apart happart (by simpa [Frame.object] using hyx)
  | terminate y subsystems current =>
    by_cases hyx : y = x
    · obtain rfl := hyx
      refine h.terminate htop (fun hchanged => (hheeds hchanged).1) fun hmet hviolated => ?_
      exact (hheeds (by rw [hmet, hviolated]; exact nofun)).2 hviolated
    · have hput : s = s.put y (s.services y) := by rw [put, update_eq_self]
      obtain ⟨calls, happart⟩ := apart_terminate hyx htop (s.services y) subsystems current [] nofun
        fun hv => absurd hv id
      rw [← hput] at happart
      exact h.apart happart (by simpa [Frame.object] using hyx)
  | initializing y =>
    by_cases hyx : y = x
    · obtain rfl := hyx
      exact h.initialized htop succeeds
    · exact h.apart (apart_goes [] hyx htop _ nofun fun hv => absurd hv id)
        (by simpa [Frame.object] using hyx)
  | deactivate y why =>
    by_cases hyx : y = x
    · obtain rfl := hyx
      refine h.deactivate htop ?_
      rintro rfl
      exact hheeds
    · obtain ⟨calls, happart⟩ := apart_deactivate hyx htop
      exact h.apart happart (by simpa [Frame.object] using hyx)
  | unset y why systems =>
    cases systems with
    | nil => exact h.unsetAll hx htop
    | cons system systems => exact h.unset hx htop hheeds
  | teardown y why => exact h.teardown htop hwaits
  | deinitializing y why =>
    by_cases hyx : y = x
    · obtain rfl := hyx
      refine h.deinitialized htop ?_
      rintro rfl
      exact hheeds
    · exact h.apart (apart_goes [] hyx htop _ nofun fun hv => absurd hv id)
        (by simpa [Frame.object] using hyx)
  | done => exact h.done htop

theorem new_valid (τ : Type) (plugins : α → Plugin) (x : α) : (new τ plugins).Valid x := by
  have hidle : ∀ t, (new τ plugins).threads t = [] := fun _ => rfl
  refine ⟨.zero fun _ => rfl, fun _ _ => rfl, fun hsome => absurd hsome (not_somewhere hidle), ?_,
    ?_, .inl ?_, .inl ?_⟩
  · intro hstate
    simp only [new, Service.new] at hstate
    split_ifs at hstate
  · intro _ hsince
    cases hsince
  · exact Condition.isMet_ofLists ..
  · exact Condition.isMet_ofLists ..

/-- A step that heeds the conditions keeps what is right about all services. -/
theorem step_valid {a : Action τ α} (h : ∀ x ∈ callsigns, s.Valid x) (hheeds : s.Heeds callsigns a)
    (hstep : s.step callsigns a = some s') : ∀ x ∈ callsigns, s'.Valid x := by
  intro x hx
  cases a with
  | set system =>
    obtain rfl := Option.some.inj hstep
    exact (h x hx).set hx hheeds
  | activate t y =>
    obtain ⟨hidle, hs'⟩ := Option.ite_none_right_eq_some.mp hstep
    obtain rfl := Option.some.inj hs'
    refine (h x hx).call hidle rfl rfl rfl (by simp [Frame.holds]) ?_
    exact fun hdue => hdue.imp id (.imp id fun hsome => hsome.call hidle)
  | deactivate t y why =>
    obtain ⟨hidle, hs'⟩ := Option.ite_none_right_eq_some.mp hstep
    obtain rfl := Option.some.inj hs'
    refine (h x hx).call hidle rfl rfl rfl (by simp [Frame.holds]) ?_
    exact fun hdue => hdue.imp id (.imp id fun hsome => hsome.call hidle)
  | run t =>
    obtain ⟨⟨hidle, -⟩, hs'⟩ := Option.ite_none_right_eq_some.mp hstep
    obtain rfl := Option.some.inj hs'
    refine (h x hx).call hidle rfl rfl rfl (by simp [Frame.holds]) ?_
    -- all services are to be evaluated now
    intro _
    refine .inr (.inr ⟨t, .walk callsigns.reverse, ?_, List.mem_reverse.mpr hx⟩)
    simp [goes]
  | turn t succeeds =>
    rw [step] at hstep
    cases htop : s.threads t with
    | nil =>
      rw [htop] at hstep
      cases hstep
    | cons top rest =>
      rw [htop] at hstep
      obtain ⟨hwaits, hs'⟩ := Option.ite_none_left_eq_some.mp hstep
      obtain rfl := Option.some.inj hs'
      exact (h x hx).turn hx succeeds htop (Bool.eq_false_iff.mpr hwaits) hheeds

/-- In every run whose steps heed the conditions no change of a subsystem is missed. -/
theorem settled_of_heeds (callsigns : List α) (plugins : α → Plugin) {s : ServiceMap τ α}
    (h : Run.Reach (fun s a s' => step callsigns s a = some s') (Heeds callsigns)
      (new τ plugins) s) :
    s.Settled callsigns := by
  have hvalid : ∀ x ∈ callsigns, s.Valid x :=
    h.invariant (I := fun s => ∀ x ∈ callsigns, s.Valid x) (fun x _ => new_valid τ plugins x)
      fun _ _ _ hvalid hheeds hstep => step_valid hvalid hheeds hstep
  exact Valid.settled hvalid

/-- A plugin that waits for the network, and goes with it. -/
def networked : Plugin where
  unavailable := false
  precondition := [⟨false, .network⟩]
  termination := [⟨true, .network⟩]
  loadedPrecondition := []
  loadedTermination := []
  control := []

/-- The network comes up. -/
theorem settled_network : ∃ s : ServiceMap Unit Unit,
    Run.Reach (fun s a s' => step [()] s a = some s') (Heeds [()]) (new Unit fun _ => networked) s ∧
      s.job = .idle ∧ (s.services ()).state = .activated ∧ s.Settled [()] := by
  have hreach : Run.Reach (fun s a s' => step [()] s a = some s') (Heeds [()])
      (new Unit fun _ => networked) _ :=
    Run.Reach.start
    |>.step (a := .activate () ()) trivial rfl
    |>.step (a := .turn () true) (by trivial) rfl
    |>.step (a := .set .network) (by
      rintro ⟨⟩ - (hstate | hstate) <;> cases hstate) rfl
    |>.step (a := .run ()) trivial rfl
    |>.step (a := .turn () true) (by exact nofun) rfl
    |>.step (a := .turn () true) (by trivial) rfl
    |>.step (a := .turn () true) (by trivial) rfl
    |>.step (a := .turn () true) (by exact fun _ => ⟨.inl rfl, nofun⟩) rfl
    |>.step (a := .turn () true) (by trivial) rfl
    |>.step (a := .turn () true) (by trivial) rfl
  exact ⟨_, hreach, rfl, rfl, settled_of_heeds _ _ hreach⟩

/-- One plugin controls the network, and another one goes with it. -/
def controlled : Bool → Plugin
  | false => { networked with precondition := [], termination := [], control := [.network] }
  | true => { networked with precondition := [] }

/-- The network goes down while the plugin is being initialized. -/
theorem not_settled_activation : ¬ ∀ s : ServiceMap Bool Bool,
    Run.Reach (fun s a s' => step [false, true] s a = some s') (fun _ _ => True)
      (new Bool controlled) s → s.Settled [false, true] := by
  intro h
  have hreach : Run.Reach (fun s a s' => step [false, true] s a = some s') (fun _ _ => True)
      (new Bool controlled) _ :=
    Run.Reach.start
    |>.step (a := .set .network) trivial rfl
    |>.step (a := .run false) trivial rfl
    |>.step (a := .turn false true) trivial rfl
    |>.step (a := .turn false true) trivial rfl
    |>.step (a := .turn false true) trivial rfl
    |>.step (a := .turn false true) trivial rfl
    |>.step (a := .activate false false) trivial rfl
    |>.step (a := .turn false true) trivial rfl
    |>.step (a := .turn false true) trivial rfl
    -- the other plugin is in its `Initialize`
    |>.step (a := .activate true true) trivial rfl
    |>.step (a := .turn true true) trivial rfl
    |>.step (a := .deactivate false false .other) trivial rfl
    |>.step (a := .turn false true) trivial rfl
    |>.step (a := .turn false true) trivial rfl
    |>.step (a := .turn false true) trivial rfl
    |>.step (a := .turn false true) trivial rfl
    |>.step (a := .turn false true) trivial rfl
    |>.step (a := .turn false true) trivial rfl
    |>.step (a := .turn false true) trivial rfl
    |>.step (a := .turn false true) trivial rfl
    |>.step (a := .turn true true) trivial rfl
  have hquiet := (h _ hreach).deactivated ⟨rfl, by rintro (_ | _) <;> rfl⟩ true (by decide) rfl rfl
  exact absurd hquiet (by decide)

end

end ServiceMap

end Server

end Thunder.PluginHost
