import Thunder.Library.Firsts
import Mathlib.Data.List.Perm.Basic
import Mathlib.Data.UInt

/-! The order in which the plugins are activated when the server opens and deactivated when it
closes. -/

namespace Thunder.PluginHost.Startup

open Firsts

inductive State
  | UNAVAILABLE
  | DEACTIVATED
  | ACTIVATED
  | DEACTIVATION
  | ACTIVATION
  | PRECONDITION
  | HIBERNATED
  | DESTROYED
  deriving DecidableEq

inductive StartMode
  | UNAVAILABLE
  | DEACTIVATED
  | ACTIVATED
  deriving DecidableEq

/-- `extension` tells a `ThunderExtensionService`; `order` is there where the configuration sets
it. -/
structure Service where
  callsign : String
  extension : Bool
  startMode : StartMode
  order : Option UInt32
  deriving DecidableEq

namespace Service

variable (s : Service)

def priorityStart : Bool := s.extension

def autoActivationAlwaysEnabled : Bool := s.extension

def startupOrderSet : Bool := s.order.isSome

def startupOrder : UInt32 := s.order.getD 1000

end Service

def allExtensionsAuthorized : String := "*"

/-- What the configuration makes of the list: the wildcard counts only as the last entry. -/
def authorizedExtensions : List String → List String
  | [] => []
  | [name] => [name]
  | name :: names =>
    if name = allExtensionsAuthorized then authorizedExtensions names
    else name :: authorizedExtensions names

/-- The services are in the order in which the map is walked; the Controller is one of them. -/
structure ServiceMap where
  services : List Service
  controller : Service
  extensions : List String
  disablePluginAutoActivation : Bool
  nodup : (services.map Service.callsign).Nodup
  controller_mem : controller ∈ services

/-- `std::sort` by the start-up order; nothing is said of services with the same. -/
structure StartupSort where
  sort : List Service → List Service
  perm : ∀ services, (sort services).Perm services
  sorted : ∀ services,
    (sort services).Pairwise fun s s' => s.startupOrder ≤ s'.startupOrder

namespace ServiceMap

variable (m : ServiceMap)

-- the state in which a service is when it has been activated so many times
variable (state : Service → Nat → State)

def prioritystartorder : List String := authorizedExtensions m.extensions

def find (services : List Service) (callsign : String) : Option Service :=
  services.find? fun s => s.callsign = callsign

def autoActivateAllowed (s : Service) : Bool :=
  s.autoActivationAlwaysEnabled || !m.disablePluginAutoActivation

/-- `log` are the services that have been activated so far. -/
def activateService (log : List Service) (s : Service) : List Service :=
  let current := state s (log.count s)
  if current ≠ .UNAVAILABLE ∧ current ≠ .ACTIVATED then
    if s.startMode = .ACTIVATED then log ++ [s] else log
  else log

def startListed (log : List Service) (prioservice : String) : List Service :=
  if prioservice ≠ allExtensionsAuthorized then
    match find m.services prioservice with
    | some s => if m.autoActivateAllowed s then activateService state log s else log
    | none => log
  else log

/-- The loop over the map: the log, `configured_services` and `needssorting`. -/
def collect (x : List Service × List Service × Bool) (s : Service) :
    List Service × List Service × Bool :=
  let (log, configured, needssorting) := x
  if s.priorityStart then
    if m.autoActivateAllowed s ∧ s.callsign ∉ m.prioritystartorder then
      (activateService state log s, configured, needssorting)
    else x
  else if m.autoActivateAllowed s then
    (log, configured ++ [s], needssorting || s.startupOrderSet)
  else x

/-- The services that `Startup` activates, in its order. -/
def startup (sort : StartupSort) : List Service :=
  let log := m.prioritystartorder.foldl (m.startListed state) []
  let (log, configured, needssorting) := m.services.foldl (m.collect state) (log, [], false)
  let configured :=
    if needssorting && configured.length != 0 then sort.sort configured else configured
  configured.foldl (activateService state) log

/-- A loop over the map that deactivates and erases the services of a kind. -/
def closeWhere (kind : Service → Bool) : List Service → List Service × List Service
  | [] => ([], [])
  | s :: services =>
    let (log, kept) := closeWhere kind services
    if kind s then (s :: log, kept) else (log, s :: kept)

def closeListed (x : List Service × List Service) (name : String) :
    List Service × List Service :=
  match find x.2 name with
  | some s => (x.1 ++ [s], x.2.erase s)
  | none => x

/-- The services that `Close` deactivates, in its order, and what it leaves of the map. -/
def close : List Service × List Service :=
  let (unprioritized, services) := closeWhere (fun s =>
    s.priorityStart == false && s.callsign != m.controller.callsign) m.services
  let (unlisted, services) := closeWhere (fun s =>
    decide (s.callsign ∉ m.prioritystartorder) && s.callsign != m.controller.callsign) services
  let (log, _) := m.prioritystartorder.reverse.foldl closeListed
    (unprioritized ++ unlisted, services)
  (log ++ [m.controller], [])

/-! ### What is claimed of it -/

/-- Whether a service that has been activated so many times is activated once more. -/
def pending (s : Service) (n : Nat) : Bool :=
  state s n ≠ .UNAVAILABLE && state s n ≠ .ACTIVATED && s.startMode = .ACTIVATED

def eligible (s : Service) : Bool := m.autoActivateAllowed s && pending state s 0

def listed (s : Service) : Bool :=
  s.callsign ≠ allExtensionsAuthorized && decide (s.callsign ∈ m.prioritystartorder)

def startRank (s : Service) : Nat :=
  if s.priorityStart then if m.listed s then 0 else 1 else 2

/-- Listed priority services in the order of the list, other priority services, and the rest by
their start-up order. -/
def StartsBefore (s s' : Service) : Prop :=
  m.startRank s < m.startRank s' ∨ m.startRank s = m.startRank s' ∧
    (m.startRank s = 0 → m.prioritystartorder.idxOf s.callsign ≤
      m.prioritystartorder.idxOf s'.callsign) ∧
    (m.startRank s = 2 → s.startupOrder ≤ s'.startupOrder)

structure StartedUp (log : List Service) : Prop where
  once : ∀ s ∈ m.services, m.eligible state s = true → log.count s = 1
  only : ∀ s ∈ log, s ∈ m.services ∧ m.eligible state s = true
  order : log.Pairwise m.StartsBefore

def closeRank (s : Service) : Nat :=
  if s = m.controller then 3
  else if s.priorityStart then if m.listed s then 2 else 1 else 0

/-- Services without priority, unlisted priority services, listed ones against the order of the
list, and the Controller. -/
def ClosesBefore (s s' : Service) : Prop :=
  m.closeRank s < m.closeRank s' ∨ m.closeRank s = m.closeRank s' ∧
    (m.closeRank s = 2 → m.prioritystartorder.reverse.idxOf s.callsign ≤
      m.prioritystartorder.reverse.idxOf s'.callsign)

structure Closed (x : List Service × List Service) : Prop where
  once : ∀ s ∈ m.services, x.1.count s = 1
  only : ∀ s ∈ x.1, s ∈ m.services
  order : x.1.Pairwise m.ClosesBefore
  last : x.1.getLast? = some m.controller
  empty : x.2 = []

/-- No service that has a second turn, as it is listed twice or listed without priority, is left by
its first activation as one to be activated. -/
def Settles : Prop :=
  ∀ s ∈ m.services, m.eligible state s = true → m.listed s = true →
    2 ≤ m.prioritystartorder.count s.callsign ∨ s.priorityStart = false →
      pending state s 1 = false

/-- No service without priority is listed before one with priority or a lower start-up order; the
unlisted ones are behind all of the list. -/
def Ranked : Prop :=
  ∀ s ∈ m.services, ∀ s' ∈ m.services, m.eligible state s = true → m.eligible state s' = true →
    m.listed s = true → s.priorityStart = false →
    m.listed s' = false ∨
      m.prioritystartorder.idxOf s.callsign < m.prioritystartorder.idxOf s'.callsign →
    s'.priorityStart = false ∧ s.startupOrder ≤ s'.startupOrder

structure Orderly : Prop where
  settles : m.Settles state
  ranked : m.Ranked state
  wildcard : ∀ s ∈ m.services, m.eligible state s = true → s.priorityStart = true →
    s.callsign = allExtensionsAuthorized → s.callsign ∉ m.prioritystartorder
  controller : m.controller.callsign ∉ m.prioritystartorder

variable {m} {state}

/-! ### The turns of the services -/

theorem eq_of_find {services : List Service} {callsign : String} {s : Service}
    (h : find services callsign = some s) : s.callsign = callsign := by
  have hp := List.find?_some h
  exact of_decide_eq_true hp

theorem find_eq_some {services : List Service} (hnodup : (services.map Service.callsign).Nodup)
    {s : Service} (hs : s ∈ services) : find services s.callsign = some s := by
  rw [find]
  cases hfind : services.find? fun s' => s'.callsign = s.callsign with
  | none =>
    have hne := List.find?_eq_none.mp hfind s hs
    exact absurd (decide_eq_true rfl) hne
  | some s' =>
    have heq : s'.callsign = s.callsign := eq_of_find hfind
    rw [List.inj_on_of_nodup_map hnodup (List.mem_of_find?_eq_some hfind) hs heq]

theorem callsign_inj {s s' : Service} (hs : s ∈ m.services) (hs' : s' ∈ m.services)
    (heq : s.callsign = s'.callsign) : s = s' := List.inj_on_of_nodup_map m.nodup hs hs' heq

theorem nodup_services (m : ServiceMap) : m.services.Nodup := m.nodup.of_map

theorem activateService_eq : activateService state = attempt (pending state) := by
  funext log s
  simp only [activateService, attempt, pending]
  split_ifs <;> simp_all

/-- The turn that an entry of the list gives. -/
def listedTurn (m : ServiceMap) (prioservice : String) : Option Service :=
  if prioservice ≠ allExtensionsAuthorized then
    (find m.services prioservice).filter m.autoActivateAllowed
  else none

def listedTurns (m : ServiceMap) : List Service := m.prioritystartorder.filterMap m.listedTurn

def unlistedTurn (m : ServiceMap) (s : Service) : Bool :=
  s.priorityStart && m.autoActivateAllowed s && decide (s.callsign ∉ m.prioritystartorder)

def configuredTurn (m : ServiceMap) (s : Service) : Bool :=
  !s.priorityStart && m.autoActivateAllowed s

theorem listedTurn_eq {name : String} {s : Service} : m.listedTurn name = some s ↔
    s ∈ m.services ∧ s.callsign = name ∧ name ≠ allExtensionsAuthorized ∧
      m.autoActivateAllowed s = true := by
  rw [listedTurn]
  split_ifs with hname
  · rw [Option.filter_eq_some_iff]
    constructor
    · rintro ⟨hfind, hallowed⟩
      exact ⟨List.mem_of_find?_eq_some hfind, eq_of_find hfind, hname, hallowed⟩
    · rintro ⟨hs, rfl, -, hallowed⟩
      exact ⟨find_eq_some m.nodup hs, hallowed⟩
  · simp [hname]

theorem mem_listedTurns {s : Service} : s ∈ m.listedTurns ↔
    s ∈ m.services ∧ m.listed s = true ∧ m.autoActivateAllowed s = true := by
  simp only [listedTurns, List.mem_filterMap, listedTurn_eq, listed, Bool.and_eq_true,
    decide_eq_true_eq]
  constructor
  · rintro ⟨name, hname, hs, rfl, hne, hallowed⟩
    exact ⟨hs, ⟨hne, hname⟩, hallowed⟩
  · rintro ⟨hs, ⟨hne, hname⟩, hallowed⟩
    exact ⟨_, hname, hs, rfl, hne, hallowed⟩

theorem foldl_startListed (names : List String) (log : List Service) :
    names.foldl (m.startListed state) log =
      (names.filterMap m.listedTurn).foldl (attempt (pending state)) log := by
  induction names generalizing log with
  | nil => rfl
  | cons name names ih =>
    rw [List.foldl_cons, ih, List.filterMap_cons, startListed, listedTurn, activateService_eq]
    split_ifs with hname
    · cases hfind : find m.services name with
      | none => rfl
      | some s => by_cases hallowed : m.autoActivateAllowed s <;> simp [Option.filter, hallowed]
    · rfl

theorem foldl_collect (services : List Service) (log configured : List Service)
    (needssorting : Bool) :
    services.foldl (m.collect state) (log, configured, needssorting) =
      ((services.filter m.unlistedTurn).foldl (attempt (pending state)) log,
        configured ++ services.filter m.configuredTurn,
        needssorting || (services.filter m.configuredTurn).any Service.startupOrderSet) := by
  induction services generalizing log configured needssorting with
  | nil => simp
  | cons s services ih =>
    rw [List.foldl_cons, collect, activateService_eq]
    cases hpriority : s.priorityStart <;> cases hallowed : m.autoActivateAllowed s <;>
      by_cases hlisted : s.callsign ∈ m.prioritystartorder <;>
      simp [ih, unlistedTurn, configuredTurn, hpriority, hallowed, hlisted, Bool.or_assoc]

/-- The services without priority, as `Startup` has them in the end. -/
def configured (m : ServiceMap) (sort : StartupSort) : List Service :=
  let services := m.services.filter m.configuredTurn
  if services.any Service.startupOrderSet && services.length != 0 then sort.sort services
  else services

variable {sort : StartupSort}

theorem perm_configured : (m.configured sort).Perm (m.services.filter m.configuredTurn) := by
  simp only [configured]
  split_ifs
  · exact sort.perm _
  · exact List.Perm.refl _

theorem mem_configured {s : Service} :
    s ∈ m.configured sort ↔ s ∈ m.services ∧ m.configuredTurn s = true :=
  perm_configured.mem_iff.trans List.mem_filter

theorem nodup_configured : (m.configured sort).Nodup :=
  perm_configured.nodup_iff.mpr ((nodup_services m).filter _)

theorem sorted_configured :
    (m.configured sort).Pairwise fun s s' => s.startupOrder ≤ s'.startupOrder := by
  simp only [configured]
  split_ifs with hsort
  · exact sort.sorted _
  · -- no start-up order is set
    have hunset : ∀ s ∈ m.services.filter m.configuredTurn, s.startupOrder = 1000 := by
      intro s hs
      have hlength : (m.services.filter m.configuredTurn).length ≠ 0 := fun h =>
        List.ne_nil_of_mem hs (List.eq_nil_of_length_eq_zero h)
      have hnone : ¬s.startupOrderSet = true := fun hset => hsort <| by
        rw [Bool.and_eq_true, bne_iff_ne]
        exact ⟨List.any_eq_true.mpr ⟨s, hs, hset⟩, hlength⟩
      rw [Service.startupOrderSet, Option.not_isSome_iff_eq_none] at hnone
      rw [Service.startupOrder, hnone, Option.getD_none]
    refine List.pairwise_of_forall_mem_list fun s hs s' hs' => ?_
    rw [hunset s hs, hunset s' hs']
    exact UInt32.le_refl _

/-- `Startup` gives the services their turns: those of the list, the unlisted ones with priority and
those without, one after the other. -/
def turns (m : ServiceMap) (sort : StartupSort) : List Service :=
  m.listedTurns ++ m.services.filter m.unlistedTurn ++ m.configured sort

theorem startup_eq :
    m.startup state sort = (m.turns sort).foldl (attempt (pending state)) [] := by
  simp only [startup, turns, foldl_startListed, foldl_collect, activateService_eq, listedTurns,
    configured, List.foldl_append, List.nil_append, Bool.false_or]

theorem mem_turns {s : Service} (h : s ∈ m.turns sort) :
    s ∈ m.services ∧ m.autoActivateAllowed s = true := by
  simp only [turns, List.mem_append, mem_listedTurns, mem_configured, List.mem_filter,
    unlistedTurn, configuredTurn, Bool.and_eq_true] at h
  rcases h with (⟨hs, -, hallowed⟩ | ⟨hs, ⟨-, hallowed⟩, -⟩) | ⟨hs, -, hallowed⟩ <;>
    exact ⟨hs, hallowed⟩

theorem listed_eq_false {s : Service} (hlisted : m.listed s = false) :
    s.callsign = allExtensionsAuthorized ∨ s.callsign ∉ m.prioritystartorder := by
  rw [listed, Bool.and_eq_false_iff] at hlisted
  rcases hlisted with hname | hlist
  · exact .inl (by simpa using hname)
  · exact .inr (of_decide_eq_false hlist)

theorem listed_of_mem {s : Service} (hname : s.callsign ≠ allExtensionsAuthorized)
    (hmem : s.callsign ∈ m.prioritystartorder) : m.listed s = true := by
  rw [listed, Bool.and_eq_true]
  exact ⟨decide_eq_true hname, decide_eq_true hmem⟩

theorem listed_eq_true {s : Service} (h : m.listed s = true) :
    s.callsign ≠ allExtensionsAuthorized ∧ s.callsign ∈ m.prioritystartorder := by
  rw [listed, Bool.and_eq_true] at h
  exact ⟨of_decide_eq_true h.1, of_decide_eq_true h.2⟩

/-- A service whose entry is not the wildcard has a turn. -/
theorem mem_turns_of_allowed {s : Service} (hs : s ∈ m.services)
    (hallowed : m.autoActivateAllowed s = true)
    (hwildcard : s.priorityStart = true → s.callsign = allExtensionsAuthorized →
      s.callsign ∉ m.prioritystartorder) : s ∈ m.turns sort := by
  simp only [turns, List.mem_append]
  cases hlisted : m.listed s with
  | true => exact .inl (.inl (mem_listedTurns.mpr ⟨hs, hlisted, hallowed⟩))
  | false =>
    cases hpriority : s.priorityStart with
    | false =>
      refine .inr (mem_configured.mpr ⟨hs, ?_⟩)
      simp [configuredTurn, hpriority, hallowed]
    | true =>
      refine .inl (.inr (List.mem_filter.mpr ⟨hs, ?_⟩))
      have hmem : s.callsign ∉ m.prioritystartorder := (listed_eq_false hlisted).elim
        (hwildcard hpriority) id
      simp [unlistedTurn, hpriority, hallowed, hmem]

theorem count_listedTurns {s : Service} (hs : s ∈ m.services)
    (hallowed : m.autoActivateAllowed s = true) (hlisted : m.listed s = true) :
    m.listedTurns.count s = m.prioritystartorder.count s.callsign :=
  count_filterMap (fun h => (listedTurn_eq.mp h).2.1)
    (listedTurn_eq.mpr ⟨hs, rfl, (listed_eq_true hlisted).1, hallowed⟩) _

/-- Which services have more than one turn. -/
theorem two_le_count_turns {s : Service} (hs : s ∈ m.services)
    (hallowed : m.autoActivateAllowed s = true) : 2 ≤ (m.turns sort).count s ↔
      m.listed s = true ∧
        (2 ≤ m.prioritystartorder.count s.callsign ∨ s.priorityStart = false) := by
  have hunlisted : (m.services.filter m.unlistedTurn).count s ≤ 1 :=
    List.nodup_iff_count_le_one.mp ((nodup_services m).filter _) s
  have hconfigured : (m.configured sort).count s ≤ 1 :=
    List.nodup_iff_count_le_one.mp nodup_configured s
  have hcount : (m.turns sort).count s = m.listedTurns.count s +
      (m.services.filter m.unlistedTurn).count s + (m.configured sort).count s := by
    rw [turns, List.count_append, List.count_append]
  have hpriority : s.priorityStart = true → (m.configured sort).count s = 0 := fun hpriority =>
    List.count_eq_zero.mpr fun hmem => by
      simpa [configuredTurn, hpriority] using (mem_configured.mp hmem).2
  cases hlisted : m.listed s with
  | false =>
    have hnone : m.listedTurns.count s = 0 := List.count_eq_zero.mpr fun hmem => by
      simpa [hlisted] using (mem_listedTurns.mp hmem).2.1
    have hone : s.priorityStart = false → (m.services.filter m.unlistedTurn).count s = 0 :=
      fun hpriority => List.count_eq_zero.mpr fun hmem => by
        simpa [unlistedTurn, hpriority] using (List.mem_filter.mp hmem).2
    cases hp : s.priorityStart with
    | true =>
      have := hpriority hp
      simp only [Bool.false_eq_true, false_and, iff_false]
      omega
    | false =>
      have := hone hp
      simp only [Bool.false_eq_true, false_and, iff_false]
      omega
  | true =>
    have hmem := (listed_eq_true hlisted).2
    have hpos : 0 < m.prioritystartorder.count s.callsign := List.count_pos_iff.mpr hmem
    have hzero : (m.services.filter m.unlistedTurn).count s = 0 :=
      List.count_eq_zero.mpr fun hturn => by
        simpa [unlistedTurn, hmem] using (List.mem_filter.mp hturn).2
    rw [hcount, count_listedTurns hs hallowed hlisted, hzero]
    cases hp : s.priorityStart with
    | true =>
      have := hpriority hp
      simp only [true_and, Bool.true_eq_false, or_false]
      omega
    | false =>
      have hin : 0 < (m.configured sort).count s := List.count_pos_iff.mpr <|
        mem_configured.mpr ⟨hs, by simp [configuredTurn, hp, hallowed]⟩
      simp only [or_true, and_true, iff_true]
      omega

/-! ### The order of `Startup` -/

theorem eligible_of_mem {s : Service} (h : s ∈ m.turns sort) :
    m.eligible state s = pending state s 0 := by
  rw [eligible, (mem_turns h).2, Bool.true_and]

/-- Each of the services with a turn where it has its first. -/
def firstTurns (m : ServiceMap) (sort : StartupSort) : List Service :=
  m.listedTurns.eraseDups ++ m.services.filter m.unlistedTurn ++
    (m.configured sort).filter fun s => decide (m.listed s = false)

theorem eraseDups_turns : (m.turns sort).eraseDups = m.firstTurns sort := by
  have hunlisted : ∀ s ∈ m.services.filter m.unlistedTurn, s ∉ m.listedTurns := by
    intro s hs hlisted
    have hmem := (listed_eq_true (mem_listedTurns.mp hlisted).2.1).2
    simpa [unlistedTurn, hmem] using (List.mem_filter.mp hs).2
  have hfilter : (m.services.filter m.unlistedTurn).filter (fun s => decide (s ∉ m.listedTurns)) =
      m.services.filter m.unlistedTurn :=
    List.filter_eq_self.mpr fun s hs => decide_eq_true (hunlisted s hs)
  rw [turns, eraseDups_append_of_nodup nodup_configured,
    eraseDups_append_of_nodup ((nodup_services m).filter _), hfilter, firstTurns]
  refine congrArg _ (List.filter_congr fun s hs => ?_)
  obtain ⟨hmem, hturn⟩ := mem_configured.mp hs
  rw [configuredTurn, Bool.and_eq_true, Bool.not_eq_true'] at hturn
  have hno : s ∉ m.services.filter m.unlistedTurn := fun h => by
    simpa [unlistedTurn, hturn.1] using (List.mem_filter.mp h).2
  refine decide_eq_decide.mpr ?_
  rw [List.mem_append, mem_listedTurns]
  simp [hmem, hturn.2, hno]

/-- The order in which the services are tried. -/
theorem startup_eq_filter (hsettles : m.Settles state) :
    m.startup state sort = (m.firstTurns sort).filter (m.eligible state) := by
  rw [startup_eq, attempts_eq, eraseDups_turns]
  · refine List.filter_congr fun s hs => ?_
    rw [← eraseDups_turns, List.mem_eraseDups] at hs
    exact (eligible_of_mem hs).symm
  · intro s hpending hcount
    have hmem : s ∈ m.turns sort := List.count_pos_iff.mp (by omega)
    obtain ⟨hs, hallowed⟩ := mem_turns hmem
    obtain ⟨hlisted, htwice⟩ := (two_le_count_turns hs hallowed).mp hcount
    exact hsettles s hs ((eligible_of_mem hmem).trans hpending) hlisted htwice

section Order

variable {s s' : Service}

theorem startsBefore_of_priority (hlisted : m.listed s = true) (hpriority : s.priorityStart = true)
    (hbehind : m.listed s' = true → m.prioritystartorder.idxOf s.callsign <
      m.prioritystartorder.idxOf s'.callsign) : m.StartsBefore s s' := by
  have hrank : m.startRank s = 0 := by simp [startRank, hlisted, hpriority]
  rw [StartsBefore, hrank]
  cases hp : s'.priorityStart with
  | false => exact .inl (by simp [startRank, hp])
  | true =>
    cases hl : m.listed s' with
    | false => exact .inl (by simp [startRank, hp, hl])
    | true =>
      refine .inr ⟨by simp [startRank, hp, hl], fun _ => ?_, fun h => absurd h (by decide)⟩
      exact (hbehind hl).le

/-- What follows a service without priority. -/
theorem startsBefore_iff (hpriority : s.priorityStart = false) : m.StartsBefore s s' ↔
    s'.priorityStart = false ∧ s.startupOrder ≤ s'.startupOrder := by
  have hrank : m.startRank s = 2 := by simp [startRank, hpriority]
  rw [StartsBefore, hrank]
  cases hp : s'.priorityStart with
  | false =>
    have hrank' : m.startRank s' = 2 := by simp [startRank, hp]
    simp [hrank']
  | true =>
    have hrank' : m.startRank s' < 2 := by
      simp only [startRank, hp, if_true]
      split_ifs <;> omega
    have hne : 2 ≠ m.startRank s' := by omega
    have hnot : ¬2 < m.startRank s' := by omega
    simp [hne, hnot]

theorem startsBefore_unlisted (hlisted : m.listed s = false) (hpriority : s.priorityStart = true)
    (hlisted' : m.listed s' = false) : m.StartsBefore s s' := by
  have hrank : m.startRank s = 1 := by simp [startRank, hlisted, hpriority]
  rw [StartsBefore, hrank]
  cases hp : s'.priorityStart with
  | false => exact .inl (by simp [startRank, hp])
  | true =>
    exact .inr ⟨by simp [startRank, hp, hlisted'], fun h => absurd h (by decide),
      fun h => absurd h (by decide)⟩

end Order

/-- In the list, services are tried in the order of their entries. -/
theorem pairwise_listedTurns : m.listedTurns.eraseDups.Pairwise fun s s' =>
    m.prioritystartorder.idxOf s.callsign < m.prioritystartorder.idxOf s'.callsign :=
  pairwise_idxOf (fun h => (listedTurn_eq.mp h).2.1) _

theorem mem_firstTurns {s : Service} : s ∈ m.firstTurns sort ↔ s ∈ m.turns sort := by
  rw [← eraseDups_turns, List.mem_eraseDups]

/-- The services in the order in which `Startup` tries them are in the order that is claimed, where
no service without priority is listed before one that is to be before it. -/
theorem pairwise_firstTurns (hranked : m.Ranked state) :
    ((m.firstTurns sort).filter (m.eligible state)).Pairwise m.StartsBefore := by
  -- what comes behind a listed service
  have hlistedBefore : ∀ s ∈ m.listedTurns, ∀ s' ∈ m.services, m.eligible state s = true →
      m.eligible state s' = true → (m.listed s' = true → m.prioritystartorder.idxOf s.callsign <
        m.prioritystartorder.idxOf s'.callsign) → m.StartsBefore s s' := by
    intro s hs s' hs' heligible heligible' hbehind
    obtain ⟨hmem, hlisted, -⟩ := mem_listedTurns.mp hs
    cases hpriority : s.priorityStart with
    | true => exact startsBefore_of_priority hlisted hpriority hbehind
    | false =>
      refine (startsBefore_iff hpriority).mpr (hranked s hmem s' hs' heligible heligible' hlisted
        hpriority ?_)
      cases hlisted' : m.listed s' with
      | true => exact .inr (hbehind hlisted')
      | false => exact .inl rfl
  have hunlisted : ∀ s ∈ m.services.filter m.unlistedTurn,
      s ∈ m.services ∧ s.priorityStart = true ∧ m.listed s = false := by
    intro s hs
    obtain ⟨hmem, hturn⟩ := List.mem_filter.mp hs
    simp only [unlistedTurn, Bool.and_eq_true, decide_eq_true_eq] at hturn
    refine ⟨hmem, hturn.1.1, Bool.eq_false_iff.mpr fun h => hturn.2 (listed_eq_true h).2⟩
  have hconfigured : ∀ s ∈ (m.configured sort).filter (fun s => decide (m.listed s = false)),
      s ∈ m.services ∧ s.priorityStart = false ∧ m.listed s = false := by
    intro s hs
    obtain ⟨hmem, hlisted⟩ := List.mem_filter.mp hs
    obtain ⟨hmem, hturn⟩ := mem_configured.mp hmem
    simp only [configuredTurn, Bool.and_eq_true, Bool.not_eq_true'] at hturn
    exact ⟨hmem, hturn.1, of_decide_eq_true hlisted⟩
  rw [firstTurns, List.filter_append, List.filter_append]
  refine List.pairwise_append.mpr ⟨List.pairwise_append.mpr ⟨?_, ?_, ?_⟩, ?_, ?_⟩
  · refine List.Pairwise.imp_of_mem (fun {s s'} hs hs' hlt => ?_) (pairwise_listedTurns.filter _)
    obtain ⟨hmem, heligible⟩ := List.mem_filter.mp hs
    obtain ⟨hmem', heligible'⟩ := List.mem_filter.mp hs'
    rw [List.mem_eraseDups] at hmem hmem'
    exact hlistedBefore s hmem s' (mem_listedTurns.mp hmem').1 heligible heligible' fun _ => hlt
  · refine List.pairwise_of_forall_mem_list fun s hs s' hs' => ?_
    obtain ⟨-, hpriority, hlisted⟩ := hunlisted s (List.mem_filter.mp hs).1
    exact startsBefore_unlisted hlisted hpriority (hunlisted s' (List.mem_filter.mp hs').1).2.2
  · intro s hs s' hs'
    obtain ⟨hmem, heligible⟩ := List.mem_filter.mp hs
    obtain ⟨hmem', heligible'⟩ := List.mem_filter.mp hs'
    obtain ⟨hmem', -, hlisted'⟩ := hunlisted s' hmem'
    rw [List.mem_eraseDups] at hmem
    refine hlistedBefore s hmem s' hmem' heligible heligible' fun h => ?_
    rw [hlisted'] at h
    cases h
  · refine List.Pairwise.imp_of_mem (fun {s s'} hs hs' hle => ?_)
      ((sorted_configured.filter _).filter _)
    have hpriority := (hconfigured s (List.mem_filter.mp hs).1).2.1
    exact (startsBefore_iff hpriority).mpr ⟨(hconfigured s' (List.mem_filter.mp hs').1).2.1, hle⟩
  · intro s hs s' hs'
    obtain ⟨hmem', heligible'⟩ := List.mem_filter.mp hs'
    obtain ⟨hmem', hpriority', hlisted'⟩ := hconfigured s' hmem'
    rcases List.mem_append.mp hs with hs | hs
    · obtain ⟨hmem, heligible⟩ := List.mem_filter.mp hs
      rw [List.mem_eraseDups] at hmem
      refine hlistedBefore s hmem s' hmem' heligible heligible' fun h => ?_
      rw [hlisted'] at h
      cases h
    · obtain ⟨-, hpriority, hlisted⟩ := hunlisted s (List.mem_filter.mp hs).1
      exact startsBefore_unlisted hlisted hpriority hlisted'

/-- Where the services are in the order that is claimed, what follows a listed service without
priority has none either. -/
theorem startsBefore_of_pairwise
    (h : ((m.firstTurns sort).filter (m.eligible state)).Pairwise m.StartsBefore) {s s' : Service}
    (hs : s ∈ m.listedTurns) (hs' : s' ∈ m.turns sort) (heligible : m.eligible state s = true)
    (heligible' : m.eligible state s' = true) (hbehind : m.listed s' = false ∨
      m.prioritystartorder.idxOf s.callsign < m.prioritystartorder.idxOf s'.callsign) :
    m.StartsBefore s s' := by
  have hfirst : s ∈ m.listedTurns.eraseDups.filter (m.eligible state) :=
    List.mem_filter.mpr ⟨List.mem_eraseDups.mpr hs, heligible⟩
  rw [firstTurns, List.append_assoc, List.filter_append, List.pairwise_append] at h
  by_cases hmem : s' ∈ m.listedTurns
  · -- both are in the list
    have hlt := hbehind.resolve_left fun hlisted => by
      simpa [hlisted] using (mem_listedTurns.mp hmem).2.1
    exact rel_of_pairwise (h.1.and (pairwise_listedTurns.filter (m.eligible state))) hfirst
      (List.mem_filter.mpr ⟨List.mem_eraseDups.mpr hmem, heligible'⟩) hlt
  · refine h.2.2 s hfirst s' (List.mem_filter.mpr ⟨?_, heligible'⟩)
    have hin : s' ∈ m.firstTurns sort := mem_firstTurns.mpr hs'
    rw [firstTurns, List.append_assoc] at hin
    exact (List.mem_append.mp hin).resolve_left fun h => hmem (List.mem_eraseDups.mp h)

/-- `Startup` keeps its order, whatever the sort and the outcome of the activations. -/
theorem startedUp_iff : m.StartedUp state (m.startup state sort) ↔
    m.Settles state ∧ m.Ranked state ∧
    ∀ s ∈ m.services, m.eligible state s = true → s.priorityStart = true →
      s.callsign = allExtensionsAuthorized → s.callsign ∉ m.prioritystartorder := by
  have hallowed : ∀ {s}, m.eligible state s = true → m.autoActivateAllowed s = true :=
    fun h => (Bool.and_eq_true_iff.mp h).1
  have hpending : ∀ {s}, m.eligible state s = true → pending state s 0 = true :=
    fun h => (Bool.and_eq_true_iff.mp h).2
  constructor
  · rintro ⟨honce, -, horder⟩
    have hsettles : m.Settles state := by
      intro s hs heligible hlisted htwice
      by_contra hagain
      have hturns : 2 ≤ (m.turns sort).count s :=
        (two_le_count_turns hs (hallowed heligible)).mpr ⟨hlisted, htwice⟩
      have htwo : 2 ≤ (m.startup state sort).count s := by
        rw [startup_eq]
        refine le_count_attempts (by simpa using hturns) fun n hn => ?_
        obtain rfl | rfl : n = 0 ∨ n = 1 := by omega
        · exact hpending heligible
        · exact Bool.not_eq_false _ ▸ hagain
      have := honce s hs heligible
      omega
    have hwildcard : ∀ s ∈ m.services, m.eligible state s = true → s.priorityStart = true →
        s.callsign = allExtensionsAuthorized → s.callsign ∉ m.prioritystartorder := by
      intro s hs heligible hpriority hname hmem
      have hin : s ∈ m.startup state sort := List.count_pos_iff.mp (by
        rw [honce s hs heligible]
        exact Nat.one_pos)
      rw [startup_eq_filter hsettles, List.mem_filter, mem_firstTurns, turns, List.mem_append,
        List.mem_append, mem_listedTurns, mem_configured, List.mem_filter] at hin
      simp [listed, unlistedTurn, configuredTurn, hname, hpriority] at hin
      exact hin.1.2.2 (hname ▸ hmem)
    refine ⟨hsettles, ?_, hwildcard⟩
    intro s hs s' hs' heligible heligible' hlisted hpriority hbehind
    rw [startup_eq_filter hsettles] at horder
    exact (startsBefore_iff hpriority).mp (startsBefore_of_pairwise horder
      (mem_listedTurns.mpr ⟨hs, hlisted, hallowed heligible⟩)
      (mem_turns_of_allowed hs' (hallowed heligible') (hwildcard s' hs' heligible')) heligible
      heligible' hbehind)
  · rintro ⟨hsettles, hranked, hwildcard⟩
    rw [startup_eq_filter hsettles]
    have hnodup : (m.firstTurns sort).Nodup := eraseDups_turns ▸ nodup_eraseDups _
    refine ⟨fun s hs heligible => ?_, fun s hs => ?_, pairwise_firstTurns hranked⟩
    · refine List.count_eq_one_of_mem (hnodup.filter _) (List.mem_filter.mpr ⟨?_, heligible⟩)
      exact mem_firstTurns.mpr (mem_turns_of_allowed hs (hallowed heligible)
        (hwildcard s hs heligible))
    · obtain ⟨hmem, heligible⟩ := List.mem_filter.mp hs
      exact ⟨(mem_turns (mem_firstTurns.mp hmem)).1, heligible⟩

/-! ### The order of `Close` -/

theorem closeWhere_eq (kind : Service → Bool) (services : List Service) :
    closeWhere kind services = (services.filter kind, services.filter fun s => !kind s) := by
  induction services with
  | nil => rfl
  | cons s services ih =>
    rw [closeWhere, ih]
    cases hkind : kind s <;> simp [hkind]

theorem find_filter {services : List Service} (hnodup : (services.map Service.callsign).Nodup)
    {names : List String} {name : String} :
    find (services.filter fun s => decide (s.callsign ∉ names)) name =
      if name ∈ names then none else find services name := by
  have hsub : ((services.filter fun s => decide (s.callsign ∉ names)).map
      Service.callsign).Nodup := hnodup.sublist (List.filter_sublist.map _)
  split_ifs with hname
  · refine List.find?_eq_none.mpr fun s hs => ?_
    have hnot := of_decide_eq_true (List.mem_filter.mp hs).2
    exact fun heq => hnot (of_decide_eq_true heq ▸ hname)
  · cases hfind : find services name with
    | none =>
      refine List.find?_eq_none.mpr fun s hs => ?_
      exact List.find?_eq_none.mp hfind s (List.mem_filter.mp hs).1
    | some s =>
      obtain rfl := eq_of_find hfind
      exact find_eq_some hsub
        (List.mem_filter.mpr ⟨List.mem_of_find?_eq_some hfind, decide_eq_true hname⟩)

/-- The loop over the list: each of the services that it finds where it comes first. -/
theorem foldl_closeListed {services : List Service}
    (hnodup : (services.map Service.callsign).Nodup) (log : List Service) (names : List String) :
    names.foldl closeListed (log, services) =
      (log ++ (names.filterMap (find services)).eraseDups,
        services.filter fun s => decide (s.callsign ∉ names)) := by
  induction names using List.reverseRecOn with
  | nil => simp
  | append_singleton names name ih =>
    rw [List.foldl_append, List.foldl_cons, List.foldl_nil, ih, closeListed,
      find_filter hnodup, List.filterMap_append]
    have hnone : (name ∈ names ∨ find services name = none) →
        services.filter (fun s => decide (s.callsign ∉ names ++ [name])) =
          services.filter fun s => decide (s.callsign ∉ names) := by
      intro h
      refine List.filter_congr fun s hs => decide_eq_decide.mpr (not_congr ?_)
      rw [List.mem_append, List.mem_singleton, or_iff_left_iff_imp]
      rintro rfl
      rcases h with h | h
      · exact h
      · rw [find_eq_some hnodup hs] at h
        cases h
    cases hfind : find services name with
    | none =>
      rw [hnone (.inr hfind)]
      simp [hfind]
    | some s =>
      obtain rfl := eq_of_find hfind
      have hs := List.mem_of_find?_eq_some hfind
      have hmem : s ∈ names.filterMap (find services) ↔ s.callsign ∈ names := by
        rw [List.mem_filterMap]
        exact ⟨fun ⟨n, hn, hfn⟩ => eq_of_find hfn ▸ hn, fun h => ⟨_, h, hfind⟩⟩
      simp only [List.filterMap_cons, hfind, List.filterMap_nil]
      rw [eraseDups_concat]
      by_cases hname : s.callsign ∈ names
      · rw [if_pos hname, if_pos (hmem.mpr hname), hnone (.inl hname)]
      · rw [if_neg hname, if_neg (mt hmem.mp hname)]
        refine Prod.ext (List.append_assoc ..) ?_
        have hnodup' := (hnodup.of_map).filter fun s => decide (s.callsign ∉ names)
        dsimp only
        rw [hnodup'.erase_eq_filter, List.filter_filter]
        refine List.filter_congr fun s' hs' => ?_
        rw [Bool.eq_iff_iff, Bool.and_eq_true, bne_iff_ne, decide_eq_true_eq, decide_eq_true_eq,
          List.mem_append, List.mem_singleton, not_or, and_comm]
        exact and_congr_right fun _ => not_congr
          ⟨fun heq => heq ▸ rfl, fun heq => List.inj_on_of_nodup_map hnodup hs' hs heq⟩

/-- The services that the loops of `Close` find. -/
def unprioritized (m : ServiceMap) : List Service :=
  m.services.filter fun s => s.priorityStart == false && s.callsign != m.controller.callsign

def prioritized (m : ServiceMap) : List Service :=
  m.services.filter fun s => !(s.priorityStart == false && s.callsign != m.controller.callsign)

def unlisted (m : ServiceMap) : List Service :=
  m.prioritized.filter fun s =>
    decide (s.callsign ∉ m.prioritystartorder) && s.callsign != m.controller.callsign

def remaining (m : ServiceMap) : List Service :=
  m.prioritized.filter fun s =>
    !(decide (s.callsign ∉ m.prioritystartorder) && s.callsign != m.controller.callsign)

def reversed (m : ServiceMap) : List Service :=
  (m.prioritystartorder.reverse.filterMap (find m.remaining)).eraseDups

theorem nodup_remaining (m : ServiceMap) : (m.remaining.map Service.callsign).Nodup :=
  m.nodup.sublist ((List.filter_sublist.trans List.filter_sublist).map _)

theorem close_eq :
    m.close = (m.unprioritized ++ m.unlisted ++ m.reversed ++ [m.controller], []) := by
  simp only [close, closeWhere_eq, unprioritized, unlisted, reversed]
  rw [show m.services.filter (fun s => !(s.priorityStart == false &&
    s.callsign != m.controller.callsign)) = m.prioritized from rfl, foldl_closeListed]
  · rfl
  · exact nodup_remaining m

theorem callsign_ne {s : Service} (hs : s ∈ m.services) :
    (s.callsign != m.controller.callsign) = true ↔ s ≠ m.controller := by
  rw [bne_iff_ne]
  exact not_congr ⟨fun heq => callsign_inj hs m.controller_mem heq, fun heq => heq ▸ rfl⟩

theorem mem_unprioritized {s : Service} : s ∈ m.unprioritized ↔
    s ∈ m.services ∧ s.priorityStart = false ∧ s ≠ m.controller := by
  rw [unprioritized, List.mem_filter, Bool.and_eq_true, beq_iff_eq]
  exact and_congr_right fun hs => and_congr_right fun _ => callsign_ne hs

theorem mem_prioritized {s : Service} : s ∈ m.prioritized ↔
    s ∈ m.services ∧ (s.priorityStart = true ∨ s = m.controller) := by
  rw [prioritized, List.mem_filter]
  refine and_congr_right fun hs => ?_
  rw [Bool.not_eq_true', Bool.and_eq_false_iff, ← Bool.not_eq_true (_ != _), callsign_ne hs,
    not_not]
  simp

theorem mem_unlisted {s : Service} : s ∈ m.unlisted ↔ s ∈ m.services ∧ s.priorityStart = true ∧
    s.callsign ∉ m.prioritystartorder ∧ s ≠ m.controller := by
  rw [unlisted, List.mem_filter, mem_prioritized, Bool.and_eq_true, decide_eq_true_eq]
  constructor
  · rintro ⟨⟨hs, hkind⟩, hlist, hne⟩
    have hne := (callsign_ne hs).mp hne
    exact ⟨hs, hkind.resolve_right hne, hlist, hne⟩
  · rintro ⟨hs, hpriority, hlist, hne⟩
    exact ⟨⟨hs, .inl hpriority⟩, hlist, (callsign_ne hs).mpr hne⟩

theorem mem_reversed {s : Service} : s ∈ m.reversed ↔ s ∈ m.services ∧
    (s.priorityStart = true ∨ s = m.controller) ∧ s.callsign ∈ m.prioritystartorder := by
  rw [reversed, List.mem_eraseDups, List.mem_filterMap]
  constructor
  · rintro ⟨name, hname, hfind⟩
    obtain rfl := eq_of_find hfind
    have hs := List.mem_of_find?_eq_some hfind
    rw [remaining, List.mem_filter, mem_prioritized] at hs
    obtain ⟨hs, hkind⟩ := hs.1
    exact ⟨hs, hkind, List.mem_reverse.mp hname⟩
  · rintro ⟨hs, hkind, hlist⟩
    refine ⟨s.callsign, List.mem_reverse.mpr hlist, find_eq_some (nodup_remaining m) ?_⟩
    rw [remaining, List.mem_filter, mem_prioritized]
    exact ⟨⟨hs, hkind⟩, by simp [hlist]⟩

/-- The wildcard is the last entry of the list. -/
theorem getLast_of_wildcard (names : List String)
    (h : allExtensionsAuthorized ∈ authorizedExtensions names) :
    (authorizedExtensions names).getLast? = some allExtensionsAuthorized := by
  induction names using authorizedExtensions.induct with
  | case1 => cases h
  | case2 name =>
    rw [authorizedExtensions, List.mem_singleton] at h
    rw [h, authorizedExtensions, List.getLast?_singleton]
  | case3 names hne ih =>
    rw [authorizedExtensions, if_pos rfl] at h ⊢
    · exact ih h
    all_goals exact hne
  | case4 name names hne hname ih =>
    rw [authorizedExtensions, if_neg hname] at h ⊢
    · have hmem := (List.mem_cons.mp h).resolve_left (Ne.symm hname)
      rw [List.getLast?_cons_of_ne_nil (List.ne_nil_of_mem hmem)]
      exact ih hmem
    all_goals exact hne

section Order

variable {s s' : Service}

theorem closeRank_unprioritized (h : s ∈ m.unprioritized) : m.closeRank s = 0 := by
  rw [mem_unprioritized] at h
  obtain ⟨-, hpriority, hne⟩ := h
  simp [closeRank, hne, hpriority]

theorem closeRank_unlisted (h : s ∈ m.unlisted) : m.closeRank s = 1 := by
  rw [mem_unlisted] at h
  obtain ⟨-, hpriority, hlist, hne⟩ := h
  have hlisted : m.listed s = false := Bool.eq_false_iff.mpr fun h => hlist (listed_eq_true h).2
  simp [closeRank, hne, hpriority, hlisted]

/-- What the list has, the Controller apart. -/
theorem closeRank_reversed (h : s ∈ m.reversed) (hne : s ≠ m.controller) :
    m.closeRank s = if s.callsign = allExtensionsAuthorized then 1 else 2 := by
  rw [mem_reversed] at h
  obtain ⟨-, hkind, hlist⟩ := h
  have hpriority := hkind.resolve_right hne
  split_ifs with hname
  · have hlisted : m.listed s = false := Bool.eq_false_iff.mpr fun h =>
      (listed_eq_true h).1 hname
    simp [closeRank, hne, hpriority, hlisted]
  · simp [closeRank, hne, hpriority, listed_of_mem hname hlist]

theorem closesBefore_of_lt (h : m.closeRank s < m.closeRank s') : m.ClosesBefore s s' := .inl h

theorem closesBefore_of_le (h : m.closeRank s ≤ m.closeRank s') (hne : m.closeRank s ≠ 2) :
    m.ClosesBefore s s' :=
  (Nat.lt_or_eq_of_le h).imp id fun heq => ⟨heq, fun htwo => absurd htwo hne⟩

end Order

theorem pairwise_close (hcontroller : m.controller.callsign ∉ m.prioritystartorder) :
    m.close.1.Pairwise m.ClosesBefore := by
  have hlisted : ∀ s ∈ m.reversed, s.callsign ∈ m.prioritystartorder := fun s hs => by
    rw [mem_reversed] at hs
    exact hs.2.2
  have hne : ∀ s ∈ m.reversed, s ≠ m.controller := fun s hs heq =>
    hcontroller (heq ▸ hlisted s hs)
  have hrank : ∀ s ∈ m.reversed, 1 ≤ m.closeRank s ∧ m.closeRank s ≤ 2 := fun s hs => by
    rw [closeRank_reversed hs (hne s hs)]
    split_ifs <;> omega
  have hlast : m.closeRank m.controller = 3 := if_pos rfl
  rw [close_eq]
  refine List.pairwise_append.mpr ⟨List.pairwise_append.mpr ⟨List.pairwise_append.mpr
    ⟨?_, ?_, ?_⟩, ?_, ?_⟩, List.pairwise_singleton .., ?_⟩
  · refine List.pairwise_of_forall_mem_list fun s hs s' hs' => closesBefore_of_le ?_ ?_
    · rw [closeRank_unprioritized hs]
      exact Nat.zero_le _
    · rw [closeRank_unprioritized hs]
      decide
  · refine List.pairwise_of_forall_mem_list fun s hs s' hs' => closesBefore_of_le ?_ ?_
    · rw [closeRank_unlisted hs, closeRank_unlisted hs']
    · rw [closeRank_unlisted hs]
      decide
  · intro s hs s' hs'
    refine closesBefore_of_lt ?_
    rw [closeRank_unprioritized hs, closeRank_unlisted hs']
    exact Nat.one_pos
  · refine List.Pairwise.imp_of_mem (fun {s s'} hs hs' hlt => ?_)
      (pairwise_idxOf (f := find m.remaining) eq_of_find m.prioritystartorder.reverse)
    by_cases hname : s'.callsign = allExtensionsAuthorized
    · -- the wildcard is the first from behind
      have hmem : allExtensionsAuthorized ∈ m.prioritystartorder :=
        hname ▸ hlisted s' hs'
      have hfirst : m.prioritystartorder.reverse.head? = some allExtensionsAuthorized := by
        rw [List.head?_reverse]
        exact getLast_of_wildcard _ hmem
      obtain ⟨rest, hrest⟩ := List.head?_eq_some_iff.mp hfirst
      rw [hname, hrest, List.idxOf_cons_self] at hlt
      exact absurd hlt (Nat.not_lt_zero _)
    · have htwo : m.closeRank s' = 2 :=
        (closeRank_reversed hs' (hne s' hs')).trans (if_neg hname)
      refine (Nat.lt_or_eq_of_le (htwo ▸ (hrank s hs).2)).imp id fun heq => ⟨heq, fun _ => hlt.le⟩
  · intro s hs s' hs'
    have hle := (hrank s' hs').1
    rcases List.mem_append.mp hs with hs | hs
    · refine closesBefore_of_lt ?_
      rw [closeRank_unprioritized hs]
      exact hle
    · rw [← closeRank_unlisted hs] at hle
      refine closesBefore_of_le hle ?_
      rw [closeRank_unlisted hs]
      decide
  · intro s hs s' hs'
    refine closesBefore_of_lt ?_
    rw [List.mem_singleton.mp hs', hlast]
    rcases List.mem_append.mp hs with hs | hs
    · rcases List.mem_append.mp hs with hs | hs
      · rw [closeRank_unprioritized hs]
        decide
      · rw [closeRank_unlisted hs]
        decide
    · exact Nat.lt_succ_of_le (hrank s hs).2

/-- `Close` deactivates each service in the order that is claimed exactly when the Controller is not
in the list. -/
theorem closed_iff : m.Closed m.close ↔ m.controller.callsign ∉ m.prioritystartorder := by
  constructor
  · intro h hcontroller
    have honce := h.once m.controller m.controller_mem
    have hmem : m.controller ∈ m.reversed :=
      mem_reversed.mpr ⟨m.controller_mem, .inr rfl, hcontroller⟩
    have hpos : 0 < m.reversed.count m.controller := List.count_pos_iff.mpr hmem
    rw [close_eq, List.count_append, List.count_append, List.count_singleton_self] at honce
    omega
  · intro hcontroller
    have hnodup : m.close.1.Nodup := by
      have hreversed : m.reversed.Nodup := nodup_eraseDups _
      rw [close_eq]
      refine List.Nodup.append (List.Nodup.append (List.Nodup.append
        ((nodup_services m).filter _) (((nodup_services m).filter _).filter _) ?_) hreversed ?_)
        (List.nodup_singleton _) (List.disjoint_singleton.mpr ?_)
      · intro s hs hs'
        rw [mem_unprioritized] at hs
        rw [mem_unlisted] at hs'
        rw [hs.2.1] at hs'
        cases hs'.2.1
      · intro s hs hs'
        rw [mem_reversed] at hs'
        rw [List.mem_append, mem_unprioritized, mem_unlisted] at hs
        rcases hs with ⟨-, hpriority, hne⟩ | ⟨-, -, hlist, -⟩
        · rw [hs'.2.1.resolve_right hne] at hpriority
          cases hpriority
        · exact hlist hs'.2.2
      · rw [List.mem_append, List.mem_append, mem_unprioritized, mem_unlisted, mem_reversed]
        simp [hcontroller]
    refine ⟨fun s hs => ?_, fun s hs => ?_, pairwise_close hcontroller, ?_, rfl⟩
    · refine List.count_eq_one_of_mem hnodup ?_
      rw [close_eq]
      simp only [List.mem_append, mem_unprioritized, mem_unlisted, mem_reversed,
        List.mem_singleton, hs, true_and]
      cases s.priorityStart <;> by_cases hne : s = m.controller <;>
        by_cases hlist : s.callsign ∈ m.prioritystartorder <;> simp [hne, hlist]
    · rw [close_eq] at hs
      simp only [List.mem_append, mem_unprioritized, mem_unlisted, mem_reversed,
        List.mem_singleton] at hs
      rcases hs with ((hs | hs) | hs) | rfl
      · exact hs.1
      · exact hs.1
      · exact hs.1
      · exact m.controller_mem
    · rw [close_eq, List.getLast?_concat]

/-- Start-up and shut-down keep their order exactly where the list is orderly. -/
theorem ordered_iff_orderly (m : ServiceMap) (state : Service → Nat → State)
    (sort : StartupSort) :
    m.StartedUp state (m.startup state sort) ∧ m.Closed m.close ↔ m.Orderly state := by
  rw [startedUp_iff, closed_iff]
  constructor
  · rintro ⟨⟨hsettles, hranked, hwildcard⟩, hcontroller⟩
    exact ⟨hsettles, hranked, hwildcard, hcontroller⟩
  · rintro ⟨hsettles, hranked, hwildcard, hcontroller⟩
    exact ⟨⟨hsettles, hranked, hwildcard⟩, hcontroller⟩

/-- A listed Controller is deactivated before the extension listed ahead of it, and then again. -/
theorem not_closed_last : ∃ m : ServiceMap, ¬m.Closed m.close :=
  ⟨⟨[⟨"Extension", true, .ACTIVATED, none⟩, ⟨"Controller", true, .ACTIVATED, none⟩],
    ⟨"Controller", true, .ACTIVATED, none⟩, ["Extension", "Controller"], false, by decide,
    by decide⟩, fun h => absurd (h.once ⟨"Controller", true, .ACTIVATED, none⟩ (by decide))
      (by decide)⟩

end ServiceMap

end Thunder.PluginHost.Startup
