import Thunder.Library.Run
import Mathlib.Data.List.Count
import Mathlib.Data.List.Infix
import Mathlib.Data.List.Nodup
import Mathlib.Data.UInt
import Mathlib.Logic.Function.Basic
import Mathlib.Tactic.SplitIfs

/-! The requests of the channels: each goes through the throttle queue of its channel and then
through that of its service, and gives back both slots when it is completed. -/

namespace Thunder.Core

/-- `slots` is 0 for a queue without a limit. -/
structure ThrottleQueueType (α : Type) where
  slots : UInt32
  used : UInt32
  queue : List α

namespace ThrottleQueueType

variable {α : Type} (q : ThrottleQueueType α)

def new (slots : UInt32) : ThrottleQueueType α := ⟨slots, 0, []⟩

/-- The queue behind a `Push`, with what it forwards. -/
def push (object : α) : ThrottleQueueType α × Option α :=
  if q.used < q.slots ∨ q.slots = 0 then ({ q with used := q.used + 1 }, some object)
  else ({ q with queue := q.queue ++ [object] }, none)

def pop : ThrottleQueueType α × Option α :=
  match q.queue with
  | [] => ({ q with used := q.used - 1 }, none)
  | object :: queue => ({ q with queue := queue }, some object)

/-- The queue has got `pushed` and forwarded `passed`, and `held` of these have not given back their
slots. -/
structure Admits (pushed passed : List α) (held : Nat) : Prop where
  order : pushed = passed ++ q.queue
  unlimited : q.slots = 0 → q.queue = []
  used : q.slots ≠ 0 → q.used.toNat = held ∧ held ≤ q.slots.toNat
  full : q.queue ≠ [] → held = q.slots.toNat

variable {q} {pushed passed : List α} {held : Nat}

theorem admits_new (slots : UInt32) : (new slots : ThrottleQueueType α).Admits [] [] 0 where
  order := rfl
  unlimited _ := rfl
  used _ := ⟨rfl, Nat.zero_le _⟩
  full h := absurd rfl h

theorem Admits.push (h : q.Admits pushed passed held) (object : α) :
    (q.push object).1.Admits (pushed ++ [object]) (passed ++ (q.push object).2.toList)
      (held + (q.push object).2.toList.length) := by
  rw [ThrottleQueueType.push]
  split_ifs with hfree
  · -- a queue with a free slot is empty
    have hnil : q.queue = [] := by
      rcases hfree with hlt | hzero
      · by_contra hqueue
        have hslots : q.slots ≠ 0 := fun hzero => hqueue (h.unlimited hzero)
        have hfull := h.full hqueue
        have hused := (h.used hslots).1
        rw [UInt32.lt_iff_toNat_lt] at hlt
        omega
      · exact h.unlimited hzero
    refine ⟨?_, h.unlimited, fun hslots => ?_, fun hqueue => absurd hnil hqueue⟩
    · simp [h.order, hnil]
    · have hlt : q.used < q.slots := hfree.resolve_right hslots
      obtain ⟨hused, hheld⟩ := h.used hslots
      rw [UInt32.lt_iff_toNat_lt] at hlt
      have hbound := q.slots.toNat_lt
      simp only [Option.toList_some, List.length_singleton, UInt32.toNat_add]
      rw [hused] at hlt ⊢
      exact ⟨Nat.mod_eq_of_lt (by simp; omega), by omega⟩
  · rw [not_or, UInt32.not_lt] at hfree
    obtain ⟨hused, hheld⟩ := h.used hfree.2
    have hle := UInt32.le_iff_toNat_le.mp hfree.1
    refine ⟨?_, fun hzero => absurd hzero hfree.2, fun _ => ⟨hused, hheld⟩, fun _ => ?_⟩
    · simp [h.order]
    · simp only [Option.toList_none, List.length_nil]
      omega

theorem Admits.pop (h : q.Admits pushed passed (held + 1)) :
    q.pop.1.Admits pushed (passed ++ q.pop.2.toList) (held + q.pop.2.toList.length) := by
  rw [ThrottleQueueType.pop]
  cases hqueue : q.queue with
  | nil =>
    refine ⟨?_, fun _ => rfl, fun hslots => ?_, fun hne => absurd rfl hne⟩
    · simp [h.order, hqueue]
    · obtain ⟨hused, hheld⟩ := h.used hslots
      have hone : (1 : UInt32) ≤ q.used := by
        rw [UInt32.le_iff_toNat_le, hused]
        simp
      refine ⟨?_, ?_⟩
      · simp only [Option.toList_none, List.length_nil]
        rw [UInt32.toNat_sub_of_le _ _ hone, hused]
        simp
      · simp only [Option.toList_none, List.length_nil]
        omega
  | cons object queue =>
    have hne : q.queue ≠ [] := by simp [hqueue]
    have hslots : q.slots ≠ 0 := fun hzero => hne (h.unlimited hzero)
    refine ⟨?_, fun hzero => absurd hzero hslots, fun _ => h.used hslots, fun _ => h.full hne⟩
    rw [h.order, hqueue]
    simp

@[simp] theorem push_slots (object : α) : (q.push object).1.slots = q.slots := by
  rw [ThrottleQueueType.push]
  split_ifs <;> rfl

@[simp] theorem pop_slots : q.pop.1.slots = q.slots := by
  rw [ThrottleQueueType.pop]
  split <;> rfl

theorem eq_of_push {object object' : α} (h : object' ∈ (q.push object).2) : object' = object := by
  rw [ThrottleQueueType.push] at h
  split_ifs at h
  · exact (Option.some.inj h).symm
  · cases h

theorem mem_of_pop {object : α} (h : object ∈ q.pop.2) : object ∈ q.queue := by
  rw [ThrottleQueueType.pop] at h
  split at h
  · cases h
  · rename_i hqueue
    rw [hqueue]
    exact List.mem_cons.mpr (.inl (Option.some.inj h).symm)

end ThrottleQueueType

end Thunder.Core

namespace Thunder.PluginHost

open Core Function Run

/-- Where the requests come from and which services they are for, and how many of them may be past a
queue. -/
structure Requests (α ι κ : Type) where
  origin : α → ι
  target : α → κ
  channelSlots : UInt32
  serviceSlots : κ → UInt32

/-- `accepted` are the requests in the order of their arrival, `passed` those that the channels have
forwarded to the services, `pool` those that the services have forwarded to the worker pool; those
of `popped` and `completed` have given back their slot of the service and of the channel. -/
structure Throttles (α ι κ : Type) where
  channels : ι → Option (ThrottleQueueType α)
  known : ι → Bool
  services : κ → ThrottleQueueType α
  accepted : List α
  passed : List α
  pool : List α
  popped : List α
  completed : List α

/-- `popService` and `popChannel` are the two steps of `Job::Completed`. -/
inductive ThrottleEvent (α ι : Type)
  | connect (id : ι)
  | vanish (id : ι)
  | received (job : α)
  | popService (job : α)
  | popChannel (job : α)

namespace Throttles

variable {α ι κ : Type} [DecidableEq α] [DecidableEq ι] [DecidableEq κ]

def new (r : Requests α ι κ) : Throttles α ι κ where
  channels _ := none
  known _ := false
  services k := .new (r.serviceSlots k)
  accepted := []
  passed := []
  pool := []
  popped := []
  completed := []

variable (r : Requests α ι κ) (s : Throttles α ι κ)

/-- `JobForwarder::Submit`, of what the queue of a channel forwards. -/
def forward : Option α → Throttles α ι κ
  | none => s
  | some job =>
    let (queue, out) := (s.services (r.target job)).push job
    { s with
      services := update s.services (r.target job) queue
      passed := s.passed ++ [job]
      pool := s.pool ++ out.toList }

def setChannel (id : ι) (queue : Option (ThrottleQueueType α)) : Throttles α ι κ :=
  { s with channels := update s.channels id queue }

def step (s : Throttles α ι κ) : ThrottleEvent α ι → Throttles α ι κ
  | .connect id =>
    if s.known id then s
    else { s.setChannel id (some (.new r.channelSlots)) with known := update s.known id true }
  | .vanish id => s.setChannel id none
  | .received job =>
    match s.channels (r.origin job) with
    | none => s
    | some queue =>
      if job ∈ s.accepted then s
      else
        let (queue, out) := queue.push job
        forward r { s.setChannel (r.origin job) (some queue) with
          accepted := s.accepted ++ [job] } out
  | .popService job =>
    if job ∈ s.pool ∧ job ∉ s.popped then
      let (queue, out) := (s.services (r.target job)).pop
      { s with
        services := update s.services (r.target job) queue
        pool := s.pool ++ out.toList
        popped := s.popped ++ [job] }
    else s
  | .popChannel job =>
    if job ∈ s.popped ∧ job ∉ s.completed then
      match s.channels (r.origin job) with
      | none => { s with completed := s.completed ++ [job] }
      | some queue =>
        let (queue, out) := queue.pop
        forward r { s.setChannel (r.origin job) (some queue) with
          completed := s.completed ++ [job] } out
    else s

/-! ### What is claimed of it -/

/-- How many of the jobs of a kind are not done. -/
def held (jobs done : List α) (kind : α → Bool) : Nat :=
  jobs.countP fun job => kind job && decide (job ∉ done)

def ofChannel (id : ι) (job : α) : Bool := r.origin job = id

def ofService (k : κ) (job : α) : Bool := r.target job = k

/-- At most `slots` jobs are past a queue, and so many while others wait in it. -/
def Within (slots : UInt32) (held : Nat) : Prop := slots ≠ 0 → held ≤ slots.toNat

def InUse (slots : UInt32) (held : Nat) : Prop := slots ≠ 0 ∧ held = slots.toNat

/-- A job is forwarded once, and those of a channel for a service in the order of their arrival;
what has not been forwarded waits in the queue of its service or, unless that has vanished, of its
channel; nothing waits once all that is forwarded is completed; and the slots are kept. -/
structure Throttled (s : Throttles α ι κ) : Prop where
  once : s.pool.Nodup ∧ s.pool ⊆ s.accepted
  ordered : ∀ id k, s.pool.filter (fun job => ofChannel r id job && ofService r k job) <+:
    s.accepted.filter fun job => ofChannel r id job && ofService r k job
  waiting : ∀ job ∈ s.accepted, job ∈ s.pool ∨ job ∈ (s.services (r.target job)).queue ∨
    ∀ q, s.channels (r.origin job) = some q → job ∈ q.queue
  settled : s.pool ⊆ s.completed →
    ∀ job ∈ s.accepted, job ∈ s.pool ∨ s.channels (r.origin job) = none
  channels : ∀ id, Within r.channelSlots (held s.passed s.completed (ofChannel r id))
  channelQueue : ∀ id q, s.channels id = some q → q.queue ≠ [] →
    InUse r.channelSlots (held s.passed s.completed (ofChannel r id))
  services : ∀ k, Within (r.serviceSlots k) (held s.pool s.popped (ofService r k))
  serviceQueue : ∀ k, (s.services k).queue ≠ [] →
    InUse (r.serviceSlots k) (held s.pool s.popped (ofService r k))

/-! ### One queue -/

section

variable {jobs jobs' done : List α} {kind : α → Bool} {job : α} {out : Option α}

omit [DecidableEq ι] [DecidableEq κ]

theorem held_append : held (jobs ++ jobs') done kind = held jobs done kind + held jobs' done kind :=
  List.countP_append ..

/-- What a queue forwards is held. -/
theorem held_toList (hkind : ∀ job ∈ out, kind job = true) (hfresh : ∀ job ∈ out, job ∉ done) :
    held out.toList done kind = out.toList.length := by
  cases out with
  | none => rfl
  | some job => simp [held, hkind job rfl, hfresh job rfl]

theorem held_other (hkind : ∀ job ∈ jobs, kind job = false) : held jobs done kind = 0 := by
  rw [held, List.countP_eq_zero]
  intro job hjob
  simp [hkind job hjob]

omit [DecidableEq α] in
theorem filter_toList (hkind : ∀ job ∈ out, kind job = true) :
    out.toList.filter kind = out.toList := by
  cases out with
  | none => rfl
  | some job => simp [hkind job rfl]

theorem held_cons (j : α) : held (j :: jobs) done kind =
    held jobs done kind + if (kind j && decide (j ∉ done)) = true then 1 else 0 :=
  List.countP_cons ..

theorem held_done_of_notMem (hmem : job ∉ jobs) :
    held jobs (done ++ [job]) kind = held jobs done kind := by
  refine List.countP_congr fun j hj => ?_
  have hne : j ≠ job := fun heq => hmem (heq ▸ hj)
  simp [hne]

theorem held_done_other (hdone : ∀ job ∈ jobs', kind job = false) :
    held jobs (done ++ jobs') kind = held jobs done kind := by
  refine List.countP_congr fun j hj => ?_
  by_cases hmem : j ∈ jobs'
  · simp [hdone j hmem]
  · simp [hmem]

theorem held_done_le : held jobs (done ++ [job]) kind ≤ held jobs done kind := by
  refine List.countP_mono_left fun j hj h => ?_
  simp only [Bool.and_eq_true, decide_eq_true_eq, List.mem_append, not_or] at h ⊢
  exact ⟨h.1, h.2.1⟩

/-- A job that gives back its slot. -/
theorem held_done (hnodup : jobs.Nodup) (hmem : job ∈ jobs) (hdone : job ∉ done)
    (hkind : kind job = true) : held jobs done kind = held jobs (done ++ [job]) kind + 1 := by
  induction jobs with
  | nil => cases hmem
  | cons j jobs ih =>
    obtain ⟨hnew, hrest⟩ := List.nodup_cons.mp hnodup
    rw [held_cons, held_cons]
    rcases List.mem_cons.mp hmem with rfl | hmem
    · rw [held_done_of_notMem hnew]
      simp [hkind, hdone]
    · have hne : j ≠ job := fun heq => hnew (heq ▸ hmem)
      rw [ih hrest hmem]
      simp only [List.mem_append, List.mem_singleton, hne, or_false]
      omega

/-- What a queue keeps for the jobs of its kind, of those that have been pushed at all of the queues
of its level. -/
def Keeps (kind : α → Bool) (q : ThrottleQueueType α) (pushed passed done : List α) : Prop :=
  q.Admits (pushed.filter kind) (passed.filter kind) (held passed done kind)

variable {q : ThrottleQueueType α} {pushed passed : List α}

theorem Keeps.sub (h : Keeps kind q pushed passed done) :
    passed.filter kind <+: pushed.filter kind := ⟨q.queue, h.order.symm⟩

theorem Keeps.of_mem (h : Keeps kind q pushed passed done) (hmem : job ∈ q.queue) :
    kind job = true ∧ job ∈ pushed := by
  have hpushed : job ∈ pushed.filter kind := by
    rw [h.order]
    exact List.mem_append_right _ hmem
  exact (List.mem_filter.mp hpushed).symm

/-- A job in the queue has not been forwarded. -/
theorem Keeps.fresh (h : Keeps kind q pushed passed done) (hnodup : pushed.Nodup)
    (hmem : job ∈ q.queue) : job ∉ passed := fun hpassed => by
  have hboth : (passed.filter kind ++ q.queue).Nodup := h.order ▸ hnodup.filter kind
  exact List.disjoint_of_nodup_append hboth (List.mem_filter.mpr ⟨hpassed, (h.of_mem hmem).1⟩) hmem

theorem Keeps.waits (h : Keeps kind q pushed passed done) (hkind : kind job = true)
    (hmem : job ∈ pushed) : job ∈ passed ∨ job ∈ q.queue := by
  have hpushed : job ∈ passed.filter kind ++ q.queue :=
    h.order ▸ List.mem_filter.mpr ⟨hmem, hkind⟩
  exact (List.mem_append.mp hpushed).imp_left fun hpassed => (List.mem_filter.mp hpassed).1

theorem Keeps.inUse (h : Keeps kind q pushed passed done) (hqueue : q.queue ≠ []) :
    InUse q.slots (held passed done kind) :=
  ⟨fun hzero => hqueue (h.unlimited hzero), h.full hqueue⟩

theorem Keeps.push (h : Keeps kind q pushed passed done) (hkind : kind job = true)
    (hfresh : job ∉ done) :
    Keeps kind (q.push job).1 (pushed ++ [job]) (passed ++ (q.push job).2.toList) done := by
  have hout : ∀ job' ∈ (q.push job).2, job' = job := fun job' => ThrottleQueueType.eq_of_push
  have hkinds : ∀ job' ∈ (q.push job).2, kind job' = true := fun job' h => hout job' h ▸ hkind
  have hadmits := ThrottleQueueType.Admits.push h job
  rw [Keeps, List.filter_append, List.filter_append, filter_toList hkinds, held_append,
    held_toList hkinds fun job' h => hout job' h ▸ hfresh]
  simpa [hkind] using hadmits

theorem Keeps.pop (h : Keeps kind q pushed passed done) (hpushed : pushed.Nodup)
    (hpassed : passed.Nodup) (hsub : done ⊆ passed) (hmem : job ∈ passed) (hdone : job ∉ done)
    (hkind : kind job = true) :
    Keeps kind q.pop.1 pushed (passed ++ q.pop.2.toList) (done ++ [job]) := by
  have hkinds : ∀ job' ∈ q.pop.2, kind job' = true := fun job' hout =>
    (h.of_mem (ThrottleQueueType.mem_of_pop hout)).1
  have hfresh : ∀ job' ∈ q.pop.2, job' ∉ done ++ [job] := fun job' hout hdone => by
    have hnew : job' ∉ passed := h.fresh hpushed (ThrottleQueueType.mem_of_pop hout)
    rcases List.mem_append.mp hdone with hdone | hjob
    · exact hnew (hsub hdone)
    · exact hnew (List.mem_singleton.mp hjob ▸ hmem)
  rw [Keeps, held_done hpassed hmem hdone hkind] at h
  rw [Keeps, List.filter_append, filter_toList hkinds, held_append, held_toList hkinds hfresh]
  exact h.pop

/-- What other queues get, forward and get back. -/
theorem Keeps.other (h : Keeps kind q pushed passed done) {l out l' : List α}
    (hl : ∀ job ∈ l, kind job = false) (hout : ∀ job ∈ out, kind job = false)
    (hl' : ∀ job ∈ l', kind job = false) :
    Keeps kind q (pushed ++ l) (passed ++ out) (done ++ l') := by
  have hnil : ∀ {jobs : List α}, (∀ job ∈ jobs, kind job = false) → jobs.filter kind = [] :=
    fun hjobs => List.filter_eq_nil_iff.mpr fun job hjob => by simp [hjobs job hjob]
  rw [Keeps, held_done_other hl', List.filter_append, List.filter_append, hnil hl, hnil hout,
    held_append, held_other hout, List.append_nil, List.append_nil]
  exact h

end

/-! ### Both levels -/

/-- What the channels have forwarded. -/
structure Accepts (s : Throttles α ι κ) : Prop where
  channel : ∀ id q, s.channels id = some q → q.slots = r.channelSlots ∧
    Keeps (ofChannel r id) q s.accepted s.passed s.completed
  order : ∀ id, s.passed.filter (ofChannel r id) <+: s.accepted.filter (ofChannel r id)
  bound : ∀ id, Within r.channelSlots (held s.passed s.completed (ofChannel r id))

/-- The queues of the services get what those of the channels have forwarded. -/
def Serves (s : Throttles α ι κ) : Prop :=
  ∀ k, (s.services k).slots = r.serviceSlots k ∧
    Keeps (ofService r k) (s.services k) s.passed s.pool s.popped

structure Inv (s : Throttles α ι κ) : Prop where
  accepted : s.accepted.Nodup
  popped : s.popped ⊆ s.pool
  completed : s.completed ⊆ s.popped
  unknown : ∀ id, s.known id = false →
    s.channels id = none ∧ s.accepted.filter (ofChannel r id) = []
  accepts : Accepts r s
  serves : Serves r s

variable {r} {s}

/-- Where each part of a list is the beginning of a part of a list without duplicates. -/
theorem nodup_of_parts {l l' : List α} (kind : α → α → Bool) (hkind : ∀ a, kind a a = true)
    (hparts : ∀ a, l.filter (kind a) <+: l'.filter (kind a)) (hnodup : l'.Nodup) :
    l.Nodup ∧ l ⊆ l' := by
  constructor
  · refine List.nodup_iff_count_le_one.mpr fun a => ?_
    calc l.count a = (l.filter (kind a)).count a := (List.count_filter (hkind a)).symm
      _ ≤ (l'.filter (kind a)).count a := (hparts a).sublist.count_le a
      _ = l'.count a := List.count_filter (hkind a)
      _ ≤ 1 := List.nodup_iff_count_le_one.mp hnodup a
  · intro a ha
    exact List.mem_of_mem_filter ((hparts a).subset (List.mem_filter.mpr ⟨ha, hkind a⟩))

omit [DecidableEq α] [DecidableEq κ] in
theorem ofChannel_origin (job : α) : ofChannel r (r.origin job) job = true := decide_eq_true rfl

omit [DecidableEq α] [DecidableEq ι] in
theorem ofService_target (job : α) : ofService r (r.target job) job = true := decide_eq_true rfl

theorem Inv.passed (h : Inv r s) : s.passed.Nodup ∧ s.passed ⊆ s.accepted :=
  nodup_of_parts (fun job => ofChannel r (r.origin job)) ofChannel_origin
    (fun _ => h.accepts.order _) h.accepted

theorem Inv.pool (h : Inv r s) : s.pool.Nodup ∧ s.pool ⊆ s.passed :=
  nodup_of_parts (fun job => ofService r (r.target job)) ofService_target
    (fun _ => (h.serves _).2.sub) h.passed.1

omit [DecidableEq α] in
theorem filter_and (l : List α) (id : ι) (k : κ) :
    l.filter (fun job => ofChannel r id job && ofService r k job) =
      (l.filter (ofService r k)).filter (ofChannel r id) := by
  rw [List.filter_filter]

omit [DecidableEq α] in
theorem filter_and' (l : List α) (id : ι) (k : κ) :
    l.filter (fun job => ofChannel r id job && ofService r k job) =
      (l.filter (ofChannel r id)).filter (ofService r k) := by
  rw [List.filter_filter]
  exact List.filter_congr fun job _ => Bool.and_comm ..

theorem Inv.throttled (h : Inv r s) : Throttled r s := by
  have hwaiting : ∀ job ∈ s.accepted, job ∈ s.pool ∨ job ∈ (s.services (r.target job)).queue ∨
      ∀ q, s.channels (r.origin job) = some q → job ∈ q.queue := by
    intro job hjob
    by_cases hpassed : job ∈ s.passed
    · rcases (h.serves _).2.waits (ofService_target job) hpassed with hpool | hqueue
      · exact .inl hpool
      · exact .inr (.inl hqueue)
    · refine .inr (.inr fun q hq => ?_)
      exact ((h.accepts.channel _ q hq).2.waits (ofChannel_origin job) hjob).resolve_left hpassed
  have hchannel : ∀ id q, s.channels id = some q → q.queue ≠ [] →
      InUse r.channelSlots (held s.passed s.completed (ofChannel r id)) := fun id q hq hqueue => by
    rw [← (h.accepts.channel id q hq).1]
    exact (h.accepts.channel id q hq).2.inUse hqueue
  have hservice : ∀ k, (s.services k).queue ≠ [] →
      InUse (r.serviceSlots k) (held s.pool s.popped (ofService r k)) := fun k hqueue => by
    rw [← (h.serves k).1]
    exact (h.serves k).2.inUse hqueue
  refine ⟨⟨h.pool.1, List.Subset.trans h.pool.2 h.passed.2⟩, fun id k => ?_, hwaiting,
    fun hdone => ?_, h.accepts.bound, hchannel, fun k hslots => ?_, hservice⟩
  · -- the queue of the service keeps the order of what that of the channel has kept in order
    calc s.pool.filter (fun job => ofChannel r id job && ofService r k job)
        = (s.pool.filter (ofService r k)).filter (ofChannel r id) := filter_and ..
      _ <+: (s.passed.filter (ofService r k)).filter (ofChannel r id) :=
        (h.serves k).2.sub.filter _
      _ = (s.passed.filter (ofChannel r id)).filter (ofService r k) := by
        rw [← filter_and, filter_and']
      _ <+: (s.accepted.filter (ofChannel r id)).filter (ofService r k) :=
        (h.accepts.order id).filter _
      _ = s.accepted.filter (fun job => ofChannel r id job && ofService r k job) :=
        (filter_and' ..).symm
  · -- what waits has all of the slots in use, and none is held
    have hnone : ∀ {jobs done : List α} {kind : α → Bool} {slots : UInt32}, jobs ⊆ done →
        ¬InUse slots (held jobs done kind) := by
      intro jobs done kind slots hsub huse
      have hheld : held jobs done kind = 0 := by
        rw [held, List.countP_eq_zero]
        intro j hj
        simp [hsub hj]
      exact huse.1 (UInt32.toNat_inj.mp (huse.2.symm.trans hheld))
    have hempty : ∀ k, (s.services k).queue = [] := fun k => by
      by_contra hqueue
      exact hnone (List.Subset.trans hdone h.completed) (hservice k hqueue)
    have hpassed : s.passed ⊆ s.pool := fun job hjob => by
      rcases (h.serves _).2.waits (ofService_target job) hjob with hpool | hqueue
      · exact hpool
      · rw [hempty] at hqueue
        cases hqueue
    intro job hjob
    rcases hwaiting job hjob with hpool | hqueue | hqueue
    · exact .inl hpool
    · rw [hempty] at hqueue
      cases hqueue
    · refine .inr (Option.eq_none_iff_forall_ne_some.mpr fun q hq => ?_)
      have hne : q.queue ≠ [] := List.ne_nil_of_mem (hqueue q hq)
      exact hnone (List.Subset.trans hpassed hdone) (hchannel _ q hq hne)
  · rw [← (h.serves k).1] at hslots ⊢
    exact ((h.serves k).2.used hslots).2

/-! ### Steps -/

variable {out : Option α}

section

omit [DecidableEq α] [DecidableEq ι]

@[simp] theorem forward_channels : (forward r s out).channels = s.channels := by cases out <;> rfl

@[simp] theorem forward_known : (forward r s out).known = s.known := by cases out <;> rfl

@[simp] theorem forward_accepted : (forward r s out).accepted = s.accepted := by cases out <;> rfl

@[simp] theorem forward_popped : (forward r s out).popped = s.popped := by cases out <;> rfl

@[simp] theorem forward_completed : (forward r s out).completed = s.completed := by
  cases out <;> rfl

@[simp] theorem forward_passed : (forward r s out).passed = s.passed ++ out.toList := by
  cases out with
  | none => exact (List.append_nil _).symm
  | some job => rfl

theorem pool_subset_forward : s.pool ⊆ (forward r s out).pool := by
  cases out with
  | none => exact List.Subset.refl _
  | some job => exact List.subset_append_left ..

end

omit [DecidableEq α] [DecidableEq ι] in
theorem ofService_of_ne {job : α} {k : κ} (h : k ≠ r.target job) : ofService r k job = false :=
  decide_eq_false (Ne.symm h)

omit [DecidableEq α] [DecidableEq κ] in
theorem ofChannel_of_ne {job : α} {id : ι} (h : id ≠ r.origin job) : ofChannel r id job = false :=
  decide_eq_false (Ne.symm h)

omit [DecidableEq ι] in
theorem Serves.forward (h : Serves r s) (hfresh : ∀ job ∈ out, job ∉ s.popped) :
    Serves r (forward r s out) := by
  cases out with
  | none => exact h
  | some job =>
    intro k
    obtain ⟨hslots, hkeeps⟩ := h k
    rcases eq_or_ne k (r.target job) with rfl | hne
    · simp only [Throttles.forward, update_self, ThrottleQueueType.push_slots]
      exact ⟨hslots, hkeeps.push (ofService_target job) (hfresh job rfl)⟩
    · have hother : ∀ job' ∈ [job], ofService r k job' = false := fun job' hjob' => by
        rw [List.mem_singleton.mp hjob']
        exact ofService_of_ne hne
      have hout : ∀ job' ∈ ((s.services (r.target job)).push job).2.toList,
          ofService r k job' = false := fun job' hjob' => by
        rw [ThrottleQueueType.eq_of_push (Option.mem_toList.mp hjob')]
        exact ofService_of_ne hne
      simp only [Throttles.forward, update_of_ne hne]
      have hkeeps' := hkeeps.other hother hout (List.forall_mem_nil _)
      rw [List.append_nil] at hkeeps'
      exact ⟨hslots, hkeeps'⟩

omit [DecidableEq κ] in
/-- A step that concerns the queue of one channel. -/
theorem Accepts.update (h : Accepts r s) {s' : Throttles α ι κ} {id : ι}
    {queue : ThrottleQueueType α} {l out l' : List α}
    (hchannels : s'.channels = update s.channels id (some queue))
    (haccepted : s'.accepted = s.accepted ++ l) (hpassed : s'.passed = s.passed ++ out)
    (hcompleted : s'.completed = s.completed ++ l') (hl : ∀ job ∈ l, r.origin job = id)
    (hout : ∀ job ∈ out, r.origin job = id) (hl' : ∀ job ∈ l', r.origin job = id)
    (hslots : queue.slots = r.channelSlots)
    (hkeeps : Keeps (ofChannel r id) queue s'.accepted s'.passed s'.completed) :
    Accepts r s' := by
  have hother : ∀ {id' : ι} {jobs : List α}, id' ≠ id → (∀ job ∈ jobs, r.origin job = id) →
      ∀ job ∈ jobs, ofChannel r id' job = false := fun hne hjobs job hjob =>
    ofChannel_of_ne ((hjobs job hjob).symm ▸ hne)
  refine ⟨fun id' q hq => ?_, fun id' => ?_, fun id' => ?_⟩
  · rcases eq_or_ne id' id with rfl | hne
    · rw [hchannels, update_self] at hq
      cases hq
      exact ⟨hslots, hkeeps⟩
    · rw [hchannels, update_of_ne hne] at hq
      obtain ⟨hslots', hkeeps'⟩ := h.channel id' q hq
      rw [haccepted, hpassed, hcompleted]
      exact ⟨hslots', hkeeps'.other (hother hne hl) (hother hne hout) (hother hne hl')⟩
  · rcases eq_or_ne id' id with rfl | hne
    · exact hkeeps.sub
    · have hnil : ∀ {jobs : List α}, (∀ job ∈ jobs, r.origin job = id) →
          jobs.filter (ofChannel r id') = [] := fun hjobs =>
        List.filter_eq_nil_iff.mpr fun job hjob => by simp [hother hne hjobs job hjob]
      rw [haccepted, hpassed, List.filter_append, List.filter_append, hnil hl, hnil hout,
        List.append_nil, List.append_nil]
      exact h.order id'
  · rcases eq_or_ne id' id with rfl | hne
    · intro hmax
      rw [← hslots] at hmax ⊢
      exact (hkeeps.used hmax).2
    · rw [hpassed, hcompleted, held_done_other (hother hne hl'), held_append,
        held_other (hother hne hout)]
      exact h.bound id'

omit [DecidableEq α] [DecidableEq κ] in
@[simp] theorem setChannel_self (id : ι) (queue : Option (ThrottleQueueType α)) :
    (s.setChannel id queue).channels id = queue := update_self ..

omit [DecidableEq α] [DecidableEq κ] in
theorem setChannel_of_ne {id id' : ι} (h : id' ≠ id) (queue : Option (ThrottleQueueType α)) :
    (s.setChannel id queue).channels id' = s.channels id' := update_of_ne h ..

theorem inv_new : Inv r (new r) where
  accepted := List.nodup_nil
  popped _ h := h
  completed _ h := h
  unknown _ _ := ⟨rfl, rfl⟩
  accepts :=
    { channel := fun _ _ h => nomatch h
      order := fun _ => List.prefix_rfl
      bound := fun _ _ => Nat.zero_le _ }
  serves k := ⟨rfl, ThrottleQueueType.admits_new (r.serviceSlots k)⟩

theorem Inv.step_connect (h : Inv r s) (id : ι) : Inv r (step r s (.connect id)) := by
  rw [step]
  split_ifs with hknown
  · exact h
  obtain ⟨-, haccepted⟩ := h.unknown id (Bool.eq_false_iff.mpr hknown)
  have hpassed : s.passed.filter (ofChannel r id) = [] :=
    List.prefix_nil.mp (haccepted ▸ h.accepts.order id)
  have hother : ∀ job ∈ s.passed, ofChannel r id job = false := fun job hjob =>
    Bool.eq_false_iff.mpr (List.filter_eq_nil_iff.mp hpassed job hjob)
  have hkeeps :
      Keeps (ofChannel r id) (.new r.channelSlots) s.accepted s.passed s.completed := by
    rw [Keeps, haccepted, hpassed, held_other hother]
    exact ThrottleQueueType.admits_new _
  refine ⟨h.accepted, h.popped, h.completed, fun id' hknown' => ?_,
    ⟨fun id' q hq => ?_, h.accepts.order, h.accepts.bound⟩, h.serves⟩
  · have hne : id' ≠ id := fun heq => by simp [heq] at hknown'
    dsimp only at hknown' ⊢
    rw [update_of_ne hne] at hknown'
    rw [setChannel_of_ne hne]
    exact h.unknown id' hknown'
  · dsimp only at hq
    rcases eq_or_ne id' id with rfl | hne
    · rw [setChannel_self] at hq
      cases hq
      exact ⟨rfl, hkeeps⟩
    · rw [setChannel_of_ne hne] at hq
      exact h.accepts.channel id' q hq

theorem Inv.step_vanish (h : Inv r s) (id : ι) : Inv r (step r s (.vanish id)) := by
  rw [step]
  refine ⟨h.accepted, h.popped, h.completed, fun id' hknown => ⟨?_, (h.unknown id' hknown).2⟩,
    ⟨fun id' q hq => ?_, h.accepts.order, h.accepts.bound⟩, h.serves⟩
  · rcases eq_or_ne id' id with rfl | hne
    · exact setChannel_self ..
    · rw [setChannel_of_ne hne]
      exact (h.unknown id' hknown).1
  · rcases eq_or_ne id' id with rfl | hne
    · rw [setChannel_self] at hq
      cases hq
    · rw [setChannel_of_ne hne] at hq
      exact h.accepts.channel id' q hq

theorem Inv.step_received (h : Inv r s) (job : α) : Inv r (step r s (.received job)) := by
  rw [step]
  cases hqueue : s.channels (r.origin job) with
  | none => exact h
  | some queue =>
    dsimp only
    split_ifs with hmem
    · exact h
    obtain ⟨hslots, hkeeps⟩ := h.accepts.channel _ queue hqueue
    have hpopped : job ∉ s.popped := fun hpopped =>
      hmem (h.passed.2 (h.pool.2 (h.popped hpopped)))
    have hout : ∀ job' ∈ (queue.push job).2, job' = job := fun job' =>
      ThrottleQueueType.eq_of_push
    have hpush := hkeeps.push (ofChannel_origin job) fun hdone => hpopped (h.completed hdone)
    refine ⟨?_, ?_, ?_, fun id hknown => ?_, ?_, ?_⟩
    · rw [forward_accepted]
      exact h.accepted.append (List.nodup_singleton job) (List.disjoint_singleton.mpr hmem)
    · rw [forward_popped]
      exact fun _ hjob => pool_subset_forward (h.popped hjob)
    · rw [forward_popped, forward_completed]
      exact h.completed
    · rw [forward_known] at hknown
      obtain ⟨hnone, hnil⟩ := h.unknown id hknown
      have hne : id ≠ r.origin job := fun heq => by
        rw [heq, hqueue] at hnone
        cases hnone
      rw [forward_channels, forward_accepted]
      refine ⟨(update_of_ne hne ..).trans hnone, ?_⟩
      simp [hnil, ofChannel_of_ne hne]
    · refine h.accepts.update forward_channels forward_accepted forward_passed
        (forward_completed.trans (List.append_nil _).symm) (by simp) (fun job' hjob' => ?_)
        (List.forall_mem_nil _) ((ThrottleQueueType.push_slots job).trans hslots) ?_
      · rw [hout job' (Option.mem_toList.mp hjob')]
      · rw [forward_accepted, forward_passed, forward_completed]
        exact hpush
    · refine Serves.forward (show Serves r _ from h.serves) fun job' hjob' => ?_
      rw [hout job' hjob']
      exact hpopped

theorem Inv.step_popService (h : Inv r s) (job : α) : Inv r (step r s (.popService job)) := by
  rw [step]
  split_ifs with hjob
  swap
  · exact h
  obtain ⟨hmem, hnew⟩ := hjob
  obtain ⟨hslots, hkeeps⟩ := h.serves (r.target job)
  have hpop := hkeeps.pop h.passed.1 h.pool.1 h.popped hmem hnew (ofService_target job)
  refine ⟨h.accepted, ?_, List.Subset.trans h.completed (List.subset_append_left ..), h.unknown,
    ⟨h.accepts.channel, h.accepts.order, h.accepts.bound⟩, fun k => ?_⟩
  · intro job' hjob'
    rcases List.mem_append.mp hjob' with hpopped | heq
    · exact List.mem_append_left _ (h.popped hpopped)
    · exact List.mem_append_left _ (List.mem_singleton.mp heq ▸ hmem)
  · dsimp only
    rcases eq_or_ne k (r.target job) with rfl | hne
    · rw [update_self]
      exact ⟨ThrottleQueueType.pop_slots.trans hslots, hpop⟩
    · have hother : ∀ job' ∈ [job], ofService r k job' = false := fun job' hjob' => by
        rw [List.mem_singleton.mp hjob']
        exact ofService_of_ne hne
      have hout : ∀ job' ∈ (s.services (r.target job)).pop.2.toList,
          ofService r k job' = false := by
        intro job' hjob'
        have hqueue := ThrottleQueueType.mem_of_pop (Option.mem_toList.mp hjob')
        have htarget : r.target job' = r.target job :=
          of_decide_eq_true (hkeeps.of_mem hqueue).1
        exact ofService_of_ne (htarget.symm ▸ hne)
      rw [update_of_ne hne]
      have hkeeps' := (h.serves k).2.other (List.forall_mem_nil _) hout hother
      rw [List.append_nil] at hkeeps'
      exact ⟨(h.serves k).1, hkeeps'⟩

theorem Inv.step_popChannel (h : Inv r s) (job : α) : Inv r (step r s (.popChannel job)) := by
  rw [step]
  split_ifs with hjob
  swap
  · exact h
  obtain ⟨hmem, hnew⟩ := hjob
  have hcompleted : s.completed ++ [job] ⊆ s.popped := by
    intro job' hjob'
    rcases List.mem_append.mp hjob' with hcompleted | heq
    · exact h.completed hcompleted
    · exact List.mem_singleton.mp heq ▸ hmem
  cases hqueue : s.channels (r.origin job) with
  | none =>
    refine ⟨h.accepted, h.popped, hcompleted, h.unknown, ⟨fun id q hq => ?_, h.accepts.order,
      fun id hmax => held_done_le.trans (h.accepts.bound id hmax)⟩, h.serves⟩
    obtain ⟨hslots, hkeeps⟩ := h.accepts.channel id q hq
    have hne : id ≠ r.origin job := fun heq => by
      rw [← heq] at hqueue
      rw [hqueue] at hq
      cases hq
    have hother : ∀ job' ∈ [job], ofChannel r id job' = false := fun job' hjob' => by
      rw [List.mem_singleton.mp hjob']
      exact ofChannel_of_ne hne
    have hkeeps' := hkeeps.other (List.forall_mem_nil _) (List.forall_mem_nil _) hother
    rw [List.append_nil, List.append_nil] at hkeeps'
    exact ⟨hslots, hkeeps'⟩
  | some queue =>
    dsimp only
    obtain ⟨hslots, hkeeps⟩ := h.accepts.channel _ queue hqueue
    have hdone : s.completed ⊆ s.passed :=
      List.Subset.trans h.completed (List.Subset.trans h.popped h.pool.2)
    have hpop := hkeeps.pop h.accepted h.passed.1 hdone (h.pool.2 (h.popped hmem)) hnew
      (ofChannel_origin job)
    have hout : ∀ job' ∈ queue.pop.2, job' ∈ queue.queue := fun job' =>
      ThrottleQueueType.mem_of_pop
    refine ⟨?_, ?_, ?_, fun id hknown => ?_, ?_, ?_⟩
    · rw [forward_accepted]
      exact h.accepted
    · rw [forward_popped]
      exact fun _ hjob => pool_subset_forward (h.popped hjob)
    · rw [forward_popped, forward_completed]
      exact hcompleted
    · rw [forward_known] at hknown
      obtain ⟨hnone, hnil⟩ := h.unknown id hknown
      have hne : id ≠ r.origin job := fun heq => by
        rw [heq, hqueue] at hnone
        cases hnone
      rw [forward_channels, forward_accepted]
      exact ⟨(update_of_ne hne ..).trans hnone, hnil⟩
    · refine h.accepts.update forward_channels (forward_accepted.trans (List.append_nil _).symm)
        forward_passed forward_completed (List.forall_mem_nil _) (fun job' hjob' => ?_)
        (by simp) (ThrottleQueueType.pop_slots.trans hslots) ?_
      · exact of_decide_eq_true (hkeeps.of_mem (hout job' (Option.mem_toList.mp hjob'))).1
      · rw [forward_accepted, forward_passed, forward_completed]
        exact hpop
    · refine Serves.forward (show Serves r _ from h.serves) fun job' hjob' hpopped => ?_
      exact hkeeps.fresh h.accepted (hout job' hjob') (h.pool.2 (h.popped hpopped))

theorem Inv.step (h : Inv r s) (event : ThrottleEvent α ι) : Inv r (step r s event) := by
  cases event with
  | connect id => exact h.step_connect id
  | vanish id => exact h.step_vanish id
  | received job => exact h.step_received job
  | popService job => exact h.step_popService job
  | popChannel job => exact h.step_popChannel job

/-- Nothing is stranded in the queues, whatever the order in which requests arrive and are completed
and channels vanish. -/
theorem always_throttled (r : Requests α ι κ) (events : List (ThrottleEvent α ι)) :
    Always (Throttles.step r) (Throttled r) (new r) events :=
  (always_of_step (fun _ event h => h.step event) inv_new).mono fun _ => Inv.throttled

/-- A request for a service with a free slot overtakes one of its channel that waits for another
service; and what waits in the queue of a channel goes with it. -/
theorem overtaken_and_dropped :
    (∃ (r : Requests Nat Nat Bool) (events : List (ThrottleEvent Nat Nat)),
      let s := after (Throttles.step r) (new r) events
      ¬(s.pool.filter (ofChannel r 0)).Sublist (s.accepted.filter (ofChannel r 0))) ∧
    ∃ (r : Requests Nat Nat Bool) (events : List (ThrottleEvent Nat Nat)),
      let s := after (Throttles.step r) (new r) events
      s.pool ⊆ s.completed ∧ ∃ job ∈ s.accepted, job ∉ s.pool := by
  refine ⟨⟨⟨fun _ => 0, fun job => job = 3, 0, fun _ => 1⟩,
    [.connect 0, .received 1, .received 2, .received 3, .popService 1], ?_⟩,
    ⟨⟨fun _ => 0, fun _ => false, 1, fun _ => 1⟩,
      [.connect 0, .received 1, .received 2, .vanish 0, .popService 1, .popChannel 1], ?_⟩⟩
  · decide
  · decide

end Throttles

end Thunder.PluginHost
