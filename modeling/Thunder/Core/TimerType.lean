import Thunder.Library.Run
import Thunder.Core.Words
import Mathlib.Data.List.Count
import Mathlib.Data.List.Pairwise
import Mathlib.Tactic.SplitIfs

/-! `TimerType`: a list of entries in the order of their schedule times, and a thread that fires the
ones that are due.  An entry that fires is out of the list, and the lock is open meanwhile.  The
content is of any type, with `operator==` as it is.  A `Revoke` knows the entry that is being
executed only by its address. -/

namespace Thunder.Core

open Run

variable {κ : Type*}

/-- `TimedInfo`.  The serial is the number of the insertion, which is history. -/
structure TimedInfo (κ : Type*) where
  scheduleTime : Nat
  content : κ
  serial : Nat
  deriving DecidableEq

/-- Scheduled for an earlier time, or for the same time and inserted first. -/
def TimedInfo.Before (a b : TimedInfo κ) : Prop :=
  a.scheduleTime < b.scheduleTime ∨ a.scheduleTime = b.scheduleTime ∧ a.serial < b.serial

/-- `ScheduleEntry`. -/
def scheduleEntry (infoBlock : TimedInfo κ) : List (TimedInfo κ) → List (TimedInfo κ)
  | [] => [infoBlock]
  | index :: rest =>
    if index.scheduleTime ≤ infoBlock.scheduleTime then index :: scheduleEntry infoBlock rest
    else infoBlock :: index :: rest

/-- An entry fires: with the time that the thread has read, and what is in the list behind it. -/
structure Firing (κ : Type*) where
  info : TimedInfo κ
  now : Nat
  behind : List (TimedInfo κ)

/-- `now` is the time that a `Process` in progress has read, `executing` the entry it has taken out
of the list, and `live` whether `_executing` still points at it.  `completed` is the event
`_waitForCompletion`, `waiting` the calls of `Revoke` that wait for it, and `woken` those that have
seen it.  The rest is history: the entries that have fired; the times and lists with which `Process`
has ended; the entries that were taken out, with the content they were revoked by, or none for
`Flush`; and the contents that are revoked and not scheduled since. -/
structure TimerType (κ : Type*) where
  pendingQueue : List (TimedInfo κ)
  nextTrigger : Nat
  delayTime : Nat
  now : Option Nat
  executing : Option (TimedInfo κ)
  live : Bool
  completed : Bool
  waiting : List κ
  woken : List κ
  serial : Nat
  fired : List (Firing κ)
  ended : List (Nat × List (TimedInfo κ))
  removed : List (TimedInfo κ × Option κ)
  revoked : List κ

namespace TimerType

/-- The steps of the callers and of the timer thread, between one lock and the next.
`revokeExecuting` is a `Revoke` of the very content that is being executed; it waits until it is
completed, wakes up and resumes.  `process` is `Process` up to its loop, `turn` the condition of the
loop with what follows it; it reads the time once more when the loop ends. -/
inductive Op (κ : Type*)
  | schedule (time : Nat) (info : κ)
  | trigger (time : Nat) (info : κ)
  | revoke (info : κ)
  | revokeExecuting
  | wake (index : Nat)
  | resume (index : Nat)
  | flush
  | process (now : Nat)
  | turn (delta : Nat)
  | completed (reschedule : Nat)

def new : TimerType κ where
  pendingQueue := []
  nextTrigger := 0xFFFFFFFFFFFFFFFF
  delayTime := 0
  now := none
  executing := none
  live := false
  completed := true
  waiting := []
  woken := []
  serial := 0
  fired := []
  ended := []
  removed := []
  revoked := []

/-- `ScheduleEntry` of a new entry. -/
def insert (s : TimerType κ) (time : Nat) (info : κ) : TimerType κ :=
  { s with
    pendingQueue := scheduleEntry ⟨time, info, s.serial⟩ s.pendingQueue
    serial := s.serial + 1 }

def flush (s : TimerType κ) : TimerType κ :=
  { s with
    pendingQueue := []
    removed := s.removed ++ s.pendingQueue.map fun entry => (entry, none) }

def process (s : TimerType κ) (now : Nat) : TimerType κ :=
  if s.now = none then { s with now := some now } else s

/-- The end of `Process`: the time of the next trigger, and the delay in milliseconds. -/
def finish (s : TimerType κ) (now delta : Nat) : TimerType κ :=
  { s with
    nextTrigger := match s.pendingQueue.head? with
      | none => 0xFFFFFFFFFFFFFFFF
      | some front => if front.scheduleTime ≤ delta then delta else front.scheduleTime
    delayTime := match s.pendingQueue.head? with
      | none => 0xFFFFFFFF
      | some front =>
        if front.scheduleTime ≤ delta then 0 else u32 ((front.scheduleTime - delta) / 1000)
    now := none
    ended := s.ended ++ [(now, s.pendingQueue)] }

/-- The front of the list is executed. -/
def take (s : TimerType κ) (now : Nat) (front : TimedInfo κ) (rest : List (TimedInfo κ)) :
    TimerType κ :=
  { s with
    pendingQueue := rest
    executing := some front
    live := true
    completed := false
    fired := s.fired ++ [⟨front, now, rest⟩] }

def turn (s : TimerType κ) (delta : Nat) : TimerType κ :=
  match s.now, s.executing with
  | some now, none =>
    match s.pendingQueue with
    | [] => s.finish now delta
    | front :: rest =>
      if front.scheduleTime ≤ now then s.take now front rest else s.finish now delta
  | _, _ => s

/-- The entry was executed; it is inserted again for the time that it has returned, unless that is
0 or a `Revoke` of it waits. -/
def complete (s : TimerType κ) (reschedule : Nat) : TimerType κ :=
  match s.executing with
  | none => s
  | some info =>
    let s := if s.live ∧ reschedule ≠ 0 then s.insert reschedule info.content else s
    { s with
      executing := none
      live := false
      completed := true }

section Equality

variable [BEq κ]

def schedule (s : TimerType κ) (time : Nat) (info : κ) : TimerType κ :=
  { s.insert time info with revoked := s.revoked.filter fun other => !(info == other) }

/-- `Trigger`: the first entry of that content is taken out. -/
def trigger (s : TimerType κ) (time : Nat) (info : κ) : TimerType κ :=
  schedule
    { s with
      pendingQueue := s.pendingQueue.eraseP fun entry => entry.content == info
      removed := s.removed ++
        ((s.pendingQueue.find? fun entry => entry.content == info).map
          fun entry => (entry, some info)).toList } time info

/-- The loop of `Revoke`, which takes out all entries of that content. -/
def revoke (s : TimerType κ) (info : κ) : TimerType κ :=
  { s with
    pendingQueue := s.pendingQueue.filter fun entry => !(entry.content == info)
    removed := s.removed ++
      (s.pendingQueue.filter fun entry => entry.content == info).map fun entry => (entry, some info)
    revoked := s.revoked ++ [info] }

/-- `_executing` does not point at the entry any more. -/
def revokeExecuting (s : TimerType κ) : TimerType κ :=
  match s.executing with
  | none => s
  | some info =>
    if s.live then
      { s with
        live := false
        waiting := s.waiting ++ [info.content] }
    else s

/-- A call that waits has seen the event. -/
def wake (s : TimerType κ) (index : Nat) : TimerType κ :=
  match s.waiting[index]? with
  | none => s
  | some info =>
    if s.completed then
      { s with
        waiting := s.waiting.eraseIdx index
        woken := s.woken ++ [info] }
    else s

def resume (s : TimerType κ) (index : Nat) : TimerType κ :=
  match s.woken[index]? with
  | none => s
  | some info => revoke { s with woken := s.woken.eraseIdx index } info

def step (s : TimerType κ) : Op κ → TimerType κ
  | .schedule time info => s.schedule time info
  | .trigger time info => s.trigger time info
  | .revoke info => s.revoke info
  | .revokeExecuting => s.revokeExecuting
  | .wake index => s.wake index
  | .resume index => s.resume index
  | .flush => s.flush
  | .process now => s.process now
  | .turn delta => s.turn delta
  | .completed reschedule => s.complete reschedule

end Equality

/-! ### The order of the entries -/

/-- The serials of the entries that were fired. -/
def firedSerials (s : TimerType κ) : List Nat := s.fired.map fun firing => firing.info.serial

def removedSerials (s : TimerType κ) : List Nat := s.removed.map fun entry => entry.1.serial

/-- The list is sorted by the schedule times, and by the insertions where these are equal.  An entry
fires when it is due, in front of all that are behind it, and none is due when `Process` ends.  Each
insertion is pending, fired or taken out, once; what is taken out was revoked by a content equal to
it, or flushed. -/
structure Ordered [BEq κ] (s : TimerType κ) : Prop where
  sorted : s.pendingQueue.Pairwise TimedInfo.Before
  due : ∀ firing ∈ s.fired, firing.info.scheduleTime ≤ firing.now ∧
    ∀ entry ∈ firing.behind, firing.info.Before entry
  all : ∀ now pending, (now, pending) ∈ s.ended →
    ∀ entry ∈ pending, now < entry.scheduleTime
  once : ∀ serial, (s.pendingQueue.map TimedInfo.serial).count serial +
    s.firedSerials.count serial + s.removedSerials.count serial = if serial < s.serial then 1 else 0
  revoked : ∀ entry info, (entry, some info) ∈ s.removed → (entry.content == info) = true

section Order

variable {s : TimerType κ} {entry front : TimedInfo κ} {list rest : List (TimedInfo κ)} {time : Nat}
  {info : κ}

theorem mem_scheduleEntry {other : TimedInfo κ} :
    other ∈ scheduleEntry entry list ↔ other = entry ∨ other ∈ list := by
  induction list with
  | nil => simp [scheduleEntry]
  | cons index rest ih =>
    rw [scheduleEntry]
    split_ifs
    · rw [List.mem_cons, ih, List.mem_cons]
      tauto
    · rw [List.mem_cons]

theorem perm_scheduleEntry : (scheduleEntry entry list).Perm (entry :: list) := by
  induction list with
  | nil => exact .refl _
  | cons index rest ih =>
    rw [scheduleEntry]
    split_ifs
    · exact (ih.cons index).trans (.swap ..)
    · exact .refl _

/-- A new entry goes behind all that have its time. -/
theorem sorted_scheduleEntry (hsorted : list.Pairwise TimedInfo.Before)
    (hnew : ∀ other ∈ list, other.serial < entry.serial) :
    (scheduleEntry entry list).Pairwise TimedInfo.Before := by
  induction list with
  | nil => exact List.pairwise_singleton _ _
  | cons index rest ih =>
    obtain ⟨hindex, hrest⟩ := List.pairwise_cons.mp hsorted
    obtain ⟨hserial, hnew⟩ := List.forall_mem_cons.mp hnew
    rw [scheduleEntry]
    split_ifs with htime
    · refine List.pairwise_cons.mpr ⟨fun other hother => ?_, ih hrest hnew⟩
      rcases mem_scheduleEntry.mp hother with rfl | hother
      · unfold TimedInfo.Before
        omega
      · exact hindex other hother
    · refine List.pairwise_cons.mpr ⟨fun other hother => ?_, hsorted⟩
      have hlt : entry.scheduleTime < index.scheduleTime := by omega
      rcases List.mem_cons.mp hother with rfl | hother
      · exact .inl hlt
      · have hbefore := hindex other hother
        unfold TimedInfo.Before at hbefore ⊢
        omega

/-- Where the front is not due, none is. -/
theorem lt_of_front {now : Nat} (hsorted : (front :: rest).Pairwise TimedInfo.Before)
    (hfront : now < front.scheduleTime) : ∀ other ∈ front :: rest, now < other.scheduleTime := by
  intro other hother
  rcases List.mem_cons.mp hother with rfl | hother
  · exact hfront
  · have hbefore := (List.pairwise_cons.mp hsorted).1 other hother
    unfold TimedInfo.Before at hbefore
    omega

namespace Ordered

variable [BEq κ] {s' : TimerType κ}

theorem fresh (h : s.Ordered) : ∀ entry ∈ s.pendingQueue, entry.serial < s.serial := by
  intro entry hentry
  have hcount := h.once entry.serial
  have hpos : 0 < (s.pendingQueue.map TimedInfo.serial).count entry.serial :=
    List.count_pos_iff.mpr (List.mem_map_of_mem hentry)
  by_contra hle
  rw [if_neg hle] at hcount
  omega

theorem new : (TimerType.new : TimerType κ).Ordered := by
  constructor <;> simp [TimerType.new, firedSerials, removedSerials]

theorem same (h : s.Ordered) (hpending : s'.pendingQueue = s.pendingQueue)
    (hserial : s'.serial = s.serial) (hfired : s'.fired = s.fired) (hended : s'.ended = s.ended)
    (hremoved : s'.removed = s.removed) : s'.Ordered := by
  constructor
  · rw [hpending]
    exact h.sorted
  · rw [hfired]
    exact h.due
  · rw [hended]
    exact h.all
  · simp only [firedSerials, removedSerials, hpending, hfired, hremoved, hserial]
    exact h.once
  · rw [hremoved]
    exact h.revoked

theorem insert (h : s.Ordered) (time : Nat) (info : κ) : (s.insert time info).Ordered where
  sorted := sorted_scheduleEntry h.sorted h.fresh
  due := h.due
  all := h.all
  once serial := by
    have hcount := h.once serial
    have hnew : ((s.insert time info).pendingQueue.map TimedInfo.serial).count serial =
        (s.pendingQueue.map TimedInfo.serial).count serial +
          if s.serial = serial then 1 else 0 := by
      rw [TimerType.insert, (perm_scheduleEntry.map TimedInfo.serial).count_eq, List.map_cons,
        List.count_cons]
      simp
    have hfired : (s.insert time info).firedSerials = s.firedSerials := rfl
    have hremoved : (s.insert time info).removedSerials = s.removedSerials := rfl
    have hnext : (s.insert time info).serial = s.serial + 1 := rfl
    rw [hnew, hfired, hremoved, hnext]
    rcases Nat.lt_trichotomy serial s.serial with hlt | rfl | hgt
    · rw [if_pos hlt] at hcount
      rw [if_neg hlt.ne', if_pos (by omega)]
      exact hcount
    · rw [if_neg (Nat.lt_irrefl _)] at hcount
      rw [if_pos rfl, if_pos (Nat.lt_succ_self _)]
      omega
    · rw [if_neg (by omega)] at hcount
      rw [if_neg hgt.ne, if_neg (by omega)]
      exact hcount
  revoked := h.revoked

/-- Entries are taken out of the list. -/
theorem remove (h : s.Ordered) {gone : List (TimedInfo κ)} {cause : Option κ}
    (hperm : s.pendingQueue.Perm (gone ++ list)) (hsub : list.Sublist s.pendingQueue)
    (hequal : ∀ info ∈ cause, ∀ entry ∈ gone, (entry.content == info) = true) :
    Ordered { s with
      pendingQueue := list
      removed := s.removed ++ gone.map fun entry => (entry, cause) } where
  sorted := h.sorted.sublist hsub
  due := h.due
  all := h.all
  once serial := by
    have hcount := h.once serial
    rw [(hperm.map TimedInfo.serial).count_eq, List.map_append, List.count_append] at hcount
    have hgone : (gone.map fun entry => (entry, cause)).map (fun entry => entry.1.serial) =
        gone.map TimedInfo.serial := by
      rw [List.map_map]
      rfl
    simp only [firedSerials, removedSerials, List.map_append, hgone, List.count_append] at hcount ⊢
    omega
  revoked entry info hentry := by
    rcases List.mem_append.mp hentry with hold | hgone
    · exact h.revoked entry info hold
    · obtain ⟨other, hother, heq⟩ := List.mem_map.mp hgone
      obtain ⟨rfl, rfl⟩ := Prod.mk.injEq .. ▸ heq
      exact hequal info rfl other hother

theorem take (h : s.Ordered) {now : Nat} (hpending : s.pendingQueue = front :: rest)
    (hdue : front.scheduleTime ≤ now) : (s.take now front rest).Ordered := by
  have hsorted := h.sorted
  rw [hpending] at hsorted
  obtain ⟨hfront, hrest⟩ := List.pairwise_cons.mp hsorted
  constructor
  · exact hrest
  · intro firing hfiring
    rcases List.mem_append.mp hfiring with hold | hnew
    · exact h.due firing hold
    · rw [List.mem_singleton.mp hnew]
      exact ⟨hdue, hfront⟩
  · exact h.all
  · intro serial
    have hcount := h.once serial
    have hfired : (s.take now front rest).firedSerials = s.firedSerials ++ [front.serial] := by
      simp [TimerType.take, firedSerials]
    have hremoved : (s.take now front rest).removedSerials = s.removedSerials := rfl
    rw [hpending, List.map_cons, ← List.singleton_append, List.count_append] at hcount
    rw [hfired, hremoved, List.count_append]
    change (rest.map TimedInfo.serial).count serial + _ + _ = if serial < s.serial then 1 else 0
    omega
  · exact h.revoked

theorem finish (h : s.Ordered) {now delta : Nat}
    (hend : ∀ entry ∈ s.pendingQueue, now < entry.scheduleTime) : (s.finish now delta).Ordered where
  sorted := h.sorted
  due := h.due
  all time pending hmem := by
    rcases List.mem_append.mp hmem with hold | hnew
    · exact h.all time pending hold
    · obtain ⟨rfl, rfl⟩ := Prod.mk.injEq .. ▸ List.mem_singleton.mp hnew
      exact hend
  once := h.once
  revoked := h.revoked

theorem turn (h : s.Ordered) (delta : Nat) : (s.turn delta).Ordered := by
  unfold TimerType.turn
  split
  next now _ _ =>
    split
    next hpending => exact h.finish (by simp [hpending])
    next front rest hpending =>
      split_ifs with hdue
      · exact h.take hpending hdue
      · apply h.finish
        rw [hpending]
        exact lt_of_front (hpending ▸ h.sorted) (by omega)
  next => exact h

theorem complete (h : s.Ordered) (reschedule : Nat) : (s.complete reschedule).Ordered := by
  unfold TimerType.complete
  split
  · exact h
  next entry _ =>
    split_ifs
    · exact (h.insert reschedule entry.content).same rfl rfl rfl rfl rfl
    · exact h.same rfl rfl rfl rfl rfl

theorem schedule (h : s.Ordered) (time : Nat) (info : κ) : (s.schedule time info).Ordered :=
  (h.insert time info).same rfl rfl rfl rfl rfl

theorem trigger (h : s.Ordered) (time : Nat) (info : κ) : (s.trigger time info).Ordered := by
  apply schedule
  cases hfind : s.pendingQueue.find? (fun entry => entry.content == info) with
  | none =>
    have hnone : s.pendingQueue.eraseP (fun entry => entry.content == info) = s.pendingQueue := by
      apply List.eraseP_of_forall_not
      simpa using List.find?_eq_none.mp hfind
    refine h.same hnone rfl rfl rfl ?_
    simp
  | some entry =>
    obtain ⟨hequal, before, behind, hsplit, hbefore⟩ := List.find?_eq_some_iff_append.mp hfind
    have herase :
        s.pendingQueue.eraseP (fun entry => entry.content == info) = before ++ behind := by
      rw [hsplit, List.eraseP_append_right _ (by simpa using hbefore)]
      simp [hequal]
    have hgone : Ordered { s with
        pendingQueue := before ++ behind
        removed := s.removed ++ [entry].map fun entry => (entry, some info) } := by
      apply h.remove
      · rw [hsplit]
        exact List.perm_middle
      · rw [← herase]
        exact List.eraseP_sublist
      · rintro _ ⟨⟩ other hother
        rw [List.mem_singleton.mp hother]
        exact hequal
    exact hgone.same herase rfl rfl rfl rfl

theorem revoke (h : s.Ordered) (info : κ) : (s.revoke info).Ordered := by
  have hgone : Ordered { s with
      pendingQueue := s.pendingQueue.filter fun entry => !(entry.content == info)
      removed := s.removed ++ (s.pendingQueue.filter fun entry => entry.content == info).map
        fun entry => (entry, some info) } := by
    apply h.remove
    · exact (List.filter_append_perm _ _).symm
    · exact List.filter_sublist
    · rintro _ ⟨⟩ entry hentry
      exact (List.mem_filter.mp hentry).2
  exact hgone.same rfl rfl rfl rfl rfl

theorem flush (h : s.Ordered) : s.flush.Ordered :=
  h.remove (by simp) (List.nil_sublist _) (by simp)

theorem step (h : s.Ordered) (op : Op κ) : (s.step op).Ordered := by
  cases op with
  | schedule time info => exact h.schedule time info
  | trigger time info => exact h.trigger time info
  | revoke info => exact h.revoke info
  | revokeExecuting =>
    simp only [TimerType.step, revokeExecuting]
    split
    · exact h
    · split_ifs
      · exact h.same rfl rfl rfl rfl rfl
      · exact h
  | wake index =>
    simp only [TimerType.step, wake]
    split
    · exact h
    · split_ifs
      · exact h.same rfl rfl rfl rfl rfl
      · exact h
  | resume index =>
    simp only [TimerType.step, resume]
    split
    · exact h
    next info _ =>
      have hwoken : Ordered { s with woken := s.woken.eraseIdx index } :=
        h.same rfl rfl rfl rfl rfl
      exact hwoken.revoke info
  | flush => exact h.flush
  | process now =>
    simp only [TimerType.step, process]
    split_ifs
    · exact h.same rfl rfl rfl rfl rfl
    · exact h
  | turn delta => exact h.turn delta
  | completed reschedule => exact h.complete reschedule

end Ordered

end Order

/-! ### Revoked entries -/

/-- An entry of that content is being executed. -/
def Executes [BEq κ] (s : TimerType κ) (info : κ) : Prop :=
  ∃ entry ∈ s.executing, (entry.content == info) = true

/-- No entry of a content that is revoked, and not scheduled since, is pending or executed. -/
def Quiet [BEq κ] (s : TimerType κ) : Prop :=
  ∀ info ∈ s.revoked,
    (∀ entry ∈ s.pendingQueue, (entry.content == info) = false) ∧ ¬ s.Executes info

/-- A `Revoke` returns while no entry of its content is being executed. -/
def Apart [BEq κ] (s : TimerType κ) : Op κ → Prop
  | .revoke info => ¬ s.Executes info
  | .resume index => ∀ info ∈ s.woken[index]?, ¬ s.Executes info
  | _ => True

namespace Quiet

variable [BEq κ] {s s' : TimerType κ}

theorem same (h : s.Quiet) (hpending : s'.pendingQueue = s.pendingQueue)
    (hexecuting : s'.executing = s.executing) (hrevoked : s'.revoked = s.revoked) : s'.Quiet := by
  unfold Quiet Executes
  rw [hpending, hexecuting, hrevoked]
  exact h

theorem new : (TimerType.new : TimerType κ).Quiet := by
  intro info hinfo
  cases hinfo

/-- An entry is inserted that is of no revoked content. -/
theorem insert (h : s.Quiet) {time : Nat} {info : κ}
    (hnew : ∀ other ∈ s.revoked, (info == other) = false) : (s.insert time info).Quiet := by
  intro other hother
  obtain ⟨hpending, hexecuting⟩ := h other hother
  refine ⟨fun entry hentry => ?_, hexecuting⟩
  rcases mem_scheduleEntry.mp hentry with rfl | hold
  · exact hnew other hother
  · exact hpending entry hold

theorem schedule (h : s.Quiet) (time : Nat) (info : κ) : (s.schedule time info).Quiet := by
  have hless : Quiet { s with revoked := s.revoked.filter fun other => !(info == other) } :=
    fun other hother => h other (List.mem_of_mem_filter hother)
  have hnew : ∀ other ∈ s.revoked.filter fun other => !(info == other),
      (info == other) = false := by
    intro other hother
    simpa using (List.mem_filter.mp hother).2
  exact hless.insert hnew

theorem drop (h : s.Quiet) {list : List (TimedInfo κ)} {removed : List (TimedInfo κ × Option κ)}
    (hsub : list ⊆ s.pendingQueue) :
    Quiet { s with
      pendingQueue := list
      removed := removed } :=
  fun info hinfo => ⟨fun entry hentry => (h info hinfo).1 entry (hsub hentry), (h info hinfo).2⟩

/-- A `Revoke` of a content that is not being executed. -/
theorem revoke_iff (h : s.Quiet) (info : κ) : (s.revoke info).Quiet ↔ ¬ s.Executes info := by
  constructor
  · intro hquiet
    exact (hquiet info (List.mem_append.mpr (.inr (List.mem_singleton_self _)))).2
  · intro hapart other hother
    rcases List.mem_append.mp hother with hold | hnew
    · obtain ⟨hpending, hexecuting⟩ := h other hold
      exact ⟨fun entry hentry => hpending entry (List.mem_of_mem_filter hentry), hexecuting⟩
    · rw [List.mem_singleton.mp hnew]
      exact ⟨fun entry hentry => by simpa using (List.mem_filter.mp hentry).2, hapart⟩

theorem turn (h : s.Quiet) (delta : Nat) : (s.turn delta).Quiet := by
  unfold TimerType.turn
  split
  next now _ hnone =>
    split
    next => exact h.same rfl rfl rfl
    next front rest hpending =>
      split_ifs
      · intro info hinfo
        obtain ⟨hquiet, -⟩ := h info hinfo
        rw [hpending] at hquiet
        refine ⟨fun entry hentry => hquiet entry (List.mem_cons_of_mem _ hentry), ?_⟩
        rintro ⟨entry, hentry, hequal⟩
        obtain rfl : front = entry := Option.some.inj hentry
        rw [hquiet front List.mem_cons_self] at hequal
        cases hequal
      · exact h.same rfl rfl rfl
  next => exact h

theorem complete (h : s.Quiet) (reschedule : Nat) : (s.complete reschedule).Quiet := by
  unfold TimerType.complete
  split
  next => exact h
  next entry hentry =>
    have hidle : ∀ t : TimerType κ, t.Quiet →
        Quiet { t with
          executing := none
          live := false
          completed := true } := by
      intro t ht info hinfo
      refine ⟨(ht info hinfo).1, ?_⟩
      rintro ⟨_, ⟨⟩, _⟩
    apply hidle
    split_ifs
    · apply h.insert
      intro info hinfo
      by_contra hequal
      exact (h info hinfo).2 ⟨entry, hentry, by simpa using hequal⟩
    · exact h

/-- The step lemma: a step keeps what is revoked quiet exactly when no `Revoke` returns beside an
execution. -/
theorem step_iff (h : s.Quiet) (op : Op κ) : (s.step op).Quiet ↔ s.Apart op := by
  cases op with
  | schedule time info => exact iff_of_true (h.schedule time info) trivial
  | trigger time info => exact iff_of_true ((h.drop List.eraseP_subset).schedule time info) trivial
  | revoke info => exact h.revoke_iff info
  | revokeExecuting =>
    refine iff_of_true ?_ trivial
    simp only [TimerType.step, revokeExecuting]
    split
    · exact h
    next entry hentry =>
      split_ifs
      · exact h.same rfl rfl rfl
      · exact h
  | wake index =>
    refine iff_of_true ?_ trivial
    simp only [TimerType.step, wake]
    split
    · exact h
    · split_ifs
      · exact h.same rfl rfl rfl
      · exact h
  | resume index =>
    simp only [TimerType.step, resume, Apart]
    cases hwoken : s.woken[index]? with
    | none => exact iff_of_true h (by simp)
    | some info =>
      have hless : Quiet { s with woken := s.woken.eraseIdx index } := h.same rfl rfl rfl
      apply (hless.revoke_iff info).trans
      constructor
      · intro hapart other hother
        exact Option.some.inj hother ▸ hapart
      · exact fun hapart => hapart info rfl
  | flush => exact iff_of_true (h.drop (List.nil_subset _)) trivial
  | process now =>
    refine iff_of_true ?_ trivial
    simp only [TimerType.step, process]
    split_ifs
    · exact h.same rfl rfl rfl
    · exact h
  | turn delta => exact iff_of_true (h.turn delta) trivial
  | completed reschedule => exact iff_of_true (h.complete reschedule) trivial

end Quiet

/-- `Core::infinite`. -/
def infinite : Nat := 2 ^ 32 - 1

/-- The milliseconds from a time until an entry is due. -/
def millisecondsUntil (front : TimedInfo κ) (now : Nat) : Nat := (front.scheduleTime - now) / 1000

/-- The thread sleeps for ever only without an entry, not at all if the first one is due, and else
no longer than until it is. -/
structure Sleeps (pendingQueue : List (TimedInfo κ)) (now delayTime : Nat) : Prop where
  forever : delayTime = infinite → pendingQueue = []
  due : ∀ front ∈ pendingQueue.head?, front.scheduleTime ≤ now → delayTime = 0
  bounded : ∀ front ∈ pendingQueue.head?, now < front.scheduleTime →
    delayTime ≤ millisecondsUntil front now

theorem sleeps_finish_iff (s : TimerType κ) (now delta : Nat) :
    Sleeps s.pendingQueue delta (s.finish now delta).delayTime ↔
      ∀ front ∈ s.pendingQueue.head?, delta < front.scheduleTime →
        u32 (millisecondsUntil front delta) ≠ infinite := by
  cases hqueue : s.pendingQueue with
  | nil =>
    simp only [finish, hqueue, List.head?_nil]
    exact iff_of_true ⟨fun _ => rfl, nofun, nofun⟩ nofun
  | cons front rest =>
    simp only [finish, hqueue, List.head?_cons, Option.mem_def, Option.some.injEq, forall_eq']
    split_ifs with hdue
    · refine iff_of_true ⟨fun h => absurd h (by decide), fun _ _ _ => rfl, ?_⟩
        fun hlater => absurd hdue (Nat.not_le.mpr hlater)
      exact fun _ _ _ => Nat.zero_le _
    · constructor
      · exact fun h _ hforever => absurd (h.forever hforever) (List.cons_ne_nil _ _)
      · intro hshort
        refine ⟨fun h => absurd h (hshort (Nat.not_le.mp hdue)), ?_, ?_⟩
        · rintro other hother hdue'
          obtain rfl := Option.some.inj hother
          exact absurd hdue' hdue
        · rintro other hother -
          obtain rfl := Option.some.inj hother
          exact Nat.mod_le _ _

/-- `Process` comes to its end when no entry is due at the time that it has read first. -/
theorem turn_eq_finish {s : TimerType κ} {now : Nat} (hnow : s.now = some now)
    (hidle : s.executing = none)
    (hdone : ∀ front ∈ s.pendingQueue.head?, now < front.scheduleTime) (delta : Nat) :
    s.turn delta = s.finish now delta := by
  rw [turn, hnow, hidle]
  cases hqueue : s.pendingQueue with
  | nil => rfl
  | cons front rest =>
    rw [hqueue] at hdone
    exact if_neg (Nat.not_le.mpr (hdone front rfl))

/-- The thread sleeps as it should behind a `Process` exactly when the milliseconds until the first
entry, in 32 bits, are not those that stand for ever. -/
theorem sleeps_iff (s : TimerType κ) {now : Nat} (delta : Nat) (hnow : s.now = some now)
    (hidle : s.executing = none)
    (hdone : ∀ front ∈ s.pendingQueue.head?, now < front.scheduleTime) :
    Sleeps s.pendingQueue delta (s.turn delta).delayTime ↔
      ∀ front ∈ s.pendingQueue.head?, delta < front.scheduleTime →
        u32 (millisecondsUntil front delta) ≠ infinite := by
  rw [turn_eq_finish hnow hidle hdone]
  exact sleeps_finish_iff s now delta

/-- One entry that is due in two seconds, and one that is due in some fifty days: the milliseconds
until the latter are all ones. -/
def withEntry (time : Nat) : TimerType Nat :=
  { (new : TimerType Nat) with pendingQueue := [⟨time, 7, 0⟩], now := some 0 }

theorem sleeps_two_seconds :
    Sleeps (withEntry 2000000).pendingQueue 0 ((withEntry 2000000).turn 0).delayTime := by
  refine (sleeps_iff (withEntry 2000000) 0 rfl rfl ?_).mpr ?_
  · rintro front hfront
    obtain rfl := Option.some.inj hfront
    decide
  · rintro front hfront -
    obtain rfl := Option.some.inj hfront
    decide

theorem sleeps_forever : ¬ ∀ (s : TimerType Nat) (now delta : Nat), s.now = some now →
    s.executing = none → (∀ front ∈ s.pendingQueue.head?, now < front.scheduleTime) →
    Sleeps s.pendingQueue delta (s.turn delta).delayTime := by
  intro h
  have hsleeps := h (withEntry 4294967295000) 0 0 rfl rfl (by
    rintro front hfront
    obtain rfl := Option.some.inj hfront
    decide)
  exact List.cons_ne_nil _ _ (hsleeps.forever rfl)

end TimerType

end Thunder.Core
