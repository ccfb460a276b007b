import Thunder.Library.Run

/-! `QueueType`: a list with a high-water mark, and the flag `state` on which blocked producers and
consumers wait.  Each operation is one section under the queue's lock.  `Insert` and `Extract` loop:
they give up the lock to wait for the flag and start over, so a call is a sequence of the sections
`insert` and `extract` here, with sections of other threads in between, that ends with the first one
that does not wait or with a time-out, which changes nothing. -/

namespace Thunder.Core

open Run

/-- `enumQueueState`. -/
inductive QueueState
  | empty
  | entries
  | limited
  | disabled
  deriving DecidableEq, Repr

structure QueueType (α : Type) where
  queue : List α
  state : QueueState
  maxSlots : Nat
  marked : 0 < maxSlots

/-- How a section of `Insert` ends. -/
inductive Inserted
  | refused
  | posted
  | waits
  deriving DecidableEq, Repr

/-- How a section of `Extract` ends; `dangling` is a read through the end iterator of an empty
list. -/
inductive Extracted (α : Type)
  | refused
  | received (entry : α)
  | waits
  | dangling
  deriving DecidableEq, Repr

namespace QueueType

variable {α : Type}

/-- A new queue with the given high-water mark. -/
def new (highWaterMark : Nat) (marked : 0 < highWaterMark) : QueueType α :=
  ⟨[], .empty, highWaterMark, marked⟩

def isEmpty (q : QueueType α) : Bool := q.queue.isEmpty

def isFull (q : QueueType α) : Bool := q.maxSlots ≤ q.queue.length

def remove [DecidableEq α] (q : QueueType α) (entry : α) : QueueType α × Bool :=
  if q.state = .disabled then (q, false)
  else
    let q' := { q with queue := q.queue.erase entry }
    ({ q' with state := if q'.isEmpty then .empty else .entries }, decide (entry ∈ q.queue))

/-- `push_back`, and the flag that goes with it. -/
def pushBack (q : QueueType α) (entry : α) : QueueType α :=
  let q' := { q with queue := q.queue ++ [entry] }
  { q' with state := if q'.isFull then .limited else .entries }

def post (q : QueueType α) (entry : α) : QueueType α × Bool :=
  if q.state = .disabled then (q, false) else (q.pushBack entry, true)

def insert (q : QueueType α) (entry : α) : QueueType α × Inserted :=
  if q.state = .disabled then (q, .refused)
  else if q.state = .limited then (q, .waits)
  else (q.pushBack entry, .posted)

def extract (q : QueueType α) : QueueType α × Extracted α :=
  if q.state = .disabled then (q, .refused)
  else if q.state = .empty then (q, .waits)
  else
    match q.queue with
    | [] => (q, .dangling)
    | entry :: rest =>
      let q' := { q with queue := rest }
      ({ q' with state := if q'.isEmpty then .empty else .entries }, .received entry)

def enable (q : QueueType α) : QueueType α :=
  if q.state = .disabled then
    { q with state := if q.isEmpty then .empty else if q.isFull then .limited else .entries }
  else q

def disable (q : QueueType α) : QueueType α := { q with state := .disabled }

def flush (q : QueueType α) : QueueType α := { q with queue := [] }

/-- A section of one of the queue's operations. -/
inductive Op (α : Type)
  | post (entry : α)
  | insert (entry : α)
  | extract
  | remove (entry : α)
  | enable
  | disable
  | flush
  deriving DecidableEq, Repr

def step [DecidableEq α] (q : QueueType α) : Op α → QueueType α
  | .post entry => (q.post entry).1
  | .insert entry => (q.insert entry).1
  | .extract => q.extract.1
  | .remove entry => (q.remove entry).1
  | .enable => q.enable
  | .disable => q.disable
  | .flush => q.flush

/-! ### Entries -/

section Entries

variable {q q' : QueueType α} {entry x : α}

theorem mem_post (h : x ∈ (q.post entry).1.queue) : x ∈ q.queue ∨ x = entry := by
  unfold post at h
  split_ifs at h
  · exact .inl h
  · simpa [pushBack] using h

theorem mem_insert (h : x ∈ (q.insert entry).1.queue) : x ∈ q.queue ∨ x = entry := by
  unfold insert at h
  split_ifs at h
  · exact .inl h
  · exact .inl h
  · simpa [pushBack] using h

theorem mem_remove [DecidableEq α] {found : Bool} (h : q.remove entry = (q', found))
    (hx : x ∈ q'.queue) : x ∈ q.queue := by
  obtain rfl : (q.remove entry).1 = q' := congrArg Prod.fst h
  unfold remove at hx
  split_ifs at hx
  · exact hx
  · exact List.mem_of_mem_erase hx

theorem remove_found [DecidableEq α] (h : q.remove entry = (q', true)) :
    entry ∈ q.queue ∧ q'.queue = q.queue.erase entry := by
  unfold remove at h
  split_ifs at h
  · simp at h
  · simp only [Prod.mk.injEq, decide_eq_true_eq] at h
    exact ⟨h.2, by rw [← h.1]⟩

theorem post_enabled (entry : α) (h : q.state ≠ .disabled) :
    (q.post entry).1.queue = q.queue ++ [entry] ∧ (q.post entry).1.state ≠ .disabled := by
  unfold post pushBack
  rw [if_neg h]
  refine ⟨rfl, ?_⟩
  dsimp only
  split_ifs <;> nofun

theorem insert_enabled {r : Inserted} (h : q.state ≠ .disabled) (hinsert : q.insert entry = (q', r))
    (hwaits : r ≠ .waits) : q'.queue = q.queue ++ [entry] ∧ q'.state ≠ .disabled := by
  unfold insert at hinsert
  rw [if_neg h] at hinsert
  split_ifs at hinsert
  · exact absurd (Prod.mk.inj hinsert).2.symm hwaits
  · obtain rfl := (Prod.mk.inj hinsert).1
    have hpost := post_enabled entry h
    rwa [post, if_neg h] at hpost

theorem remove_enabled [DecidableEq α] {found : Bool} (h : q.state ≠ .disabled)
    (hremove : q.remove entry = (q', found)) :
    q'.queue = q.queue.erase entry ∧ q'.state ≠ .disabled := by
  unfold remove at hremove
  rw [if_neg h] at hremove
  obtain rfl := (Prod.mk.inj hremove).1
  refine ⟨rfl, ?_⟩
  dsimp only
  split_ifs <;> nofun

theorem extract_enabled (h : q.extract = (q', .received entry)) : q'.state ≠ .disabled := by
  unfold extract at h
  split_ifs at h
  · simp at h
  · simp at h
  · split at h
    · simp at h
    · obtain rfl := (Prod.mk.inj h).1
      dsimp only
      split_ifs <;> nofun

/-- An enabled queue that does not find an entry does not hold it. -/
theorem remove_missed [DecidableEq α] (h : q.remove entry = (q', false)) (hx : entry ∈ q.queue) :
    q.state = .disabled := by
  by_contra henabled
  unfold remove at h
  rw [if_neg henabled] at h
  simp only [Prod.mk.injEq, decide_eq_false_iff_not] at h
  exact h.2 hx

theorem extract_received {r : Extracted α} (h : q.extract = (q', r)) (hr : r = .received entry) :
    q.queue = entry :: q'.queue := by
  subst hr
  unfold extract at h
  split_ifs at h
  · simp at h
  · simp at h
  · split at h
    · simp at h
    · obtain ⟨rfl, rfl⟩ : _ = q' ∧ _ = entry := by simpa using h
      assumption

end Entries

/-! ### The flag -/

/-- The flag tells whether the list is empty and whether it has reached the mark. -/
def FlagExact (q : QueueType α) : Prop :=
  q.state ≠ .disabled →
    (q.state = .empty ↔ q.queue = []) ∧ (q.state = .limited ↔ q.maxSlots ≤ q.queue.length)

/-- An `Insert` that posts finds room below the mark, and an `Extract` finds an entry where it reads
one. -/
def Bounded [DecidableEq α] (q : QueueType α) : Op α → Prop
  | .insert entry => (q.insert entry).2 = .posted → q.queue.length < q.maxSlots
  | .extract => q.extract.2 ≠ .dangling
  | _ => True

/-- The operation leaves the list below the mark where it sets the flag without a look at
`isFull`, and empties the list only while the queue is disabled. -/
def StaysBelow (q : QueueType α) : Op α → Prop
  | .remove entry => q.state = .disabled ∨
      (entry ∈ q.queue ∧ q.queue.length ≤ q.maxSlots) ∨
      (entry ∉ q.queue ∧ q.queue.length < q.maxSlots)
  | .extract => q.state = .disabled ∨ q.queue.length ≤ q.maxSlots
  | .flush => q.state = .disabled ∨ q.queue = []
  | _ => True

@[simp] theorem isEmpty_iff (q : QueueType α) : q.isEmpty = true ↔ q.queue = [] := by
  simp [isEmpty]

@[simp] theorem isFull_iff (q : QueueType α) : q.isFull = true ↔ q.maxSlots ≤ q.queue.length := by
  simp [isFull]

theorem flagExact_new (highWaterMark : Nat) (marked : 0 < highWaterMark) :
    (new highWaterMark marked : QueueType α).FlagExact := by
  intro _
  simp [new, Nat.ne_of_gt marked]

/-- A non-empty list whose flag was set by a look at `isFull`. -/
theorem flagExact_filled {q : QueueType α} (hne : q.queue ≠ [])
    (hstate : q.state = if q.isFull then .limited else .entries) : q.FlagExact := by
  intro _
  by_cases hfull : q.maxSlots ≤ q.queue.length <;> simp [hstate, hfull, hne]

/-- A flag that was set without a look at `isFull` is exact when the list is below the mark. -/
theorem flagExact_below {q : QueueType α}
    (hstate : q.state = if q.isEmpty then .empty else .entries) :
    q.FlagExact ↔ q.queue.length < q.maxSlots := by
  by_cases hempty : q.queue = []
  · simp [FlagExact, hstate, hempty, q.marked, Nat.ne_of_gt q.marked]
  · simp [FlagExact, hstate, hempty]

theorem flagExact_pushBack (q : QueueType α) (entry : α) : (q.pushBack entry).FlagExact :=
  flagExact_filled (by simp [pushBack]) (by simp [pushBack, isFull])

theorem flagExact_remove [DecidableEq α] {q : QueueType α} (h : q.FlagExact) (entry : α) :
    (q.remove entry).1.FlagExact ↔ q.StaysBelow (.remove entry) := by
  by_cases hdis : q.state = .disabled
  · simp [remove, hdis, StaysBelow, h]
  · simp only [remove, hdis, if_false, StaysBelow, false_or]
    rw [flagExact_below (by simp [isEmpty])]
    by_cases hmem : entry ∈ q.queue
    · have hlen := List.length_erase_of_mem hmem
      have hpos := List.length_pos_of_mem hmem
      simp only [hmem, hlen, true_and, not_true, false_and, or_false]
      omega
    · simp [hmem, List.erase_of_not_mem hmem]

theorem flagExact_extract {q : QueueType α} (h : q.FlagExact) :
    q.extract.1.FlagExact ↔ q.StaysBelow .extract := by
  by_cases hdis : q.state = .disabled
  · simp [extract, hdis, StaysBelow, h]
  obtain ⟨hempty, -⟩ := h hdis
  by_cases he : q.state = .empty
  · simp [extract, he, StaysBelow, h, hempty.mp he]
  cases hq : q.queue with
  | nil => exact absurd (hempty.mpr hq) he
  | cons entry rest =>
    simp only [extract, hdis, he, hq, if_false, StaysBelow, false_or, List.length_cons]
    rw [flagExact_below (by simp [isEmpty])]
    exact Nat.lt_iff_add_one_le

theorem flagExact_flush {q : QueueType α} (h : q.FlagExact) :
    q.flush.FlagExact ↔ q.StaysBelow .flush := by
  by_cases hdis : q.state = .disabled
  · simp [flush, FlagExact, StaysBelow, hdis]
  · obtain ⟨hempty, hlimited⟩ := h hdis
    simp only [StaysBelow, hdis, false_or]
    constructor
    · intro h'
      exact hempty.mp ((h' hdis).1.mpr rfl)
    · intro hq
      simpa [flush, ← hq] using h

theorem flagExact_enable {q : QueueType α} (h : q.FlagExact) : q.enable.FlagExact := by
  by_cases hdis : q.state = .disabled
  · by_cases hempty : q.queue = []
    · intro _
      simp [enable, hdis, hempty, Nat.ne_of_gt q.marked]
    · exact flagExact_filled (by simpa [enable, hdis] using hempty)
        (by simp [enable, hdis, hempty, isFull])
  · simpa [enable, hdis] using h

/-- The step lemma: an operation keeps the flag exact exactly when it stays below the mark. -/
theorem flagExact_step [DecidableEq α] (q : QueueType α) (op : Op α) (h : q.FlagExact) :
    (q.step op).FlagExact ↔ q.StaysBelow op := by
  cases op with
  | post entry =>
    simp only [step, post, StaysBelow, iff_true]
    split
    · exact h
    · exact flagExact_pushBack q entry
  | insert entry =>
    simp only [step, insert, StaysBelow, iff_true]
    split_ifs
    · exact h
    · exact h
    · exact flagExact_pushBack q entry
  | extract => exact flagExact_extract h
  | remove entry => exact flagExact_remove h entry
  | enable => simpa only [step, StaysBelow, iff_true] using flagExact_enable h
  | disable => simp [step, disable, FlagExact, StaysBelow]
  | flush => exact flagExact_flush h

/-- What an exact flag promises blocked producers and consumers. -/
theorem FlagExact.bounded [DecidableEq α] {q : QueueType α} (h : q.FlagExact) (op : Op α) :
    q.Bounded op := by
  cases op with
  | insert entry =>
    intro hposted
    by_cases hdis : q.state = .disabled
    · simp [insert, hdis] at hposted
    by_cases hlim : q.state = .limited
    · simp [insert, hlim] at hposted
    · exact Nat.lt_of_not_le (mt (h hdis).2.mpr hlim)
  | extract =>
    by_cases hdis : q.state = .disabled
    · simp [Bounded, extract, hdis]
    by_cases he : q.state = .empty
    · simp [Bounded, extract, he]
    cases hq : q.queue with
    | nil => exact absurd ((h hdis).1.mpr hq) he
    | cons entry rest => simp [Bounded, extract, hdis, he, hq]
  | _ => trivial

/-- Over any run from a new queue, the flag stays exact and every `Insert` and `Extract` is bounded
exactly when no `Remove`, `Extract` or `Flush` sets the flag on a list it does not describe. -/
theorem exact_and_bounded_iff [DecidableEq α] (highWaterMark : Nat) (marked : 0 < highWaterMark)
    (ops : List (Op α)) :
    (Always step FlagExact (new highWaterMark marked : QueueType α) ops ∧
      Meets step Bounded (new highWaterMark marked) ops) ↔
    Meets step StaysBelow (new highWaterMark marked : QueueType α) ops := by
  rw [← always_iff_meets flagExact_step (flagExact_new highWaterMark marked)]
  constructor
  · exact And.left
  · intro h
    exact ⟨h, h.meets fun q op hq => hq.bounded op⟩

/-- A producer that respects the flag of a queue of two slots. -/
theorem exact_and_bounded_two :
    Always step FlagExact (new 2 (by decide) : QueueType Nat) [.insert 7, .insert 8, .extract] ∧
      Meets step Bounded (new 2 (by decide)) [.insert 7, .insert 8, .extract] :=
  (exact_and_bounded_iff 2 (by decide) _).mpr
    (by simp [StaysBelow, step, insert, new, pushBack, isFull])

/-- `Post` fills a queue of one slot twice, `Extract` leaves it full under the flag `entries`, and
an `Insert` then posts over the mark. -/
theorem overfilled_one :
    ¬ (Always step FlagExact (new 1 (by decide) : QueueType Nat)
        [.post 7, .post 8, .extract, .insert 9] ∧
      Meets step Bounded (new 1 (by decide) : QueueType Nat)
        [.post 7, .post 8, .extract, .insert 9]) := by
  rintro ⟨-, -, -, -, hinsert, -⟩
  exact absurd (hinsert rfl) (by decide)

end QueueType

end Thunder.Core
