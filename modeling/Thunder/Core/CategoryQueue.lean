import Mathlib.Data.List.Basic
import Mathlib.Logic.Function.Basic
import Thunder.Library.Run
import Thunder.Core.Queue

/-! `CategoryQueueType`: entries carry a category, and a category has at most a mark of them in the
queue and in process together; the others wait in the category's own deque until a completion makes
room.  As in `QueueType`, an operation is one section under the queue's lock, and a call of `Insert`
or `Extract` that has to wait for the flag is a sequence of such sections. -/

namespace Thunder.Core

open Run

inductive Category
  | high
  | medium
  | low
  deriving DecidableEq, Repr

/-- The order of the vector `_categories`. -/
def Category.all : List Category := [.high, .medium, .low]

@[simp] theorem Category.mem_all (c : Category) : c ∈ Category.all := by
  cases c <;> decide

/-- `CategoryAdminType`; the counters are 16 bits wide. -/
structure CategoryAdminType (α : Type) where
  highWaterMark : Nat
  submitted : Nat
  queue : List α
  marked : 0 < highWaterMark
  narrow : highWaterMark < 65536

namespace CategoryAdminType

variable {α : Type}

def new (highWaterMark : Nat) (marked : 0 < highWaterMark) (narrow : highWaterMark < 65536) :
    CategoryAdminType α := ⟨highWaterMark, 0, [], marked, narrow⟩

def hasEntry (admin : CategoryAdminType α) : Bool :=
  !admin.queue.isEmpty && decide (admin.submitted < admin.highWaterMark)

def remove [DecidableEq α] (admin : CategoryAdminType α) (entry : α) :
    CategoryAdminType α × Bool :=
  ({ admin with queue := admin.queue.erase entry }, decide (entry ∈ admin.queue))

/-- The result is true when the entry has to wait. -/
def submit (admin : CategoryAdminType α) (entry : α) : CategoryAdminType α × Bool :=
  if admin.submitted = admin.highWaterMark then
    ({ admin with queue := admin.queue ++ [entry] }, true)
  else ({ admin with submitted := (admin.submitted + 1) % 65536 }, false)

/-- The `Submit` of the dynamic variant. -/
def submitLoad (admin : CategoryAdminType α) (entry : α) (currentLoad : Nat) :
    CategoryAdminType α × Bool :=
  if admin.submitted = admin.highWaterMark ∨ admin.highWaterMark ≤ currentLoad then
    ({ admin with queue := admin.queue ++ [entry] }, true)
  else ({ admin with submitted := (admin.submitted + 1) % 65536 }, false)

/-- The first waiting entry; the code calls it only when there is one. -/
def extract (admin : CategoryAdminType α) : Option (α × CategoryAdminType α) :=
  match admin.queue with
  | [] => none
  | entry :: rest =>
    some (entry, { admin with queue := rest, submitted := (admin.submitted + 1) % 65536 })

def completed (admin : CategoryAdminType α) : CategoryAdminType α :=
  { admin with submitted := (admin.submitted + 65535) % 65536 }

def flush (admin : CategoryAdminType α) : CategoryAdminType α :=
  { admin with queue := [], submitted := 0 }

end CategoryAdminType

/-- `dynamic` is the template argument `DYNAMIC_THRESHOLD`. -/
structure CategoryQueueType (α : Type) where
  dynamic : Bool
  state : QueueState
  highWaterMark : Nat
  categories : Category → CategoryAdminType α
  queue : List (Category × α)
  inProcess : List (Category × α)

/-- How a section of `CategoryQueueType::Insert` ends; a deferred entry is in its category's deque
and its caller waits until it has left it. -/
inductive CategoryInserted
  | refused
  | posted
  | deferred
  | waits
  deriving DecidableEq, Repr

namespace CategoryQueueType

variable {α : Type}

/-- The marks of the three categories, as the constructor takes them. -/
structure Marks where
  low : Nat
  medium : Nat
  total : Nat
  low_pos : 0 < low
  medium_pos : 0 < medium
  total_pos : 0 < total
  low_narrow : low < 65536
  medium_narrow : medium < 65536
  total_narrow : total < 65536

def new (dynamic : Bool) (marks : Marks) : CategoryQueueType α where
  dynamic := dynamic
  state := .empty
  highWaterMark := marks.total
  categories
    | .high => .new marks.total marks.total_pos marks.total_narrow
    | .medium => .new marks.medium marks.medium_pos marks.medium_narrow
    | .low => .new marks.low marks.low_pos marks.low_narrow
  queue := []
  inProcess := []

def isEmpty (q : CategoryQueueType α) : Bool := q.queue.isEmpty

def isFull (q : CategoryQueueType α) : Bool :=
  q.highWaterMark ≤ q.queue.length + q.inProcess.length

/-- The flag of a queue that has just been filled. -/
def filled (q : CategoryQueueType α) : CategoryQueueType α :=
  { q with state := if q.isFull then .limited else .entries }

/-- The flag where an empty queue goes before a full one. -/
def refreshed (q : CategoryQueueType α) : CategoryQueueType α :=
  { q with state := if q.isEmpty then .empty else if q.isFull then .limited else .entries }

def setCategory (q : CategoryQueueType α) (type : Category) (admin : CategoryAdminType α) :
    CategoryQueueType α :=
  { q with categories := Function.update q.categories type admin }

def pushBack (q : CategoryQueueType α) (type : Category) (entry : α) : CategoryQueueType α :=
  { q with queue := q.queue ++ [(type, entry)] }

def remove [DecidableEq α] (q : CategoryQueueType α) (entry : α) : CategoryQueueType α × Bool :=
  if q.state = .disabled then (q, false)
  else
    match q.queue.find? (fun x => x.2 = entry) with
    | some _ =>
      let q' := { q with queue := q.queue.eraseP (fun x => x.2 = entry) }
      ({ q' with state := if q'.isEmpty then .empty else .entries }, true)
    | none =>
      match Category.all.find? (fun c => ((q.categories c).remove entry).2) with
      | some c => (q.setCategory c ((q.categories c).remove entry).1, true)
      | none => (q, false)

def post (q : CategoryQueueType α) (entry : α) (type : Category) : CategoryQueueType α × Bool :=
  if q.state = .disabled then (q, false)
  else
    match (q.categories type).submit entry with
    | (admin, true) => ((q.setCategory type admin).filled, true)
    | (admin, false) => (((q.setCategory type admin).pushBack type entry).filled, true)

def submit (q : CategoryQueueType α) (entry : α) (type : Category) : CategoryAdminType α × Bool :=
  if q.dynamic then (q.categories type).submitLoad entry (q.queue.length % 65536)
  else (q.categories type).submit entry

def insert (q : CategoryQueueType α) (entry : α) (type : Category) :
    CategoryQueueType α × CategoryInserted :=
  if q.state = .disabled then (q, .refused)
  else if q.state = .limited then (q, .waits)
  else
    match q.submit entry type with
    | (admin, true) => (q.setCategory type admin, .deferred)
    | (admin, false) => (((q.setCategory type admin).pushBack type entry).filled, .posted)

def extract (q : CategoryQueueType α) : CategoryQueueType α × Extracted α :=
  if q.state = .disabled then (q, .refused)
  else
    match q.queue with
    | [] => (q, .waits)
    | x :: rest =>
      ({ q with inProcess := q.inProcess ++ [x], queue := rest }.refreshed, .received x.2)

/-- Moves one waiting entry to the queue: of the first category that has one and room for it. -/
def promote (q : CategoryQueueType α) : CategoryQueueType α :=
  match Category.all.find? (fun c => (q.categories c).hasEntry) with
  | none => q
  | some c =>
    match (q.categories c).extract with
    | none => q
    | some (entry, admin) => (q.setCategory c admin).pushBack c entry

/-- A request that is not in process fails an assertion, and changes nothing in a release build. -/
def completion [DecidableEq α] (q : CategoryQueueType α) (request : α) : CategoryQueueType α :=
  match q.inProcess.find? (fun x => x.2 = request) with
  | none => q
  | some x =>
    let q' := { q.setCategory x.1 (q.categories x.1).completed with
      inProcess := q.inProcess.eraseP (fun x => x.2 = request) }
    if q.state = .disabled then q'.promote else q'.promote.refreshed

def enable (q : CategoryQueueType α) : CategoryQueueType α :=
  if q.state = .disabled then q.refreshed else q

def disable (q : CategoryQueueType α) : CategoryQueueType α := { q with state := .disabled }

def flush (q : CategoryQueueType α) : CategoryQueueType α :=
  { q with queue := [], categories := fun c => (q.categories c).flush }

/-- A section of one of the queue's operations; `timeOut` is the end of the wait of a deferred
`Insert` whose time is up, which then returns false. -/
inductive Op (α : Type)
  | post (entry : α) (type : Category)
  | insert (entry : α) (type : Category)
  | timeOut (entry : α) (type : Category)
  | extract
  | remove (entry : α)
  | completion (request : α)
  | enable
  | disable
  | flush
  deriving DecidableEq, Repr

def step [DecidableEq α] (q : CategoryQueueType α) : Op α → CategoryQueueType α
  | .post entry type => (q.post entry type).1
  | .insert entry type => (q.insert entry type).1
  | .timeOut _ _ => q
  | .extract => q.extract.1
  | .remove entry => (q.remove entry).1
  | .completion request => q.completion request
  | .enable => q.enable
  | .disable => q.disable
  | .flush => q.flush

/-! ### The moves of an entry

An operation is a test of the flags and one of these moves, or two for a completion. -/

/-- The entries of one category, in their order. -/
def ofCategory (c : Category) (l : List (Category × α)) : List α :=
  (l.filter (fun x => x.1 = c)).map Prod.snd

@[simp] theorem ofCategory_nil (c : Category) : ofCategory c ([] : List (Category × α)) = [] := rfl

@[simp] theorem ofCategory_append (c : Category) (l l' : List (Category × α)) :
    ofCategory c (l ++ l') = ofCategory c l ++ ofCategory c l' := by
  simp [ofCategory]

theorem ofCategory_cons (c : Category) (x : Category × α) (l : List (Category × α)) :
    ofCategory c (x :: l) = if x.1 = c then x.2 :: ofCategory c l else ofCategory c l := by
  by_cases h : x.1 = c <;> simp [ofCategory, h]

theorem find_split {β : Type*} {p : β → Bool} {l : List β} {x : β} (h : l.find? p = some x) :
    p x = true ∧ ∃ l₁ l₂, l = l₁ ++ x :: l₂ ∧ l.eraseP p = l₁ ++ l₂ := by
  obtain ⟨hx, l₁, l₂, rfl, hnone⟩ := List.find?_eq_some_iff_append.mp h
  refine ⟨hx, l₁, l₂, rfl, ?_⟩
  rw [List.eraseP_append_right _ (by simpa using hnone), List.eraseP_cons_of_pos hx]

/-- Whether a section of `Insert` defers an entry of the category. -/
def Defers (q : CategoryQueueType α) (type : Category) : Prop :=
  (q.categories type).submitted = (q.categories type).highWaterMark ∨
    (q.dynamic = true ∧ (q.categories type).highWaterMark ≤ q.queue.length % 65536)

instance (q : CategoryQueueType α) (type : Category) : Decidable (q.Defers type) :=
  inferInstanceAs (Decidable (_ ∨ _))

/-- An entry joins the deque of its category. -/
def defer (q : CategoryQueueType α) (type : Category) (entry : α) : CategoryQueueType α :=
  q.setCategory type
    { q.categories type with queue := (q.categories type).queue ++ [entry] }

/-- An entry takes a slot of its category and joins the queue. -/
def enter (q : CategoryQueueType α) (type : Category) (entry : α) : CategoryQueueType α :=
  (q.setCategory type
    { q.categories type with submitted := ((q.categories type).submitted + 1) % 65536 }).pushBack
      type entry

/-- The first waiting entry of a category takes a slot and joins the queue. -/
def raise (q : CategoryQueueType α) (type : Category) (entry : α) (rest : List α) :
    CategoryQueueType α :=
  (q.setCategory type
    { q.categories type with
      queue := rest, submitted := ((q.categories type).submitted + 1) % 65536 }).pushBack type entry

/-- The first entry in process that is equal to `request` gives its slot back. -/
def release [DecidableEq α] (q : CategoryQueueType α) (type : Category) (request : α) :
    CategoryQueueType α :=
  { q.setCategory type (q.categories type).completed with
    inProcess := q.inProcess.eraseP (fun x => x.2 = request) }

theorem post_eq (q : CategoryQueueType α) (entry : α) (type : Category) :
    q.post entry type =
      if q.state = .disabled then (q, false)
      else if (q.categories type).submitted = (q.categories type).highWaterMark then
        ((q.defer type entry).filled, true)
      else ((q.enter type entry).filled, true) := by
  simp only [post, CategoryAdminType.submit, defer, enter]
  split_ifs <;> rfl

theorem insert_eq (q : CategoryQueueType α) (entry : α) (type : Category) :
    q.insert entry type =
      if q.state = .disabled then (q, .refused)
      else if q.state = .limited then (q, .waits)
      else if q.Defers type then (q.defer type entry, .deferred)
      else ((q.enter type entry).filled, .posted) := by
  have hsubmit : q.submit entry type =
      if q.Defers type then
        ({ q.categories type with queue := (q.categories type).queue ++ [entry] }, true)
      else ({ q.categories type with
        submitted := ((q.categories type).submitted + 1) % 65536 }, false) := by
    cases hdyn : q.dynamic <;>
      simp [submit, hdyn, Defers, CategoryAdminType.submit, CategoryAdminType.submitLoad]
  simp only [insert, hsubmit, defer, enter]
  split_ifs <;> rfl

/-- What `promote` does: one entry is raised unless no category has an entry and room. -/
theorem promote_cases (q : CategoryQueueType α) :
    (q.promote = q ∧ ∀ c, (q.categories c).queue ≠ [] →
      (q.categories c).highWaterMark ≤ (q.categories c).submitted) ∨
    ∃ c entry rest, (q.categories c).queue = entry :: rest ∧
      (q.categories c).submitted < (q.categories c).highWaterMark ∧
      q.promote = q.raise c entry rest := by
  cases hfind : Category.all.find? (fun c => (q.categories c).hasEntry) with
  | none =>
    refine .inl ⟨by simp only [promote, hfind], fun c hne => ?_⟩
    have hnone := List.find?_eq_none.mp hfind c (Category.mem_all c)
    simpa [CategoryAdminType.hasEntry, hne] using hnone
  | some c =>
    have hhas := List.find?_some hfind
    simp only [CategoryAdminType.hasEntry, Bool.and_eq_true, decide_eq_true_eq] at hhas
    obtain ⟨hne, hroom⟩ := hhas
    cases hqueue : (q.categories c).queue with
    | nil => simp [hqueue] at hne
    | cons entry rest =>
      exact .inr ⟨c, entry, rest, hqueue, hroom, by
        simp only [promote, hfind, CategoryAdminType.extract, hqueue, raise]⟩

/-- The entry that `remove` takes from the queue. -/
def removesQueued [DecidableEq α] (q : CategoryQueueType α) (entry : α) : Option (Category × α) :=
  if q.state = .disabled then none else q.queue.find? (fun x => x.2 = entry)

/-- The category whose deque `remove` takes the entry from. -/
def removesWaiting [DecidableEq α] (q : CategoryQueueType α) (entry : α) : Option Category :=
  if q.state = .disabled ∨ (q.removesQueued entry).isSome then none
  else Category.all.find? (fun c => ((q.categories c).remove entry).2)

/-- A waiting entry leaves the deque of its category. -/
def dropWaiting [DecidableEq α] (q : CategoryQueueType α) (type : Category) (entry : α) :
    CategoryQueueType α :=
  q.setCategory type
    { q.categories type with queue := (q.categories type).queue.erase entry }

theorem remove_queued [DecidableEq α] {q : CategoryQueueType α} {entry : α} {x : Category × α}
    (h : q.removesQueued entry = some x) :
    x.2 = entry ∧ ∃ l₁ l₂ state, q.queue = l₁ ++ x :: l₂ ∧
      q.remove entry = ({ q with queue := l₁ ++ l₂, state := state }, true) := by
  by_cases hdis : q.state = .disabled
  · simp [removesQueued, hdis] at h
  simp only [removesQueued, hdis, if_false] at h
  obtain ⟨hx, l₁, l₂, hqueue, herase⟩ := find_split h
  refine ⟨by simpa using hx, l₁, l₂, if (l₁ ++ l₂).isEmpty then .empty else .entries, hqueue, ?_⟩
  simp only [remove, hdis, if_false, h, herase, isEmpty]

theorem remove_waiting [DecidableEq α] {q : CategoryQueueType α} {entry : α} {c : Category}
    (h : q.removesWaiting entry = some c) :
    entry ∈ (q.categories c).queue ∧ q.remove entry = (q.dropWaiting c entry, true) := by
  by_cases hdis : q.state = .disabled
  · simp [removesWaiting, hdis] at h
  cases hqueued : q.queue.find? (fun x => x.2 = entry) with
  | some x => simp [removesWaiting, removesQueued, hdis, hqueued] at h
  | none =>
    simp only [removesWaiting, removesQueued, hdis, if_false, hqueued, Option.isSome_none,
      Bool.false_eq_true, or_self] at h
    have hmem := List.find?_some h
    refine ⟨by simpa [CategoryAdminType.remove] using hmem, ?_⟩
    simp only [remove, hdis, if_false, hqueued, h]
    rfl

theorem remove_nothing [DecidableEq α] {q : CategoryQueueType α} {entry : α}
    (hqueued : q.removesQueued entry = none) (hwaiting : q.removesWaiting entry = none) :
    q.remove entry = (q, false) := by
  by_cases hdis : q.state = .disabled
  · simp [remove, hdis]
  simp only [removesQueued, hdis, if_false] at hqueued
  simp only [removesWaiting, removesQueued, hdis, if_false, hqueued, Option.isSome_none,
    Bool.false_eq_true, or_self] at hwaiting
  simp only [remove, hdis, if_false, hqueued, hwaiting]

/-! ### The books of the categories -/

/-- The entries of a category in the queue and in process. -/
def load (q : CategoryQueueType α) (c : Category) : Nat :=
  (ofCategory c q.queue).length + (ofCategory c q.inProcess).length

/-- Each counter is the load of its category and the slots that were lost, within the mark. -/
def Books (q : CategoryQueueType α) (lost : Category → Nat) : Prop :=
  ∀ c, (q.categories c).submitted = q.load c + lost c ∧
    (q.categories c).submitted ≤ (q.categories c).highWaterMark

/-- Each counter is the load of its category, and at most its mark. -/
def Accounted (q : CategoryQueueType α) : Prop :=
  ∀ c, (q.categories c).submitted = q.load c ∧
    (q.categories c).submitted ≤ (q.categories c).highWaterMark

/-- The operation neither takes an entry from the queue nor clears the counters of entries in
process. -/
def KeepsSlots (q : CategoryQueueType α) : Op α → Prop
  | .remove entry => q.state = .disabled ∨ ∀ x ∈ q.queue, x.2 ≠ entry
  | .flush => q.inProcess = []
  | _ => True

/-- The slot that an operation loses: `Remove` takes the entry from the queue and leaves the
counter. -/
def loses [DecidableEq α] (q : CategoryQueueType α) : Op α → Category → Nat
  | .remove entry, c =>
    match q.removesQueued entry with
    | some x => if x.1 = c then 1 else 0
    | none => 0
  | _, _ => 0

variable {q : CategoryQueueType α} {lost : Category → Nat}

theorem Books.filled (h : q.Books lost) : q.filled.Books lost := h

theorem Books.refreshed (h : q.Books lost) : q.refreshed.Books lost := h

theorem Books.defer (h : q.Books lost) (type : Category) (entry : α) :
    (q.defer type entry).Books lost := by
  intro c
  by_cases hc : c = type
  · subst hc
    simpa [CategoryQueueType.defer, setCategory, load] using h c
  · simpa [CategoryQueueType.defer, setCategory, load, hc] using h c

theorem Books.dropWaiting [DecidableEq α] (h : q.Books lost) (type : Category) (entry : α) :
    (q.dropWaiting type entry).Books lost := by
  intro c
  by_cases hc : c = type
  · subst hc
    simpa [CategoryQueueType.dropWaiting, setCategory, load] using h c
  · simpa [CategoryQueueType.dropWaiting, setCategory, load, hc] using h c

/-- Both ways into the queue take a slot of a category that has one left. -/
theorem Books.enters (h : q.Books lost) {type : Category} {admin : CategoryAdminType α} {entry : α}
    (hroom : (q.categories type).submitted < (q.categories type).highWaterMark)
    (hmark : admin.highWaterMark = (q.categories type).highWaterMark)
    (hsub : admin.submitted = ((q.categories type).submitted + 1) % 65536) :
    ((q.setCategory type admin).pushBack type entry).Books lost := by
  have hnarrow := (q.categories type).narrow
  intro c
  obtain ⟨hload, hle⟩ := h c
  by_cases hc : c = type
  · subst hc
    simp only [setCategory, pushBack, Function.update_self, load, ofCategory_append,
      List.length_append, ofCategory_cons, ofCategory_nil, if_true, List.length_cons,
      List.length_nil] at hload ⊢
    omega
  · simpa [setCategory, pushBack, load, hc, ofCategory_cons, Ne.symm hc] using ⟨hload, hle⟩

theorem Books.lt_mark (h : q.Books lost) {type : Category}
    (hne : (q.categories type).submitted ≠ (q.categories type).highWaterMark) :
    (q.categories type).submitted < (q.categories type).highWaterMark :=
  Nat.lt_of_le_of_ne (h type).2 hne

theorem Books.enter (h : q.Books lost) {type : Category} (entry : α)
    (hne : (q.categories type).submitted ≠ (q.categories type).highWaterMark) :
    (q.enter type entry).Books lost :=
  h.enters (h.lt_mark hne) rfl rfl

theorem Books.promote (h : q.Books lost) : q.promote.Books lost := by
  obtain ⟨heq, -⟩ | ⟨c, entry, rest, -, hroom, heq⟩ := q.promote_cases
  · rwa [heq]
  · rw [heq]
    exact h.enters hroom rfl rfl

theorem Books.take (h : q.Books lost) {x : Category × α} {rest : List (Category × α)}
    (hqueue : q.queue = x :: rest) :
    ({ q with inProcess := q.inProcess ++ [x], queue := rest } : CategoryQueueType α).Books
      lost := by
  intro c
  obtain ⟨hload, hle⟩ := h c
  refine ⟨?_, hle⟩
  rw [hload]
  by_cases hc : x.1 = c <;> simp [load, hqueue, ofCategory_cons, hc]
  omega

theorem Books.release [DecidableEq α] (h : q.Books lost) {request : α} {x : Category × α}
    (hfind : q.inProcess.find? (fun x => x.2 = request) = some x) :
    (q.release x.1 request).Books lost := by
  obtain ⟨-, l₁, l₂, hsplit, herase⟩ := find_split hfind
  have hnarrow := (q.categories x.1).narrow
  intro c
  obtain ⟨hload, hle⟩ := h c
  by_cases hc : x.1 = c
  · subst hc
    simp only [load, hsplit, ofCategory_append, List.length_append, ofCategory_cons, if_true,
      List.length_cons] at hload
    simp only [CategoryQueueType.release, setCategory, load, herase, Function.update_self,
      CategoryAdminType.completed, ofCategory_append, List.length_append]
    omega
  · simp only [load, hsplit, ofCategory_append, List.length_append, ofCategory_cons, hc,
      if_false] at hload
    simpa [CategoryQueueType.release, setCategory, load, herase, Ne.symm hc] using ⟨hload, hle⟩

theorem completion_eq [DecidableEq α] (q : CategoryQueueType α) (request : α) :
    q.completion request = q ∨
    ∃ x, q.inProcess.find? (fun x => x.2 = request) = some x ∧
      (q.completion request = (q.release x.1 request).promote ∨
        q.completion request = (q.release x.1 request).promote.refreshed) := by
  cases hfind : q.inProcess.find? (fun x => x.2 = request) with
  | none => exact .inl (by simp only [completion, hfind])
  | some x =>
    refine .inr ⟨x, rfl, ?_⟩
    by_cases hdis : q.state = .disabled
    · exact .inl (by simp only [completion, hfind, hdis, if_true, release])
    · exact .inr (by simp only [completion, hfind, hdis, if_false, release])

theorem Books.remove [DecidableEq α] (h : q.Books lost) (entry : α) :
    (q.remove entry).1.Books (fun c => lost c + q.loses (.remove entry) c) := by
  cases hqueued : q.removesQueued entry with
  | some x =>
    obtain ⟨-, l₁, l₂, state, hqueue, heq⟩ := remove_queued hqueued
    rw [heq]
    intro c
    obtain ⟨hload, hle⟩ := h c
    refine ⟨?_, hle⟩
    rw [hload]
    by_cases hc : x.1 = c <;> simp [load, hqueue, ofCategory_cons, loses, hqueued, hc]
    omega
  | none =>
    simp only [loses, hqueued, Nat.add_zero]
    cases hwaiting : q.removesWaiting entry with
    | some c =>
      rw [(remove_waiting hwaiting).2]
      exact h.dropWaiting c entry
    | none => rwa [remove_nothing hqueued hwaiting]

/-- The step lemma: only `Remove` loses slots. -/
theorem Books.step [DecidableEq α] (h : q.Books lost) {op : Op α} (hop : op ≠ .flush) :
    (q.step op).Books (fun c => lost c + q.loses op c) := by
  cases op with
  | post entry type =>
    simp only [CategoryQueueType.step, post_eq]
    split_ifs with _ hfull
    · exact h
    · exact (h.defer type entry).filled
    · exact (h.enter entry hfull).filled
  | insert entry type =>
    simp only [CategoryQueueType.step, insert_eq]
    split_ifs with _ _ hdefers
    · exact h
    · exact h
    · exact h.defer type entry
    · exact (h.enter entry (fun hfull => hdefers (.inl hfull))).filled
  | timeOut entry type => exact h
  | extract =>
    simp only [CategoryQueueType.step, extract]
    split_ifs
    · exact h
    · split
      · exact h
      · next hqueue => exact (h.take hqueue).refreshed
  | remove entry => exact h.remove entry
  | completion request =>
    simp only [CategoryQueueType.step]
    obtain heq | ⟨x, hfind, heq | heq⟩ := q.completion_eq request <;> rw [heq]
    · exact h
    · exact (h.release hfind).promote
    · exact (h.release hfind).promote.refreshed
  | enable =>
    simp only [CategoryQueueType.step, enable]
    split_ifs
    · exact h.refreshed
    · exact h
  | disable => exact h
  | flush => exact absurd rfl hop

theorem accounted_iff_books : q.Accounted ↔ q.Books fun _ => 0 := Iff.rfl

theorem Books.unique {lost' : Category → Nat} (h : q.Books lost) (h' : q.Books lost') :
    lost = lost' := by
  funext c
  have := (h c).1
  have := (h' c).1
  omega

theorem books_new (dynamic : Bool) (marks : Marks) :
    (new dynamic marks : CategoryQueueType α).Books fun _ => 0 := by
  intro c
  cases c <;> exact ⟨rfl, Nat.zero_le _⟩

theorem removesQueued_eq_none [DecidableEq α] {entry : α} :
    q.removesQueued entry = none ↔ q.KeepsSlots (.remove entry) := by
  by_cases hdis : q.state = .disabled <;>
    simp [removesQueued, KeepsSlots, hdis, List.find?_eq_none]

theorem loses_eq_zero [DecidableEq α] {op : Op α} (hop : op ≠ .flush) :
    q.loses op = (fun _ => 0) ↔ q.KeepsSlots op := by
  cases op with
  | remove entry =>
    rw [← removesQueued_eq_none]
    cases hqueued : q.removesQueued entry with
    | none => simp [funext_iff, loses, hqueued]
    | some x =>
      simp only [funext_iff, loses, hqueued, reduceCtorEq, iff_false]
      intro h
      simpa using h x.1
  | flush => exact absurd rfl hop
  | _ => simp [funext_iff, loses, KeepsSlots]

theorem accounted_flush : q.flush.Accounted ↔ q.KeepsSlots .flush := by
  have hload : ∀ c, q.flush.load c = (ofCategory c q.inProcess).length := by
    intro c
    simp [flush, load]
  constructor
  · intro h'
    refine List.eq_nil_iff_forall_not_mem.mpr fun x hx => ?_
    have hzero : 0 = q.flush.load x.1 := (h' x.1).1
    have hmem : x.2 ∈ ofCategory x.1 q.inProcess := by
      simpa [ofCategory] using hx
    have hpos := List.length_pos_of_mem hmem
    rw [hload] at hzero
    omega
  · intro hnone c
    rw [hload, hnone]
    exact ⟨rfl, Nat.zero_le _⟩

/-- An operation keeps the counters right exactly when it keeps the slots. -/
theorem accounted_step [DecidableEq α] (q : CategoryQueueType α) (op : Op α) (h : q.Accounted) :
    (q.step op).Accounted ↔ q.KeepsSlots op := by
  by_cases hop : op = .flush
  · subst hop
    exact accounted_flush
  · have hbooks := Books.step (accounted_iff_books.mp h) hop
    simp only [Nat.zero_add] at hbooks
    rw [← loses_eq_zero hop]
    constructor
    · intro h'
      exact hbooks.unique h'
    · intro hnone
      rwa [hnone] at hbooks

/-- Over any run from a new queue, the counters are right in every state exactly when no `Remove`
takes an entry from the queue and no `Flush` finds an entry in process. -/
theorem accounted_iff_keepsSlots [DecidableEq α] (dynamic : Bool) (marks : Marks)
    (ops : List (Op α)) :
    Always step Accounted (new dynamic marks) ops ↔ Meets step KeepsSlots (new dynamic marks) ops :=
  always_iff_meets accounted_step (books_new dynamic marks)

/-- One slot for each category. -/
def Marks.one : Marks :=
  ⟨1, 1, 1, by decide, by decide, by decide, by decide, by decide, by decide⟩

/-- The counter of a category keeps the slot of an entry that was removed from the queue. -/
theorem unaccounted_remove :
    ¬ Always step Accounted (new false Marks.one : CategoryQueueType Nat)
      [.post 7 .low, .remove 7] := by
  rintro ⟨-, -, h⟩
  exact absurd (h .low).1 (by decide)

end CategoryQueueType

end Thunder.Core
