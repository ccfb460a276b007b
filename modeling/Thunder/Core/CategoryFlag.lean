import Thunder.Core.CategoryQueue

/-! The flag of a `CategoryQueueType`, which workers wait for.  Every operation sets it by the
queue it leaves but for `Post`, which takes an entry into the deque of its category and still sets
the flag of a queue that has entries. -/

namespace Thunder.Core.CategoryQueueType

open Run

variable {α : Type} {q : CategoryQueueType α}

/-- The flag of an enabled queue says whether it is empty, and a worker that `ENTRIES` or `LIMITED`
wakes finds an entry. -/
structure Truthful (q : CategoryQueueType α) : Prop where
  flag : q.state ≠ .disabled → (q.state = .empty ↔ q.queue = [])
  woken : q.state = .entries ∨ q.state = .limited → q.extract.2 ≠ .waits

/-- `Post` does not defer an entry while the queue is empty, and `Flush` is called as it asserts, on
a disabled queue, or there is nothing in the queue to clear. -/
def KeepsFlag (q : CategoryQueueType α) : Op α → Prop
  | .post _ type => q.state ≠ .disabled →
      (q.categories type).submitted = (q.categories type).highWaterMark → q.queue ≠ []
  | .flush => q.state ≠ .disabled → q.queue = []
  | _ => True

theorem truthful_of_flag (h : q.state ≠ .disabled → (q.state = .empty ↔ q.queue = [])) :
    q.Truthful := by
  refine ⟨h, fun hset => ?_⟩
  have hdis : q.state ≠ .disabled := by
    rcases hset with hset | hset <;> rw [hset] <;> decide
  have hne : q.queue ≠ [] := by
    intro hnil
    rcases hset with hset | hset <;> exact absurd ((h hdis).mpr hnil) (by rw [hset]; decide)
  obtain ⟨x, rest, hqueue⟩ := List.exists_cons_of_ne_nil hne
  simp only [extract, if_neg hdis, hqueue]
  rintro ⟨⟩

theorem truthful_of_disabled (h : q.state = .disabled) : q.Truthful :=
  truthful_of_flag fun hdis => absurd h hdis

theorem truthful_refreshed (q : CategoryQueueType α) : q.refreshed.Truthful := by
  refine truthful_of_flag fun _ => ?_
  cases hqueue : q.queue with
  | nil => simp [refreshed, isEmpty, hqueue]
  | cons x rest => cases hfull : q.isFull <;> simp [refreshed, isEmpty, hqueue, hfull]

/-- The flag of a queue that has just been filled is right when there is an entry in it. -/
theorem truthful_filled : q.filled.Truthful ↔ q.queue ≠ [] := by
  have hstate : q.filled.state ≠ .disabled ∧ q.filled.state ≠ .empty := by
    cases hfull : q.isFull <;> simp [filled, hfull]
  constructor
  · intro h hnil
    exact hstate.2 ((h.flag hstate.1).mpr hnil)
  · intro hne
    exact truthful_of_flag fun _ => ⟨fun h => absurd h hstate.2, fun h => absurd h hne⟩

theorem queue_enter (q : CategoryQueueType α) (type : Category) (entry : α) :
    (q.enter type entry).queue ≠ [] := by
  simp [enter, pushBack]

theorem truthful_post (h : q.Truthful) (entry : α) (type : Category) :
    (q.post entry type).1.Truthful ↔ q.KeepsFlag (.post entry type) := by
  rw [post_eq, KeepsFlag]
  split_ifs with hdis hmark
  · exact ⟨fun _ hen => absurd hdis hen, fun _ => h⟩
  · rw [truthful_filled]
    exact ⟨fun hne _ _ => hne, fun hok => hok hdis hmark⟩
  · exact ⟨fun _ _ hfull => absurd hfull hmark,
      fun _ => truthful_filled.mpr (queue_enter q type entry)⟩

theorem Truthful.insert (h : q.Truthful) (entry : α) (type : Category) :
    (q.insert entry type).1.Truthful := by
  rw [insert_eq]
  split_ifs
  · exact h
  · exact h
  · exact truthful_of_flag h.flag
  · exact truthful_filled.mpr (queue_enter q type entry)

theorem Truthful.extract (h : q.Truthful) : q.extract.1.Truthful := by
  rw [CategoryQueueType.extract]
  split_ifs
  · exact h
  · split
    · exact h
    · exact truthful_refreshed _

theorem truthful_flush (h : q.Truthful) : q.flush.Truthful ↔ q.KeepsFlag .flush := by
  constructor
  · intro hflush hdis
    exact (h.flag hdis).mp ((hflush.flag hdis).mpr rfl)
  · intro hok
    refine truthful_of_flag fun hdis => ?_
    rw [show q.flush.state = q.state from rfl, h.flag hdis]
    exact ⟨fun _ => rfl, fun _ => hok hdis⟩

section Steps

variable [DecidableEq α]

theorem Truthful.remove (h : q.Truthful) (entry : α) : (q.remove entry).1.Truthful := by
  by_cases hdis : q.state = .disabled
  · rw [CategoryQueueType.remove, if_pos hdis]
    exact h
  · cases hqueued : q.queue.find? (fun x => x.2 = entry) with
    | some x =>
      have heq : (q.remove entry).1 =
          { q with
            queue := q.queue.eraseP (fun x => x.2 = entry)
            state := if (q.queue.eraseP (fun x => x.2 = entry)).isEmpty then .empty
              else .entries } := by
        simp only [CategoryQueueType.remove, if_neg hdis, hqueued]
        rfl
      rw [heq]
      refine truthful_of_flag fun _ => ?_
      cases q.queue.eraseP (fun x => x.2 = entry) with
      | nil => simp
      | cons y rest => simp
    | none =>
      have hremoves : q.removesQueued entry = none := by rw [removesQueued, if_neg hdis, hqueued]
      cases hwaiting : q.removesWaiting entry with
      | some c =>
        rw [(remove_waiting hwaiting).2]
        exact truthful_of_flag h.flag
      | none => rwa [remove_nothing hremoves hwaiting]

theorem Truthful.completion (h : q.Truthful) (request : α) : (q.completion request).Truthful := by
  rw [CategoryQueueType.completion]
  split
  · exact h
  · split_ifs with hdis
    · refine truthful_of_disabled ?_
      obtain ⟨heq, -⟩ | ⟨c, entry, rest, -, -, heq⟩ := promote_cases _
      · rw [heq]
        exact hdis
      · rw [heq]
        exact hdis
    · exact truthful_refreshed _

/-- The step lemma: an operation keeps the flag right exactly when it meets the condition. -/
theorem truthful_step (q : CategoryQueueType α) (op : Op α) (h : q.Truthful) :
    (q.step op).Truthful ↔ q.KeepsFlag op := by
  cases op with
  | post entry type => exact truthful_post h entry type
  | insert entry type => exact ⟨fun _ => trivial, fun _ => h.insert entry type⟩
  | timeOut entry type => exact ⟨fun _ => trivial, fun _ => h⟩
  | extract => exact ⟨fun _ => trivial, fun _ => h.extract⟩
  | remove entry => exact ⟨fun _ => trivial, fun _ => h.remove entry⟩
  | completion request => exact ⟨fun _ => trivial, fun _ => h.completion request⟩
  | enable =>
    refine ⟨fun _ => trivial, fun _ => ?_⟩
    simp only [step, enable]
    split_ifs
    · exact truthful_refreshed q
    · exact h
  | disable => exact ⟨fun _ => trivial, fun _ => truthful_of_disabled rfl⟩
  | flush => exact truthful_flush h

/-- Over any run from a new queue, the flag is right in every state exactly when no `Post` defers
its entry while the queue is empty, and no `Flush` clears the queue while it is enabled. -/
theorem truthful_iff_keepsFlag (dynamic : Bool) (marks : Marks) (ops : List (Op α)) :
    Always step Truthful (new dynamic marks) ops ↔ Meets step KeepsFlag (new dynamic marks) ops :=
  always_iff_meets truthful_step (truthful_of_flag fun _ => ⟨fun _ => rfl, fun _ => rfl⟩)

end Steps

/-- A low entry behind one in process; a worker that asks for the next one is woken at once, and
finds none. -/
theorem not_truthful_deferred :
    ¬ Always step Truthful (new false Marks.one : CategoryQueueType Nat)
      [.post 7 .low, .extract, .post 8 .low] := by
  rintro ⟨-, -, -, h⟩
  exact absurd (h.flag (by decide)) (by decide)

end Thunder.Core.CategoryQueueType
