import Thunder.Core.CategoryQueue

/-! A call of `CategoryQueueType::Insert` among the operations of other threads.  Entries of the
queue carry a tag that is true for the entry of this call alone; the queue compares entries without
it.  A deferred call waits until an equal entry is no longer in the deque of the category, or its
time is up; it leaves its entry there when it times out, and takes an entry that was removed for one
that was handed to the queue. -/

namespace Thunder.Core.CategoryQueueType

open Run

variable {α : Type}

/-! ### Where an entry is -/

section Holds

variable {q : CategoryQueueType α} {t : α}

/-- The entry is in the queue, in process or in the deque of a category. -/
def Holds (q : CategoryQueueType α) (t : α) : Prop :=
  t ∈ q.queue.map Prod.snd ∨ t ∈ q.inProcess.map Prod.snd ∨ ∃ c, t ∈ (q.categories c).queue

/-- An operation submits the entry. -/
def Submits (t : α) : Op α → Prop
  | .post entry _ => entry = t
  | .insert entry _ => entry = t
  | _ => False

theorem holds_setCategory {type : Category} {admin : CategoryAdminType α}
    (h : (q.setCategory type admin).Holds t) : q.Holds t ∨ t ∈ admin.queue := by
  rcases h with h | h | ⟨c, h⟩
  · exact .inl (.inl h)
  · exact .inl (.inr (.inl h))
  · by_cases hc : c = type
    · subst hc
      exact .inr (by simpa [setCategory] using h)
    · exact .inl (.inr (.inr ⟨c, by simpa [setCategory, hc] using h⟩))

theorem holds_pushBack {type : Category} {entry : α} (h : (q.pushBack type entry).Holds t) :
    q.Holds t ∨ entry = t := by
  rcases h with h | h
  · simp only [pushBack, List.map_append, List.map_cons, List.map_nil, List.mem_append,
      List.mem_singleton] at h
    exact h.imp .inl Eq.symm
  · exact .inl (.inr h)

theorem holds_defer {type : Category} {entry : α} (h : (q.defer type entry).Holds t) :
    q.Holds t ∨ entry = t := by
  rcases holds_setCategory h with h | h
  · exact .inl h
  · rcases List.mem_append.mp h with h | h
    · exact .inl (.inr (.inr ⟨type, h⟩))
    · exact .inr (List.mem_singleton.mp h).symm

theorem holds_enter {type : Category} {entry : α} (h : (q.enter type entry).Holds t) :
    q.Holds t ∨ entry = t := by
  rcases holds_pushBack h with h | h
  · rcases holds_setCategory h with h | h
    · exact .inl h
    · exact .inl (.inr (.inr ⟨type, h⟩))
  · exact .inr h

theorem holds_promote (h : q.promote.Holds t) : q.Holds t := by
  obtain ⟨heq, -⟩ | ⟨c, entry, rest, hqueue, -, heq⟩ := q.promote_cases
  · rwa [heq] at h
  · rw [heq] at h
    have hdeque : ∀ x ∈ entry :: rest, q.Holds x :=
      fun x hx => .inr (.inr ⟨c, by rwa [hqueue]⟩)
    rcases holds_pushBack h with h | rfl
    · rcases holds_setCategory h with h | h
      · exact h
      · exact hdeque t (List.mem_cons_of_mem _ h)
    · exact hdeque entry List.mem_cons_self

theorem holds_extract (h : q.extract.1.Holds t) : q.Holds t := by
  rw [extract] at h
  split_ifs at h
  · exact h
  · split at h
    · exact h
    · next x rest hqueue =>
      rcases h with h | h | h
      · exact .inl (by
          rw [hqueue]
          exact List.mem_cons_of_mem _ h)
      · have hmem : t ∈ (q.inProcess ++ [x]).map Prod.snd := h
        rw [List.map_append, List.mem_append] at hmem
        rcases hmem with hmem | hmem
        · exact .inr (.inl hmem)
        · exact .inl (by
            rw [hqueue, List.map_cons, List.mem_singleton.mp hmem]
            exact List.mem_cons_self)
      · exact .inr (.inr h)

variable [DecidableEq α]

theorem holds_remove {entry : α} (h : (q.remove entry).1.Holds t) : q.Holds t := by
  cases hqueued : q.removesQueued entry with
  | some x =>
    obtain ⟨-, l₁, l₂, state, hqueue, heq⟩ := remove_queued hqueued
    rw [heq] at h
    rcases h with h | h
    · refine .inl ?_
      rw [hqueue]
      simp only [List.map_append, List.map_cons, List.mem_append, List.mem_cons] at h ⊢
      exact h.imp id .inr
    · exact .inr h
  | none =>
    cases hwaiting : q.removesWaiting entry with
    | some c =>
      rw [(remove_waiting hwaiting).2] at h
      rcases holds_setCategory h with h | h
      · exact h
      · exact .inr (.inr ⟨c, List.mem_of_mem_erase h⟩)
    | none => rwa [remove_nothing hqueued hwaiting] at h

theorem holds_completion {request : α} (h : (q.completion request).Holds t) : q.Holds t := by
  have hrelease : ∀ x : Category × α,
      (q.release x.1 request).Holds t → q.Holds t := by
    rintro x (h | h | ⟨c, h⟩)
    · exact .inl h
    · obtain ⟨y, hy, rfl⟩ := List.mem_map.mp h
      exact .inr (.inl (List.mem_map_of_mem (List.mem_of_mem_eraseP hy)))
    · by_cases hc : c = x.1
      · subst hc
        exact .inr (.inr ⟨x.1, by
          simpa [release, setCategory, CategoryAdminType.completed] using h⟩)
      · exact .inr (.inr ⟨c, by simpa [release, setCategory, hc] using h⟩)
  obtain heq | ⟨x, -, heq | heq⟩ := q.completion_eq request <;> rw [heq] at h
  · exact h
  · exact hrelease x (holds_promote h)
  · exact hrelease x (holds_promote h)

/-- An operation brings in no entry but the one that it submits. -/
theorem holds_step {op : Op α} (h : (q.step op).Holds t) : q.Holds t ∨ Submits t op := by
  cases op with
  | post entry type =>
    simp only [step, post_eq] at h
    split_ifs at h
    · exact .inl h
    · exact holds_defer h
    · exact holds_enter h
  | insert entry type =>
    simp only [step, insert_eq] at h
    split_ifs at h
    · exact .inl h
    · exact .inl h
    · exact holds_defer h
    · exact holds_enter h
  | timeOut entry type => exact .inl h
  | extract => exact .inl (holds_extract h)
  | remove entry => exact .inl (holds_remove h)
  | completion request => exact .inl (holds_completion h)
  | enable =>
    simp only [step, enable] at h
    split_ifs at h
    · exact .inl h
    · exact .inl h
  | disable => exact .inl h
  | flush =>
    rcases h with h | h | ⟨c, h⟩
    · cases h
    · exact .inl (.inr (.inl h))
    · cases h

end Holds

/-! ### How an entry leaves the deque of its category -/

section Waits

variable {q : CategoryQueueType α} {t : α} {c : Category}

/-- The entry is in the deque of the category, or it was handed to the queue. -/
def WaitsOrQueued (q : CategoryQueueType α) (t : α) (c : Category) : Prop :=
  t ∈ (q.categories c).queue ∨ t ∈ q.queue.map Prod.snd

theorem waits_setCategory {type : Category} {admin : CategoryAdminType α}
    (h : t ∈ (q.categories c).queue) (hsub : ∀ x ∈ (q.categories type).queue, x ∈ admin.queue) :
    t ∈ ((q.setCategory type admin).categories c).queue := by
  by_cases hc : c = type
  · subst hc
    simpa [setCategory] using hsub t h
  · simpa [setCategory, hc] using h

theorem waitsOrQueued_promote (h : t ∈ (q.categories c).queue) : q.promote.WaitsOrQueued t c := by
  obtain ⟨heq, -⟩ | ⟨c', entry, rest, hqueue, -, heq⟩ := q.promote_cases
  · rw [heq]
    exact .inl h
  · rw [heq]
    by_cases hc : c = c'
    · subst hc
      rw [hqueue] at h
      rcases List.mem_cons.mp h with rfl | h
      · exact .inr (by simp [raise, pushBack])
      · exact .inl (by simpa [raise, pushBack, setCategory] using h)
    · exact .inl (by simpa [raise, pushBack, setCategory, hc] using h)

variable [DecidableEq α]

/-- A waiting entry stays where it is or is handed to the queue, unless `Remove` or `Flush` take
it. -/
theorem waitsOrQueued_step {op : Op α} (h : t ∈ (q.categories c).queue)
    (hremove : op = .remove t → q.state = .disabled) (hflush : op ≠ .flush) :
    (q.step op).WaitsOrQueued t c := by
  cases op with
  | post entry type =>
    simp only [step, post_eq]
    split_ifs
    · exact .inl h
    · exact .inl (waits_setCategory h fun x hx => List.mem_append_left _ hx)
    · exact .inl (waits_setCategory h fun x hx => hx)
  | insert entry type =>
    simp only [step, insert_eq]
    split_ifs
    · exact .inl h
    · exact .inl h
    · exact .inl (waits_setCategory h fun x hx => List.mem_append_left _ hx)
    · exact .inl (waits_setCategory h fun x hx => hx)
  | timeOut entry type => exact .inl h
  | extract =>
    simp only [step, extract]
    split_ifs
    · exact .inl h
    · split
      · exact .inl h
      · exact .inl h
  | remove entry =>
    by_cases hentry : entry = t
    · have hdis : q.state = .disabled := hremove (by rw [hentry])
      simp only [step, remove, if_pos hdis]
      exact .inl h
    · simp only [step]
      cases hqueued : q.removesQueued entry with
      | some x =>
        obtain ⟨-, l₁, l₂, state, -, heq⟩ := remove_queued hqueued
        rw [heq]
        exact .inl h
      | none =>
        cases hwaiting : q.removesWaiting entry with
        | some c' =>
          rw [(remove_waiting hwaiting).2]
          by_cases hc : c = c'
          · subst hc
            exact .inl (by
              simpa [dropWaiting, setCategory] using
                (List.mem_erase_of_ne (Ne.symm hentry)).mpr h)
          · exact .inl (by simpa [dropWaiting, setCategory, hc] using h)
        | none =>
          rw [remove_nothing hqueued hwaiting]
          exact .inl h
  | completion request =>
    have hrelease : ∀ type, t ∈ ((q.release type request).categories c).queue := by
      intro type
      by_cases hc : c = type
      · subst hc
        simpa [release, setCategory, CategoryAdminType.completed] using h
      · simpa [release, setCategory, hc] using h
    simp only [step]
    obtain heq | ⟨x, -, heq | heq⟩ := q.completion_eq request <;> rw [heq]
    · exact .inl h
    · exact waitsOrQueued_promote (hrelease x.1)
    · exact waitsOrQueued_promote (hrelease x.1)
  | enable =>
    simp only [step, enable]
    split_ifs
    · exact .inl h
    · exact .inl h
  | disable => exact .inl h
  | flush => exact absurd rfl hflush

end Waits

/-! ### Tags -/

section Tags

/-- A queue without the tags of its entries. -/
def untagged (l : List (Category × (α × Bool))) : List (Category × α) :=
  l.map fun x => (x.1, x.2.1)

def untagAdmin (admin : CategoryAdminType (α × Bool)) : CategoryAdminType α :=
  ⟨admin.highWaterMark, admin.submitted, admin.queue.map Prod.fst, admin.marked, admin.narrow⟩

def untag (q : CategoryQueueType (α × Bool)) : CategoryQueueType α where
  dynamic := q.dynamic
  state := q.state
  highWaterMark := q.highWaterMark
  categories c := untagAdmin (q.categories c)
  queue := untagged q.queue
  inProcess := untagged q.inProcess

theorem untagAdmin_completed (admin : CategoryAdminType (α × Bool)) :
    untagAdmin admin.completed = (untagAdmin admin).completed := by
  unfold CategoryAdminType.completed untagAdmin
  dsimp only

variable (q : CategoryQueueType (α × Bool))

@[simp] theorem untag_state : q.untag.state = q.state := rfl

theorem untag_setCategory (type : Category) (admin : CategoryAdminType (α × Bool)) :
    (q.setCategory type admin).untag = q.untag.setCategory type (untagAdmin admin) := by
  have hcategories : (fun c => untagAdmin (Function.update q.categories type admin c)) =
      Function.update (fun c => untagAdmin (q.categories c)) type (untagAdmin admin) :=
    Function.comp_update untagAdmin q.categories type admin
  simp only [setCategory, untag, hcategories]

theorem untag_inProcess (l : List (Category × (α × Bool))) :
    untag { q with inProcess := l } = { q.untag with inProcess := untagged l } := rfl

theorem untag_pushBack (type : Category) (t : α × Bool) :
    (q.pushBack type t).untag = q.untag.pushBack type t.1 := by
  simp only [pushBack, untag, untagged, List.map_append, List.map_cons, List.map_nil]

theorem untag_isFull : q.untag.isFull = q.isFull := by
  simp [isFull, untag, untagged]

theorem untag_isEmpty : q.untag.isEmpty = q.isEmpty := by
  cases hqueue : q.queue <;> simp [isEmpty, untag, untagged, hqueue]

theorem untag_filled : q.filled.untag = q.untag.filled := by
  simp only [filled, untag_isFull]
  rfl

theorem untag_refreshed : q.refreshed.untag = q.untag.refreshed := by
  simp only [refreshed, untag_isFull, untag_isEmpty]
  rfl

theorem untag_defer (type : Category) (t : α × Bool) :
    (q.defer type t).untag = q.untag.defer type t.1 := by
  rw [defer, defer, untag_setCategory]
  simp only [untagAdmin, List.map_append, List.map_cons, List.map_nil, untag]

theorem untag_enter (type : Category) (t : α × Bool) :
    (q.enter type t).untag = q.untag.enter type t.1 := by
  rw [enter, enter, untag_pushBack, untag_setCategory]
  rfl

theorem untag_promote : q.promote.untag = q.untag.promote := by
  have hhas : ∀ c, (q.untag.categories c).hasEntry = (q.categories c).hasEntry := by
    intro c
    cases hqueue : (q.categories c).queue <;>
      simp [CategoryAdminType.hasEntry, untag, untagAdmin, hqueue]
  simp only [promote, hhas]
  cases Category.all.find? (fun c => (q.categories c).hasEntry) with
  | none => rfl
  | some c =>
    cases hqueue : (q.categories c).queue with
    | nil => simp [CategoryAdminType.extract, untag, untagAdmin, hqueue]
    | cons t rest =>
      simp only [CategoryAdminType.extract, untag, untagAdmin, hqueue, List.map_cons]
      exact (untag_pushBack _ c t).trans (congrArg (pushBack · c t.1) (untag_setCategory q c _))

theorem untag_insert (t : α × Bool) (type : Category) :
    (q.insert t type).1.untag = (q.untag.insert t.1 type).1 ∧
      (q.insert t type).2 = (q.untag.insert t.1 type).2 := by
  have hdefers : q.untag.Defers type ↔ q.Defers type := by
    simp [Defers, untag, untagAdmin, untagged]
  rw [insert_eq, insert_eq]
  simp only [hdefers, untag_state]
  split_ifs
  · exact ⟨rfl, rfl⟩
  · exact ⟨rfl, rfl⟩
  · exact ⟨untag_defer q type t, rfl⟩
  · exact ⟨(untag_filled _).trans (congrArg _ (untag_enter q type t)), rfl⟩

theorem untag_post (t : α × Bool) (type : Category) :
    (q.post t type).1.untag = (q.untag.post t.1 type).1 := by
  rw [post_eq, post_eq]
  simp only [untag_state]
  have hmark : (q.untag.categories type).submitted = (q.untag.categories type).highWaterMark ↔
      (q.categories type).submitted = (q.categories type).highWaterMark := Iff.rfl
  simp only [hmark]
  split_ifs
  · rfl
  · exact (untag_filled _).trans (congrArg _ (untag_defer q type t))
  · exact (untag_filled _).trans (congrArg _ (untag_enter q type t))

theorem untag_extract : q.extract.1.untag = q.untag.extract.1 := by
  by_cases hdis : q.state = .disabled
  · have hdis' : q.untag.state = .disabled := hdis
    simp only [extract, if_pos hdis, if_pos hdis']
  · have hdis' : ¬ q.untag.state = .disabled := hdis
    cases hqueue : q.queue with
    | nil =>
      have huntagged : q.untag.queue = [] := by simp [untag, untagged, hqueue]
      simp only [extract, if_neg hdis, if_neg hdis', huntagged, hqueue]
    | cons x rest =>
      have huntagged : q.untag.queue = (x.1, x.2.1) :: untagged rest := by
        simp [untag, untagged, hqueue]
      simp only [extract, if_neg hdis, if_neg hdis', huntagged, hqueue]
      refine (untag_refreshed _).trans (congrArg refreshed ?_)
      simp [untag, untagged]

variable [DecidableEq α]

/-- The entry that `Remove` finds: the first equal one in the queue, else in the deques. -/
def found (q : CategoryQueueType (α × Bool)) (entry : α) : Option (α × Bool) :=
  match q.queue.find? (fun x => x.2.1 = entry) with
  | some x => some x.2
  | none => Category.all.findSome? fun c => (q.categories c).queue.find? (fun t => t.1 = entry)

/-- An operation of another thread, with the tags of what it submits and finds. -/
def tagged (q : CategoryQueueType (α × Bool)) : Op α → Op (α × Bool)
  | .post entry type => .post (entry, false) type
  | .insert entry type => .insert (entry, false) type
  | .timeOut entry type => .timeOut (entry, false) type
  | .extract => .extract
  | .remove entry => .remove ((q.found entry).getD (entry, false))
  | .completion request =>
    .completion (((q.inProcess.find? (fun x => x.2.1 = request)).map Prod.snd).getD
      (request, false))
  | .enable => .enable
  | .disable => .disable
  | .flush => .flush

omit [DecidableEq α] in
/-- The first element that meets `p` is the first that meets a stronger condition which it
meets. -/
theorem find_of_imp {β : Type*} {p r : β → Bool} {l : List β} {x : β} (h : l.find? p = some x)
    (hr : r x = true) (himp : ∀ y, r y = true → p y = true) :
    l.find? r = some x ∧ l.eraseP r = l.eraseP p := by
  induction l with
  | nil => cases h
  | cons y l ih =>
    by_cases hp : p y = true
    · rw [List.find?_cons_of_pos hp] at h
      obtain rfl := Option.some.inj h
      rw [List.find?_cons_of_pos hr, List.eraseP_cons_of_pos hr, List.eraseP_cons_of_pos hp]
      exact ⟨rfl, rfl⟩
    · have hry : ¬ r y = true := fun h => hp (himp y h)
      rw [List.find?_cons_of_neg hp] at h
      rw [List.find?_cons_of_neg hry, List.eraseP_cons_of_neg hry, List.eraseP_cons_of_neg hp]
      exact ⟨(ih h).1, congrArg _ (ih h).2⟩

/-- The first equal entry of a list, with and without the tags. -/
theorem find_tagged {l : List (Category × (α × Bool))} {entry : α} {x : Category × (α × Bool)}
    (h : l.find? (fun x => x.2.1 = entry) = some x) :
    (l.find? (fun y => y.2 = x.2) = some x ∧
      (untagged l).find? (fun y => y.2 = entry) = some (x.1, x.2.1)) ∧
    (untagged l).eraseP (fun y => y.2 = entry) = untagged (l.eraseP fun y => y.2 = x.2) := by
  have hx : x.2.1 = entry := by simpa using List.find?_some h
  have himp : ∀ y : Category × (α × Bool), decide (y.2 = x.2) = true →
      decide (y.2.1 = entry) = true := by
    intro y hy
    rw [decide_eq_true_eq] at hy ⊢
    rw [hy, hx]
  obtain ⟨hfind, herase⟩ := find_of_imp h (decide_eq_true rfl) himp
  refine ⟨⟨hfind, ?_⟩, ?_⟩
  · rw [untagged, List.find?_map]
    exact congrArg (Option.map _) h
  · rw [untagged, List.eraseP_map, herase]
    rfl

theorem find_untagged_none {l : List (Category × (α × Bool))} {entry : α}
    (h : l.find? (fun x => x.2.1 = entry) = none) :
    (untagged l).find? (fun y => y.2 = entry) = none := by
  rw [untagged, List.find?_map]
  exact congrArg (Option.map _) h

theorem find_none_of_value {l : List (Category × (α × Bool))} {t : α × Bool}
    (h : l.find? (fun x => x.2.1 = t.1) = none) : l.find? (fun y => y.2 = t) = none := by
  rw [List.find?_eq_none] at h ⊢
  intro x hx heq
  rw [decide_eq_true_eq] at heq
  exact h x hx (by rw [heq]; exact decide_eq_true rfl)

omit q in
theorem completion_of_find {β : Type} [DecidableEq β] {q : CategoryQueueType β} {request : β}
    {x : Category × β} (h : q.inProcess.find? (fun x => x.2 = request) = some x) :
    q.completion request =
      if q.state = .disabled then (q.release x.1 request).promote
      else (q.release x.1 request).promote.refreshed := by
  simp only [completion, h]
  rfl

theorem untag_release {request : α} {x : Category × (α × Bool)}
    (hfind : q.inProcess.find? (fun x => x.2.1 = request) = some x) :
    (q.release x.1 x.2).untag = q.untag.release x.1 request := by
  have hcompleted : untagAdmin (q.categories x.1).completed =
      (q.untag.categories x.1).completed := untagAdmin_completed _
  have hprocess : untagged (q.inProcess.eraseP fun y => y.2 = x.2) =
      q.untag.inProcess.eraseP fun y => y.2 = request := (find_tagged hfind).2.symm
  rw [release, untag_inProcess, untag_setCategory, hcompleted, hprocess, release]

theorem untag_completion (request : α) :
    (q.step (q.tagged (.completion request))).untag = q.untag.completion request := by
  cases hfind : q.inProcess.find? (fun x => x.2.1 = request) with
  | none =>
    have hnone := find_none_of_value (t := (request, false)) hfind
    have hnone' : q.untag.inProcess.find? (fun x => x.2 = request) = none :=
      find_untagged_none hfind
    simp only [tagged, hfind, Option.map_none, Option.getD_none, step, completion, hnone, hnone']
  | some x =>
    obtain ⟨⟨hfirst, hfirst'⟩, herase⟩ := find_tagged hfind
    have hfound : q.untag.inProcess.find? (fun y => y.2 = request) = some (x.1, x.2.1) := hfirst'
    have hpromote : (q.release x.1 x.2).promote.untag = (q.untag.release x.1 request).promote := by
      rw [untag_promote, untag_release q hfind]
    simp only [tagged, hfind, Option.map_some, Option.getD_some, step]
    rw [completion_of_find hfirst, completion_of_find hfound]
    by_cases hdis : q.state = .disabled
    · have hdis' : q.untag.state = .disabled := hdis
      rw [if_pos hdis, if_pos hdis', hpromote]
    · have hdis' : ¬ q.untag.state = .disabled := hdis
      rw [if_neg hdis, if_neg hdis', untag_refreshed, hpromote]

omit q in
theorem remove_iff {β : Type} [DecidableEq β] {admin : CategoryAdminType β} {t : β} :
    (admin.remove t).2 = true ↔ t ∈ admin.queue := decide_eq_true_iff

omit q in
/-- The first element of a value, and the value without the elements. -/
theorem erase_value {β : Type} [DecidableEq β] {value : β → α} {l : List β} {entry : α} {t : β}
    (h : l.find? (fun t => value t = entry) = some t) :
    t ∈ l ∧ entry ∈ l.map value ∧ (l.erase t).map value = (l.map value).erase entry := by
  induction l with
  | nil => cases h
  | cons u l ih =>
    by_cases hu : value u = entry
    · rw [List.find?_cons_of_pos (by simpa using hu)] at h
      obtain rfl := Option.some.inj h
      rw [List.map_cons, hu, List.erase_cons_head, List.erase_cons_head]
      exact ⟨List.mem_cons_self, List.mem_cons_self, rfl⟩
    · rw [List.find?_cons_of_neg (by simpa using hu)] at h
      obtain ⟨hmem, hmem', herase⟩ := ih h
      have hne : u ≠ t := by
        rintro rfl
        exact hu (by simpa using List.find?_some h)
      rw [List.map_cons, List.erase_cons_tail (by simpa using hne),
        List.erase_cons_tail (by simpa using hu), List.map_cons, herase]
      exact ⟨List.mem_cons_of_mem _ hmem, List.mem_cons_of_mem _ hmem', rfl⟩

theorem untag_remove (entry : α) :
    (q.step (q.tagged (.remove entry))).untag = (q.untag.remove entry).1 := by
  by_cases hdis : q.state = .disabled
  · have hdis' : q.untag.state = .disabled := hdis
    simp only [tagged, step, remove, if_pos hdis, if_pos hdis']
  have hdis' : ¬ q.untag.state = .disabled := hdis
  cases hfind : q.queue.find? (fun x => x.2.1 = entry) with
  | some x =>
    obtain ⟨⟨hfirst, hfirst'⟩, herase⟩ := find_tagged hfind
    have hfound : q.untag.queue.find? (fun y => y.2 = entry) = some (x.1, x.2.1) := hfirst'
    have herase' : q.untag.queue.eraseP (fun y => y.2 = entry) =
        untagged (q.queue.eraseP fun y => y.2 = x.2) := herase
    have hempty : (untagged (q.queue.eraseP fun y => y.2 = x.2)).isEmpty =
        (q.queue.eraseP fun y => y.2 = x.2).isEmpty := by
      simp [untagged]
    simp only [tagged, found, hfind, Option.getD_some, step, remove, if_neg hdis, if_neg hdis',
      hfirst, hfound, herase', isEmpty, hempty]
    rfl
  | none =>
    have hnone : q.untag.queue.find? (fun y => y.2 = entry) = none := find_untagged_none hfind
    cases hfound : Category.all.findSome? fun c =>
        (q.categories c).queue.find? (fun t => t.1 = entry) with
    | none =>
      have hdeques : ∀ c, ∀ t ∈ (q.categories c).queue, t.1 ≠ entry := by
        intro c t ht heq
        have hc := List.findSome?_eq_none_iff.mp hfound c (Category.mem_all c)
        exact absurd (List.find?_eq_none.mp hc t ht) (by simp [heq])
      have hwaiting : Category.all.find?
          (fun c => ((q.categories c).remove (entry, false)).2) = none := by
        refine List.find?_eq_none.mpr fun c _ h => ?_
        exact hdeques c _ (remove_iff.mp h) rfl
      have hwaiting' : Category.all.find?
          (fun c => ((q.untag.categories c).remove entry).2) = none := by
        refine List.find?_eq_none.mpr fun c _ h => ?_
        obtain ⟨t, ht, heq⟩ := List.mem_map.mp (remove_iff.mp h)
        exact hdeques c t ht heq
      have hnone' := find_none_of_value (t := (entry, false)) hfind
      simp only [tagged, found, hfind, hfound, Option.getD_none, step, remove, if_neg hdis,
        if_neg hdis', hnone, hnone', hwaiting, hwaiting']
    | some t =>
      obtain ⟨before, c, after, hall, ht, hbefore⟩ := List.findSome?_eq_some_iff.mp hfound
      obtain ⟨hmem, hmem', herase⟩ := erase_value ht
      have hvalue : t.1 = entry := by simpa using List.find?_some ht
      have hothers : ∀ x ∈ before, ∀ u ∈ (q.categories x).queue, u.1 ≠ entry := by
        intro x hx u hu heq
        exact absurd (List.find?_eq_none.mp (hbefore x hx) u hu) (by simp [heq])
      have hfirst : ∀ p : Category → Bool, p c = true → (∀ x ∈ before, ¬ p x = true) →
          Category.all.find? p = some c := by
        intro p hc hp
        rw [hall, List.find?_append, List.find?_eq_none.mpr hp, List.find?_cons_of_pos hc]
        rfl
      have hwaiting := hfirst (fun c => ((q.categories c).remove t).2) (remove_iff.mpr hmem)
        fun x hx h => hothers x hx t (remove_iff.mp h) hvalue
      have hwaiting' := hfirst (fun c => ((q.untag.categories c).remove entry).2)
        (remove_iff.mpr hmem') (by
          intro x hx h
          obtain ⟨u, hu, heq⟩ := List.mem_map.mp (remove_iff.mp h)
          exact hothers x hx u hu heq)
      have hnone' : q.queue.find? (fun y => y.2 = t) = none :=
        find_none_of_value (by rw [hvalue]; exact hfind)
      have hadmin : untagAdmin ((q.categories c).remove t).1 =
          ((q.untag.categories c).remove entry).1 := by
        simp only [untagAdmin, CategoryAdminType.remove, untag, herase]
      simp only [tagged, found, hfind, hfound, Option.getD_some, step, remove, if_neg hdis,
        if_neg hdis', hnone, hnone', hwaiting, hwaiting']
      rw [untag_setCategory, hadmin]

/-- Without the tags, an operation of another thread is the operation itself. -/
theorem untag_step (op : Op α) : (q.step (q.tagged op)).untag = q.untag.step op := by
  cases op with
  | post entry type => exact untag_post q (entry, false) type
  | insert entry type => exact (untag_insert q (entry, false) type).1
  | timeOut entry type => rfl
  | extract => exact untag_extract q
  | remove entry => exact untag_remove q entry
  | completion request => exact untag_completion q request
  | enable =>
    by_cases hdis : q.state = .disabled
    · have hdis' : q.untag.state = .disabled := hdis
      simp only [tagged, step, enable, if_pos hdis, if_pos hdis']
      exact untag_refreshed q
    · have hdis' : ¬ q.untag.state = .disabled := hdis
      simp only [tagged, step, enable, if_neg hdis, if_neg hdis']
  | disable => rfl
  | flush => rfl

/-- A run of operations on the tagged queue is, without the tags, the run on the queue itself. -/
theorem untag_run (ops : List (Op α)) :
    (ops.foldl (fun q op => q.step (q.tagged op)) q).untag = ops.foldl step q.untag := by
  induction ops generalizing q with
  | nil => rfl
  | cons op ops ih => rw [List.foldl_cons, List.foldl_cons, ih, untag_step]

end Tags

/-! ### The call -/

/-- Where a call of `Insert` is: before its first section, in `WaitState`, in `AwaitQueuing`, or
done. -/
inductive InsertPhase
  | called
  | waiting
  | queuing
  | returned (result : Bool)
  deriving DecidableEq, Repr

def InsertPhase.of : CategoryInserted → InsertPhase
  | .refused => .returned false
  | .posted => .returned true
  | .deferred => .queuing
  | .waits => .waiting

/-- A queue with a call of `Insert`; `handed` records that the entry of the call has been in
`_queue`. -/
structure Insertion (α : Type) where
  queue : CategoryQueueType (α × Bool)
  phase : InsertPhase
  handed : Bool

/-- A section of another thread, a section of the call under the lock, the end of its waiting time,
and the answer of `AwaitQueuing`, which finds no equal entry in the deque. -/
inductive InsertOp (α : Type)
  | other (op : Op α)
  | locked
  | timeOut
  | queued
  deriving DecidableEq, Repr

namespace Insertion

variable [DecidableEq α]

/-- The queue moves on. -/
def moved (s : Insertion α) (entry : α) (queue : CategoryQueueType (α × Bool)) : Insertion α :=
  { s with queue := queue, handed := s.handed || decide ((entry, true) ∈ queue.queue.map Prod.snd) }

def step (entry : α) (type : Category) (s : Insertion α) : InsertOp α → Insertion α
  | .other op => s.moved entry (s.queue.step (s.queue.tagged op))
  | .locked =>
    if s.phase = .called ∨ s.phase = .waiting then
      { s.moved entry (s.queue.insert (entry, true) type).1 with
        phase := .of (s.queue.insert (entry, true) type).2 }
    else s
  | .timeOut =>
    if s.phase = .waiting ∨ s.phase = .queuing then { s with phase := .returned false } else s
  | .queued =>
    if s.phase = .queuing ∧ entry ∉ (s.queue.categories type).queue.map Prod.fst then
      { s with phase := .returned true }
    else s

/-- The start of a run; the other threads may bring the queue into any state before the call. -/
def start (dynamic : Bool) (marks : Marks) : Insertion α := ⟨new dynamic marks, .called, false⟩

/-- A call that answered false has left nothing, and one that answered true has handed its entry to
the queue. -/
def ToldTruth (entry : α) (s : Insertion α) : Prop :=
  (s.phase = .returned false → ¬ s.queue.Holds (entry, true)) ∧
  (s.phase = .returned true → s.handed = true)

/-- While the call is deferred, it does not time out, and neither `Remove` nor `Flush` takes its
entry from the deque. -/
def KeepsDeferred (entry : α) (type : Category) (s : Insertion α) : InsertOp α → Prop
  | .timeOut => s.phase ≠ .queuing
  | .other (.remove x) => s.phase = .queuing → s.queue.state ≠ .disabled →
      (entry, true) ∈ (s.queue.categories type).queue → s.queue.found x ≠ some (entry, true)
  | .other .flush => s.phase = .queuing → (entry, true) ∉ (s.queue.categories type).queue
  | _ => True

/-- Where the entry of the call is, by the phase of the call. -/
def Inv (entry : α) (type : Category) (s : Insertion α) : Prop :=
  match s.phase with
  | .called | .waiting | .returned false => ¬ s.queue.Holds (entry, true)
  | .queuing => (entry, true) ∈ (s.queue.categories type).queue ∨ s.handed = true
  | .returned true => s.handed = true

variable {entry : α} {type : Category} {s : Insertion α}

omit [DecidableEq α] in
theorem Inv.toldTruth (h : s.Inv entry type) : s.ToldTruth entry := by
  constructor <;> intro hphase <;> rw [Inv, hphase] at h <;> exact h

/-- No other thread brings in the entry of the call. -/
theorem not_submits_tagged (q : CategoryQueueType (α × Bool)) (op : Op α) :
    ¬ Submits (entry, true) (q.tagged op) := by
  cases op with
  | post x c => exact fun h => Bool.false_ne_true (congrArg Prod.snd h)
  | insert x c => exact fun h => Bool.false_ne_true (congrArg Prod.snd h)
  | _ => exact id

theorem not_holds_tagged (h : ¬ s.queue.Holds (entry, true)) (op : Op α) :
    ¬ (s.queue.step (s.queue.tagged op)).Holds (entry, true) := fun hafter =>
  (holds_step hafter).elim h (not_submits_tagged s.queue op)

theorem handed_moved {queue : CategoryQueueType (α × Bool)}
    (h : s.handed = true ∨ (entry, true) ∈ queue.queue.map Prod.snd) :
    (s.moved entry queue).handed = true := by
  rcases h with h | h <;> simp [moved, h]

/-- What the other threads do to a deferred entry. -/
theorem deferred_tagged {op : Op α} (hphase : s.phase = .queuing)
    (h : (entry, true) ∈ (s.queue.categories type).queue ∨ s.handed = true)
    (hok : s.KeepsDeferred entry type (.other op)) :
    (entry, true) ∈ ((s.queue.step (s.queue.tagged op)).categories type).queue ∨
      (s.moved entry (s.queue.step (s.queue.tagged op))).handed = true := by
  rcases h with h | h
  · have hremove : s.queue.tagged op = .remove (entry, true) → s.queue.state = .disabled := by
      intro heq
      cases op with
      | remove x =>
        by_contra hdis
        have hfound := hok hphase hdis h
        simp only [tagged, Op.remove.injEq] at heq
        cases hx : s.queue.found x with
        | none =>
          rw [hx] at heq
          exact absurd (congrArg Prod.snd heq) Bool.false_ne_true
        | some t =>
          rw [hx] at heq
          exact hfound (by rw [hx]; exact congrArg some heq)
      | _ => cases heq
    have hflush : s.queue.tagged op ≠ .flush := by
      cases op with
      | flush => exact absurd h (hok hphase)
      | _ => exact nofun
    exact (waitsOrQueued_step h hremove hflush).imp id fun h => handed_moved (.inr h)
  · exact .inr (handed_moved (.inl h))

/-- What a section of the call does with its entry. -/
theorem inv_locked (h : ¬ s.queue.Holds (entry, true)) :
    Inv entry type { s.moved entry (s.queue.insert (entry, true) type).1 with
      phase := .of (s.queue.insert (entry, true) type).2 } := by
  rw [insert_eq]
  split_ifs
  · exact h
  · exact h
  · exact .inl (by simp [moved, defer, setCategory])
  · exact handed_moved (.inr (by simp [filled, enter, pushBack]))

/-- The step lemma. -/
theorem Inv.step (h : s.Inv entry type) (op : InsertOp α) (hok : s.KeepsDeferred entry type op) :
    (s.step entry type op).Inv entry type := by
  cases op with
  | other op =>
    have hphase : (s.moved entry (s.queue.step (s.queue.tagged op))).phase = s.phase := rfl
    rw [Inv] at h ⊢
    rw [Insertion.step, hphase]
    split at h <;> rename_i hat
    · exact not_holds_tagged h op
    · exact not_holds_tagged h op
    · exact not_holds_tagged h op
    · exact deferred_tagged hat h hok
    · exact handed_moved (.inl h)
  | locked =>
    rw [Insertion.step]
    split_ifs with hphase
    · refine inv_locked ?_
      rcases hphase with hphase | hphase <;> rw [Inv, hphase] at h <;> exact h
    · exact h
  | timeOut =>
    rw [Insertion.step]
    split_ifs with hphase
    · rcases hphase with hphase | hphase
      · rw [Inv, hphase] at h
        exact h
      · exact absurd hphase hok
    · exact h
  | queued =>
    rw [Insertion.step]
    split_ifs with hphase
    · obtain ⟨hphase, hleft⟩ := hphase
      rw [Inv, hphase] at h
      exact h.resolve_left fun hmem => hleft (List.mem_map_of_mem hmem)
    · exact h

/-- In every run, a call whose wait for its category neither times out nor loses its entry to
`Remove` or `Flush` leaves nothing when it fails and has handed its entry over when it succeeds. -/
theorem toldTruth_of_keepsDeferred (dynamic : Bool) (marks : Marks) (entry : α) (type : Category)
    (ops : List (InsertOp α))
    (h : Meets (step entry type) (KeepsDeferred entry type) (start dynamic marks) ops) :
    Always (step entry type) (ToldTruth entry) (start dynamic marks) ops := by
  have hnew : (start dynamic marks : Insertion α).Inv entry type := by
    rintro (hmem | hmem | ⟨c, hmem⟩)
    · cases hmem
    · cases hmem
    · cases c <;> cases hmem
  have hinv := h.always (fun s op hs hok => hs.step op hok) hnew
  exact hinv.mono fun s hs => hs.toldTruth

/-- One slot in the low category, two in all. -/
def twoSlots : Marks :=
  ⟨1, 1, 2, Marks.one.low_pos, Marks.one.medium_pos, Nat.two_pos, Marks.one.low_narrow,
    Marks.one.medium_narrow, by decide⟩

/-- A low entry fills its category, and the call for another one is deferred until that one is
completed. -/
theorem toldTruth_completed :
    Always (step 8 .low) (ToldTruth 8) (start false twoSlots : Insertion Nat)
      [.other (.post 7 .low), .locked, .other .extract, .other (.completion 7), .queued] :=
  toldTruth_of_keepsDeferred false twoSlots 8 .low _
    ⟨trivial, trivial, trivial, trivial, trivial, trivial⟩

/-- A deferred call that times out leaves its entry in the deque; one whose entry is removed from
there says that it was handed over. -/
theorem not_toldTruth_deferred :
    ¬ Always (step 8 .low) (ToldTruth 8) (start false twoSlots : Insertion Nat)
        [.other (.post 7 .low), .locked, .timeOut] ∧
      ¬ Always (step 8 .low) (ToldTruth 8) (start false twoSlots : Insertion Nat)
        [.other (.post 7 .low), .locked, .other (.remove 8), .queued] := by
  constructor
  · rintro ⟨-, -, -, h⟩
    exact h.1 (by decide) (.inr (.inr ⟨.low, by decide⟩))
  · rintro ⟨-, -, -, -, h⟩
    exact absurd (h.2 (by decide)) (by decide)

end Insertion

end Thunder.Core.CategoryQueueType
