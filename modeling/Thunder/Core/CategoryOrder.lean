import Mathlib.Data.List.Perm.Basic
import Thunder.Core.CategoryQueue

/-! Order within the categories of a `CategoryQueueType`.  A history records what the operations
accepted, extracted and removed; a run is fair when every category is first in, first out, no entry
is lost or made twice, and no entry waits while the queue has nothing to run. -/

namespace Thunder.Core

open Run

/-- The entries that the operations of a run accepted, extracted and removed, with their
categories. -/
structure History (α : Type) where
  accepted : List (Category × α) := []
  extracted : List (Category × α) := []
  removed : List (Category × α) := []

namespace CategoryQueueType

variable {α : Type} [DecidableEq α]

/-- What an operation adds to the history.  An `Insert` that times out returns false, so its entry
counts as not accepted. -/
def record (q : CategoryQueueType α) (h : History α) : Op α → History α
  | .post entry type =>
    if (q.post entry type).2 then { h with accepted := h.accepted ++ [(type, entry)] } else h
  | .insert entry type =>
    match (q.insert entry type).2 with
    | .posted | .deferred => { h with accepted := h.accepted ++ [(type, entry)] }
    | .refused | .waits => h
  | .timeOut entry type => { h with accepted := h.accepted.erase (type, entry) }
  | .extract =>
    match q.extract.2 with
    | .received _ => { h with extracted := h.extracted ++ q.queue.take 1 }
    | _ => h
  | .remove entry =>
    match q.removesQueued entry, q.removesWaiting entry with
    | some x, _ => { h with removed := h.removed ++ [x] }
    | none, some c => { h with removed := h.removed ++ [(c, entry)] }
    | none, none => h
  | _ => h

/-- A queue and its history take an operation. -/
def stepRecorded (s : CategoryQueueType α × History α) (op : Op α) :
    CategoryQueueType α × History α :=
  (s.1.step op, s.1.record s.2 op)

omit [DecidableEq α] in
/-- The entries of a category that are still to be extracted, in their order. -/
def line (q : CategoryQueueType α) (c : Category) : List α :=
  ofCategory c q.queue ++ (q.categories c).queue

/-- The history of a category agrees with the entries that are left. -/
structure Recorded (line : Category → List α) (h : History α) : Prop where
  fifo : ∀ c, (ofCategory c h.extracted ++ line c).Sublist (ofCategory c h.accepted)
  balanced : ∀ c, (ofCategory c h.accepted).Perm
    (ofCategory c h.extracted ++ ofCategory c h.removed ++ line c)

/-- An entry waits only while another one is in the queue or in process. -/
def Reachable (q : CategoryQueueType α) : Prop :=
  q.queue = [] → q.inProcess = [] → ∀ c, (q.categories c).queue = []

def Fair (s : CategoryQueueType α × History α) : Prop :=
  s.1.Reachable ∧ Recorded s.1.line s.2

/-- The slots of a category that no entry holds. -/
def slotsLost (q : CategoryQueueType α) (c : Category) : Nat :=
  (q.categories c).submitted - q.load c

/-- A dynamic queue admits an entry only when no other of its category waits, `Remove` takes an
entry from the queue only when its category has another slot left that is not lost and no entry
would be left waiting alone, and no deferred `Insert` times out. -/
def StaysFair (q : CategoryQueueType α) : Op α → Prop
  | .post _ type => q.dynamic = true → q.state ≠ .disabled →
      (q.categories type).submitted ≠ (q.categories type).highWaterMark →
      (q.categories type).queue = []
  | .insert _ type => q.dynamic = true → q.state ≠ .disabled → q.state ≠ .limited →
      ¬ q.Defers type → (q.categories type).queue = []
  | .timeOut _ _ => False
  | .remove entry => ∀ x, q.removesQueued entry = some x →
      q.slotsLost x.1 + 1 < (q.categories x.1).highWaterMark ∧
      (q.queue = [x] → q.inProcess = [] → ∀ c, (q.categories c).queue = [])
  | .flush => False
  | _ => True

/-! ### Histories -/

section Recorded

variable {line line' : Category → List α} {h : History α}

omit [DecidableEq α] in
theorem recorded_empty (hline : ∀ c, line c = []) : Recorded line {} :=
  ⟨fun c => by simp [hline], fun c => by simp [hline]⟩

omit [DecidableEq α] in
theorem Recorded.same (hr : Recorded line h) (hline : ∀ c, line' c = line c) :
    Recorded line' h := by
  rwa [funext hline]

omit [DecidableEq α] in
theorem Recorded.accept (hr : Recorded line h) {x : Category × α}
    (hline : ∀ c, line' c = line c ++ ofCategory c [x]) :
    Recorded line' { h with accepted := h.accepted ++ [x] } := by
  constructor
  · intro c
    simp only [hline, ofCategory_append, ← List.append_assoc]
    exact (hr.fifo c).append_right _
  · intro c
    simp only [hline, ofCategory_append, ← List.append_assoc]
    exact (hr.balanced c).append_right _

omit [DecidableEq α] in
theorem Recorded.extract (hr : Recorded line h) {x : Category × α}
    (hline : ∀ c, line c = ofCategory c [x] ++ line' c) :
    Recorded line' { h with extracted := h.extracted ++ [x] } := by
  constructor
  · intro c
    simpa only [hline, ofCategory_append, List.append_assoc] using hr.fifo c
  · intro c
    refine (hr.balanced c).trans ?_
    simp only [hline, ofCategory_append, List.append_assoc]
    refine List.Perm.append_left _ ?_
    simp only [← List.append_assoc]
    exact List.perm_append_comm.append_right _

omit [DecidableEq α] in
theorem Recorded.remove (hr : Recorded line h) {x : Category × α}
    (hsub : ∀ c, (line' c).Sublist (line c))
    (hperm : ∀ c, (line c).Perm (ofCategory c [x] ++ line' c)) :
    Recorded line' { h with removed := h.removed ++ [x] } := by
  constructor
  · intro c
    exact ((hsub c).append_left _).trans (hr.fifo c)
  · intro c
    refine (hr.balanced c).trans ?_
    simp only [ofCategory_append, List.append_assoc]
    exact ((hperm c).append_left _).append_left _

end Recorded

/-! ### What a move does to the lines -/

section Line

omit [DecidableEq α]

variable (q : CategoryQueueType α) {type : Category} {entry : α} {rest : List α}

theorem line_defer (type : Category) (entry : α) (c : Category) :
    (q.defer type entry).line c = q.line c ++ ofCategory c [(type, entry)] := by
  by_cases hc : type = c
  · subst hc
    simp [defer, setCategory, line, ofCategory_cons]
  · simp [defer, setCategory, line, ofCategory_cons, hc, Ne.symm hc]

theorem line_enter (entry : α) (hnone : (q.categories type).queue = []) (c : Category) :
    (q.enter type entry).line c = q.line c ++ ofCategory c [(type, entry)] := by
  by_cases hc : type = c
  · subst hc
    simp [enter, setCategory, pushBack, line, hnone]
  · simp [enter, setCategory, pushBack, line, ofCategory_cons, hc, Ne.symm hc]

theorem line_raise (hqueue : (q.categories type).queue = entry :: rest) (c : Category) :
    (q.raise type entry rest).line c = q.line c := by
  by_cases hc : type = c
  · subst hc
    simp [raise, setCategory, pushBack, line, ofCategory_cons, hqueue]
  · simp [raise, setCategory, pushBack, line, ofCategory_cons, hc, Ne.symm hc]

theorem line_promote (c : Category) : q.promote.line c = q.line c := by
  obtain ⟨heq, -⟩ | ⟨c', entry, rest, hqueue, -, heq⟩ := q.promote_cases
  · rw [heq]
  · rw [heq, line_raise q hqueue]

theorem line_queue {l l' : List (Category × α)} {x : Category × α} (c : Category) :
    ofCategory c (l ++ x :: l') ++ (q.categories c).queue =
      ofCategory c l ++ (ofCategory c [x] ++ (ofCategory c l' ++ (q.categories c).queue)) := by
  rw [List.append_cons]
  simp only [ofCategory_append, List.append_assoc]

end Line

theorem line_release (q : CategoryQueueType α) (type : Category) (request : α) (c : Category) :
    (q.release type request).line c = q.line c := by
  by_cases hc : c = type
  · subst hc
    simp [release, setCategory, line, CategoryAdminType.completed]
  · simp [release, setCategory, line, hc]

theorem line_dropWaiting_sublist (q : CategoryQueueType α) (type : Category) (entry : α)
    (c : Category) : ((q.dropWaiting type entry).line c).Sublist (q.line c) := by
  by_cases hc : c = type
  · subst hc
    simpa [dropWaiting, setCategory, line] using List.erase_sublist
  · simp [dropWaiting, setCategory, line, hc]

theorem line_dropWaiting_perm (q : CategoryQueueType α) {type : Category} {entry : α}
    (hmem : entry ∈ (q.categories type).queue) (c : Category) :
    (q.line c).Perm (ofCategory c [(type, entry)] ++ (q.dropWaiting type entry).line c) := by
  by_cases hc : c = type
  · subst hc
    simp only [line, dropWaiting, setCategory, Function.update_self, ofCategory_cons, if_true,
      ofCategory_nil, List.singleton_append]
    exact ((List.perm_cons_erase hmem).append_left _).trans List.perm_middle
  · simp [dropWaiting, setCategory, line, ofCategory_cons, hc, Ne.symm hc]

/-! ### The invariant -/

omit [DecidableEq α] in
/-- A category with waiting entries has no slot left. -/
def Tight (q : CategoryQueueType α) : Prop :=
  ∀ c, (q.categories c).queue ≠ [] →
    (q.categories c).submitted = (q.categories c).highWaterMark

omit [DecidableEq α] in
/-- The books are kept and every category has a slot that is not lost. -/
def Solvent (q : CategoryQueueType α) : Prop :=
  ∃ lost, q.Books lost ∧ ∀ c, lost c < (q.categories c).highWaterMark

omit [DecidableEq α] in
/-- What no operation changes: the variant and the marks. -/
def SameShape (q q' : CategoryQueueType α) : Prop :=
  q'.dynamic = q.dynamic ∧
    ∀ c, (q'.categories c).highWaterMark = (q.categories c).highWaterMark

omit [DecidableEq α] in
theorem SameShape.trans {q q' q'' : CategoryQueueType α} (h : SameShape q q')
    (h' : SameShape q' q'') : SameShape q q'' :=
  ⟨h'.1.trans h.1, fun c => (h'.2 c).trans (h.2 c)⟩

omit [DecidableEq α] in
theorem sameShape_refl (q : CategoryQueueType α) : SameShape q q := ⟨rfl, fun _ => rfl⟩

omit [DecidableEq α] in
theorem sameShape_setCategory (q : CategoryQueueType α) {type : Category}
    {admin : CategoryAdminType α}
    (hmark : admin.highWaterMark = (q.categories type).highWaterMark) :
    SameShape q (q.setCategory type admin) := by
  refine ⟨rfl, fun c => ?_⟩
  by_cases hc : c = type
  · subst hc
    simpa [setCategory] using hmark
  · simp [setCategory, hc]

theorem sameShape_release (q : CategoryQueueType α) (type : Category) (request : α) :
    SameShape q (q.release type request) := by
  refine ⟨rfl, fun c => ?_⟩
  by_cases hc : c = type
  · subst hc
    simp [release, setCategory, CategoryAdminType.completed]
  · simp [release, setCategory, hc]

omit [DecidableEq α] in
theorem sameShape_promote (q : CategoryQueueType α) : SameShape q q.promote := by
  obtain ⟨heq, -⟩ | ⟨c, entry, rest, -, -, heq⟩ := q.promote_cases <;> rw [heq]
  · exact sameShape_refl q
  · exact sameShape_setCategory q rfl

theorem sameShape_step (q : CategoryQueueType α) (op : Op α) : SameShape q (q.step op) := by
  cases op with
  | post entry type =>
    simp only [step, post_eq]
    split_ifs
    · exact sameShape_refl q
    · exact sameShape_setCategory q rfl
    · exact sameShape_setCategory q rfl
  | insert entry type =>
    simp only [step, insert_eq]
    split_ifs
    · exact sameShape_refl q
    · exact sameShape_refl q
    · exact sameShape_setCategory q rfl
    · exact sameShape_setCategory q rfl
  | extract =>
    simp only [step, extract]
    split_ifs
    · exact sameShape_refl q
    · split <;> exact sameShape_refl q
  | remove entry =>
    simp only [step]
    cases hqueued : q.removesQueued entry with
    | some x =>
      obtain ⟨-, l₁, l₂, state, -, heq⟩ := remove_queued hqueued
      rw [heq]
      exact sameShape_refl q
    | none =>
      cases hwaiting : q.removesWaiting entry with
      | some c =>
        rw [(remove_waiting hwaiting).2]
        exact sameShape_setCategory q rfl
      | none => rw [remove_nothing hqueued hwaiting]; exact sameShape_refl q
  | completion request =>
    simp only [step]
    obtain heq | ⟨x, -, heq | heq⟩ := q.completion_eq request <;> rw [heq]
    · exact sameShape_refl q
    · exact (sameShape_release q x.1 request).trans (sameShape_promote _)
    · exact (sameShape_release q x.1 request).trans (sameShape_promote _)
  | enable =>
    simp only [step, enable]
    split_ifs <;> exact sameShape_refl q
  | flush => exact ⟨rfl, fun _ => rfl⟩
  | _ => exact sameShape_refl q

structure Tidy (s : CategoryQueueType α × History α) : Prop where
  tight : s.1.dynamic = false → s.1.Tight
  reachable : s.1.Reachable
  recorded : Recorded s.1.line s.2

section Moves

variable {q : CategoryQueueType α} {h : History α} {type : Category} {entry : α}
  {x : Category × α}

omit [DecidableEq α] in
theorem Tidy.filled (ht : Tidy (q, h)) : Tidy (q.filled, h) :=
  ⟨ht.tight, ht.reachable, ht.recorded⟩

omit [DecidableEq α] in
theorem Tidy.refreshed (ht : Tidy (q, h)) : Tidy (q.refreshed, h) :=
  ⟨ht.tight, ht.reachable, ht.recorded⟩

omit [DecidableEq α] in
theorem Tidy.defer (ht : Tidy (q, h)) (hs : q.Solvent) (hd : q.Defers type) :
    Tidy (q.defer type entry, { h with accepted := h.accepted ++ [(type, entry)] }) := by
  refine ⟨fun hstatic c hne => ?_, fun hqueue hinProcess => ?_,
    ht.recorded.accept (line_defer q type entry)⟩
  · by_cases hc : c = type
    · subst hc
      obtain hfull | ⟨hdyn, -⟩ := hd
      · simpa [CategoryQueueType.defer, setCategory] using hfull
      · exact absurd (hdyn.symm.trans hstatic) (by decide)
    · simpa [CategoryQueueType.defer, setCategory, hc] using
        ht.tight hstatic c (by simpa [CategoryQueueType.defer, setCategory, hc] using hne)
  · -- an entry is deferred only when its category holds a slot or the queue is not empty
    exfalso
    obtain ⟨lost, hbooks, hlost⟩ := hs
    have hsub := (hbooks type).1
    have hsome := hlost type
    have hmark := (q.categories type).marked
    change q.queue = [] at hqueue
    change q.inProcess = [] at hinProcess
    simp only [load, hqueue, hinProcess, ofCategory_nil, List.length_nil, Nat.add_zero,
      Nat.zero_add] at hsub
    obtain hfull | ⟨-, hload⟩ := hd
    · omega
    · rw [hqueue, List.length_nil] at hload
      omega

omit [DecidableEq α] in
theorem Tidy.enter (ht : Tidy (q, h)) (hnone : (q.categories type).queue = []) :
    Tidy (q.enter type entry, { h with accepted := h.accepted ++ [(type, entry)] }) := by
  refine ⟨fun hstatic c hne => ?_, fun hqueue => ?_,
    ht.recorded.accept (line_enter q entry hnone)⟩
  · by_cases hc : c = type
    · subst hc
      exact absurd hnone (by simpa [CategoryQueueType.enter, setCategory, pushBack] using hne)
    · simpa [CategoryQueueType.enter, setCategory, pushBack, hc] using
        ht.tight hstatic c (by simpa [CategoryQueueType.enter, setCategory, pushBack, hc] using hne)
  · simp [CategoryQueueType.enter, pushBack] at hqueue

omit [DecidableEq α] in
theorem Tidy.take (ht : Tidy (q, h)) {rest : List (Category × α)} (hqueue : q.queue = x :: rest) :
    Tidy ({ q with inProcess := q.inProcess ++ [x], queue := rest },
      { h with extracted := h.extracted ++ [x] }) := by
  refine ⟨ht.tight, fun _ hinProcess => by simp at hinProcess, ht.recorded.extract fun c => ?_⟩
  rw [line, hqueue]
  exact line_queue q (l := []) c

omit [DecidableEq α] in
theorem Tidy.removeQueued (ht : Tidy (q, h)) {l l' : List (Category × α)} {state : QueueState}
    (hqueue : q.queue = l ++ x :: l')
    (halone : q.queue = [x] → q.inProcess = [] → ∀ c, (q.categories c).queue = []) :
    Tidy ({ q with queue := l ++ l', state := state }, { h with removed := h.removed ++ [x] }) := by
  have hline : ∀ c, q.line c = ofCategory c l ++ (ofCategory c [x] ++
      (ofCategory c l' ++ (q.categories c).queue)) := by
    intro c
    rw [line, hqueue, line_queue]
  refine ⟨ht.tight, fun hempty hinProcess => ?_, ht.recorded.remove (fun c => ?_) fun c => ?_⟩
  · obtain ⟨rfl, rfl⟩ := List.append_eq_nil_iff.mp hempty
    exact halone hqueue hinProcess
  · rw [hline]
    simp only [line, ofCategory_append, List.append_assoc]
    exact (List.sublist_append_right _ _).append_left _
  · rw [hline]
    simp only [line, ofCategory_append, ← List.append_assoc]
    exact (List.perm_append_comm.append_right _).append_right _

theorem Tidy.dropWaiting (ht : Tidy (q, h)) (hmem : entry ∈ (q.categories type).queue) :
    Tidy (q.dropWaiting type entry, { h with removed := h.removed ++ [(type, entry)] }) := by
  have hkept : ∀ c, ((q.dropWaiting type entry).categories c).queue ≠ [] →
      (q.categories c).queue ≠ [] := by
    intro c hne hnone
    by_cases hc : c = type
    · subst hc
      simp [hnone] at hmem
    · exact hne (by simpa [CategoryQueueType.dropWaiting, setCategory, hc] using hnone)
  refine ⟨fun hstatic c hne => ?_, fun hqueue hinProcess c => ?_,
    ht.recorded.remove (line_dropWaiting_sublist q type entry) (line_dropWaiting_perm q hmem)⟩
  · have hfull := ht.tight hstatic c (hkept c hne)
    by_cases hc : c = type
    · subst hc
      simpa [CategoryQueueType.dropWaiting, setCategory] using hfull
    · simpa [CategoryQueueType.dropWaiting, setCategory, hc] using hfull
  · by_contra hne
    exact hkept c hne (ht.reachable hqueue hinProcess c)

/-- After a completion only the category that got a slot back can have an entry and room for it, and
`promote` fills the slot again. -/
theorem tight_promote (ht : q.Tight) (hs : q.Solvent) {request : α}
    (hfind : q.inProcess.find? (fun x => x.2 = request) = some x) :
    (q.release x.1 request).promote.Tight := by
  obtain ⟨lost, hbooks, -⟩ := hs
  have hreleased := hbooks.release hfind
  have hother : ∀ c ≠ x.1, (q.release x.1 request).categories c = q.categories c := by
    intro c hc
    simp [release, setCategory, hc]
  have hwaiting : ∀ c, ((q.release x.1 request).categories c).queue = (q.categories c).queue := by
    intro c
    by_cases hc : c = x.1
    · subst hc
      simp [release, setCategory, CategoryAdminType.completed]
    · rw [hother c hc]
  obtain ⟨heq, hall⟩ | ⟨c, entry, rest, hqueue, hroom, heq⟩ := (q.release x.1 request).promote_cases
  · rw [heq]
    intro c hne
    exact Nat.le_antisymm (hreleased c).2 (hall c hne)
  · have hc : c = x.1 := by
      by_contra hc
      rw [hother c hc] at hqueue hroom
      have := ht c (by simp [hqueue])
      omega
    rw [heq]
    intro c' hne
    by_cases hc' : c' = c
    · subst hc'
      have hfull := ht c' (by rw [← hwaiting, hqueue]; simp)
      have hmark := (q.categories c').marked
      have hnarrow := (q.categories c').narrow
      subst hc
      simp only [raise, pushBack, setCategory, release, CategoryAdminType.completed,
        Function.update_self]
      omega
    · have hne' : (q.categories c').queue ≠ [] := by
        rw [← hwaiting]
        simpa [raise, pushBack, setCategory, hc'] using hne
      simpa [raise, pushBack, setCategory, hc', hother c' (hc ▸ hc')] using ht c' hne'

theorem Tidy.complete (ht : Tidy (q, h)) (hs : q.Solvent) {request : α}
    (hfind : q.inProcess.find? (fun x => x.2 = request) = some x) :
    Tidy ((q.release x.1 request).promote, h) := by
  have hshape := (sameShape_release q x.1 request).trans (sameShape_promote _)
  refine ⟨fun hstatic => tight_promote (ht.tight (hshape.1 ▸ hstatic)) hs hfind,
    fun hqueue hinProcess => ?_,
    ht.recorded.same fun c => by rw [line_promote, line_release]⟩
  obtain ⟨lost, hbooks, hlost⟩ := hs
  have hreleased := hbooks.release hfind
  obtain ⟨heq, hall⟩ | ⟨c, entry, rest, -, -, heq⟩ := (q.release x.1 request).promote_cases
  · rw [heq] at hqueue hinProcess ⊢
    change (q.release x.1 request).queue = [] at hqueue
    change (q.release x.1 request).inProcess = [] at hinProcess
    intro c
    by_contra hne
    have hfull := hall c hne
    have hmark := (sameShape_release q x.1 request).2 c
    have hsub := (hreleased c).1
    have hsome := hlost c
    simp only [load, hqueue, hinProcess, ofCategory_nil, List.length_nil] at hsub
    omega
  · simp [heq, raise, pushBack] at hqueue

end Moves

/-! ### Runs -/

omit [DecidableEq α] in
theorem Books.slotsLost {q : CategoryQueueType α} {lost : Category → Nat} (h : q.Books lost)
    (c : Category) : q.slotsLost c = lost c := by
  have := (h c).1
  simp only [CategoryQueueType.slotsLost]
  omega

theorem Solvent.step {q : CategoryQueueType α} (h : q.Solvent) {op : Op α} (hok : q.StaysFair op) :
    (q.step op).Solvent := by
  obtain ⟨lost, hbooks, hlost⟩ := h
  have hop : op ≠ .flush := by
    rintro rfl
    exact hok
  refine ⟨_, hbooks.step hop, fun c => ?_⟩
  rw [(sameShape_step q op).2 c]
  have hsome := hlost c
  cases op with
  | remove entry =>
    cases hqueued : q.removesQueued entry with
    | none => simpa [loses, hqueued] using hsome
    | some x =>
      have hspare := (hok x hqueued).1
      rw [hbooks.slotsLost] at hspare
      by_cases hc : x.1 = c
      · subst hc
        simpa [loses, hqueued] using hspare
      · simpa [loses, hqueued, hc] using hsome
  | _ => exact hsome

theorem Tidy.step {q : CategoryQueueType α} {h : History α} (ht : Tidy (q, h)) (hs : q.Solvent)
    {op : Op α} (hok : q.StaysFair op) : Tidy (stepRecorded (q, h) op) := by
  -- an admitted entry finds nobody waiting: the static variant defers while somebody waits
  have henter : ∀ type, (q.categories type).submitted ≠ (q.categories type).highWaterMark →
      (q.dynamic = true → (q.categories type).queue = []) → (q.categories type).queue = [] := by
    intro type hroom hdyn
    cases hvariant : q.dynamic with
    | true => exact hdyn hvariant
    | false => exact by_contra fun hne => hroom (ht.tight hvariant type hne)
  cases op with
  | post entry type =>
    simp only [stepRecorded, CategoryQueueType.step, record, post_eq]
    by_cases hdis : q.state = .disabled
    · simpa [hdis] using ht
    by_cases hfull : (q.categories type).submitted = (q.categories type).highWaterMark
    · simp only [hdis, hfull, if_true, if_false]
      exact (ht.defer hs (.inl hfull)).filled
    · simp only [hdis, hfull, if_true, if_false]
      exact (ht.enter (henter type hfull fun hdyn => hok hdyn hdis hfull)).filled
  | insert entry type =>
    simp only [stepRecorded, CategoryQueueType.step, record, insert_eq]
    by_cases hdis : q.state = .disabled
    · simpa [hdis] using ht
    by_cases hlim : q.state = .limited
    · simpa [hlim] using ht
    by_cases hdefers : q.Defers type
    · simp only [hdis, hlim, hdefers, if_true, if_false]
      exact ht.defer hs hdefers
    · simp only [hdis, hlim, hdefers, if_false]
      exact (ht.enter (henter type (fun hfull => hdefers (.inl hfull))
        fun hdyn => hok hdyn hdis hlim hdefers)).filled
  | timeOut entry type => exact absurd hok id
  | extract =>
    simp only [stepRecorded, CategoryQueueType.step, record, extract]
    by_cases hdis : q.state = .disabled
    · simpa [hdis] using ht
    cases hqueue : q.queue with
    | nil => simpa [hdis] using ht
    | cons x rest =>
      simp only [hdis, if_false]
      exact (ht.take hqueue).refreshed
  | remove entry =>
    simp only [stepRecorded, CategoryQueueType.step, record]
    cases hqueued : q.removesQueued entry with
    | some x =>
      obtain ⟨-, l₁, l₂, state, hqueue, heq⟩ := remove_queued hqueued
      rw [heq]
      exact ht.removeQueued hqueue (hok x hqueued).2
    | none =>
      cases hwaiting : q.removesWaiting entry with
      | some c =>
        obtain ⟨hmem, heq⟩ := remove_waiting hwaiting
        rw [heq]
        exact ht.dropWaiting hmem
      | none => simpa only [remove_nothing hqueued hwaiting] using ht
  | completion request =>
    simp only [stepRecorded, CategoryQueueType.step, record]
    obtain heq | ⟨x, hfind, heq | heq⟩ := q.completion_eq request <;> rw [heq]
    · exact ht
    · exact ht.complete hs hfind
    · exact (ht.complete hs hfind).refreshed
  | enable =>
    simp only [stepRecorded, CategoryQueueType.step, record, enable]
    split_ifs
    · exact ht.refreshed
    · exact ht
  | disable => exact ⟨ht.tight, ht.reachable, ht.recorded⟩
  | flush => exact absurd hok id

/-- From a new queue of either variant, a run whose operations stay fair is fair in every state. -/
theorem fair_of_staysFair (dynamic : Bool) (marks : Marks) (ops : List (Op α))
    (hok : Meets stepRecorded (fun s => StaysFair s.1) (new dynamic marks, {}) ops) :
    Always stepRecorded Fair (new dynamic marks, {}) ops := by
  have h0 : (new dynamic marks : CategoryQueueType α).Solvent ∧
      Tidy (new dynamic marks, ({} : History α)) := by
    refine ⟨⟨_, books_new dynamic marks, fun c => ?_⟩, ⟨fun _ c hne => ?_, fun _ _ c => ?_,
      recorded_empty fun c => ?_⟩⟩
    · exact (CategoryAdminType.marked _)
    all_goals cases c
    all_goals first | rfl | exact absurd rfl hne
  refine Always.mono (fun s hs => ⟨hs.2.reachable, hs.2.recorded⟩)
    (hok.always (P := fun s => s.1.Solvent ∧ Tidy s) (fun s op hs hstep => ?_) h0)
  exact ⟨hs.1.step hstep, hs.2.step hs.1 hstep⟩

/-- Two of three entries wait for the one slot of their category and follow in their order. -/
theorem fair_three :
    Always stepRecorded Fair (new false Marks.one, ({} : History Nat))
      [.post 7 .low, .post 8 .low, .post 9 .low, .extract, .remove 8, .completion 7, .extract] := by
  refine fair_of_staysFair false Marks.one _
    ⟨nofun, nofun, nofun, trivial, ?_, trivial, trivial, trivial⟩
  intro x hx
  cases hx

/-- `Remove` takes the entry that holds the slot of its category, and the entry that waits for the
slot is left alone. -/
theorem stranded_remove :
    ¬ Always stepRecorded Fair (new false Marks.one, ({} : History Nat))
      [.post 7 .low, .post 8 .low, .remove 7] := by
  rintro ⟨-, -, -, hreach, -⟩
  exact absurd (hreach rfl rfl .low) (by decide)

end CategoryQueueType

end Thunder.Core
