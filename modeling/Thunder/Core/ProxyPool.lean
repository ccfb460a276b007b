import Thunder.Library.Run
import Thunder.Library.Threads
import Mathlib.Data.List.Basic
import Mathlib.Data.List.Count
import Mathlib.Algebra.BigOperators.Group.Finset.Basic
import Mathlib.Data.Set.Card
import Mathlib.Tactic.Tauto
import Mathlib.Logic.Function.Basic

/-! `ProxyPoolType`: reference counted elements that go back to the pool when the last proxy of
them is released.  An address is a number; threads are those of an arbitrary type. -/

namespace Thunder.Core

open Function Threads

/-- How far a thread is with an element: inside `Element` before the element is made, with the
proxy `element`, with `element` and `result`, with the flying reference as well; or with the
notification that one reference is left. -/
inductive ProxyPool.Phase
  | creating
  | created
  | held
  | flying
  | returning
  deriving DecidableEq

/-- The pool, the counts of its elements, the threads inside it and the proxies of elements that
anybody outside holds.  `handed` and `returned` record what was handed out and what came back. -/
structure ProxyPool (τ : Type) where
  queue : List Nat
  createdElements : Nat
  refCount : Nat → Nat
  clear : Nat → Bool
  next : Nat
  threads : τ → Option (ProxyPool.Phase × Nat)
  proxies : List Nat
  handed : List Nat
  returned : List Nat
  deleted : List Nat

namespace ProxyPool

inductive Action (τ : Type)
  | element (t : τ)
  | createMove (t : τ) (x : Nat)
  | construct (t : τ) (x : Nat)
  | addRef (t : τ) (x : Nat)
  | leave (t : τ) (x : Nat)
  | copy (x : Nat)
  | release (t : τ) (x : Nat)
  | notify (t : τ) (x : Nat)

variable {τ : Type} [DecidableEq τ]

def new (τ : Type) (initialQueueSize : Nat) : ProxyPool τ where
  queue := List.range initialQueueSize
  createdElements := initialQueueSize
  refCount x := if x < initialQueueSize then 1 else 0
  clear _ := true
  next := initialQueueSize
  threads _ := none
  proxies := []
  handed := []
  returned := []
  deleted := []

/-- `ProxyObject::AddRef`, by a thread that goes on. -/
def addRef (s : ProxyPool τ) (x : Nat) : ProxyPool τ :=
  { s with refCount := update s.refCount x (s.refCount x + 1) }

def goes (s : ProxyPool τ) (t : τ) (phase : Option (Phase × Nat)) : ProxyPool τ :=
  { s with threads := update s.threads t phase }

/-- `ProxyObject::Release`: the count, and what the thread does behind it when one reference is
left. -/
def release (s : ProxyPool τ) (t : τ) (x : Nat) (behind : Option (Phase × Nat)) : ProxyPool τ :=
  let lastRef := s.refCount x - 1
  { s with
    refCount := update s.refCount x lastRef
    deleted := if lastRef = 0 then x :: s.deleted else s.deleted
    threads := update s.threads t (if lastRef = 1 then some (.returning, x) else behind) }

/-- The lock section of `Element` with an empty queue. -/
def makeElement (s : ProxyPool τ) (t : τ) : ProxyPool τ :=
  { s with
    createdElements := s.createdElements + 1
    next := s.next + 1
    clear := update s.clear s.next false
    handed := s.next :: s.handed
    threads := update s.threads t (some (.creating, s.next)) }

/-- And with an element in front: the proxies `element` and `result` of it, and the release of the
one in the queue. -/
def reuseElement (s : ProxyPool τ) (t : τ) (x : Nat) (queue : List Nat) : ProxyPool τ :=
  let s := (s.addRef x).addRef x
  let s := { s with queue := queue, clear := update s.clear x false, handed := x :: s.handed }
  s.release t x (some (.held, x))

def takeElement (s : ProxyPool τ) (t : τ) : ProxyPool τ :=
  match s.queue with
  | [] => s.makeElement t
  | x :: queue => s.reuseElement t x queue

/-- `Notify`. -/
def notify (s : ProxyPool τ) (t : τ) (x : Nat) : ProxyPool τ :=
  { s with
    clear := update s.clear x true
    queue := s.queue ++ [x]
    returned := x :: s.returned
    threads := update s.threads t none }

def step (s : ProxyPool τ) : Action τ → Option (ProxyPool τ)
  | .element t => if s.threads t = none then some (s.takeElement t) else none
  | .createMove t x =>
    if s.threads t = some (.creating, x) then
      some ((s.addRef x).goes t (some (.created, x)))
    else none
  | .construct t x =>
    if s.threads t = some (.created, x) then
      some ((s.addRef x).goes t (some (.held, x)))
    else none
  | .addRef t x =>
    if s.threads t = some (.held, x) then
      some ((s.addRef x).goes t (some (.flying, x)))
    else none
  | .leave t x =>
    if s.threads t = some (.flying, x) then
      some { s.release t x none with proxies := x :: s.proxies }
    else none
  | .copy x => if x ∈ s.proxies then some { s.addRef x with proxies := x :: s.proxies } else none
  | .release t x =>
    if s.threads t = none ∧ x ∈ s.proxies then
      some { s.release t x none with proxies := s.proxies.erase x }
    else none
  | .notify t x => if s.threads t = some (.returning, x) then some (s.notify t x) else none

/-! ### What is claimed of it -/

/-- Somebody outside holds an element, or is about to get it from `Element`. -/
def Held (s : ProxyPool τ) (x : Nat) : Prop :=
  x ∈ s.proxies ∨ ∃ t phase, phase ≠ .returning ∧ s.threads t = some (phase, x)

/-- An element is on its way back. -/
def Returning (s : ProxyPool τ) (x : Nat) : Prop := ∃ t, s.threads t = some (.returning, x)

open Classical in
/-- Every element is recycled exactly once for each time it is handed out. -/
structure Recycled (s : ProxyPool τ) : Prop where
  apart : ∀ x ∈ s.queue, ¬ s.Held x ∧ ¬ s.Returning x
  lone : ∀ t phase x, s.threads t = some (phase, x) →
    x ∉ s.proxies ∧ ∀ t' phase', s.threads t' = some (phase', x) → t' = t
  nodup : s.queue.Nodup
  accounted : s.createdElements =
    s.queue.length + {x | s.Held x}.ncard + {x | s.Returning x}.ncard
  cleared : ∀ x ∈ s.queue, s.clear x = true
  once : ∀ x, s.handed.count x =
    s.returned.count x + if s.Held x ∨ s.Returning x then 1 else 0
  alive : s.deleted = []

/-! ### One element -/

/-- What there is of one element: how often it lies in the queue, how many proxies there are
outside, its count, how often it was handed out, returned and deleted, and which threads are at it.
-/
structure View (τ : Type) where
  queued : Nat
  outside : Nat
  refCount : Nat
  handed : Nat
  returned : Nat
  deleted : Nat
  clear : Bool
  phase : τ → Option Phase

def view (s : ProxyPool τ) (x : Nat) : View τ where
  queued := s.queue.count x
  outside := s.proxies.count x
  refCount := s.refCount x
  handed := s.handed.count x
  returned := s.returned.count x
  deleted := s.deleted.count x
  clear := s.clear x
  phase t := phaseAt x (s.threads t)

/-- How many references a thread has. -/
def Phase.references : Phase → Nat
  | .creating => 0
  | .created | .returning => 1
  | .held => 2
  | .flying => 3

/-- An element lies in the queue, or one thread is at it, or there are proxies outside and the
flying reference. -/
inductive View.Valid : View τ → Prop
  | queued (n : Nat) : Valid ⟨1, 0, 1, n, n, 0, true, fun _ => none⟩
  | busy (t : τ) (phase : Phase) (n : Nat) (clear : Bool) :
    Valid ⟨0, 0, phase.references, n + 1, n, 0, clear, update (fun _ => none) t (some phase)⟩
  | outside (k n : Nat) (clear : Bool) : Valid ⟨0, k + 1, k + 2, n + 1, n, 0, clear, fun _ => none⟩

/-- No element has this address yet. -/
def View.Fresh (v : View τ) : Prop := ∃ clear, v = ⟨0, 0, 0, 0, 0, 0, clear, fun _ => none⟩

structure Inv (s : ProxyPool τ) : Prop where
  valid : ∀ x < s.next, (s.view x).Valid
  fresh : ∀ x, s.next ≤ x → (s.view x).Fresh
  created : s.createdElements = s.next

section

variable {s s' : ProxyPool τ} {t : τ} {x y : Nat} {phase : Phase} {p : Option (Phase × Nat)}

theorem Inv.of_one (h : Inv s) (y : Nat) (hothers : ∀ x, x ≠ y → s'.view x = s.view x)
    (hvalid : (s'.view y).Valid)
    (hcreated : s'.createdElements + s.next = s.createdElements + s'.next)
    (hnext : y < s.next ∧ s'.next = s.next ∨ y = s.next ∧ s'.next = s.next + 1) : Inv s' := by
  have hcreated' := h.created
  refine ⟨fun x hx => ?_, fun x hx => ?_, by omega⟩
  · rcases eq_or_ne x y with rfl | hne
    · exact hvalid
    · rw [hothers x hne]
      exact h.valid x (by omega)
  · rw [hothers x (by omega)]
    exact h.fresh x (by omega)

/-- The thread at an element is alone there. -/
theorem Inv.busy (h : Inv s) (ht : s.threads t = some (phase, x)) :
    x < s.next ∧ ∃ n clear, s.view x =
      ⟨0, 0, phase.references, n + 1, n, 0, clear, update (fun _ => none) t (some phase)⟩ := by
  have hphase : (s.view x).phase t = some phase := (congrArg (phaseAt x) ht).trans phaseAt_self
  by_cases hx : x < s.next
  · refine ⟨hx, ?_⟩
    have hvalid := h.valid x hx
    revert hphase
    generalize s.view x = v at hvalid
    cases hvalid with
    | queued n => exact nofun
    | outside k n clear => exact nofun
    | busy t' phase' n clear =>
      intro hphase
      dsimp only at hphase
      obtain ⟨rfl, rfl⟩ := alone hphase
      exact ⟨n, clear, rfl⟩
  · obtain ⟨clear, hv⟩ := h.fresh x (Nat.le_of_not_lt hx)
    rw [hv] at hphase
    cases hphase

theorem Inv.of_queue (h : Inv s) (hx : x ∈ s.queue) :
    x < s.next ∧ ∃ n, s.view x = ⟨1, 0, 1, n, n, 0, true, fun _ => none⟩ := by
  have hqueued : 0 < (s.view x).queued := List.count_pos_iff.mpr hx
  by_cases hlt : x < s.next
  · refine ⟨hlt, ?_⟩
    have hvalid := h.valid x hlt
    revert hqueued
    generalize s.view x = v at hvalid
    cases hvalid with
    | queued n => exact fun _ => ⟨n, rfl⟩
    | outside | busy => exact fun hqueued => absurd hqueued (Nat.lt_irrefl 0)
  · obtain ⟨clear, hv⟩ := h.fresh x (Nat.le_of_not_lt hlt)
    rw [hv] at hqueued
    exact absurd hqueued (Nat.lt_irrefl 0)

theorem Inv.of_proxies (h : Inv s) (hx : x ∈ s.proxies) :
    x < s.next ∧ ∃ k n clear, s.view x = ⟨0, k + 1, k + 2, n + 1, n, 0, clear, fun _ => none⟩ := by
  have houtside : 0 < (s.view x).outside := List.count_pos_iff.mpr hx
  by_cases hlt : x < s.next
  · refine ⟨hlt, ?_⟩
    have hvalid := h.valid x hlt
    revert houtside
    generalize s.view x = v at hvalid
    cases hvalid with
    | outside k n clear => exact fun _ => ⟨k, n, clear, rfl⟩
    | queued | busy => exact fun houtside => absurd houtside (Nat.lt_irrefl 0)
  · obtain ⟨clear, hv⟩ := h.fresh x (Nat.le_of_not_lt hlt)
    rw [hv] at houtside
    exact absurd houtside (Nat.lt_irrefl 0)

/-- The other elements, where a thread goes from one element on. -/
theorem view_other (hne : x ≠ y) (hbefore : ∀ z phase, s.threads t = some (phase, z) → z = y)
    (hp : ∀ z phase, p = some (phase, z) → z = y) (hqueue : s'.queue.count x = s.queue.count x)
    (hproxies : s'.proxies.count x = s.proxies.count x) (hcount : s'.refCount x = s.refCount x)
    (hhanded : s'.handed.count x = s.handed.count x)
    (hreturned : s'.returned.count x = s.returned.count x)
    (hdeleted : s'.deleted.count x = s.deleted.count x) (hclear : s'.clear x = s.clear x)
    (hthreads : s'.threads = update s.threads t p) : s'.view x = s.view x := by
  rw [view, view, hqueue, hproxies, hcount, hhanded, hreturned, hdeleted, hclear, hthreads,
    phase_other _ hne hbefore hp]

/-- A step inside `Element`, with one more reference. -/
theorem Inv.advance (h : Inv s) (ht : s.threads t = some (phase, x)) {phase' : Phase}
    (hphase : phase'.references = phase.references + 1) :
    Inv ((s.addRef x).goes t (some (phase', x))) := by
  obtain ⟨hx, n, clear, hview⟩ := h.busy ht
  have hat : ∀ z phase', s.threads t = some (phase', z) → z = x := by
    rintro z phase' hz
    rw [ht] at hz
    cases hz
    rfl
  refine h.of_one x (fun z hne => ?_) ?_ rfl (.inl ⟨hx, rfl⟩)
  · refine view_other hne hat (fun z phase hz => ?_) rfl rfl (update_of_ne hne _ _) rfl rfl rfl rfl
      rfl
    cases hz
    rfl
  · have hnew : ((s.addRef x).goes t (some (phase', x))).view x =
        { s.view x with
          refCount := (s.view x).refCount + 1
          phase := update (s.view x).phase t (some phase') } := by
      simp [view, goes, addRef, phase_update]
    rw [hnew, hview, ← hphase, update_idem]
    exact .busy t phase' n clear

/-- A release by a thread that is at no other element. -/
theorem release_other (hne : x ≠ y) (hbefore : ∀ z phase, s.threads t = some (phase, z) → z = y)
    (hp : ∀ z phase, p = some (phase, z) → z = y) : (s.release t y p).view x = s.view x := by
  refine view_other (p := if s.refCount y - 1 = 1 then some (.returning, y) else p) hne hbefore ?_
    rfl rfl (update_of_ne hne _ _) rfl rfl ?_ rfl rfl
  · intro z phase hz
    split_ifs at hz
    · cases hz
      rfl
    · exact hp z phase hz
  · rw [release]
    dsimp only
    split_ifs
    · rw [List.count_cons_of_ne hne.symm]
    · rfl

/-- The element of a release. -/
theorem release_self {lastRef : Nat} (hcount : s.refCount x = lastRef + 1) (hpos : lastRef ≠ 0) :
    (s.release t x p).view x =
      { s.view x with
        refCount := lastRef
        phase := update (s.view x).phase t
          (if lastRef = 1 then some .returning else phaseAt x p) } := by
  have hlast : s.refCount x - 1 = lastRef := by omega
  have hif : phaseAt x (if lastRef = 1 then some (.returning, x) else p) =
      if lastRef = 1 then some .returning else phaseAt x p := by
    split_ifs
    · exact phaseAt_self
    · rfl
  rw [release, hlast]
  simp [view, phase_update, hpos, hif]

omit [DecidableEq τ] in
theorem view_proxies (proxies : List Nat) :
    view { s with proxies := proxies } x = { s.view x with outside := proxies.count x } := rfl

omit [DecidableEq τ] in
/-- What a change of the proxies of one element leaves to the others. -/
theorem proxies_other {proxies : List Nat} (hview : s'.view x = s.view x)
    (hproxies : proxies.count x = s.proxies.count x) :
    view { s' with proxies := proxies } x = s.view x := by
  rw [view_proxies, hview, hproxies]
  rfl

theorem Inv.make (h : Inv s) (ht : s.threads t = none) : Inv (s.makeElement t) := by
  refine h.of_one s.next (fun x hne => ?_) ?_ (by dsimp only [makeElement]; omega) (.inr ⟨rfl, rfl⟩)
  · refine view_other (p := some (.creating, s.next)) hne ?_ ?_ rfl rfl rfl
      (List.count_cons_of_ne hne.symm) rfl rfl (update_of_ne hne _ _) rfl
    · rw [ht]
      exact nofun
    · rintro z phase ⟨⟩
      rfl
  · obtain ⟨clear, hfresh⟩ := h.fresh s.next (Nat.le_refl _)
    have hnew : (s.makeElement t).view s.next =
        { s.view s.next with
          handed := (s.view s.next).handed + 1
          clear := false
          phase := update (s.view s.next).phase t (some .creating) } := by
      simp [view, makeElement, phase_update]
    rw [hnew, hfresh]
    exact .busy t .creating 0 false

theorem Inv.reuse (h : Inv s) (ht : s.threads t = none) {queue : List Nat}
    (hqueue : s.queue = x :: queue) : Inv (s.reuseElement t x queue) := by
  obtain ⟨hx, n, hview⟩ := h.of_queue (x := x) (hqueue ▸ List.mem_cons_self)
  have hbefore : ∀ z phase, s.threads t = some (phase, z) → z = x := by
    rw [ht]
    exact nofun
  -- The state in front of the release.
  let s₁ : ProxyPool τ := { (s.addRef x).addRef x with
    queue := queue
    clear := update s.clear x false
    handed := x :: s.handed }
  have hone : s.refCount x = 1 := congrArg View.refCount hview
  have hcount : s₁.refCount x = 2 + 1 := by
    simp [s₁, addRef, hone]
  refine h.of_one x (fun z hne => ?_) ?_ rfl (.inl ⟨hx, rfl⟩)
  · refine (release_other (s := s₁) hne hbefore ?_).trans ?_
    · rintro z phase ⟨⟩
      rfl
    · simp [view, s₁, addRef, hne, hne.symm, hqueue]
  · have hnew : s₁.view x = { s.view x with
        queued := (s.view x).queued - 1
        refCount := (s.view x).refCount + 2
        handed := (s.view x).handed + 1
        clear := false } := by
      simp [view, s₁, addRef, hqueue]
    have hself : (s.reuseElement t x queue).view x = _ :=
      release_self (s := s₁) (t := t) (p := some (.held, x)) hcount (by decide)
    rw [hself, hnew, hview, if_neg (by decide), phaseAt_self]
    exact .busy t .held n false

theorem Inv.element (h : Inv s) (ht : s.threads t = none) : Inv (s.takeElement t) := by
  rw [takeElement]
  cases hqueue : s.queue with
  | nil => exact h.make ht
  | cons x queue => exact h.reuse ht hqueue

theorem Inv.leave (h : Inv s) (ht : s.threads t = some (.flying, x)) :
    Inv { s.release t x none with proxies := x :: s.proxies } := by
  obtain ⟨hx, n, clear, hview⟩ := h.busy ht
  have hcount : s.refCount x = 2 + 1 := congrArg View.refCount hview
  have hnone : s.proxies.count x = 0 := congrArg View.outside hview
  refine h.of_one x (fun z hne => ?_) ?_ rfl (.inl ⟨hx, rfl⟩)
  · refine proxies_other (release_other hne ?_ nofun) (List.count_cons_of_ne hne.symm)
    rw [ht]
    rintro z phase ⟨⟩
    rfl
  · rw [view_proxies, release_self hcount (by decide), hview, List.count_cons_self, hnone,
      if_neg (by decide), phaseAt_none, update_idem, update_eq_self_iff.mpr rfl]
    exact .outside 0 n clear

theorem Inv.copy (h : Inv s) (hx : x ∈ s.proxies) :
    Inv { s.addRef x with proxies := x :: s.proxies } := by
  obtain ⟨hlt, k, n, clear, hview⟩ := h.of_proxies hx
  have hproxies : s.proxies.count x = k + 1 := congrArg View.outside hview
  refine h.of_one x (fun z hne => ?_) ?_ rfl (.inl ⟨hlt, rfl⟩)
  · refine proxies_other ?_ (List.count_cons_of_ne hne.symm)
    simp [view, addRef, hne]
  · have hnew : (s.addRef x).view x =
        { s.view x with refCount := (s.view x).refCount + 1 } := by
      simp [view, addRef]
    rw [view_proxies, hnew, hview, List.count_cons_self, hproxies]
    exact .outside (k + 1) n clear

theorem Inv.released (h : Inv s) (ht : s.threads t = none) (hx : x ∈ s.proxies) :
    Inv { s.release t x none with proxies := s.proxies.erase x } := by
  obtain ⟨hlt, k, n, clear, hview⟩ := h.of_proxies hx
  have hcount : s.refCount x = k + 1 + 1 := congrArg View.refCount hview
  have hproxies : s.proxies.count x = k + 1 := congrArg View.outside hview
  refine h.of_one x (fun z hne => ?_) ?_ rfl (.inl ⟨hlt, rfl⟩)
  · refine proxies_other (release_other hne ?_ nofun) (List.count_erase_of_ne hne)
    rw [ht]
    exact nofun
  · rw [view_proxies, release_self hcount (Nat.succ_ne_zero k), hview, List.count_erase_self,
      hproxies, phaseAt_none]
    cases k with
    | zero => exact .busy t .returning n clear
    | succ k =>
      rw [if_neg (by omega), update_eq_self_iff.mpr rfl]
      exact .outside k n clear

theorem Inv.notify (h : Inv s) (ht : s.threads t = some (.returning, x)) :
    Inv (s.notify t x) := by
  obtain ⟨hx, n, clear, hview⟩ := h.busy ht
  refine h.of_one x (fun z hne => ?_) ?_ rfl (.inl ⟨hx, rfl⟩)
  · refine view_other (p := none) hne ?_ nofun ?_ rfl rfl rfl (List.count_cons_of_ne hne.symm) rfl
      (update_of_ne hne _ _) rfl
    · rw [ht]
      rintro z phase ⟨⟩
      rfl
    · have hother : [x].count z = 0 := List.count_eq_zero_of_not_mem (by simpa using hne)
      rw [ProxyPool.notify, List.count_append, hother, Nat.add_zero]
  · have hnew : (s.notify t x).view x =
        { s.view x with
          queued := (s.view x).queued + 1
          returned := (s.view x).returned + 1
          clear := true
          phase := update (s.view x).phase t none } := by
      simp [view, ProxyPool.notify, phase_update]
    rw [hnew, hview, update_idem, update_eq_self_iff.mpr rfl]
    exact .queued (n + 1)

/-- A step keeps what there is of each element. -/
theorem Inv.step {a : Action τ} (h : Inv s) (hstep : s.step a = some s') : Inv s' := by
  cases a <;> simp only [ProxyPool.step, Option.ite_none_right_eq_some] at hstep <;>
    obtain ⟨hready, ⟨⟩⟩ := hstep
  case element t => exact h.element hready
  case createMove t x => exact h.advance hready rfl
  case construct t x => exact h.advance hready rfl
  case addRef t x => exact h.advance hready rfl
  case leave t x => exact h.leave hready
  case copy x => exact h.copy hready
  case release t x => exact h.released hready.1 hready.2
  case notify t x => exact h.notify hready

theorem inv_new (initialQueueSize : Nat) : Inv (new τ initialQueueSize) := by
  have hview : ∀ x, (new τ initialQueueSize).view x =
      ⟨(List.range initialQueueSize).count x, 0, if x < initialQueueSize then 1 else 0, 0, 0, 0,
        true, fun _ => none⟩ := fun _ => rfl
  refine ⟨fun x hx => ?_, fun x hx => ⟨true, ?_⟩, rfl⟩
  · replace hx : x < initialQueueSize := hx
    rw [hview, if_pos hx, List.count_eq_one_of_mem List.nodup_range (List.mem_range.mpr hx)]
    exact .queued 0
  · replace hx : initialQueueSize ≤ x := hx
    rw [hview, if_neg (Nat.not_lt.mpr hx),
      List.count_eq_zero_of_not_mem fun hmem => Nat.not_lt.mpr hx (List.mem_range.mp hmem)]

/-! ### All elements -/

omit [DecidableEq τ] in
theorem mem_queue : x ∈ s.queue ↔ (s.view x).queued ≠ 0 := by
  rw [view, ← Nat.pos_iff_ne_zero, List.count_pos_iff]

omit [DecidableEq τ] in
theorem mem_proxies : x ∈ s.proxies ↔ (s.view x).outside ≠ 0 := by
  rw [view, ← Nat.pos_iff_ne_zero, List.count_pos_iff]

omit [DecidableEq τ] in
theorem threads_eq : s.threads t = some (phase, x) ↔ (s.view x).phase t = some phase :=
  phaseAt_eq_some.symm

omit [DecidableEq τ] in
theorem held_iff : s.Held x ↔ (s.view x).outside ≠ 0 ∨
    ∃ t phase, phase ≠ .returning ∧ (s.view x).phase t = some phase := by
  rw [Held, mem_proxies]
  exact or_congr_right (exists_congr fun t => exists_congr fun phase =>
    and_congr_right fun _ => threads_eq)

omit [DecidableEq τ] in
theorem returning_iff : s.Returning x ↔ ∃ t, (s.view x).phase t = some .returning :=
  exists_congr fun _ => threads_eq

/-- Where an element is: in the queue, held outside, or on its way back. -/
theorem Inv.somewhere (h : Inv s) (x : Nat) :
    (x < s.next ∧ x ∈ s.queue ∧ ¬ s.Held x ∧ ¬ s.Returning x) ∨
    (x < s.next ∧ x ∉ s.queue ∧ s.Held x ∧ ¬ s.Returning x) ∨
    (x < s.next ∧ x ∉ s.queue ∧ ¬ s.Held x ∧ s.Returning x) ∨
    (s.next ≤ x ∧ x ∉ s.queue ∧ ¬ s.Held x ∧ ¬ s.Returning x) := by
  rw [mem_queue, held_iff, returning_iff]
  rcases Nat.lt_or_ge x s.next with hx | hx
  · have hvalid := h.valid x hx
    generalize s.view x = v at hvalid
    cases hvalid with
    | queued n => simp [hx]
    | outside k n clear => simp [hx]
    | busy t phase n clear =>
      by_cases hreturning : phase = .returning
      · subst hreturning
        refine .inr (.inr (.inl ⟨hx, by simp, ?_, t, by simp⟩))
        rintro (hne | ⟨t', phase', hne, ht'⟩)
        · exact hne rfl
        · exact hne (alone ht').2
      · refine .inr (.inl ⟨hx, by simp, .inr ⟨t, phase, hreturning, by simp⟩, ?_⟩)
        rintro ⟨t', ht'⟩
        exact hreturning (alone ht').2.symm
  · obtain ⟨clear, hfresh⟩ := h.fresh x hx
    rw [hfresh]
    simp [hx]

theorem Inv.lone (h : Inv s) (ht : s.threads t = some (phase, x)) :
    x ∉ s.proxies ∧ ∀ t' phase', s.threads t' = some (phase', x) → t' = t := by
  obtain ⟨-, n, clear, hview⟩ := h.busy ht
  rw [mem_proxies, hview]
  refine ⟨by simp, fun t' phase' ht' => ?_⟩
  rw [threads_eq, hview] at ht'
  exact (alone ht').1

theorem Inv.nodup (h : Inv s) : s.queue.Nodup := by
  rw [List.nodup_iff_count_le_one]
  intro x
  by_cases hx : x ∈ s.queue
  · obtain ⟨-, n, hview⟩ := h.of_queue hx
    exact Nat.le_of_eq (congrArg View.queued hview)
  · rw [List.count_eq_zero_of_not_mem hx]
    exact Nat.zero_le 1

open Classical in
theorem Inv.accounted (h : Inv s) : s.createdElements =
    s.queue.length + {x | s.Held x}.ncard + {x | s.Returning x}.ncard := by
  have hset : ∀ P : Nat → Prop, (∀ x, P x → x < s.next) →
      {x | P x}.ncard = ∑ x ∈ Finset.range s.next, if P x then 1 else 0 := by
    intro P hP
    rw [← Finset.card_filter, ← Set.ncard_coe_finset]
    refine congrArg Set.ncard (Set.ext fun x => ?_)
    simp only [Set.mem_ofPred_eq, Finset.coe_filter, Finset.mem_range]
    exact ⟨fun hx => ⟨hP x hx, hx⟩, And.right⟩
  have hlt : ∀ x, (x ∈ s.queue ∨ s.Held x ∨ s.Returning x) → x < s.next := by
    intro x hx
    have := h.somewhere x
    tauto
  have hqueue : s.queue.length = {x | x ∈ s.queue}.ncard := by
    rw [← List.toFinset_card_of_nodup h.nodup, ← Set.ncard_coe_finset, List.coe_toFinset]
  rw [hqueue, hset _ fun x hx => hlt x (.inl hx), hset _ fun x hx => hlt x (.inr (.inl hx)),
    hset _ fun x hx => hlt x (.inr (.inr hx)), ← Finset.sum_add_distrib,
    ← Finset.sum_add_distrib, h.created]
  have hone : ∑ x ∈ Finset.range s.next, 1 = s.next := by
    rw [Finset.sum_const, Finset.card_range, Nat.nsmul_eq_mul, Nat.mul_one]
  refine hone.symm.trans (Finset.sum_congr rfl fun x hx => ?_)
  rw [Finset.mem_range] at hx
  rcases h.somewhere x with ⟨-, hq, hh, hr⟩ | ⟨-, hq, hh, hr⟩ | ⟨-, hq, hh, hr⟩ | ⟨hge, -⟩
  · simp [hq, hh, hr]
  · simp [hq, hh, hr]
  · simp [hq, hh, hr]
  · omega

open Classical in
theorem Inv.once (h : Inv s) (x : Nat) : s.handed.count x =
    s.returned.count x + if s.Held x ∨ s.Returning x then 1 else 0 := by
  have hhanded : s.handed.count x = (s.view x).handed := rfl
  have hreturned : s.returned.count x = (s.view x).returned := rfl
  have hsomewhere := h.somewhere x
  rw [mem_queue] at hsomewhere
  rw [hhanded, hreturned]
  rcases Nat.lt_or_ge x s.next with hx | hx
  · have hge : ¬ s.next ≤ x := Nat.not_le.mpr hx
    have hvalid := h.valid x hx
    generalize s.view x = v at hvalid hsomewhere
    cases hvalid with
    | queued n =>
      rw [if_neg (by simp at hsomewhere; tauto)]
      rfl
    | busy t phase n clear =>
      rw [if_pos (by simp at hsomewhere; tauto)]
    | outside k n clear =>
      rw [if_pos (by simp at hsomewhere; tauto)]
  · obtain ⟨clear, hfresh⟩ := h.fresh x hx
    have hnot : ¬ x < s.next := Nat.not_lt.mpr hx
    rw [hfresh, if_neg (by tauto)]

theorem Inv.alive (h : Inv s) : s.deleted = [] := by
  refine List.eq_nil_iff_forall_not_mem.mpr fun x hx => ?_
  have hdeleted : (s.view x).deleted = 0 := by
    rcases Nat.lt_or_ge x s.next with hlt | hge
    · have hvalid := h.valid x hlt
      generalize s.view x = v at hvalid
      cases hvalid <;> rfl
    · obtain ⟨clear, hfresh⟩ := h.fresh x hge
      rw [hfresh]
  exact absurd (List.count_pos_iff.mpr hx) (Nat.not_lt.mpr (Nat.le_of_eq hdeleted))

theorem Inv.recycled (h : Inv s) : s.Recycled where
  apart x hx := by
    have := h.somewhere x
    tauto
  lone _ _ _ ht := h.lone ht
  nodup := h.nodup
  accounted := h.accounted
  cleared x hx := by
    obtain ⟨-, n, hview⟩ := h.of_queue hx
    exact congrArg View.clear hview
  once := h.once
  alive := h.alive

/-- In every run every element is recycled exactly once for each time it is handed out. -/
theorem recycled_of_reach {initialQueueSize : Nat} {s : ProxyPool τ}
    (h : Run.Reach (fun s a s' => s.step a = some s') (fun _ _ => True)
      (new τ initialQueueSize) s) :
    s.Recycled :=
  (h.invariant (inv_new initialQueueSize) fun _ _ _ hinv _ hstep => hinv.step hstep).recycled

/-- One thread takes the element that is there, a second one has another one made while the first
proxy is copied and released. -/
theorem recycled_two : ∃ s : ProxyPool Bool,
    Run.Reach (fun s a s' => s.step a = some s') (fun _ _ => True) (new Bool 1) s ∧
      s.queue = [0, 1] ∧ s.handed = [1, 0] ∧ s.Recycled := by
  have hreach : Run.Reach (fun s a s' => s.step a = some s') (fun _ _ => True) (new Bool 1) _ :=
    Run.Reach.start
    |>.step (a := .element false) trivial rfl
    |>.step (a := .element true) trivial rfl
    |>.step (a := .addRef false 0) trivial rfl
    |>.step (a := .leave false 0) trivial rfl
    |>.step (a := .createMove true 1) trivial rfl
    |>.step (a := .copy 0) trivial rfl
    |>.step (a := .construct true 1) trivial rfl
    |>.step (a := .release false 0) trivial rfl
    |>.step (a := .addRef true 1) trivial rfl
    |>.step (a := .release false 0) trivial rfl
    |>.step (a := .leave true 1) trivial rfl
    |>.step (a := .notify false 0) trivial rfl
    |>.step (a := .release true 1) trivial rfl
    |>.step (a := .notify true 1) trivial rfl
  exact ⟨_, hreach, by decide, by decide, recycled_of_reach hreach⟩

end

end ProxyPool

end Thunder.Core
