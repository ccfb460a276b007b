import Thunder.Library.Run
import Thunder.Library.Threads
import Mathlib.Data.List.Basic
import Mathlib.Data.List.Count
import Mathlib.Data.List.Nodup

/-! `ProxyMapType`: one shared object for each key, which leaves the map when the last proxy of it
is released.  An address is a number; keys and threads are those of arbitrary types. -/

namespace Thunder.Core

open Function Threads

/-- A thread that is left with the notification that one reference is left: before it looks for the
parent of the object, and before the lock section of `Notify`. -/
inductive ProxyMap.Phase
  | relinquishing
  | notifying
  deriving DecidableEq

/-- The map, its objects, the threads with a notification and the proxies that anybody outside
holds. `keyOf` records for which key an object was made, `removed` the entries that were erased and
`late` the notifications of objects that were destroyed before. -/
structure ProxyMap (κ τ : Type) where
  map : List (κ × Nat)
  refCount : Nat → Nat
  linked : Nat → Bool
  next : Nat
  threads : τ → Option (ProxyMap.Phase × Nat)
  proxies : List Nat
  keyOf : Nat → Option κ
  deleted : List Nat
  removed : List Nat
  late : List Nat

namespace ProxyMap

inductive Action (κ τ : Type)
  | instanceOf (key : κ)
  | find (key : κ)
  | visit (copied : List κ)
  | copy (x : Nat)
  | release (t : τ) (x : Nat)
  | look (t : τ) (x : Nat)
  | notify (t : τ) (x : Nat)

variable {κ τ : Type} [DecidableEq κ] [DecidableEq τ]

def new (κ τ : Type) : ProxyMap κ τ where
  map := []
  refCount _ := 0
  linked _ := false
  next := 0
  threads _ := none
  proxies := []
  keyOf _ := none
  deleted := []
  removed := []
  late := []

def lookup (s : ProxyMap κ τ) (key : κ) : Option Nat :=
  (s.map.find? fun entry => entry.1 = key).map Prod.snd

/-- A proxy of an object is copied. -/
def take (s : ProxyMap κ τ) (x : Nat) : ProxyMap κ τ :=
  { s with refCount := update s.refCount x (s.refCount x + 1), proxies := x :: s.proxies }

/-- A new object, with the proxy in the map and the one that is the result. -/
def create (s : ProxyMap κ τ) (key : κ) : ProxyMap κ τ :=
  { s with
    map := (key, s.next) :: s.map
    refCount := update s.refCount s.next 2
    linked := update s.linked s.next true
    next := s.next + 1
    keyOf := update s.keyOf s.next (some key)
    proxies := s.next :: s.proxies }

def find (s : ProxyMap κ τ) (key : κ) : ProxyMap κ τ :=
  match s.lookup key with
  | none => s
  | some x => s.take x

def instanceOf (s : ProxyMap κ τ) (key : κ) : ProxyMap κ τ :=
  match s.lookup key with
  | none => s.create key
  | some x => s.take x

/-- The count of `ProxyObject::Release`. -/
def drop (s : ProxyMap κ τ) (x : Nat) : ProxyMap κ τ :=
  { s with
    refCount := update s.refCount x (s.refCount x - 1)
    deleted := if s.refCount x - 1 = 0 then x :: s.deleted else s.deleted }

/-- A proxy outside is released, and the thread goes on with the notification when one reference is
left. -/
def release (s : ProxyMap κ τ) (t : τ) (x : Nat) : ProxyMap κ τ :=
  { s.drop x with
    proxies := s.proxies.erase x
    threads :=
      update s.threads t (if s.refCount x - 1 = 1 then some (.relinquishing, x) else none) }

/-- `Relinquish` of the object. -/
def look (s : ProxyMap κ τ) (t : τ) (x : Nat) : ProxyMap κ τ :=
  { s with
    late := if x ∈ s.deleted then x :: s.late else s.late
    threads := update s.threads t
      (if x ∉ s.deleted ∧ s.linked x = true then some (.notifying, x) else none) }

/-- The lock section of `Notify`.  An object that is left with one reference by it has no parent any
more. -/
def notify (s : ProxyMap κ τ) (t : τ) (x : Nat) : ProxyMap κ τ :=
  if ∃ entry ∈ s.map, entry.2 = x then
    { s.drop x with
      map := s.map.eraseP fun entry => entry.2 = x
      linked := update s.linked x false
      removed := x :: s.removed
      threads := update s.threads t none }
  else { s with threads := update s.threads t none }

def step (s : ProxyMap κ τ) : Action κ τ → Option (ProxyMap κ τ)
  | .instanceOf key => some (s.instanceOf key)
  | .find key => some (s.find key)
  | .visit copied => some (copied.foldl find s)
  | .copy x => if x ∈ s.proxies then some (s.take x) else none
  | .release t x => if s.threads t = none ∧ x ∈ s.proxies then some (s.release t x) else none
  | .look t x => if s.threads t = some (.relinquishing, x) then some (s.look t x) else none
  | .notify t x => if s.threads t = some (.notifying, x) then some (s.notify t x) else none

/-! ### What is claimed of it -/

/-- The objects that anybody holds are those of the map, one for a key; an entry is erased once,
when nobody holds its object, and no notification comes late. -/
structure Unique (s : ProxyMap κ τ) : Prop where
  found : ∀ x ∈ s.proxies, ∃ key, s.keyOf x = some key ∧ s.lookup key = some x
  one : ∀ x ∈ s.proxies, ∀ y ∈ s.proxies, s.keyOf x = s.keyOf y → x = y
  alive : ∀ x ∈ s.proxies, x ∉ s.deleted
  erased : s.removed.Nodup ∧ ∀ x, x < s.next → (x ∈ s.removed ↔ ∀ entry ∈ s.map, entry.2 ≠ x)
  unheld : ∀ x ∈ s.removed, x ∉ s.proxies
  intime : s.late = []

/-- The object of a key is not the one whose last proxy outside has been released. -/
def Present (s : ProxyMap κ τ) (key : κ) : Prop := ∀ x, s.lookup key = some x → s.refCount x ≠ 1

/-- Nobody looks up an object between the release that leaves it with one reference and the lock
section that takes it out of the map. -/
def Timely (s : ProxyMap κ τ) : Action κ τ → Prop
  | .instanceOf key => s.Present key
  | .find key => s.Present key
  | .visit copied => ∀ key ∈ copied, s.Present key
  | _ => True

/-! ### One object -/

/-- What there is of one object. -/
structure View (κ τ : Type) where
  entries : Nat
  outside : Nat
  refCount : Nat
  linked : Bool
  key : Option κ
  deleted : Nat
  removed : Nat
  late : Nat
  phase : τ → Option Phase

def view (s : ProxyMap κ τ) (x : Nat) : View κ τ where
  entries := (s.map.map Prod.snd).count x
  outside := s.proxies.count x
  refCount := s.refCount x
  linked := s.linked x
  key := s.keyOf x
  deleted := s.deleted.count x
  removed := s.removed.count x
  late := s.late.count x
  phase t := phaseAt x (s.threads t)

/-- An object is held outside, or one thread is on its way to erase it, or it is gone. -/
inductive View.Valid : View κ τ → Prop
  | held (n : Nat) (key : κ) : Valid ⟨1, n + 1, n + 2, true, some key, 0, 0, 0, fun _ => none⟩
  | going (t : τ) (phase : Phase) (key : κ) :
    Valid ⟨1, 0, 1, true, some key, 0, 0, 0, update (fun _ => none) t (some phase)⟩
  | gone (key : κ) : Valid ⟨0, 0, 0, false, some key, 1, 1, 0, fun _ => none⟩

def View.fresh : View κ τ := ⟨0, 0, 0, false, none, 0, 0, 0, fun _ => none⟩

structure Inv (s : ProxyMap κ τ) : Prop where
  valid : ∀ x < s.next, (s.view x).Valid
  fresh : ∀ x, s.next ≤ x → s.view x = View.fresh
  keys : (s.map.map Prod.fst).Nodup
  keyOf : ∀ entry ∈ s.map, s.keyOf entry.2 = some entry.1

section

variable {s s' : ProxyMap κ τ} {t : τ} {x y : Nat} {phase : Phase} {key : κ}

omit [DecidableEq τ] in
theorem lookup_mem (h : s.lookup key = some x) : (key, x) ∈ s.map := by
  rw [lookup, Option.map_eq_some_iff] at h
  obtain ⟨entry, hfind, rfl⟩ := h
  have hkey := List.find?_some hfind
  rw [decide_eq_true_eq] at hkey
  rw [← hkey]
  exact List.mem_of_find?_eq_some hfind

omit [DecidableEq τ] in
theorem lookup_none (h : s.lookup key = none) : key ∉ s.map.map Prod.fst := by
  rw [lookup, Option.map_eq_none_iff, List.find?_eq_none] at h
  intro hmem
  obtain ⟨entry, hentry, rfl⟩ := List.mem_map.mp hmem
  exact h entry hentry (decide_eq_true rfl)

theorem Inv.lookup_of_mem (h : Inv s) (hmem : (key, x) ∈ s.map) : s.lookup key = some x := by
  cases hlookup : s.lookup key with
  | none => exact absurd (List.mem_map_of_mem hmem) (lookup_none hlookup)
  | some y =>
    have heq := List.inj_on_of_nodup_map h.keys (lookup_mem hlookup) hmem rfl
    cases heq
    rfl

omit [DecidableEq κ] in
theorem Inv.of_one (h : Inv s) (y : Nat) (hothers : ∀ x, x ≠ y → s'.view x = s.view x)
    (hvalid : (s'.view y).Valid)
    (hnext : y < s.next ∧ s'.next = s.next ∨ y = s.next ∧ s'.next = s.next + 1)
    (hkeys : (s'.map.map Prod.fst).Nodup)
    (hkeyOf : ∀ entry ∈ s'.map, s'.keyOf entry.2 = some entry.1) : Inv s' := by
  refine ⟨fun x hx => ?_, fun x hx => ?_, hkeys, hkeyOf⟩
  · rcases eq_or_ne x y with rfl | hne
    · exact hvalid
    · rw [hothers x hne]
      exact h.valid x (by omega)
  · rw [hothers x (by omega)]
    exact h.fresh x (by omega)

omit [DecidableEq κ] [DecidableEq τ] in
theorem mem_map : (∃ entry ∈ s.map, entry.2 = x) ↔ (s.view x).entries ≠ 0 := by
  rw [view, ← Nat.pos_iff_ne_zero, List.count_pos_iff, List.mem_map]

omit [DecidableEq κ] [DecidableEq τ] in
theorem mem_proxies : x ∈ s.proxies ↔ (s.view x).outside ≠ 0 := by
  rw [view, ← Nat.pos_iff_ne_zero, List.count_pos_iff]

omit [DecidableEq κ] in
theorem Inv.of_map (h : Inv s) (hx : ∃ entry ∈ s.map, entry.2 = x) : x < s.next ∧
    ((∃ n key, s.view x = ⟨1, n + 1, n + 2, true, some key, 0, 0, 0, fun _ => none⟩) ∨
      ∃ t phase key, s.view x =
        ⟨1, 0, 1, true, some key, 0, 0, 0, update (fun _ => none) t (some phase)⟩) := by
  rw [mem_map] at hx
  rcases Nat.lt_or_ge x s.next with hlt | hge
  · refine ⟨hlt, ?_⟩
    have hvalid := h.valid x hlt
    revert hx
    generalize s.view x = v at hvalid
    cases hvalid with
    | held n key => exact fun _ => .inl ⟨n, key, rfl⟩
    | going t phase key => exact fun _ => .inr ⟨t, phase, key, rfl⟩
    | gone key => exact fun hx => absurd rfl hx
  · rw [h.fresh x hge] at hx
    exact absurd rfl hx

omit [DecidableEq κ] in
theorem Inv.of_proxies (h : Inv s) (hx : x ∈ s.proxies) : x < s.next ∧
    ∃ n key, s.view x = ⟨1, n + 1, n + 2, true, some key, 0, 0, 0, fun _ => none⟩ := by
  rw [mem_proxies] at hx
  rcases Nat.lt_or_ge x s.next with hlt | hge
  · refine ⟨hlt, ?_⟩
    have hvalid := h.valid x hlt
    revert hx
    generalize s.view x = v at hvalid
    cases hvalid with
    | held n key => exact fun _ => ⟨n, key, rfl⟩
    | going | gone => exact fun hx => absurd rfl hx
  · rw [h.fresh x hge] at hx
    exact absurd rfl hx

omit [DecidableEq κ] in
theorem Inv.busy (h : Inv s) (ht : s.threads t = some (phase, x)) : x < s.next ∧
    ∃ key, s.view x =
      ⟨1, 0, 1, true, some key, 0, 0, 0, update (fun _ => none) t (some phase)⟩ := by
  have hphase : (s.view x).phase t = some phase := (congrArg (phaseAt x) ht).trans phaseAt_self
  rcases Nat.lt_or_ge x s.next with hlt | hge
  · refine ⟨hlt, ?_⟩
    have hvalid := h.valid x hlt
    revert hphase
    generalize s.view x = v at hvalid
    cases hvalid with
    | held | gone => exact nofun
    | going t' phase' key =>
      intro hphase
      obtain ⟨rfl, rfl⟩ := alone hphase
      exact ⟨key, rfl⟩
  · rw [h.fresh x hge] at hphase
    cases hphase

omit [DecidableEq κ] in
theorem Inv.take (h : Inv s) (hx : ∃ entry ∈ s.map, entry.2 = x) (hcount : s.refCount x ≠ 1) :
    Inv (s.take x) := by
  obtain ⟨hlt, ⟨n, key, hview⟩ | ⟨t, phase, key, hview⟩⟩ := h.of_map hx
  · refine h.of_one x (fun z hne => ?_) ?_ (.inl ⟨hlt, rfl⟩) h.keys h.keyOf
    · simp [view, ProxyMap.take, hne, hne.symm]
    · have hnew : (s.take x).view x =
          { s.view x with
            outside := (s.view x).outside + 1
            refCount := (s.view x).refCount + 1 } := by
        simp [view, ProxyMap.take]
      rw [hnew, hview]
      exact .held (n + 1) key
  · exact absurd (congrArg View.refCount hview) hcount

theorem Inv.create (h : Inv s) (hlookup : s.lookup key = none) : Inv (s.create key) := by
  have hfresh := h.fresh s.next (Nat.le_refl _)
  have hentries : (s.map.map Prod.snd).count s.next = 0 := congrArg View.entries hfresh
  refine h.of_one s.next (fun z hne => ?_) ?_ (.inr ⟨rfl, rfl⟩) ?_ ?_
  · simp [view, ProxyMap.create, hne, hne.symm]
  · have hnew : (s.create key).view s.next =
        { s.view s.next with
          entries := (s.view s.next).entries + 1
          outside := (s.view s.next).outside + 1
          refCount := 2
          linked := true
          key := some key } := by
      simp [view, ProxyMap.create]
    rw [hnew, hfresh]
    exact .held 0 key
  · exact List.nodup_cons.mpr ⟨lookup_none hlookup, h.keys⟩
  · intro entry hentry
    rcases List.mem_cons.mp hentry with rfl | hentry
    · exact update_self ..
    · have hne : entry.2 ≠ s.next := by
        intro heq
        exact absurd (List.count_pos_iff.mpr (heq ▸ List.mem_map_of_mem hentry))
          (Nat.not_lt.mpr (Nat.le_of_eq hentries))
      exact (update_of_ne hne ..).trans (h.keyOf entry hentry)

theorem Inv.find (h : Inv s) (hpresent : s.Present key) : Inv (s.find key) := by
  rw [ProxyMap.find]
  cases hlookup : s.lookup key with
  | none => exact h
  | some x => exact h.take ⟨_, lookup_mem hlookup, rfl⟩ (hpresent x hlookup)

theorem Inv.instanceOf (h : Inv s) (hpresent : s.Present key) : Inv (s.instanceOf key) := by
  rw [ProxyMap.instanceOf]
  cases hlookup : s.lookup key with
  | none => exact h.create hlookup
  | some x => exact h.take ⟨_, lookup_mem hlookup, rfl⟩ (hpresent x hlookup)

/-- A proxy more does not make an object go. -/
theorem Inv.present_find (h : Inv s) {key' : κ}
    (hpresent' : s.Present key') : (s.find key).Present key' := by
  rw [ProxyMap.find]
  cases hlookup : s.lookup key with
  | none => exact hpresent'
  | some y =>
    intro x hx
    replace hx : s.lookup key' = some x := hx
    have hcount := hpresent' x hx
    rcases eq_or_ne x y with rfl | hne
    · obtain ⟨-, ⟨n, _, hview⟩ | ⟨_, _, _, hview⟩⟩ := h.of_map ⟨_, lookup_mem hx, rfl⟩
      · have hrefs : s.refCount x = n + 2 := congrArg View.refCount hview
        simp [ProxyMap.take, hrefs]
      · exact absurd (congrArg View.refCount hview) hcount
    · simpa [ProxyMap.take, hne] using hcount

theorem Inv.visit {copied : List κ} (h : Inv s) (hpresent : ∀ key ∈ copied, s.Present key) :
    Inv (copied.foldl ProxyMap.find s) := by
  induction copied generalizing s with
  | nil => exact h
  | cons key copied ih =>
    have hfirst := hpresent key List.mem_cons_self
    exact ih (h.find hfirst) fun key' hkey' =>
      h.present_find (hpresent key' (List.mem_cons_of_mem _ hkey'))

omit [DecidableEq κ] in
theorem Inv.copy (h : Inv s) (hx : x ∈ s.proxies) : Inv (s.take x) := by
  obtain ⟨-, n, key, hview⟩ := h.of_proxies hx
  have hrefs : s.refCount x = n + 2 := congrArg View.refCount hview
  refine h.take (mem_map.mpr ?_) (by omega)
  rw [hview]
  exact Nat.one_ne_zero

omit [DecidableEq κ] in
theorem Inv.release (h : Inv s) (ht : s.threads t = none) (hx : x ∈ s.proxies) :
    Inv (s.release t x) := by
  obtain ⟨hlt, n, key, hview⟩ := h.of_proxies hx
  have hrefs : s.refCount x - 1 = n + 1 := by
    rw [show s.refCount x = n + 2 from congrArg View.refCount hview]
    rfl
  have hnot : ¬ n + 1 = 0 := Nat.succ_ne_zero n
  refine h.of_one x (fun z hne => ?_) ?_ (.inl ⟨hlt, rfl⟩) h.keys h.keyOf
  · have hphase := phase_other s.threads (t := t) hne (by rw [ht]; exact nofun)
      (p := if s.refCount x - 1 = 1 then some (Phase.relinquishing, x) else none) (by
        intro z phase hz
        split_ifs at hz
        cases hz
        rfl)
    rw [view, view, ProxyMap.release, hphase]
    simp [drop, hne, hrefs, List.count_erase_of_ne]
  · have hnew : (s.release t x).view x =
        { s.view x with
          outside := (s.view x).outside - 1
          refCount := n + 1
          phase := update (s.view x).phase t
            (if n + 1 = 1 then some .relinquishing else none) } := by
      have hif : phaseAt x (if n + 1 = 1 then some (Phase.relinquishing, x) else none) =
          if n + 1 = 1 then some .relinquishing else none := by
        split_ifs <;> simp
      rw [view, ProxyMap.release, phase_update, hrefs, hif]
      simp [view, drop, hrefs]
    rw [hnew, hview]
    cases n with
    | zero => exact .going t .relinquishing key
    | succ n =>
      rw [if_neg (by omega), update_eq_self_iff.mpr rfl]
      exact .held n key

omit [DecidableEq κ] in
theorem Inv.look (h : Inv s) (ht : s.threads t = some (.relinquishing, x)) : Inv (s.look t x) := by
  obtain ⟨hlt, key, hview⟩ := h.busy ht
  have halive : x ∉ s.deleted := List.count_eq_zero.mp (congrArg View.deleted hview)
  have hlinked : s.linked x = true := congrArg View.linked hview
  have hlook : s.look t x = { s with threads := update s.threads t (some (.notifying, x)) } := by
    rw [ProxyMap.look, if_neg halive, if_pos ⟨halive, hlinked⟩]
  rw [hlook]
  refine h.of_one x (fun z hne => ?_) ?_ (.inl ⟨hlt, rfl⟩) h.keys h.keyOf
  · have hphase := phase_other s.threads (t := t) hne
      (by rw [ht]; rintro z phase ⟨⟩; rfl) (p := some (Phase.notifying, x))
      (by rintro z phase ⟨⟩; rfl)
    rw [view, view, hphase]
  · have hnew : view { s with threads := update s.threads t (some (.notifying, x)) } x =
        { s.view x with phase := update (s.view x).phase t (some .notifying) } := by
      simp [view, phase_update]
    rw [hnew, hview, update_idem]
    exact .going t .notifying key

omit [DecidableEq κ] in
theorem Inv.notify (h : Inv s) (ht : s.threads t = some (.notifying, x)) : Inv (s.notify t x) := by
  obtain ⟨hlt, key, hview⟩ := h.busy ht
  have hentry : ∃ entry ∈ s.map, entry.2 = x := by
    rw [mem_map, hview]
    exact Nat.one_ne_zero
  have hrefs : s.refCount x - 1 = 0 := by
    rw [show s.refCount x = 1 from congrArg View.refCount hview]
  have hmap : (s.map.eraseP fun entry => entry.2 = x).map Prod.snd =
      (s.map.map Prod.snd).erase x := by
    rw [List.erase_eq_eraseP, List.eraseP_map]
    refine congrArg (fun found => (s.map.eraseP found).map Prod.snd) (funext fun entry => ?_)
    rw [Function.comp_apply, Bool.beq_comm, beq_eq_decide]
  have hsub : (s.map.eraseP fun entry => entry.2 = x).Sublist s.map := List.eraseP_sublist
  rw [ProxyMap.notify, if_pos hentry]
  refine h.of_one x (fun z hne => ?_) ?_ (.inl ⟨hlt, rfl⟩) ?_ ?_
  · have hphase := phase_other s.threads (t := t) hne
      (by rw [ht]; rintro z phase ⟨⟩; rfl) (p := none) nofun
    simp [view, drop, hmap, hphase, hne, hne.symm, hrefs, List.count_erase_of_ne]
  · have hnew : view { s.drop x with
          map := s.map.eraseP fun entry => entry.2 = x
          linked := update s.linked x false
          removed := x :: s.removed
          threads := update s.threads t none } x =
        { s.view x with
          entries := (s.view x).entries - 1
          refCount := 0
          linked := false
          deleted := (s.view x).deleted + 1
          removed := (s.view x).removed + 1
          phase := update (s.view x).phase t none } := by
      simp [view, drop, hmap, hrefs, phase_update]
    rw [hnew, hview, update_idem, update_eq_self_iff.mpr rfl]
    exact .gone key
  · exact h.keys.sublist (hsub.map _)
  · exact fun entry hmem => h.keyOf entry (hsub.subset hmem)

/-- A step that comes in time keeps what there is of each object. -/
theorem Inv.step {a : Action κ τ} (h : Inv s) (hok : s.Timely a) (hstep : s.step a = some s') :
    Inv s' := by
  cases a <;> simp only [ProxyMap.step, Option.ite_none_right_eq_some, Option.some.injEq] at hstep
  case instanceOf key => exact hstep ▸ h.instanceOf hok
  case find key => exact hstep ▸ h.find hok
  case visit copied => exact hstep ▸ h.visit hok
  case copy x => exact hstep.2 ▸ h.copy hstep.1
  case release t x => exact hstep.2 ▸ h.release hstep.1.1 hstep.1.2
  case look t x => exact hstep.2 ▸ h.look hstep.1
  case notify t x => exact hstep.2 ▸ h.notify hstep.1

omit [DecidableEq κ] in
theorem inv_new : Inv (new κ τ) :=
  ⟨fun _ hx => absurd hx (Nat.not_lt_zero _), fun _ _ => rfl, List.nodup_nil, nofun⟩

omit [DecidableEq κ] in
theorem Inv.valid_or_fresh (h : Inv s) (x : Nat) : (s.view x).Valid ∨ s.view x = View.fresh := by
  rcases Nat.lt_or_ge x s.next with hlt | hge
  · exact .inl (h.valid x hlt)
  · exact .inr (h.fresh x hge)

theorem Inv.found (h : Inv s) (hx : x ∈ s.proxies) :
    ∃ key, s.keyOf x = some key ∧ s.lookup key = some x := by
  obtain ⟨-, n, key, hview⟩ := h.of_proxies hx
  obtain ⟨entry, hentry, rfl⟩ := mem_map.mpr (by rw [hview]; exact Nat.one_ne_zero)
  exact ⟨entry.1, h.keyOf entry hentry, h.lookup_of_mem hentry⟩

omit [DecidableEq κ] in
/-- An object is erased exactly when it is not in the map any more. -/
theorem Inv.erased (h : Inv s) : s.removed.Nodup ∧
    ∀ x, x < s.next → (x ∈ s.removed ↔ ∀ entry ∈ s.map, entry.2 ≠ x) := by
  constructor
  · rw [List.nodup_iff_count_le_one]
    intro x
    have hremoved : s.removed.count x = (s.view x).removed := rfl
    rw [hremoved]
    rcases h.valid_or_fresh x with hvalid | hfresh
    · generalize s.view x = v at hvalid
      cases hvalid <;> simp
    · rw [hfresh]
      exact Nat.zero_le 1
  · intro x hx
    have hmap : (∀ entry ∈ s.map, entry.2 ≠ x) ↔ (s.view x).entries = 0 := by
      rw [← not_iff_not, ← ne_eq (View.entries _), ← mem_map]
      push Not
      rfl
    have hremoved : x ∈ s.removed ↔ (s.view x).removed ≠ 0 := by
      rw [view, ← Nat.pos_iff_ne_zero, List.count_pos_iff]
    rw [hmap, hremoved]
    have hvalid := h.valid x hx
    generalize s.view x = v at hvalid
    cases hvalid <;> simp

omit [DecidableEq κ] in
theorem Inv.unheld (h : Inv s) (hx : x ∈ s.removed) : x ∉ s.proxies := by
  intro hproxies
  obtain ⟨-, n, key, hview⟩ := h.of_proxies hproxies
  exact List.count_eq_zero.mp (congrArg View.removed hview) hx

omit [DecidableEq κ] in
theorem Inv.intime (h : Inv s) : s.late = [] := by
  refine List.eq_nil_iff_forall_not_mem.mpr fun x hx => ?_
  have hlate : (s.view x).late = 0 := by
    rcases h.valid_or_fresh x with hvalid | hfresh
    · generalize s.view x = v at hvalid
      cases hvalid <;> rfl
    · rw [hfresh]
      rfl
  exact List.count_eq_zero.mp hlate hx

theorem Inv.unique (h : Inv s) : s.Unique where
  found x hx := h.found hx
  one x hx y hy heq := by
    obtain ⟨key, hkey, hfind⟩ := h.found hx
    obtain ⟨key', hkey', hfind'⟩ := h.found hy
    have hsame : some key = some key' := hkey.symm.trans (heq.trans hkey')
    rw [Option.some.inj hsame, hfind'] at hfind
    exact (Option.some.inj hfind).symm
  alive x hx := by
    obtain ⟨-, n, key, hview⟩ := h.of_proxies hx
    exact List.count_eq_zero.mp (congrArg View.deleted hview)
  erased := h.erased
  unheld x hx := h.unheld hx
  intime := h.intime

/-- In every run whose look-ups come in time, the objects that anybody holds are those of the map.
-/
theorem unique_of_timely
    (h : Run.Reach (fun s a s' => s.step a = some s') Timely (new κ τ) s) : s.Unique :=
  (h.invariant inv_new fun _ _ _ hinv hok hstep => hinv.step hok hstep).unique

/-- Two proxies of the object of a key are released by two threads, and the key gets another one. -/
theorem unique_two : ∃ s : ProxyMap Nat Bool,
    Run.Reach (fun s a s' => s.step a = some s') Timely (new Nat Bool) s ∧
      s.map = [(5, 1)] ∧ s.removed = [0] ∧ s.Unique := by
  have hreach : Run.Reach (fun s a s' => s.step a = some s') Timely (new Nat Bool) _ :=
    Run.Reach.start
    |>.step (a := .instanceOf 5) (by rintro x ⟨⟩) rfl
    |>.step (a := .find 5) (by rintro x ⟨⟩; decide) rfl
    |>.step (a := .release false 0) trivial rfl
    |>.step (a := .release true 0) trivial rfl
    |>.step (a := .look true 0) trivial rfl
    |>.step (a := .notify true 0) trivial rfl
    |>.step (a := .instanceOf 5) (by rintro x ⟨⟩) rfl
  exact ⟨_, hreach, by decide, by decide, unique_of_timely hreach⟩

/-- The object is looked up between the release that leaves it with one reference and the lock
section that takes it out of the map. -/
theorem not_unique_revived : ¬ ∀ s : ProxyMap Nat Bool,
    Run.Reach (fun s a s' => s.step a = some s') (fun _ _ => True) (new Nat Bool) s → s.Unique := by
  intro h
  have hreach : Run.Reach (fun s a s' => s.step a = some s') (fun _ _ => True) (new Nat Bool) _ :=
    Run.Reach.start
    |>.step (a := .instanceOf 5) trivial rfl
    |>.step (a := .release false 0) trivial rfl
    |>.step (a := .find 5) trivial rfl
    |>.step (a := .look false 0) trivial rfl
    |>.step (a := .notify false 0) trivial rfl
    |>.step (a := .instanceOf 5) trivial rfl
  exact absurd ((h _ hreach).one 0 (by decide) 1 (by decide) (by decide)) (by decide)

end

end ProxyMap

end Thunder.Core
