import Thunder.Core.Words
import Thunder.Library.Block
import Thunder.Library.Run
import Mathlib.Data.List.Count
import Mathlib.Data.List.Perm.Basic
import Mathlib.Logic.Function.Basic
import Mathlib.Tactic.SplitIfs
import Mathlib.Tactic.Tauto

/-! `ProxyList`: an array of pointers to reference counted elements.  An operation that reads or
writes outside of the array, or releases what is no element, has no result. -/

namespace Thunder.Core

open Function Run

/-- The array with its capacity and the number of slots in use, and the reference counts of the
elements.  A slot holds `none` when no element was put in it, as a null pointer does. -/
structure ProxyList (α : Type) where
  list : List (Option α)
  max : Nat
  current : Nat
  refCount : α → Int

namespace ProxyList

/-- `PROXY_LIST_ERROR`. -/
def listError : Nat := 2 ^ 32 - 1

variable {α : Type} [DecidableEq α]

def addRef (refCount : α → Int) (x : α) : α → Int := update refCount x (refCount x + 1)

def release (refCount : α → Int) (x : α) : α → Int := update refCount x (refCount x - 1)

/-- `operator=` of a proxy that holds `entry`, for a proxy of `x` that is made for it. -/
def assign (refCount : α → Int) (entry : Option α) (x : α) : α → Int :=
  match entry with
  | none => addRef refCount x
  | some old => release (addRef refCount x) old

def new (size : Nat) (refCount : α → Int) : ProxyList α :=
  { list := List.replicate size none, max := size, current := 0, refCount := refCount }

def element (s : ProxyList α) (index : Nat) : Option α := (s.list[index]?).join

/-- The loop of `Find`, with `turns` slots left. -/
def findLoop (list : List (Option α)) (context : α) : Nat → Nat → Nat
  | 0, index => index
  | turns + 1, index =>
    if (list[index]?).join = some context then index else findLoop list context turns (index + 1)

def find (s : ProxyList α) (context : α) : Nat :=
  let index := findLoop s.list context s.current 0
  if index ≠ s.current then index else listError

/-- The array of twice the capacity. -/
def expand (s : ProxyList α) : Option (ProxyList α) := do
  let max := u32 (s.max <<< 1)
  if s.max ≤ max then
    some { s with list := s.list ++ List.replicate (max - s.max) none, max := max }
  else none

/-- With the index of the new element. -/
def add (s : ProxyList α) (entry : α) : Option (Nat × ProxyList α) := do
  let s ← if s.max ≤ s.current then s.expand else some s
  let list ← Block.put s.list s.current (some entry)
  let current := s.current + 1
  some (current - 1,
    { s with list := list, refCount := addRef s.refCount entry, current := current })

/-- A debug build sets the slots that are no longer used to null. -/
def wipe (debug : Bool) (list : List (Option α)) (start count : Nat) : Option (List (Option α)) :=
  if debug then Block.fill list start count none else some list

/-- The slots behind `index` move down by one; `current` of them are left. -/
def closeGap (list : List (Option α)) (index current : Nat) : Option (List (Option α)) :=
  if index < current then Block.move list index (index + 1) (current - index) else some list

def remove (debug : Bool) (s : ProxyList α) (index : Nat) : Option (ProxyList α) := do
  let x ← s.element index
  let list ← Block.put s.list index none
  let current := s.current - 1
  let list ← closeGap list index current
  let list ← wipe debug list current 1
  some { s with list := list, refCount := release s.refCount x, current := current }

/-- `Remove` with a proxy for the element, which holds `entry` before. -/
def removeTo (debug : Bool) (s : ProxyList α) (index : Nat) (entry : Option α) :
    Option (α × ProxyList α) := do
  let x ← s.element index
  let s ← remove debug { s with refCount := assign s.refCount entry x } index
  some (x, s)

/-- `Remove` of an element; the proxy `Entry` is released at the end.  `getContext` is the pointer
that an entry is looked for with. -/
def removeEntry (getContext : α → α) (debug : Bool) (s : ProxyList α) (entry : α) :
    Option (Bool × ProxyList α) :=
  let index := s.find (getContext entry)
  if index ≠ listError then do
    let (x, s) ← s.removeTo debug index none
    some (true, { s with refCount := release s.refCount x })
  else some (false, s)

/-- The references of `count` slots are given up. -/
def releaseLoop (list : List (Option α)) : Nat → Nat → (α → Int) → Option (α → Int)
  | 0, _, refCount => some refCount
  | count + 1, index, refCount => do
    let x ← (list[index]?).join
    releaseLoop list count (index + 1) (release refCount x)

def clear (s : ProxyList α) : Option (ProxyList α) := do
  let refCount ← releaseLoop s.list s.current 0 s.refCount
  some { s with refCount := refCount, current := 0 }

/-- The slots behind a range.  The move starts one slot behind the first one that stays, and has the
length of the range. -/
def closeRange (debug : Bool) (list : List (Option α)) (start count current : Nat) :
    Option (List (Option α)) :=
  if start + count < current then
    (Block.move list start (start + count + 1) count).bind
      (wipe debug · (current - count) count)
  else wipe debug list start count

def clearRange (debug : Bool) (s : ProxyList α) (start count : Nat) : Option (ProxyList α) := do
  let refCount ← releaseLoop s.list count start s.refCount
  let list ← closeRange debug s.list start count s.current
  some { s with list := list, refCount := refCount, current := s.current - count }

inductive Operation (α : Type)
  | add (entry : α)
  | remove (index : Nat)
  | removeTo (index : Nat) (entry : Option α)
  | removeEntry (entry : α)
  | clear
  | clearRange (start count : Nat)

def call (getContext : α → α) (debug : Bool) (s : ProxyList α) : Operation α → Option (ProxyList α)
  | .add entry => (s.add entry).map (·.2)
  | .remove index => s.remove debug index
  | .removeTo index entry => (s.removeTo debug index entry).map (·.2)
  | .removeEntry entry => (s.removeEntry getContext debug entry).map (·.2)
  | .clear => s.clear
  | .clearRange start count => s.clearRange debug start count

/-! ### The sequence it stands for -/

/-- A sequence of elements, and the references that others have on them. -/
structure Sequence (α : Type) where
  elements : List α
  others : α → Int

def Sequence.call (q : Sequence α) : Operation α → Sequence α
  | .add entry => { q with elements := q.elements ++ [entry] }
  | .remove index => { q with elements := q.elements.eraseIdx index }
  | .removeTo index entry =>
    { elements := q.elements.eraseIdx index
      others := match q.elements[index]? with
        | none => q.others
        | some x => assign q.others entry x }
  | .removeEntry entry => { q with elements := q.elements.erase entry }
  | .clear => { q with elements := [] }
  | .clearRange start count =>
    { q with elements := q.elements.take start ++ q.elements.drop (start + count) }

/-- The list has the elements of the sequence, and one reference for each of them. -/
structure Owns (s : ProxyList α) (q : Sequence α) : Prop where
  current : s.current = q.elements.length
  holds : ∀ i < q.elements.length, s.list[i]? = some q.elements[i]?
  counts : ∀ x, s.refCount x = q.others x + q.elements.count x

/-- The list beside the sequence; no list is left behind an operation without a result. -/
abbrev Pair (α : Type) := Option (ProxyList α) × Sequence α

/-- What the assertions ask of the indices. -/
def InRange (p : Pair α) : Operation α → Prop
  | .remove index | .removeTo index _ => index < p.2.elements.length
  | .clearRange start count => start + count ≤ p.2.elements.length
  | _ => True

def step (getContext : α → α) (debug : Bool) (p : Pair α) (op : Operation α) : Pair α :=
  (p.1.bind (·.call getContext debug op), p.2.call op)

def Agrees (p : Pair α) : Prop := ∃ s, p.1 = some s ∧ Owns s p.2

/-- An `Add` finds a slot, or a capacity that can be doubled.  A `Clear` of a range has nothing
behind it; or its move stays inside the array, and behind the range every slot that is in the place
of another has the same content. -/
def Fits (s : ProxyList α) : Operation α → Prop
  | .add _ => s.current < s.max ∨ (0 < s.max ∧ s.max < 2 ^ 31)
  | .clearRange start count =>
    s.current ≤ start + count ∨
      (start + count + 1 + count ≤ s.max ∧
        ∀ i < s.current - (start + count),
          s.list[start + count + i]? =
            s.list[if i < count then start + count + 1 + i else start + i]?)
  | _ => True

/-- The operation fits the list. -/
def PairFits (p : Pair α) (op : Operation α) : Prop := ∀ s, p.1 = some s → Fits s op

/-- A new list, for elements that only others have references on. -/
def fresh (size : Nat) (others : α → Int) : Pair α := (some (new size others), ⟨[], others⟩)

/-! ### Counts and elements -/

/-- The slots are those of the array, and no more of them are in use. -/
structure Inv (s : ProxyList α) : Prop where
  length : s.list.length = s.max
  current_le : s.current ≤ s.max
  max_lt : s.max < 2 ^ 32

theorem addRef_apply (refCount : α → Int) (x y : α) :
    addRef refCount x y = refCount y + if x = y then 1 else 0 := by
  rcases eq_or_ne x y with rfl | hne
  · simp [addRef]
  · simp [addRef, hne, update_of_ne hne.symm]

theorem release_apply (refCount : α → Int) (x y : α) :
    release refCount x y = refCount y - if x = y then 1 else 0 := by
  rcases eq_or_ne x y with rfl | hne
  · simp [release]
  · simp [release, hne, update_of_ne hne.symm]

/-- An assignment changes the counts by the same, whatever they are. -/
theorem assign_add (others : α → Int) (entry : Option α) (x y : α) {refCount : α → Int} {n : Int}
    (h : refCount y = others y + n) :
    assign refCount entry x y = assign others entry x y + n := by
  cases entry with
  | none =>
    simp only [assign, addRef_apply, h]
    omega
  | some old =>
    simp only [assign, release_apply, addRef_apply, h]
    omega

theorem count_append_single (l : List α) (x y : α) :
    ((l ++ [x]).count y : Int) = l.count y + if x = y then 1 else 0 := by
  rw [List.count_append, List.count_singleton]
  simp only [beq_iff_eq]
  split_ifs <;> simp

theorem count_eraseIdx {l : List α} {i : Nat} (hi : i < l.length) (y : α) :
    ((l.eraseIdx i).count y : Int) = l.count y - if l[i] = y then 1 else 0 := by
  have hcount := (List.getElem_cons_eraseIdx_perm hi).count_eq y
  rw [List.count_cons] at hcount
  simp only [beq_iff_eq] at hcount
  split_ifs at hcount ⊢ <;> omega

variable {getContext : α → α} {debug : Bool} {s s' : ProxyList α} {q : Sequence α} {index : Nat}
  {start count : Nat} {entry : α}

theorem Owns.slot (h : Owns s q) (hi : index < q.elements.length) :
    (s.list[index]?).join = some q.elements[index] := by
  rw [h.holds index hi, List.getElem?_eq_getElem hi]
  rfl

theorem findLoop_eq (h : Owns s q) (x : α) :
    ∀ turns i, i + turns = q.elements.length →
      findLoop s.list x turns i = i + (q.elements.drop i).idxOf x := by
  intro turns
  induction turns with
  | zero =>
    intro i hi
    rw [List.drop_eq_nil_of_le (by omega)]
    rfl
  | succ turns ih =>
    intro i hi
    have hlt : i < q.elements.length := by omega
    rw [findLoop, h.slot hlt, ih (i + 1) (by omega), List.drop_eq_getElem_cons hlt,
      List.idxOf_cons]
    by_cases hx : q.elements[i] = x
    · simp [hx]
    · rw [if_neg (by simpa using hx), beq_eq_false_iff_ne.mpr hx, cond_false]
      omega

/-- `Find` gives the first index of an element. -/
theorem find_eq (h : Owns s q) (x : α) :
    s.find x = if x ∈ q.elements then q.elements.idxOf x else listError := by
  have hloop := findLoop_eq h x s.current 0 (by rw [h.current, Nat.zero_add])
  rw [Nat.zero_add, List.drop_zero] at hloop
  simp only [find, hloop, ne_eq]
  rw [h.current]
  by_cases hx : x ∈ q.elements
  · rw [if_pos hx, if_pos (List.idxOf_lt_length_of_mem hx).ne]
  · rw [if_neg hx, List.idxOf_of_notMem hx, if_neg (not_not.mpr rfl)]

theorem releaseLoop_eq (h : Owns s q) :
    ∀ count index, index + count ≤ q.elements.length → ∀ refCount,
      ∃ refCount', releaseLoop s.list count index refCount = some refCount' ∧
        ∀ x, refCount' x = refCount x - ((q.elements.drop index).take count).count x := by
  intro count
  induction count with
  | zero => exact fun index _ refCount => ⟨refCount, rfl, by simp⟩
  | succ count ih =>
    intro index hle refCount
    have hlt : index < q.elements.length := by omega
    obtain ⟨refCount', hrun, hcount⟩ :=
      ih (index + 1) (by omega) (release refCount q.elements[index])
    refine ⟨refCount', ?_, fun x => ?_⟩
    · rw [releaseLoop, h.slot hlt]
      exact hrun
    · rw [hcount, release_apply, List.drop_eq_getElem_cons hlt, List.take_succ_cons,
        List.count_cons]
      simp only [beq_iff_eq]
      split_ifs <;> push_cast <;> omega

omit [DecidableEq α] in
/-- The list after an operation that leaves the array's size as it is. -/
theorem Inv.resize (hinv : Inv s) (hlength : s'.list.length = s.list.length) (hmax : s'.max = s.max)
    (hcurrent : s'.current ≤ s.current) : Inv s' :=
  ⟨by rw [hlength, hmax, hinv.length], hcurrent.trans (hmax ▸ hinv.current_le),
    hmax ▸ hinv.max_lt⟩

/-! ### What each operation does -/

theorem expand_eq (hinv : Inv s) (h : Owns s q) (hroom : s.max < 2 ^ 31) :
    ∃ s', s.expand = some s' ∧ Inv s' ∧ Owns s' q ∧ s'.current = s.current ∧
      s'.max = 2 * s.max := by
  have hmax : u32 (s.max <<< 1) = 2 * s.max := by
    rw [Nat.shiftLeft_eq, u32_of_lt (by omega)]
    omega
  refine ⟨{ s with
      list := s.list ++ List.replicate (2 * s.max - s.max) none, max := 2 * s.max },
    ?_, ⟨?_, ?_, ?_⟩, ⟨h.current, fun i hi => ?_, h.counts⟩, rfl, rfl⟩
  · simp only [expand, hmax]
    rw [if_pos (by omega)]
  · have := hinv.length
    simp only [List.length_append, List.length_replicate]
    omega
  · have := hinv.current_le
    show s.current ≤ 2 * s.max
    omega
  · show 2 * s.max < 2 ^ 32
    omega
  · have := hinv.length
    have := hinv.current_le
    have := h.current
    show (s.list ++ _)[i]? = _
    rw [List.getElem?_append_left (by omega), h.holds i hi]

omit [DecidableEq α] in
/-- What is not doubled is empty. -/
theorem expand_full (hinv : Inv s) (hroom : ¬ (0 < s.max ∧ s.max < 2 ^ 31))
    (h : s.expand = some s') : s'.list = [] := by
  have hlength := hinv.length
  have hmax := hinv.max_lt
  simp only [expand] at h
  split_ifs at h with hle
  cases h
  simp only [u32, Nat.shiftLeft_eq] at hle ⊢
  have hzero : s.max = 0 := by omega
  rw [List.eq_nil_of_length_eq_zero (hlength.trans hzero), hzero]
  rfl

theorem add_room (entry : α) (hinv : Inv s) (h : Owns s q) (hroom : s.current < s.max) :
    ∃ s', s.add entry = some (s.current, s') ∧
      Inv s' ∧ Owns s' { q with elements := q.elements ++ [entry] } := by
  have hlt : s.current < s.list.length := by rw [hinv.length]; exact hroom
  have hput := Block.put_of_lt (a := some entry) hlt
  refine ⟨{ s with
      list := s.list.set s.current (some entry), refCount := addRef s.refCount entry,
      current := s.current + 1 }, ?_, ⟨?_, hroom, hinv.max_lt⟩, ⟨?_, fun i hi => ?_, fun x => ?_⟩⟩
  · simp [add, hroom, hput]
  · rw [List.length_set]
    exact hinv.length
  · simp [h.current]
  · show (s.list.set s.current (some entry))[i]? = _
    rw [Block.getElem?_put hput, h.current]
    rcases Nat.lt_or_ge i q.elements.length with hlt | hge
    · rw [if_neg (by omega), h.holds i hlt, List.getElem?_append_left hlt]
    · have heq : i = q.elements.length := by
        simp only [List.length_append, List.length_singleton] at hi
        omega
      subst heq
      simp
  · show addRef s.refCount entry x = q.others x + _
    rw [addRef_apply, h.counts, count_append_single]
    omega

theorem add_expand (hfull : s.max ≤ s.current) (hexpand : s.expand = some s')
    (hroom : s'.current < s'.max) : s.add entry = s'.add entry := by
  simp [add, hfull, hexpand, hroom]

theorem add_eq (hinv : Inv s) (h : Owns s q) (hfits : Fits s (.add entry)) :
    ∃ s', s.add entry = some (s.current, s') ∧ Inv s' ∧
      Owns s' { q with elements := q.elements ++ [entry] } := by
  rcases Nat.lt_or_ge s.current s.max with hlt | hfull
  · exact add_room entry hinv h hlt
  · obtain ⟨hpos, hmax⟩ := hfits.resolve_left (by omega)
    obtain ⟨s₁, hexpand, hinv₁, h₁, hcurrent, htwice⟩ := expand_eq hinv h hmax
    have hroom : s₁.current < s₁.max := by
      have := hinv.current_le
      omega
    obtain ⟨s', hadd, hinv', h'⟩ := add_room entry hinv₁ h₁ hroom
    rw [hcurrent] at hadd
    exact ⟨s', (add_expand hfull hexpand hroom).trans hadd, hinv', h'⟩

theorem fits_of_add (hinv : Inv s) {r : Nat × ProxyList α} (h : s.add entry = some r) :
    Fits s (.add entry) := by
  by_contra hfits
  obtain ⟨hfull, hroom⟩ := not_or.mp hfits
  rw [add, if_pos (not_lt.mp hfull)] at h
  cases hexpand : s.expand with
  | none => simp [hexpand] at h
  | some s₁ =>
    have hnil := expand_full hinv hroom hexpand
    simp [hexpand, hnil, Block.put] at h

omit [DecidableEq α] in
theorem wipe_eq (debug : Bool) (list : List (Option α)) (start count : Nat)
    (h : start + count ≤ list.length) :
    ∃ list', wipe debug list start count = some list' ∧ list'.length = list.length ∧
      ∀ i < start, list'[i]? = list[i]? := by
  cases debug with
  | false => exact ⟨list, rfl, rfl, fun _ _ => rfl⟩
  | true =>
    obtain ⟨list', hfill⟩ := Block.exists_fill none h
    refine ⟨list', hfill, Block.length_fill hfill, fun i hi => ?_⟩
    rw [Block.getElem?_fill hfill, if_neg (by omega)]

omit [DecidableEq α] in
theorem closeGap_eq (list : List (Option α)) (index current : Nat) (h : current < list.length)
    (hindex : index ≤ current) :
    ∃ list', closeGap list index current = some list' ∧ list'.length = list.length ∧
      ∀ i < current, list'[i]? = if i < index then list[i]? else list[i + 1]? := by
  rcases Nat.lt_or_ge index current with hlt | hge
  · obtain ⟨list', hmove⟩ := Block.exists_move (l := list) index (index + 1) (current - index)
      (by omega) (by omega)
    refine ⟨list', (if_pos hlt).trans hmove, Block.length_move hmove, fun i hi => ?_⟩
    rw [Block.getElem?_move hmove]
    rcases Nat.lt_or_ge i index with hi' | hi'
    · rw [if_neg (by omega), if_pos hi']
    · rw [if_pos (by omega), if_neg (by omega)]
      congr 1
      omega
  · refine ⟨list, if_neg (by omega), rfl, fun i hi => ?_⟩
    rw [if_pos (by omega)]

theorem remove_eq (debug : Bool) (hinv : Inv s) (h : Owns s q)
    (hindex : index < q.elements.length) :
    ∃ s', s.remove debug index = some s' ∧ Inv s' ∧
      Owns s' { q with elements := q.elements.eraseIdx index } := by
  have hlength := hinv.length
  have hcurrent := h.current
  have hle := hinv.current_le
  have hput := Block.put_of_lt (l := s.list) (i := index) (a := none) (by omega)
  have hlength₁ := Block.length_put hput
  obtain ⟨list₂, hgap, hlength₂, hslots₂⟩ :=
    closeGap_eq (s.list.set index none) index (s.current - 1) (by omega) (by omega)
  obtain ⟨list₃, hwipe, hlength₃, hslots₃⟩ :=
    wipe_eq debug list₂ (s.current - 1) 1 (by omega)
  refine ⟨{ s with
      list := list₃, refCount := release s.refCount q.elements[index], current := s.current - 1 },
    ?_, hinv.resize (hlength₃.trans (hlength₂.trans hlength₁)) rfl (Nat.sub_le _ _),
    ⟨?_, fun i hi => ?_, fun x => ?_⟩⟩
  · simp [remove, element, h.slot hindex, hput, hgap, hwipe]
  · simp [List.length_eraseIdx_of_lt hindex, hcurrent]
  · have hi' : i < s.current - 1 := by
      rw [List.length_eraseIdx_of_lt hindex] at hi
      omega
    show list₃[i]? = _
    rw [hslots₃ i hi', hslots₂ i hi', List.getElem?_eraseIdx, Block.getElem?_put hput,
      Block.getElem?_put hput]
    split_ifs
    · omega
    · exact h.holds i (by omega)
    · omega
    · exact h.holds (i + 1) (by omega)
  · show release s.refCount q.elements[index] x = q.others x + _
    rw [release_apply, h.counts, count_eraseIdx hindex]
    omega

theorem removeTo_eq (debug : Bool) (entry : Option α) (hinv : Inv s) (h : Owns s q)
    (hindex : index < q.elements.length) :
    ∃ s', s.removeTo debug index entry = some (q.elements[index], s') ∧ Inv s' ∧
      Owns s' (q.call (.removeTo index entry)) := by
  set x := q.elements[index] with hx
  set others := assign q.others entry x with hothers
  have hcall : q.call (.removeTo index entry) =
      { elements := q.elements.eraseIdx index, others := others } := by
    simp [Sequence.call, List.getElem?_eq_getElem hindex, hothers, hx]
  have howns : Owns { s with refCount := assign s.refCount entry x }
      { q with others := others } :=
    ⟨h.current, h.holds, fun y => assign_add q.others entry x y (h.counts y)⟩
  obtain ⟨s', hremove, hinv', h'⟩ :=
    remove_eq debug (s := { s with refCount := assign s.refCount entry x })
      ⟨hinv.length, hinv.current_le, hinv.max_lt⟩ howns hindex
  refine ⟨s', ?_, hinv', hcall ▸ h'⟩
  simp [removeTo, element, h.slot hindex, ← hx, hremove]

theorem removeEntry_eq (debug : Bool) (hcontext : ∀ x, getContext x = x) (entry : α)
    (hinv : Inv s) (h : Owns s q) :
    ∃ s', s.removeEntry getContext debug entry = some (decide (entry ∈ q.elements), s') ∧ Inv s' ∧
      Owns s' { q with elements := q.elements.erase entry } := by
  have hfind := find_eq h entry
  by_cases hmem : entry ∈ q.elements
  · have hlt := List.idxOf_lt_length_of_mem hmem
    rw [if_pos hmem] at hfind
    obtain ⟨s', hremove, hinv', h'⟩ := removeTo_eq debug none hinv h hlt
    have herror : q.elements.idxOf entry ≠ listError := by
      have := hinv.current_le
      have := hinv.max_lt
      have := h.current
      simp only [listError]
      omega
    have hat : q.elements[q.elements.idxOf entry] = entry := List.getElem_idxOf hlt
    refine ⟨{ s' with refCount := release s'.refCount entry }, ?_,
      ⟨hinv'.length, hinv'.current_le, hinv'.max_lt⟩, ⟨?_, fun i hi => ?_, fun x => ?_⟩⟩
    · simp [removeEntry, hcontext, hfind, herror, hremove, hmem, hat]
    · rw [← List.eraseIdx_idxOf_eq_erase]
      exact h'.current
    · rw [← List.eraseIdx_idxOf_eq_erase] at hi ⊢
      exact h'.holds i hi
    · have hcount := h'.counts x
      simp only [Sequence.call, List.getElem?_eq_getElem hlt, hat, assign, addRef_apply,
        List.eraseIdx_idxOf_eq_erase] at hcount
      show release s'.refCount entry x = q.others x + (q.elements.erase entry).count x
      rw [release_apply, hcount]
      omega
  · rw [if_neg hmem] at hfind
    refine ⟨s, ?_, hinv, ?_⟩
    · simp [removeEntry, hcontext, hfind, hmem]
    · rw [List.erase_of_not_mem hmem]
      exact h

theorem clear_eq (hinv : Inv s) (h : Owns s q) :
    ∃ s', s.clear = some s' ∧ Inv s' ∧ Owns s' { q with elements := [] } := by
  obtain ⟨refCount, hrun, hcount⟩ := releaseLoop_eq h s.current 0 (by rw [h.current]; omega)
    s.refCount
  refine ⟨{ s with refCount := refCount, current := 0 }, by simp [clear, hrun],
    hinv.resize rfl rfl (Nat.zero_le _),
    ⟨rfl, fun i hi => absurd hi (Nat.not_lt_zero i), fun x => ?_⟩⟩
  show refCount x = q.others x + _
  rw [hcount, h.counts, List.drop_zero, h.current, List.take_length]
  simp

theorem count_range (l : List α) (start count : Nat) (x : α) :
    ((l.take start ++ l.drop (start + count)).count x : Int) =
      l.count x - ((l.drop start).take count).count x := by
  have hsplit : l.count x = (l.take start).count x +
      (((l.drop start).take count).count x + (l.drop (start + count)).count x) := by
    rw [← List.drop_drop, ← List.count_append, List.take_append_drop, ← List.count_append,
      List.take_append_drop]
  rw [hsplit, List.count_append]
  push_cast
  omega

omit [DecidableEq α] in
theorem getElem?_range (l : List α) {start count : Nat} (h : start + count ≤ l.length) (i : Nat) :
    (l.take start ++ l.drop (start + count))[i]? =
      if i < start then l[i]? else l[i + count]? := by
  have hlength : (l.take start).length = start := List.length_take_of_le (by omega)
  rcases Nat.lt_or_ge i start with hi | hi
  · rw [List.getElem?_append_left (by omega), List.getElem?_take_of_lt hi, if_pos hi]
  · rw [List.getElem?_append_right (by omega), hlength, List.getElem?_drop, if_neg (by omega)]
    congr 1
    omega

omit [DecidableEq α] in
/-- The move of a range, where it stays inside the array. -/
theorem closeRange_eq (debug : Bool) {list : List (Option α)} {current : Nat}
    (hlt : start + count < current) (hcurrent : current ≤ list.length)
    (hin : start + count + 1 + count ≤ list.length) :
    ∃ list', closeRange debug list start count current = some list' ∧ list'.length = list.length ∧
      ∀ i < current - count, list'[i]? =
        if start ≤ i ∧ i < start + count then list[start + count + 1 + (i - start)]?
        else list[i]? := by
  obtain ⟨list₁, hmove⟩ := Block.exists_move (l := list) start (start + count + 1) count
    (by omega) hin
  have hlength₁ := Block.length_move hmove
  obtain ⟨list₂, hwipe, hlength₂, hslots⟩ :=
    wipe_eq debug list₁ (current - count) count (by omega)
  refine ⟨list₂, ?_, hlength₂.trans hlength₁, fun i hi => ?_⟩
  · rw [closeRange, if_pos hlt, hmove]
    exact hwipe
  · rw [hslots i hi, Block.getElem?_move hmove]

/-- The sequence without a range, in the slots of a list. -/
theorem owns_clearRange (h : Owns s q) (hrange : start + count ≤ q.elements.length)
    {refCount : α → Int} (hcount : ∀ x, refCount x =
      s.refCount x - ((q.elements.drop start).take count).count x) {list : List (Option α)}
    (hslots : ∀ i < s.current - count, list[i]? = s.list[if i < start then i else i + count]?) :
    Owns { s with list := list, refCount := refCount, current := s.current - count }
      (q.call (.clearRange start count)) := by
  have hcurrent := h.current
  have hlength : (q.elements.take start ++ q.elements.drop (start + count)).length =
      s.current - count := by
    simp only [List.length_append, List.length_take, List.length_drop]
    omega
  refine ⟨hlength.symm, fun i hi => ?_, fun x => ?_⟩
  · have hi' : i < s.current - count := by rw [← hlength]; exact hi
    show list[i]? = some (q.elements.take start ++ q.elements.drop (start + count))[i]?
    rw [hslots i hi', getElem?_range _ hrange]
    split_ifs
    · exact h.holds i (by omega)
    · exact h.holds (i + count) (by omega)
  · show refCount x = q.others x + _
    rw [hcount, h.counts, Sequence.call, count_range]
    omega

theorem clearRange_eq (debug : Bool) (hinv : Inv s) (h : Owns s q)
    (hrange : start + count ≤ q.elements.length) (hfits : Fits s (.clearRange start count)) :
    ∃ s', s.clearRange debug start count = some s' ∧ Inv s' ∧
      Owns s' (q.call (.clearRange start count)) := by
  have hlength := hinv.length
  have hcurrent := h.current
  have hle := hinv.current_le
  obtain ⟨refCount, hrun, hcount⟩ := releaseLoop_eq h count start hrange s.refCount
  obtain ⟨list, hclose, hlength', hslots⟩ : ∃ list,
      closeRange debug s.list start count s.current = some list ∧
      list.length = s.list.length ∧
      ∀ i < s.current - count, list[i]? = s.list[if i < start then i else i + count]? := by
    rcases Nat.lt_or_ge (start + count) s.current with hlt | hlast
    · obtain ⟨hin, hsame⟩ := hfits.resolve_left (by omega)
      obtain ⟨list, hclose, hlength', hslots⟩ :=
        closeRange_eq debug hlt (hlength ▸ hle) (hlength ▸ hin)
      refine ⟨list, hclose, hlength', fun i hi => ?_⟩
      rw [hslots i hi]
      rcases Nat.lt_or_ge i start with hi' | hi'
      · rw [if_neg (by omega), if_pos hi']
      · have hmoved := hsame (i - start) (by omega)
        rw [show start + count + (i - start) = i + count by omega] at hmoved
        rw [if_neg (not_lt.mpr hi'), hmoved]
        rcases Nat.lt_or_ge i (start + count) with hi'' | hi''
        · rw [if_pos ⟨hi', hi''⟩, if_pos (by omega)]
        · rw [if_neg (by omega), if_neg (by omega)]
          congr 1
          omega
    · obtain ⟨list, hwipe, hlength', hslots⟩ :=
        wipe_eq debug s.list start count (by omega)
      refine ⟨list, (if_neg (by omega)).trans hwipe, hlength', fun i hi => ?_⟩
      rw [hslots i (by omega), if_pos (by omega)]
  exact ⟨{ s with list := list, refCount := refCount, current := s.current - count },
    by simp [clearRange, hrun, hclose], hinv.resize hlength' rfl (Nat.sub_le _ _),
    owns_clearRange h hrange hcount hslots⟩

/-- A range that was taken out as it should lets the operation fit. -/
theorem fits_of_clearRange (hinv : Inv s) (h : Owns s q)
    (hrange : start + count ≤ q.elements.length)
    (hrun : s.clearRange debug start count = some s')
    (h' : Owns s' (q.call (.clearRange start count))) : Fits s (.clearRange start count) := by
  have hlength := hinv.length
  have hcurrent := h.current
  have hle := hinv.current_le
  rcases Nat.lt_or_ge (start + count) s.current with hlt | hlast
  · obtain ⟨refCount, hloop, -⟩ := releaseLoop_eq h count start hrange s.refCount
    simp only [clearRange, hloop, Option.bind_eq_bind, Option.bind_some] at hrun
    cases hmove : Block.move s.list start (start + count + 1) count with
    | none => simp [closeRange, hlt, hmove] at hrun
    | some list₁ =>
      have hin : start + count + 1 + count ≤ s.list.length := (Block.within_of_move hmove).2
      obtain ⟨list, hclose, -, hslots⟩ := closeRange_eq debug hlt (hlength ▸ hle) hin
      simp only [hclose, Option.bind_some, Option.some.injEq] at hrun
      subst hrun
      refine .inr ⟨hlength ▸ hin, fun i hi => ?_⟩
      have hlen' : (q.elements.take start ++ q.elements.drop (start + count)).length =
          s.current - count := h'.current.symm
      have hheld := h'.holds (start + i) (by
        show start + i < (q.elements.take start ++ q.elements.drop (start + count)).length
        omega)
      have hslot : list[start + i]? = s.list[start + count + i]? := by
        rw [hheld, Sequence.call, getElem?_range _ hrange, if_neg (by omega),
          show start + count + i = start + i + count by omega, h.holds _ (by omega)]
      rw [← hslot, hslots _ (by omega)]
      rcases Nat.lt_or_ge i count with hi' | hi'
      · rw [if_pos (by omega), if_pos hi', Nat.add_sub_cancel_left]
      · rw [if_neg (by omega), if_neg (by omega)]
  · exact .inl hlast

/-! ### Runs -/

/-- A list with its sequence. -/
def Kept (p : Pair α) : Prop := ∃ s, p.1 = some s ∧ Inv s ∧ Owns s p.2

theorem kept_step (debug : Bool) (hcontext : ∀ x, getContext x = x) {p : Pair α}
    {op : Operation α} (h : Kept p) (hrange : InRange p op) (hfits : PairFits p op) :
    Kept (step getContext debug p op) := by
  obtain ⟨s, hs, hinv, howns⟩ := h
  have hfits' := hfits s hs
  simp only [Kept, step, hs, Option.bind_some]
  cases op with
  | add entry =>
    obtain ⟨s', hadd, h'⟩ := add_eq hinv howns hfits'
    exact ⟨s', by simp [call, hadd], h'⟩
  | remove index => exact remove_eq debug hinv howns hrange
  | removeTo index entry =>
    obtain ⟨s', hremove, h'⟩ := removeTo_eq debug entry hinv howns hrange
    exact ⟨s', by simp [call, hremove], h'⟩
  | removeEntry entry =>
    obtain ⟨s', hremove, h'⟩ := removeEntry_eq debug hcontext entry hinv howns
    exact ⟨s', by simp [call, hremove], h'⟩
  | clear => exact clear_eq hinv howns
  | clearRange start count => exact clearRange_eq debug hinv howns hrange hfits'

theorem fits_of_agrees {p : Pair α} {op : Operation α} (h : Kept p)
    (hrange : InRange p op) (h' : Agrees (step getContext debug p op)) : PairFits p op := by
  obtain ⟨s, hs, hinv, howns⟩ := h
  obtain ⟨s', hs', howns'⟩ := h'
  intro s₁ hs₁
  obtain rfl : s = s₁ := Option.some.inj (hs.symm.trans hs₁)
  simp only [step, hs, Option.bind_some] at hs'
  cases op with
  | add entry =>
    simp only [call, Option.map_eq_some_iff] at hs'
    obtain ⟨r, hadd, -⟩ := hs'
    exact fits_of_add hinv hadd
  | clearRange start count => exact fits_of_clearRange hinv howns hrange hs' howns'
  | remove => trivial
  | removeTo => trivial
  | removeEntry => trivial
  | clear => trivial

theorem kept_fresh {size : Nat} (hsize : size < 2 ^ 32) (others : α → Int) :
    Kept (fresh size others) :=
  ⟨_, rfl, ⟨List.length_replicate, Nat.zero_le _, hsize⟩,
    ⟨rfl, fun i hi => absurd hi (Nat.not_lt_zero i), fun x => by simp [fresh, new]⟩⟩

/-- The list is the sequence and owns its elements through the whole run exactly when every `Add`
and every `Clear` of a range fits. -/
theorem always_owns_iff (debug : Bool) (hcontext : ∀ x, getContext x = x) {size : Nat}
    (hsize : size < 2 ^ 32) (others : α → Int) {ops : List (Operation α)}
    (hrange : Meets (step getContext debug) InRange (fresh size others) ops) :
    Always (step getContext debug) Agrees (fresh size others) ops ↔
      Meets (step getContext debug) PairFits (fresh size others) ops :=
  always_iff_within (fun _ _ h hin hfits => kept_step debug hcontext h hin hfits)
    (fun _ ⟨s, hs, _, howns⟩ => ⟨s, hs, howns⟩)
    (fun _ _ h hin h' => fits_of_agrees h hin h') (kept_fresh hsize others) hrange

theorem always_owns_four :
    Always (step id true) Agrees (fresh 1 fun _ => 1)
      [.add 7, .add 8, .clearRange 1 1, .removeEntry 7] := by
  have hrange : Meets (step id true) InRange (fresh 1 fun _ => 1)
      [.add 7, .add 8, .clearRange 1 1, .removeEntry 7] :=
    ⟨trivial, trivial, show 1 + 1 ≤ 2 by decide, trivial, trivial⟩
  refine (always_owns_iff true (fun _ => rfl) (by decide) (fun _ => 1) hrange).mpr
    ⟨?_, ?_, ?_, fun _ _ => trivial, trivial⟩
  · rintro s ⟨⟩
    exact .inl (by decide)
  · rintro s ⟨⟩
    exact .inr (by decide)
  · rintro s ⟨⟩
    exact .inl (by decide)

/-- The first of four elements goes, and the second goes with it: the third is there twice. -/
theorem not_deleted :
    let ops : List (Operation Nat) := [.add 0, .add 1, .add 2, .add 3, .clearRange 0 1]
    Meets (step id false) InRange (fresh 4 fun _ => 1) ops ∧
      ¬ Always (step id false) Agrees (fresh 4 fun _ => 1) ops := by
  refine ⟨⟨trivial, trivial, trivial, trivial, show 0 + 1 ≤ 4 by decide, trivial⟩, fun h => ?_⟩
  obtain ⟨s, hs, howns⟩ := h.last
  have hheld := howns.holds 0 (by decide)
  have hlist : (some s).map (·.list) = some [some 2, some 1, some 2, some 3] := by
    rw [← hs]
    rfl
  simp only [Option.map_some, Option.some.injEq] at hlist
  rw [hlist] at hheld
  exact absurd hheld (by decide)

end ProxyList

end Thunder.Core
