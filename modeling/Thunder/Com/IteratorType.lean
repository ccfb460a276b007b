import Thunder.Library.Run
import Mathlib.Logic.Function.Iterate
import Mathlib.Algebra.Group.Nat.Defs

/-! `IteratorType`: the iterator of COM-RPC over its own container.  The iterator of the container
is its position, which is the length of the container at the end of it. -/

namespace Thunder.RPC

open Run

/-- `stored` is what the last call has written to its result.  `outside` says that the iterator was
moved before the begin or beyond the end of the container, or read at the end. -/
structure IteratorType (α : Type) where
  container : List α
  iterator : Nat
  index : UInt32
  stored : Option α
  outside : Bool

/-- The calls that move an iterator. -/
inductive IteratorCall
  | reset (position : UInt32)
  | next
  | previous

namespace IteratorType

variable {α : Type}

def new (container : List α) : IteratorType α := ⟨container, 0, 0, none, false⟩

variable (it : IteratorType α)

def count : UInt32 := .ofNat it.container.length

def isValid : Bool := 0 < it.index ∧ it.index ≤ it.count

/-- `*_iterator`; there is nothing at the end. -/
def current : Option α := it.container[it.iterator]?

/-- `_iterator++`. -/
def increment : IteratorType α :=
  { it with
    iterator := it.iterator + 1
    outside := it.outside || decide (it.container.length ≤ it.iterator) }

/-- `_iterator--`. -/
def decrement : IteratorType α :=
  { it with
    iterator := it.iterator - 1
    outside := it.outside || decide (it.iterator = 0) }

/-- `result = *_iterator`. -/
def store : IteratorType α :=
  { it with
    stored := it.current
    outside := it.outside || decide (it.container.length ≤ it.iterator) }

/-- The loop of `Reset` that goes back, in so many rounds. -/
def walkBack (position : UInt32) : Nat → IteratorType α → IteratorType α
  | 0, it => it
  | rounds + 1, it =>
    if it.index = position then it
    else walkBack position rounds (decrement { it with index := it.index - 1 })

def reset (position : UInt32) : IteratorType α :=
  if position = 0 then { it with iterator := 0, index := 0 }
  else if it.count < position then
    { it with iterator := it.container.length, index := it.count + 1 }
  else if position < it.index ∧ it.index - position < position then
    walkBack position it.index.toNat it
  else increment^[position.toNat - 1] { it with iterator := 0, index := position }

def previous : IteratorType α :=
  if it.index = 0 then it
  else
    let moved := if 1 < it.index then it.decrement else it
    let moved := { moved with index := it.index - 1 }
    if 0 < moved.index then moved.store else moved

def next : IteratorType α :=
  if it.index ≤ it.count then
    let moved := { it with index := it.index + 1 }
    let moved := if moved.index = 1 then moved else moved.increment
    if moved.index ≤ it.count then moved.store else moved
  else it

/-- A call; `Next` and `Previous` return `IsValid` behind it. -/
def step (call : IteratorCall) : IteratorType α :=
  match call with
  | .reset position => reset { it with stored := none } position
  | .next => next { it with stored := none }
  | .previous => previous { it with stored := none }

end IteratorType

/-! ### The cursor -/

/-- A place in front of a list, at one of its elements, or behind it, with what the last step has
read. -/
structure Cursor (α : Type) where
  elements : List α
  index : Nat
  stored : Option α
  inside : index ≤ elements.length + 1

namespace Cursor

variable {α : Type}

def new (elements : List α) : Cursor α := ⟨elements, 0, none, Nat.zero_le _⟩

variable (c : Cursor α)

def isValid : Bool := 1 ≤ c.index ∧ c.index ≤ c.elements.length

/-- The element of a number; there is none in front of the list and behind it. -/
def element (index : Nat) : Option α := if index = 0 then none else c.elements[index - 1]?

def current : Option α := c.element c.index

/-- The cursor at a number, or behind the list if there is none. -/
def move (index : Nat) (stored : Option α) : Cursor α :=
  ⟨c.elements, min index (c.elements.length + 1), stored, Nat.min_le_right ..⟩

/-- A step stores the element that it has come to. -/
def step (call : IteratorCall) : Cursor α :=
  match call with
  | .reset position => c.move position.toNat none
  | .next => c.move (c.index + 1) (c.element (c.index + 1))
  | .previous => c.move (c.index - 1) (c.element (c.index - 1))

end Cursor

namespace IteratorType

variable {α : Type}

/-- An iterator and the cursor that it is to be. -/
def both (s : IteratorType α × Cursor α) (call : IteratorCall) : IteratorType α × Cursor α :=
  (s.1.step call, s.2.step call)

/-- The iterator is where the cursor is, and was nowhere outside; `IsValid`, and `Current` where it
is valid, are those of the cursor, and so is what the last call has stored. -/
structure Agrees (s : IteratorType α × Cursor α) : Prop where
  container : s.1.container = s.2.elements
  index : s.1.index.toNat = s.2.index
  iterator : s.1.iterator = s.2.index - 1
  stored : s.1.stored = s.2.stored
  inside : s.1.outside = false
  isValid : s.1.isValid = s.2.isValid
  current : s.2.isValid → s.1.current.isSome ∧ s.1.current = s.2.current

/-- The iterators over a container behave as cursors. -/
def Behaves (container : List α) : Prop :=
  ∀ calls, Always both Agrees (new container, Cursor.new container) calls

/-! ### Steps -/

section Steps

variable {it : IteratorType α} {c : Cursor α} {position : UInt32}

theorem increment_iterate {steps : Nat} (h : it.iterator + steps ≤ it.container.length) :
    increment^[steps] it = { it with iterator := it.iterator + steps } := by
  induction steps with
  | zero => rfl
  | succ steps ih =>
    rw [Function.iterate_succ_apply', ih (by omega), increment]
    have hinside : ¬ it.container.length ≤ it.iterator + steps := by omega
    simp [hinside, Nat.add_assoc]

/-- Going back keeps the iterator at the element of the index. -/
theorem walkBack_eq {rounds : Nat} (hposition : position ≠ 0) (hle : position ≤ it.index)
    (hiterator : it.iterator = it.index.toNat - 1)
    (hrounds : it.index.toNat - position.toNat ≤ rounds) :
    walkBack position rounds it =
      { it with iterator := position.toNat - 1, index := position } := by
  have hpos : position.toNat ≠ 0 := fun h => hposition (UInt32.toNat_inj.mp h)
  have hle' : position.toNat ≤ it.index.toNat := UInt32.le_iff_toNat_le.mp hle
  induction rounds generalizing it with
  | zero =>
    have heq : it.index = position := UInt32.toNat_inj.mp (by omega)
    rw [walkBack, ← heq, ← hiterator]
  | succ rounds ih =>
    rw [walkBack]
    split_ifs with heq
    · rw [← heq, ← hiterator]
    · have hne : it.index.toNat ≠ position.toNat := fun h => heq (UInt32.toNat_inj.mp h)
      have hless : (it.index - 1).toNat = it.index.toNat - 1 := by
        rw [UInt32.toNat_sub_of_le _ _ (UInt32.le_iff_toNat_le.mpr (by simp; omega))]
        rfl
      have hmoved : it.iterator ≠ 0 := by omega
      rw [ih, decrement]
      · simp [hmoved]
      · exact UInt32.le_iff_toNat_le.mpr (by simp only [decrement, hless]; omega)
      · simp only [decrement, hless, hiterator]
      · simp only [decrement, hless]
        omega
      · simp only [decrement, hless]
        omega

/-- The part of `Agrees` that steps keep. -/
structure Aligned (it : IteratorType α) (c : Cursor α) : Prop where
  container : it.container = c.elements
  index : it.index.toNat = c.index
  iterator : it.iterator = c.index - 1
  inside : it.outside = false
  small : c.elements.length + 1 < 2 ^ 32

theorem Aligned.toNat_count (h : Aligned it c) : it.count.toNat = c.elements.length := by
  have hsmall := h.small
  rw [count, h.container, UInt32.toNat_ofNat', Nat.mod_eq_of_lt (by omega)]

/-- At a number of its cursor an iterator agrees with it. -/
theorem Aligned.agrees (h : Aligned it c) {index : UInt32} {k : Nat}
    (hindex : index.toNat = min k (c.elements.length + 1)) (stored : Option α) :
    Agrees ({ it with iterator := index.toNat - 1, index, stored }, c.move k stored) := by
  have hvalid : (0 < index ∧ index ≤ it.count) ↔
      1 ≤ index.toNat ∧ index.toNat ≤ c.elements.length := by
    rw [UInt32.lt_iff_toNat_lt, UInt32.le_iff_toNat_le, h.toNat_count]
    rfl
  refine ⟨h.container, hindex, by rw [← hindex.symm]; rfl, rfl, h.inside, ?_, ?_⟩
  · show decide (0 < index ∧ index ≤ it.count) = decide (1 ≤ min k _ ∧ min k _ ≤ _)
    rw [← hindex]
    exact decide_eq_decide.mpr hvalid
  · intro hinside
    obtain ⟨hlow, hhigh⟩ := of_decide_eq_true hinside
    change 1 ≤ min k (c.elements.length + 1) at hlow
    change min k (c.elements.length + 1) ≤ c.elements.length at hhigh
    rw [← hindex] at hlow hhigh
    show (it.container[index.toNat - 1]?).isSome ∧
      it.container[index.toNat - 1]? = c.element (min k (c.elements.length + 1))
    rw [← hindex, h.container, Cursor.element, if_neg (by omega),
      List.getElem?_eq_getElem (by omega)]
    exact ⟨rfl, rfl⟩

theorem Aligned.reset (h : Aligned it c) (position : UInt32) : ∃ index : UInt32,
    index.toNat = min position.toNat (c.elements.length + 1) ∧
      it.reset position = { it with iterator := index.toNat - 1, index } := by
  have hsmall := h.small
  have hcount := h.toNat_count
  have hiterator : it.iterator = it.index.toNat - 1 := by rw [h.iterator, h.index]
  rw [IteratorType.reset]
  split_ifs with hzero hbehind hback
  · exact ⟨0, by rw [hzero]; exact (Nat.zero_min _).symm, rfl⟩
  · have hlast : (it.count + 1).toNat = c.elements.length + 1 := by
      rw [UInt32.toNat_add, hcount]
      exact Nat.mod_eq_of_lt hsmall
    rw [UInt32.lt_iff_toNat_lt, hcount] at hbehind
    refine ⟨it.count + 1, by omega, ?_⟩
    rw [hlast, Nat.add_sub_cancel, h.container]
  · rw [UInt32.lt_iff_toNat_lt, hcount] at hbehind
    exact ⟨position, by omega,
      walkBack_eq hzero (UInt32.le_of_lt hback.1) hiterator (Nat.sub_le _ _)⟩
  · rw [UInt32.lt_iff_toNat_lt, hcount] at hbehind
    have hfirst : position.toNat ≠ 0 := fun h => hzero (UInt32.toNat_inj.mp h)
    refine ⟨position, by omega, ?_⟩
    rw [increment_iterate (by simp only [h.container]; omega)]
    simp

theorem Aligned.next (h : Aligned it c) (hstored : it.stored = none) : ∃ index : UInt32,
    index.toNat = min (c.index + 1) (c.elements.length + 1) ∧
      it.next = { it with iterator := index.toNat - 1, index,
                          stored := c.element (c.index + 1) } := by
  have hsmall := h.small
  have hcount := h.toNat_count
  have hinside := c.inside
  have hat := h.index
  rw [IteratorType.next]
  by_cases hend : it.index ≤ it.count
  · have hroom : c.index ≤ c.elements.length := by
      rw [UInt32.le_iff_toNat_le, hcount, hat] at hend
      exact hend
    have hnext : (it.index + 1).toNat = c.index + 1 := by
      rw [UInt32.toNat_add, hat]
      exact Nat.mod_eq_of_lt (show c.index + 1 < 2 ^ 32 by omega)
    rw [if_pos hend]
    refine ⟨it.index + 1, by omega, ?_⟩
    have hmoved : (if it.index + 1 = 1 then { it with index := it.index + 1 }
        else increment { it with index := it.index + 1 }) =
          { it with iterator := c.index, index := it.index + 1 } := by
      split_ifs with hone
      · have hzero : (it.index + 1).toNat = 1 := congrArg UInt32.toNat hone
        rw [h.iterator, show c.index - 1 = c.index by omega]
      · have hpos : c.index ≠ 0 := by
          intro hzero
          exact hone (UInt32.toNat_inj.mp (by rw [hnext, hzero]; rfl))
        have hroom' : ¬ it.container.length ≤ it.iterator := by
          rw [h.container, h.iterator]
          omega
        have hplace : it.iterator + 1 = c.index := by
          rw [h.iterator]
          omega
        simp [increment, hroom', hplace]
    have hread : c.element (c.index + 1) = it.container[c.index]? := by
      rw [Cursor.element, if_neg (by omega), Nat.add_sub_cancel, h.container]
    dsimp only
    rw [hmoved, hnext, Nat.add_sub_cancel, hread]
    split_ifs with hthere
    · rw [UInt32.le_iff_toNat_le, hnext, hcount] at hthere
      have hroom' : ¬ it.container.length ≤ c.index := by
        rw [h.container]
        omega
      simp [store, current, hroom']
    · rw [UInt32.le_iff_toNat_le, hnext, hcount] at hthere
      rw [List.getElem?_eq_none (by rw [h.container]; omega), ← hstored]
  · have hlast : c.index = c.elements.length + 1 := by
      rw [UInt32.le_iff_toNat_le, hcount, hat] at hend
      omega
    rw [if_neg hend]
    refine ⟨it.index, by omega, ?_⟩
    have hnone : c.element (c.index + 1) = none := by
      rw [Cursor.element, if_neg (by omega), List.getElem?_eq_none (by omega)]
    rw [hnone, ← hstored, hat, ← h.iterator]

theorem Aligned.previous (h : Aligned it c) (hstored : it.stored = none) : ∃ index : UInt32,
    index.toNat = min (c.index - 1) (c.elements.length + 1) ∧
      it.previous = { it with iterator := index.toNat - 1, index,
                              stored := c.element (c.index - 1) } := by
  have hinside := c.inside
  have hat := h.index
  rw [IteratorType.previous]
  by_cases hfront : it.index = 0
  · have hzero : c.index = 0 := by rw [← hat, hfront]; rfl
    rw [if_pos hfront]
    refine ⟨it.index, by omega, ?_⟩
    have hnone : c.element (c.index - 1) = none := if_pos (by omega)
    rw [hnone, ← hstored, hat, ← h.iterator]
  · have hpos : c.index ≠ 0 := fun hzero => hfront (UInt32.toNat_inj.mp (by rw [hat, hzero]; rfl))
    have hback : (it.index - 1).toNat = c.index - 1 := by
      have hone : 1 ≤ it.index := by
        rw [UInt32.le_iff_toNat_le, hat]
        exact Nat.pos_of_ne_zero hpos
      rw [UInt32.toNat_sub_of_le _ _ hone, hat]
      rfl
    rw [if_neg hfront]
    refine ⟨it.index - 1, by omega, ?_⟩
    have hmoved : (if 1 < it.index then it.decrement else it) =
        { it with iterator := c.index - 1 - 1 } := by
      split_ifs with hone
      · rw [UInt32.lt_iff_toNat_lt, hat] at hone
        have hplace : it.iterator ≠ 0 := by
          rw [h.iterator]
          exact Nat.sub_ne_zero_of_lt hone
        rw [decrement, decide_eq_false hplace, Bool.or_false, h.iterator]
      · rw [UInt32.lt_iff_toNat_lt, hat] at hone
        have hone' : ¬ 1 < c.index := hone
        rw [show c.index - 1 - 1 = it.iterator by rw [h.iterator]; omega]
    dsimp only
    rw [hmoved, hback]
    split_ifs with hthere
    · have hlow : 0 < c.index - 1 := by
        rw [UInt32.lt_iff_toNat_lt, hback] at hthere
        exact hthere
      have hread : c.element (c.index - 1) = it.container[c.index - 1 - 1]? := by
        rw [Cursor.element, if_neg (by omega), h.container]
      have hroom : ¬ it.container.length ≤ c.index - 1 - 1 := by
        rw [h.container]
        omega
      rw [hread]
      simp [store, current, hroom]
    · have hzero : c.index - 1 = 0 := by
        rw [UInt32.lt_iff_toNat_lt, hback] at hthere
        exact Nat.eq_zero_of_not_pos hthere
      rw [hzero, Cursor.element, if_pos rfl, ← hstored]

/-- An iterator that has a number for each place follows its cursor. -/
theorem Aligned.step (h : Aligned it c) (call : IteratorCall) : Agrees (both (it, c) call) := by
  have h' : Aligned { it with stored := none } c :=
    ⟨h.container, h.index, h.iterator, h.inside, h.small⟩
  cases call with
  | reset position =>
    obtain ⟨index, hindex, heq⟩ := h'.reset position
    rw [both, IteratorType.step, heq]
    exact h'.agrees hindex none
  | next =>
    obtain ⟨index, hindex, heq⟩ := h'.next rfl
    rw [both, IteratorType.step, heq]
    exact h'.agrees hindex _
  | previous =>
    obtain ⟨index, hindex, heq⟩ := h'.previous rfl
    rw [both, IteratorType.step, heq]
    exact h'.agrees hindex _

theorem Agrees.aligned (h : Agrees (it, c)) (hsmall : c.elements.length + 1 < 2 ^ 32) :
    Aligned it c :=
  ⟨h.container, h.index, h.iterator, h.inside, hsmall⟩

end Steps

/-! ### Runs -/

theorem agrees_new (container : List α) : Agrees (new container, Cursor.new container) :=
  ⟨rfl, rfl, rfl, rfl, rfl, rfl, nofun⟩

theorem behaves_of_small {container : List α} (hsmall : container.length + 1 < 2 ^ 32) :
    Behaves container := by
  intro calls
  have hruns : Always both (fun s => Agrees s ∧ s.2.elements = container)
      (new container, Cursor.new container) calls := by
    apply always_of_step
    · rintro ⟨it, c⟩ call ⟨hagrees, rfl⟩
      exact ⟨(hagrees.aligned hsmall).step call, by cases call <;> rfl⟩
    · exact ⟨agrees_new container, rfl⟩
  exact hruns.mono fun s hs => hs.1

/-- With more elements there is no number for the place behind the last one that has one. -/
theorem small_of_behaves {container : List α} (h : Behaves container) :
    container.length + 1 < 2 ^ 32 := by
  by_contra hlarge
  obtain ⟨-, -, hlast⟩ := h [.reset 0xFFFFFFFF, .next]
  have hplace := hlast.index
  have hlt := UInt32.toNat_lt (both (both (new container, Cursor.new container)
    (.reset 0xFFFFFFFF)) .next).1.index
  rw [hplace] at hlt
  change min (min 0xFFFFFFFF (container.length + 1) + 1) (container.length + 1) < 2 ^ 32 at hlt
  omega

/-- An iterator over a container behaves as a cursor, in every run, if there are fewer than
2^32 - 1 elements in it. -/
theorem iterator_exact (container : List α) :
    Behaves container ↔ container.length + 1 < 2 ^ 32 :=
  ⟨small_of_behaves, behaves_of_small⟩

/-- A container with 2^32 - 1 elements. -/
theorem not_iterator_exact : ¬ ∀ container : List UInt8, Behaves container := by
  intro h
  have hsmall := small_of_behaves (h (List.replicate (2 ^ 32 - 1) 0))
  rw [List.length_replicate] at hsmall
  exact absurd hsmall (Nat.lt_irrefl _)

end IteratorType

end Thunder.RPC
