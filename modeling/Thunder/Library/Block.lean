import Mathlib.Data.List.Basic
import Mathlib.Tactic.SplitIfs

/-! Blocks of memory as lists of cells.  A write outside a block, and a move that reads or writes
outside of it, has no result. -/

namespace Thunder.Block

variable {α : Type*} {l l' : List α} {i start src dst count : Nat} {a : α}

/-- A write of one cell. -/
def put (l : List α) (i : Nat) (a : α) : Option (List α) :=
  if i < l.length then some (l.set i a) else none

/-- The cells `src, …` go to the cells `dst, …`, as they were before the move. -/
def move (l : List α) (dst src count : Nat) : Option (List α) :=
  if dst + count ≤ l.length ∧ src + count ≤ l.length then
    some (l.take dst ++ (l.drop src).take count ++ l.drop (dst + count))
  else none

/-- Cells from elsewhere go to the cells `start, …`. -/
def write (l : List α) (start : Nat) (cells : List α) : Option (List α) :=
  if start + cells.length ≤ l.length then
    some (l.take start ++ cells ++ l.drop (start + cells.length))
  else none

/-- `count` cells get the same content. -/
def fill (l : List α) (start count : Nat) (a : α) : Option (List α) :=
  if start + count ≤ l.length then
    some (l.take start ++ List.replicate count a ++ l.drop (start + count))
  else none

theorem put_of_lt (h : i < l.length) : put l i a = some (l.set i a) := if_pos h

theorem length_put (h : put l i a = some l') : l'.length = l.length := by
  simp only [put] at h
  split_ifs at h
  cases h
  exact List.length_set

theorem getElem?_put (h : put l i a = some l') (j : Nat) :
    l'[j]? = if j = i then some a else l[j]? := by
  simp only [put] at h
  split_ifs at h with hi
  cases h
  rcases eq_or_ne i j with rfl | hne
  · rw [List.getElem?_set_self hi, if_pos rfl]
  · rw [List.getElem?_set_ne hne, if_neg hne.symm]

theorem exists_move (dst src count : Nat) (hdst : dst + count ≤ l.length)
    (hsrc : src + count ≤ l.length) :
    ∃ l', move l dst src count = some l' := ⟨_, if_pos ⟨hdst, hsrc⟩⟩

theorem within_of_move (h : move l dst src count = some l') :
    dst + count ≤ l.length ∧ src + count ≤ l.length := by
  simp only [move] at h
  split_ifs at h with hin
  exact hin

theorem length_move (h : move l dst src count = some l') : l'.length = l.length := by
  have hin := within_of_move h
  simp only [move, if_pos hin] at h
  cases h
  simp only [List.length_append, List.length_take, List.length_drop]
  omega

theorem getElem?_move (h : move l dst src count = some l') (j : Nat) :
    l'[j]? = if dst ≤ j ∧ j < dst + count then l[src + (j - dst)]? else l[j]? := by
  have hin := within_of_move h
  simp only [move, if_pos hin] at h
  cases h
  have hlen : (l.take dst ++ (l.drop src).take count).length = dst + count := by
    simp only [List.length_append, List.length_take, List.length_drop]
    omega
  have hdst : (l.take dst).length = dst := List.length_take_of_le (by omega)
  rcases Nat.lt_or_ge j dst with hj | hj
  · rw [List.getElem?_append_left (by omega), List.getElem?_append_left (by omega),
      List.getElem?_take_of_lt hj, if_neg (by omega)]
  · rcases Nat.lt_or_ge j (dst + count) with hj' | hj'
    · rw [List.getElem?_append_left (by omega), List.getElem?_append_right (by omega), hdst,
        List.getElem?_take_of_lt (by omega), List.getElem?_drop, if_pos ⟨hj, hj'⟩]
    · rw [List.getElem?_append_right (by omega), hlen, List.getElem?_drop, if_neg (by omega)]
      congr 1
      omega

theorem exists_write (cells : List α) (h : start + cells.length ≤ l.length) :
    ∃ l', write l start cells = some l' := ⟨_, if_pos h⟩

theorem write_eq_none {cells : List α} (h : l.length < start + cells.length) :
    write l start cells = none := if_neg (by omega)

theorem length_write {cells : List α} (h : write l start cells = some l') :
    l'.length = l.length := by
  simp only [write] at h
  split_ifs at h with hin
  cases h
  simp only [List.length_append, List.length_take, List.length_drop]
  omega

theorem getElem?_write {cells : List α} (h : write l start cells = some l') (j : Nat) :
    l'[j]? = if start ≤ j ∧ j < start + cells.length then cells[j - start]? else l[j]? := by
  simp only [write] at h
  split_ifs at h with hin
  cases h
  have hstart : (l.take start).length = start := List.length_take_of_le (by omega)
  have hlen : (l.take start ++ cells).length = start + cells.length := by
    rw [List.length_append, hstart]
  rcases Nat.lt_or_ge j start with hj | hj
  · rw [List.getElem?_append_left (by omega), List.getElem?_append_left (by omega),
      List.getElem?_take_of_lt hj, if_neg (by omega)]
  · rcases Nat.lt_or_ge j (start + cells.length) with hj' | hj'
    · rw [List.getElem?_append_left (by omega), List.getElem?_append_right (by omega), hstart,
        if_pos ⟨hj, hj'⟩]
    · rw [List.getElem?_append_right (by omega), hlen, List.getElem?_drop, if_neg (by omega)]
      congr 1
      omega

theorem exists_fill (a : α) (h : start + count ≤ l.length) :
    ∃ l', fill l start count a = some l' := ⟨_, if_pos h⟩

theorem length_fill (h : fill l start count a = some l') : l'.length = l.length := by
  simp only [fill] at h
  split_ifs at h with hin
  cases h
  simp only [List.length_append, List.length_take, List.length_replicate, List.length_drop]
  omega

theorem getElem?_fill (h : fill l start count a = some l') (j : Nat) :
    l'[j]? = if start ≤ j ∧ j < start + count then some a else l[j]? := by
  simp only [fill] at h
  split_ifs at h with hin
  cases h
  have hlen : (l.take start ++ List.replicate count a).length = start + count := by
    simp only [List.length_append, List.length_take, List.length_replicate]
    omega
  have hstart : (l.take start).length = start := List.length_take_of_le (by omega)
  rcases Nat.lt_or_ge j start with hj | hj
  · rw [List.getElem?_append_left (by omega), List.getElem?_append_left (by omega),
      List.getElem?_take_of_lt hj, if_neg (by omega)]
  · rcases Nat.lt_or_ge j (start + count) with hj' | hj'
    · rw [List.getElem?_append_left (by omega), List.getElem?_append_right (by omega), hstart,
        List.getElem?_replicate, if_pos (by omega), if_pos ⟨hj, hj'⟩]
    · rw [List.getElem?_append_right (by omega), hlen, List.getElem?_drop, if_neg (by omega)]
      congr 1
      omega

end Thunder.Block
