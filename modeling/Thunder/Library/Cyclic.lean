import Mathlib.Data.List.Basic

/-! Cyclic memories.  A memory maps addresses to values and the first `size` addresses form a ring;
`window` is what the ring holds from a start on.  Copies in and out are one or two runs over
consecutive addresses, and on windows they are take, drop and append. -/

namespace Thunder.Cyclic

variable {β : Type*}

/-- `n` consecutive values. -/
def readRun (mem : Nat → β) (start n : Nat) : List β :=
  (List.range n).map fun i => mem (start + i)

/-- The memory with consecutive values replaced. -/
def writeRun (mem : Nat → β) (start : Nat) (l : List β) : Nat → β := fun j =>
  if start ≤ j then (l[j - start]?).getD (mem j) else mem j

/-- The `n` values of the ring from `start` on. -/
def window (mem : Nat → β) (size start n : Nat) : List β :=
  (List.range n).map fun i => mem ((start + i) % size)

@[simp] theorem length_readRun (mem : Nat → β) (start n : Nat) :
    (readRun mem start n).length = n := by
  simp [readRun]

@[simp] theorem length_window (mem : Nat → β) (size start n : Nat) :
    (window mem size start n).length = n := by
  simp [window]

@[simp] theorem getElem_window (mem : Nat → β) (size start n i : Nat)
    (h : i < (window mem size start n).length) :
    (window mem size start n)[i] = mem ((start + i) % size) := by
  simp [window]

/-- A sum of two addresses leaves the ring at most once. -/
theorem wrap_cases (a size : Nat) (h : a < 2 * size) :
    (a < size ∧ a % size = a) ∨ (size ≤ a ∧ a % size = a - size) := by
  rcases Nat.lt_or_ge a size with hlt | hge
  · exact .inl ⟨hlt, Nat.mod_eq_of_lt hlt⟩
  · refine .inr ⟨hge, ?_⟩
    rw [Nat.mod_eq_sub_mod hge, Nat.mod_eq_of_lt (by omega)]

theorem window_mod (mem : Nat → β) (size start n : Nat) :
    window mem size (start % size) n = window mem size start n := by
  simp [window]

theorem window_add (mem : Nat → β) (size start m n : Nat) :
    window mem size start (m + n) = window mem size start m ++ window mem size (start + m) n := by
  unfold window
  rw [List.range_add, List.map_append, List.map_map]
  simp [Function.comp_def, Nat.add_assoc]

/-- A window that starts with `l` holds `l` and then what follows it. -/
theorem window_split {mem : Nat → β} {size start : Nat} {l l' : List β}
    (h : window mem size start (l ++ l').length = l ++ l') :
    window mem size start l.length = l ∧ window mem size (start + l.length) l'.length = l' := by
  rw [List.length_append, window_add] at h
  exact List.append_inj h (by simp)

/-- A run that does not leave the ring is a window. -/
theorem readRun_eq_window (mem : Nat → β) (size : Nat) {start n : Nat} (h : start + n ≤ size) :
    readRun mem start n = window mem size start n := by
  unfold readRun window
  refine List.map_congr_left fun i hi => ?_
  rw [List.mem_range] at hi
  rw [Nat.mod_eq_of_lt (by omega)]

/-- A run that continues at the first address is a window. -/
theorem readRun_two_eq_window (mem : Nat → β) {size start n : Nat} (hstart : start ≤ size)
    (h : n ≤ size) :
    readRun mem start (min (size - start) n) ++ readRun mem 0 (n - (size - start)) =
      window mem size start n := by
  rcases Nat.le_total n (size - start) with hle | hge
  · rw [Nat.min_eq_right hle, Nat.sub_eq_zero_of_le hle]
    simp only [readRun, List.range_zero, List.map_nil, List.append_nil]
    exact readRun_eq_window mem size (by omega)
  · have hn : n = (size - start) + (n - (size - start)) := by omega
    have hwrap : start + (size - start) = size := by omega
    conv_rhs => rw [hn, window_add, hwrap, ← window_mod mem size size, Nat.mod_self]
    rw [Nat.min_eq_left hge, readRun_eq_window mem size (by omega),
      readRun_eq_window mem size (by omega)]

/-- A start beyond the ring stands for the one a turn before it. -/
theorem window_sub_size (mem : Nat → β) {size start n : Nat} (hstart : size ≤ start) :
    window mem size (start - size) n = window mem size start n := by
  rw [← window_mod mem size start, Nat.mod_eq_sub_mod hstart, window_mod]

/-! ### Writing -/

/-- The memory after a copy into the ring from `start` on, in one run or in two. -/
def copyIn (mem : Nat → β) (size start : Nat) (l : List β) : Nat → β :=
  if start ≤ (start + l.length) % size then writeRun mem start l
  else
    writeRun (writeRun mem start (l.take (size - start))) 0 (l.drop (size - start))

/-- A copy changes the values that follow `start` on the ring. -/
theorem copyIn_apply (mem : Nat → β) {size start j : Nat} {l : List β} (hstart : start < size)
    (hlen : l.length < size) (hj : j < size) :
    copyIn mem size start l j =
      (l[if start ≤ j then j - start else j + size - start]?).getD (mem j) := by
  unfold copyIn writeRun
  rcases wrap_cases (start + l.length) size (by omega) with ⟨hlt, heq⟩ | ⟨hge, heq⟩
  · rw [heq, if_pos (by omega)]
    split_ifs with hle
    · rfl
    · rw [List.getElem?_eq_none (by omega), Option.getD_none]
  · rw [heq, if_neg (by omega)]
    simp only [Nat.zero_le, if_true, Nat.sub_zero, List.getElem?_drop]
    split_ifs with hle
    · rw [List.getElem?_eq_none (by omega), Option.getD_none, List.getElem?_take,
        if_pos (by omega)]
    · rw [show j + size - start = size - start + j by omega]

@[simp] theorem writeRun_nil (mem : Nat → β) (start : Nat) : writeRun mem start [] = mem := by
  funext j
  simp [writeRun]

theorem copyIn_nil (mem : Nat → β) {size start : Nat} (hstart : start < size) :
    copyIn mem size start [] = mem := by
  rw [copyIn, List.length_nil, Nat.add_zero, Nat.mod_eq_of_lt hstart, if_pos (Nat.le_refl _),
    writeRun_nil]

/-- A copy changes nothing behind the ring. -/
theorem copyIn_of_le (mem : Nat → β) {size start j : Nat} {l : List β} (hstart : start < size)
    (hlen : l.length < size) (hj : size ≤ j) : copyIn mem size start l j = mem j := by
  unfold copyIn writeRun
  rcases wrap_cases (start + l.length) size (by omega) with ⟨hlt, heq⟩ | ⟨hge, heq⟩
  · rw [heq, if_pos (by omega), if_pos (by omega), List.getElem?_eq_none (by omega), Option.getD_none]
  · rw [heq, if_neg (by omega)]
    simp only [Nat.zero_le, if_true, Nat.sub_zero, List.getElem?_drop]
    rw [List.getElem?_eq_none (by omega), Option.getD_none, if_pos (by omega), List.getElem?_take,
      if_neg (by omega), Option.getD_none]

/-- Copies one behind the other are one copy. -/
theorem copyIn_append (mem : Nat → β) {size start : Nat} {l l' : List β} (hstart : start < size)
    (hlen : (l ++ l').length < size) :
    copyIn (copyIn mem size start l) size ((start + l.length) % size) l' =
      copyIn mem size start (l ++ l') := by
  have hlen' := hlen
  rw [List.length_append] at hlen'
  have hsize : 0 < size := by omega
  have hmod := wrap_cases (start + l.length) size (by omega)
  funext j
  rcases Nat.lt_or_ge j size with hj | hj
  · rw [copyIn_apply _ (Nat.mod_lt _ hsize) (by omega) hj, copyIn_apply _ hstart (by omega) hj,
      copyIn_apply _ hstart hlen hj]
    by_cases hold : (if start ≤ j then j - start else j + size - start) < l.length
    · rw [List.getElem?_append_left hold, List.getElem?_eq_none, Option.getD_none]
      split_ifs at hold ⊢ <;> omega
    · have hindex : (if start ≤ j then j - start else j + size - start) - l.length =
          if (start + l.length) % size ≤ j then j - (start + l.length) % size
            else j + size - (start + l.length) % size := by
        split_ifs at hold ⊢ <;> omega
      rw [List.getElem?_append_right (by omega), hindex,
        List.getElem?_eq_none (l := l) (by omega), Option.getD_none]
  · rw [copyIn_of_le _ (Nat.mod_lt _ hsize) (by omega) hj, copyIn_of_le _ hstart (by omega) hj,
      copyIn_of_le _ hstart hlen hj]

/-- A copy right behind a window extends it. -/
theorem window_copyIn {mem : Nat → β} {size base : Nat} {l bytes : List β} (hbase : base < size)
    (hl : window mem size base l.length = l) (hlen : bytes.length < size)
    (hroom : l.length + bytes.length ≤ size) :
    window (copyIn mem size ((base + l.length) % size) bytes) size base (l ++ bytes).length =
      l ++ bytes := by
  refine List.ext_getElem (by simp) fun k hk _ => ?_
  rw [length_window, List.length_append] at hk
  have hsize : 0 < size := by omega
  rw [getElem_window, copyIn_apply mem (Nat.mod_lt _ hsize) hlen (Nat.mod_lt _ hsize)]
  have hstart := wrap_cases (base + l.length) size (by omega)
  have haddress := wrap_cases (base + k) size (by omega)
  by_cases hold : k < l.length
  · have hvalue : mem ((base + k) % size) = l[k] := by
      rw [← getElem_window mem size base l.length k (by simpa using hold)]
      simp only [hl]
    rw [List.getElem_append_left hold, List.getElem?_eq_none, Option.getD_none, hvalue]
    split_ifs <;> omega
  · have hindex : (if (base + l.length) % size ≤ (base + k) % size
        then (base + k) % size - (base + l.length) % size
        else (base + k) % size + size - (base + l.length) % size) = k - l.length := by
      split_ifs <;> omega
    rw [List.getElem_append_right (by omega), hindex, List.getElem?_eq_getElem (by omega),
      Option.getD_some]

end Thunder.Cyclic
