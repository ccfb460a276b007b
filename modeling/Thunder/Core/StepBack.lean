import Thunder.Core.ValueRecorder

/-! Stepping back through a recording.  `StepBack` undoes `StepForward` where each element reads the
same from its end as from its start, which is so for all numbers but 32 and those that need more
than the bits of an `int`. -/

namespace Thunder.Core.RecorderType

variable (c : RecorderType)

def BaseRecorder.stepBack (b : BaseRecorder) : BaseRecorder :=
  let last := backwardElement b.storage b.index
  let currentId := word (b.currentId + 2 ^ 32 - 1)
  let b :=
    { b with
      currentId, index := last.2
      currentTime := (b.currentTime + 2 ^ 64 - word (b.currentDelta * 1000)) % 2 ^ 64
      currentValue := moved (256 ^ c.valueSize) (!last.1.negative) b.currentValue last.1.value }
  if currentId = b.start.id then { b with index := 0, currentDelta := 0 }
  else
    let first := backwardElement b.storage b.index
    let handled := b.index - first.2
    if first.1.time then
      { b with
        index := first.2
        currentDelta := moved (2 ^ 32) (!first.1.negative) b.currentDelta first.1.value }
    else { b with index := first.2 + handled }

/-- What a recording holds of a measurement: the delta of the time, where it is another one, and
that of the value, a number of a type with `size` values. -/
structure DeltaStep (size : Nat) where
  time : Option Element
  value : Element
  isTime : ∀ e ∈ time, e.time = true ∧ e.value < 2 ^ 32
  isValue : value.time = false ∧ value.value < size

def DeltaStep.elements {size : Nat} (s : DeltaStep size) : List Element :=
  s.time.toList ++ [s.value]

/-- A recorder that has stored some elements. -/
def stored (memory : Nat → UInt8) (elements : List Element) : BaseRecorder :=
  elements.foldl BaseRecorder.storeDelta (.new ⟨0, 0, 0⟩ memory)

section Position

variable {size : Nat} (memory : Nat → UInt8)

/-- The recorder stands behind some of the steps of a recording.  It has a copy of the bytes, and
its delta is zero where the recording starts. -/
structure Stands (before steps : List (DeltaStep size)) (r : BaseRecorder) : Prop where
  storage : ∀ j < (stored memory (steps.flatMap DeltaStep.elements)).index,
    r.storage j = (stored memory (steps.flatMap DeltaStep.elements)).storage j
  index : r.index = (stored memory (before.flatMap DeltaStep.elements)).index
  index_lt : r.index < 2 ^ 32
  currentId : r.currentId = word (r.start.id + before.length)
  start_lt : r.start.id < 2 ^ 32
  first : before = [] → r.currentDelta = 0
  delta_lt : r.currentDelta < 2 ^ 32
  time_lt : r.currentTime < 2 ^ 64
  value_lt : r.currentValue < size

end Position

/-- A step forward and one back leave the cursor, the time and the value as they were. -/
def Undone (r : BaseRecorder) : Prop :=
  ((r.stepForward c).stepBack c).index = r.index ∧
    ((r.stepForward c).stepBack c).currentTime = r.currentTime ∧
      ((r.stepForward c).stepBack c).currentValue = r.currentValue

/-- The element between two indices is the same number from either end. -/
def Mirrored (storage : Nat → UInt8) (start stop : Nat) : Prop :=
  (backwardElement storage stop).1.value = (c.forwardElement storage start).1.value ∧
    (backwardElement storage stop).2 = start

/-- Stepping back undoes stepping forward everywhere in a recording, and each of its elements is the
same from its end as from its start. -/
def StepsBack (memory : Nat → UInt8) (steps : List (DeltaStep (256 ^ c.valueSize))) : Prop :=
  (∀ before s after, steps = before ++ s :: after →
      ∀ r, Stands memory before steps r → c.Undone r) ∧
    ∀ before e after, steps.flatMap DeltaStep.elements = before ++ e :: after →
      c.Mirrored (stored memory (steps.flatMap DeltaStep.elements)).storage
        (stored memory before).index (stored memory (before ++ [e])).index

/-! ### Bytes of a recording -/

/-- No element goes on over this index. -/
def Closed (storage : Nat → UInt8) (index : Nat) : Prop :=
  0 < index → (storage (index - 1)).toNat < 0x80

theorem stored_appends (b : BaseRecorder) (elements : List Element) :
    BaseRecorder.Appends (elements.flatMap element) b
      (elements.foldl BaseRecorder.storeDelta b) := by
  induction elements generalizing b with
  | nil => exact .refl b
  | cons e elements ih =>
    rw [List.flatMap_cons, List.foldl_cons]
    exact (b.storeDelta_appends e).trans (ih _)

theorem stored_index (memory : Nat → UInt8) (elements : List Element) :
    (stored memory elements).index = (elements.flatMap element).length := by
  rw [stored, (stored_appends _ elements).index]
  exact Nat.zero_add _

theorem stored_holds (memory : Nat → UInt8) (elements : List Element) :
    Holds (stored memory elements).storage 0 (elements.flatMap element) :=
  (stored_appends _ elements).holds

theorem elementRest_closed {storage : Nat → UInt8} {fuel value index : Nat}
    (hvalue : value < 128 ^ fuel) (h : Holds storage index (elementRest fuel value))
    (hclosed : value = 0 → Closed storage index) :
    Closed storage (index + (elementRest fuel value).length) := by
  induction fuel generalizing value index with
  | zero => exact hclosed (by simpa using hvalue)
  | succ fuel ih =>
    rw [elementRest] at h ⊢
    by_cases hzero : value = 0
    · rw [if_pos hzero]
      exact hclosed hzero
    · rw [if_neg hzero] at h ⊢
      rw [List.length_cons, show ∀ n, index + (n + 1) = index + 1 + n by omega]
      apply ih (by rw [Nat.pow_succ] at hvalue; omega) h.2
      intro hlast _
      rw [Nat.add_sub_cancel, h.1, ofNat_piece, if_neg (by omega)]
      omega

theorem ofNat_first (e : Element) :
    (UInt8.ofNat ((if e.time then 0x40 else 0) + (if e.negative then 0x20 else 0) +
      (if 32 < e.value then 0x80 else 0) + e.value % 0x20)).toNat =
      (if e.time then 0x40 else 0) + (if e.negative then 0x20 else 0) +
        (if 32 < e.value then 0x80 else 0) + e.value % 0x20 := by
  rw [UInt8.toNat_ofNat', Nat.mod_eq_of_lt]
  split_ifs <;> omega

theorem element_closed {storage : Nat → UInt8} {index : Nat} {e : Element}
    (hvalue : e.value < 2 ^ 64) (h : Holds storage index (element e)) :
    Closed storage (index + (element e).length) := by
  obtain ⟨hbyte, hrest⟩ := h
  rw [element, List.length_cons, show ∀ n, index + (n + 1) = index + 1 + n by omega]
  apply elementRest_closed (by omega) hrest
  intro hsmall _
  rw [Nat.add_sub_cancel, hbyte, ofNat_first, if_neg (show ¬32 < e.value by omega)]
  split_ifs <;> omega

theorem elements_closed {storage : Nat → UInt8} {elements : List Element} {index : Nat}
    (hvalue : ∀ e ∈ elements, e.value < 2 ^ 64)
    (h : Holds storage index (elements.flatMap element)) (hclosed : Closed storage index) :
    Closed storage (index + (elements.flatMap element).length) := by
  induction elements generalizing index with
  | nil => exact hclosed
  | cons e elements ih =>
    rw [List.flatMap_cons, holds_append] at h
    rw [List.flatMap_cons, List.length_append, ← Nat.add_assoc]
    apply ih (fun e he => hvalue e (List.mem_cons_of_mem _ he)) h.2
    exact element_closed (hvalue e List.mem_cons_self) h.1

/-! ### An element from its end -/

/-- The loop of `BackwardElement` takes what the loop of `StoreDelta` left, the last byte first. -/
theorem backwardRest_elementRest {storage : Nat → UInt8} {fuel value index result : Nat}
    (hvalue : value < 128 ^ fuel) (hpos : 0 < value) (hmore : 0x80 ≤ (storage index).toNat)
    (hfits : result * 128 ^ (elementRest fuel value).length + value < 2 ^ 64)
    (h : Holds storage (index + 1) (elementRest fuel value)) :
    backwardRest storage (index + (elementRest fuel value).length) result =
      backwardRest storage index (result * 128 ^ (elementRest fuel value).length + value) := by
  induction fuel generalizing value index with
  | zero => exact absurd hvalue (by simpa using Nat.ne_of_gt hpos)
  | succ fuel ih =>
    rw [elementRest, if_neg (by omega)] at h hfits ⊢
    obtain ⟨hbyte, hrest⟩ := h
    have hdigit : (storage (index + 1)).toNat % 0x80 = value % 0x80 := by
      rw [hbyte, ofNat_piece]
      split <;> omega
    rw [List.length_cons, Nat.pow_succ, ← Nat.mul_assoc] at hfits
    rw [List.length_cons, show ∀ n, index + (n + 1) = index + 1 + n by omega, Nat.pow_succ,
      ← Nat.mul_assoc]
    -- The byte behind the index is read last, when the others are in the result.
    have hlast : ∀ rest, rest * 0x80 + value % 0x80 < 2 ^ 64 →
        backwardRest storage (index + 1) rest =
          backwardRest storage index (rest * 0x80 + value % 0x80) := by
      intro rest hrest
      rw [backwardRest, if_neg (by omega), hdigit, Nat.mod_eq_of_lt hrest]
    by_cases hend : value / 0x80 = 0
    · rw [hend, elementRest_zero, List.length_nil, Nat.pow_zero, Nat.mul_one] at hfits ⊢
      rw [Nat.add_zero, hlast result (by omega), show value % 0x80 = value by omega]
    · rw [ih (by rw [Nat.pow_succ] at hvalue; omega) (by omega)
        (by rw [hbyte, ofNat_piece, if_pos (by omega)]; omega) (by omega) hrest,
        hlast _ (by omega)]
      congr 1
      omega

/-- `BackwardElement` at the end of an element, and nothing before it is of the element. -/
theorem backwardElement_element {storage : Nat → UInt8} {index : Nat} {e : Element}
    (hvalue : e.value < 2 ^ 64) (hne : e.value ≠ 32) (hclosed : Closed storage index)
    (h : Holds storage index (element e)) :
    backwardElement storage (index + (element e).length) = (e, index) := by
  obtain ⟨hbyte, hrest⟩ := h
  have hdigit := ofNat_first e
  rw [← hbyte] at hdigit
  have hstop : ∀ result, backwardRest storage index result = (result, index) := by
    intro result
    cases index with
    | zero => rfl
    | succ index =>
      rw [backwardRest]
      exact if_pos (hclosed (Nat.succ_pos _))
  have hback : backwardRest storage (index + (element e).length - 1) 0 =
      (e.value / 0x20, index) := by
    rw [element, List.length_cons, ← Nat.add_assoc, Nat.add_sub_cancel]
    by_cases hsmall : e.value / 0x20 = 0
    · rw [hsmall, elementRest_zero, List.length_nil, Nat.add_zero, hstop]
    · rw [backwardRest_elementRest (by omega) (by omega)
        (by rw [hdigit, if_pos (show 32 < e.value by omega)]; omega) (by omega) hrest, Nat.zero_mul,
        Nat.zero_add, hstop]
  have htime : ((storage index).toNat / 0x40 % 2 = 1) ↔ e.time = true := by
    rw [hdigit]
    split_ifs <;> simp_all <;> omega
  have hnegative : ((storage index).toNat / 0x20 % 2 = 1) ↔ e.negative = true := by
    rw [hdigit]
    split_ifs <;> simp_all <;> omega
  have hlow : (storage index).toNat % 0x20 = e.value % 0x20 := by
    rw [hdigit]
    split_ifs <;> omega
  rw [backwardElement]
  simp only [hback, htime, hnegative, hlow, Bool.decide_eq_true]
  rw [Nat.mod_eq_of_lt (by omega), show e.value / 0x20 * 0x20 + e.value % 0x20 = e.value by omega]

/-- From the end of 32, whose first byte does not say that it goes on, only the second one is
read. -/
theorem backwardElement_thirtyTwo {storage : Nat → UInt8} {index : Nat} {e : Element}
    (hvalue : e.value = 32) (h : Holds storage index (element e)) :
    (backwardElement storage (index + (element e).length)).2 = index + 1 := by
  have hlength : (element e).length = 2 := by
    rw [element, hvalue]
    rfl
  have hdigit := ofNat_first e
  rw [← h.1] at hdigit
  have hshort : (storage index).toNat < 0x80 := by
    rw [hdigit, hvalue]
    split_ifs <;> simp_all
  rw [backwardElement, hlength, show index + 2 - 1 = index + 1 from rfl, backwardRest,
    if_pos hshort]

/-! ### An element from its start -/

section Narrow

variable {c}

theorem shifted_over (hwide : c.wide = fun _ _ => 0) {digit : UInt8} {shift : Nat}
    (h : 32 ≤ shift ∨ 2 ^ 32 ≤ digit.toNat % 0x80 * 2 ^ shift) : c.shifted digit shift = 0 := by
  rw [shifted, if_neg (by omega), if_neg (by omega), hwide]

/-- Digits over the width of an `int` may leave the number as it is. -/
theorem forwardRest_over (hwide : c.wide = fun _ _ => 0) {storage : Nat → UInt8}
    {fuel fuel' value index shift read : Nat} {digit : UInt8} (hshift : 32 ≤ shift)
    (hfuel : shift + 7 * fuel < 2 ^ 8) (hvalue : value < 128 ^ fuel) (hread : read < 2 ^ 64)
    (hdigit : 0x80 ≤ digit.toNat ↔ 0 < value) (h : Holds storage index (elementRest fuel value)) :
    (c.forwardRest storage fuel' digit index shift read).1 = read := by
  induction fuel' generalizing fuel value index shift digit with
  | zero => rfl
  | succ fuel' ih =>
    rw [forwardRest]
    by_cases hzero : value = 0
    · rw [if_pos (by omega)]
    · rw [if_neg (by omega), shifted_over hwide (.inl hshift), Nat.zero_or, Nat.mod_eq_of_lt hread]
      cases fuel with
      | zero => exact absurd hvalue (by simpa using hzero)
      | succ fuel =>
        rw [elementRest, if_neg hzero] at h
        obtain ⟨hbyte, hrest⟩ := h
        rw [Nat.mod_eq_of_lt (show shift + 7 < 2 ^ 8 by omega)]
        apply ih (by omega) (by omega) (by rw [Nat.pow_succ] at hvalue; omega) _ hrest
        rw [hbyte, ofNat_piece]
        split <;> omega

theorem bit_of_low {value read : Nat} (hlow : value % 0x80 * 2 ^ 26 < 2 ^ 32)
    (hread : read < 2 ^ 26) : (value * 2 ^ 26 + read) / 2 ^ 32 % 2 ≠ 1 := by
  omega

/-- Where digits over the width leave the number as it is, only numbers below 2 ^ 31 are read as
they were stored. -/
theorem forwardRest_narrow (hwide : c.wide = fun _ _ => 0) {storage : Nat → UInt8}
    {fuel fuel' value index shift read : Nat} {digit : UInt8} (hseven : shift % 7 = 5)
    (hfuel : shift + 7 * fuel < 2 ^ 8) (hvalue : value < 128 ^ fuel) (hread : read < 2 ^ shift)
    (hless : read < 2 ^ 31)
    (hdigit : 0x80 ≤ digit.toNat ↔ 0 < value) (h : Holds storage index (elementRest fuel value))
    (hsame : (c.forwardRest storage fuel' digit index shift read).1 = value * 2 ^ shift + read) :
    value * 2 ^ shift + read < 2 ^ 31 := by
  induction fuel' generalizing fuel value index shift read digit with
  | zero =>
    rw [forwardRest] at hsame
    omega
  | succ fuel' ih =>
    by_cases hzero : value = 0
    · rw [hzero, Nat.zero_mul, Nat.zero_add]
      exact hless
    have hpos : 0 < value * 2 ^ shift := Nat.mul_pos (by omega) (Nat.two_pow_pos _)
    cases fuel with
    | zero => exact absurd hvalue (by simpa using hzero)
    | succ fuel =>
      rw [elementRest, if_neg hzero] at h
      obtain ⟨hbyte, hrest⟩ := h
      have hlow : (storage index).toNat % 0x80 = value % 0x80 := by
        rw [hbyte, ofNat_piece]
        split <;> omega
      have hflag : 0x80 ≤ (storage index).toNat ↔ 0 < value / 0x80 := by
        rw [hbyte, ofNat_piece]
        split <;> omega
      have hvalue' : value / 0x80 < 128 ^ fuel := by
        rw [Nat.pow_succ] at hvalue
        omega
      rw [forwardRest, if_neg (by omega), Nat.mod_eq_of_lt (show shift + 7 < 2 ^ 8 by omega)]
        at hsame
      -- Where the digit is lost, nothing makes up for it.
      have hlost : 32 ≤ shift + 7 → c.shifted (storage index) shift = 0 → False := by
        intro hshift hnone
        rw [hnone, Nat.zero_or, Nat.mod_eq_of_lt (by omega), forwardRest_over hwide hshift
          (by omega) hvalue' (by omega) hflag hrest] at hsame
        omega
      by_cases hwidth : shift < 32
      · have hfour : shift = 5 ∨ shift = 12 ∨ shift = 19 ∨ shift = 26 := by omega
        by_cases hsmall : value % 0x80 * 2 ^ shift < 2 ^ 31
        · obtain ⟨piece, hor, hpiece⟩ :=
            shifted_or (c := c) hread (by rw [hlow]; omega) hwidth
          rw [hlow] at hpiece
          rw [hor, hpiece.eq hsmall] at hsame
          have hall : value / 0x80 * 2 ^ (shift + 7) + (read + value % 0x80 * 2 ^ shift) =
              value * 2 ^ shift + read := by
            rcases hfour with rfl | rfl | rfl | rfl <;> omega
          have hshort : read + value % 0x80 * 2 ^ shift < 2 ^ 31 := by
            rcases hfour with rfl | rfl | rfl | rfl <;> omega
          have hless' : read + value % 0x80 * 2 ^ shift < 2 ^ (shift + 7) := by
            rcases hfour with rfl | rfl | rfl | rfl <;> omega
          rw [← hall]
          apply ih (by omega) (by omega) hvalue' hless' hshort hflag hrest
          rw [hsame, hall]
        · obtain rfl : shift = 26 := by rcases hfour with rfl | rfl | rfl | rfl <;> omega
          by_cases hlong : value % 0x80 * 2 ^ 26 < 2 ^ 32
          · -- The number read has bit 32, for the sign of the `int`, and the stored one has not.
            rw [forwardRest_over hwide (by omega) (by omega) hvalue' (Nat.mod_lt _ (by decide))
              hflag hrest] at hsame
            have hsign : (value % 0x80 * 2 ^ 26 + (2 ^ 64 - 2 ^ 32)).testBit 32 = true := by
              rw [Nat.testBit_eq_decide_div_mod_eq]
              exact decide_eq_true (by omega)
            have hbit : (value * 2 ^ 26 + read).testBit 32 = true := by
              rw [← hsame, Nat.testBit_mod_two_pow, Nat.testBit_or, shifted, hlow,
                if_neg (by omega), if_pos ⟨by decide, hlong⟩, hsign]
              rfl
            rw [Nat.testBit_eq_decide_div_mod_eq] at hbit
            exact absurd (of_decide_eq_true hbit) (bit_of_low hlong hread)
          · exact absurd (shifted_over hwide (.inr (by rw [hlow]; omega))) (hlost (by omega))
      · exact absurd (shifted_over hwide (.inl (by omega))) (hlost (by omega))

/-- A number other than 32 that is the same from either end, where digits over the width leave the
number as it is, is below 2 ^ 31. -/
theorem Mirrored.lt (hwide : c.wide = fun _ _ => 0) {storage : Nat → UInt8} {index : Nat}
    {e : Element} (hvalue : e.value < 2 ^ 64) (hne : e.value ≠ 32) (hclosed : Closed storage index)
    (h : Holds storage index (element e))
    (hsame : c.Mirrored storage index (index + (element e).length)) : e.value < 2 ^ 31 := by
  have hback := hsame.1
  rw [backwardElement_element hvalue hne hclosed h] at hback
  obtain ⟨hbyte, hrest⟩ := h
  have hdigit := ofNat_first e
  rw [← hbyte] at hdigit
  have hlow : (storage index).toNat % 0x20 = e.value % 0x20 := by
    rw [hdigit]
    split_ifs <;> omega
  have hflag : 0x80 ≤ (storage index).toNat ↔ 0 < e.value / 0x20 := by
    rw [hdigit]
    split_ifs <;> omega
  have hread : (c.forwardRest storage c.captureSize (storage index) (index + 1) 5
      (e.value % 0x20)).1 = e.value / 0x20 * 2 ^ 5 + e.value % 0x20 := by
    rw [show e.value / 0x20 * 2 ^ 5 + e.value % 0x20 = e.value by omega, ← hlow]
    exact hback.symm
  have hless : e.value / 0x20 * 2 ^ 5 + e.value % 0x20 < 2 ^ 31 :=
    forwardRest_narrow hwide (by decide) (by decide) (show e.value / 0x20 < 128 ^ 9 by omega)
      (by omega) (by omega) hflag hrest hread
  omega

/-- A number other than 32 and below 2 ^ 31 is the same from either end. -/
theorem mirrored {storage : Nat → UInt8} {index : Nat} {e : Element} (hne : e.value ≠ 32)
    (hvalue : e.value < 2 ^ 31) (hclosed : Closed storage index)
    (h : Holds storage index (element e)) :
    c.forwardElement storage index = (e, index + (element e).length) ∧
      backwardElement storage (index + (element e).length) = (e, index) := by
  obtain ⟨read, hread, hwide⟩ := forwardElement_element (c := c) (by omega) hne h
  refine ⟨?_, backwardElement_element (by omega) hne hclosed h⟩
  rw [hread, hwide.eq hvalue]

end Narrow

/-! ### A step back -/

section Steps

variable {c}

/-- The element can be read from either end. -/
def Readable (e : Element) : Prop := e.value ≠ 32 ∧ e.value < 2 ^ 31

theorem moved_moved {size number delta : Nat} (negative : Bool) (h : number < size) :
    moved size (!negative) (moved size negative number delta) delta = number := by
  have hmod := Nat.mod_lt delta (show 0 < size by omega)
  cases negative
  · simp only [moved, Bool.not_false, if_true, Bool.false_eq_true, if_false]
    rw [Nat.add_mod number, Nat.mod_eq_of_lt h]
    rcases Nat.lt_or_ge (number + delta % size) size with hlt | hge
    · rw [Nat.mod_eq_of_lt hlt, show number + delta % size + size - delta % size = number + size by
        omega, Nat.add_mod_right, Nat.mod_eq_of_lt h]
    · have hback : number + delta % size - size < size := by omega
      rw [Nat.mod_eq_sub_mod hge, Nat.mod_eq_of_lt hback,
        show number + delta % size - size + size - delta % size = number by omega,
        Nat.mod_eq_of_lt h]
  · simp only [moved, Bool.not_true, if_true, Bool.false_eq_true, if_false]
    rw [Nat.mod_add_mod, ← Nat.add_mod_mod,
      show number + size - delta % size + delta % size = number + size by omega, Nat.add_mod_right,
      Nat.mod_eq_of_lt h]

theorem time_back {time step : Nat} (htime : time < 2 ^ 64) (hstep : step < 2 ^ 32) :
    ((time + step) % 2 ^ 64 + 2 ^ 64 - step) % 2 ^ 64 = time := by
  omega

theorem word_back {id : Nat} (h : id < 2 ^ 32) : word (word (id + 1) + 2 ^ 32 - 1) = id := by
  unfold word
  omega

variable {size : Nat} {s : DeltaStep size} {r : BaseRecorder}

/-- Where the recorder came from: the start, or an element of a value. -/
def Behind (r : BaseRecorder) : Prop :=
  if r.currentId = r.start.id then r.index = 0 ∧ r.currentDelta = 0
  else ∃ e start, e.time = false ∧ Readable e ∧ Closed r.storage start ∧
    Holds r.storage start (element e) ∧ r.index = start + (element e).length

/-- Back over the value of a step, and over its time where it has one. -/
theorem stepBack_stepForward {s : DeltaStep (256 ^ c.valueSize)}
    (h : Holds r.storage r.index (s.elements.flatMap element))
    (hclosed : Closed r.storage r.index) (hread : ∀ e ∈ s.elements, Readable e)
    (hbehind : Behind r) (hid : r.currentId < 2 ^ 32) (hdelta : r.currentDelta < 2 ^ 32)
    (htime : r.currentTime < 2 ^ 64) (hvalue : r.currentValue < 256 ^ c.valueSize) :
    (r.stepForward c).stepBack c = r := by
  obtain ⟨start, currentDelta, currentId, currentTime, currentValue, index, storage⟩ := r
  obtain ⟨time, value, isTime, isValue⟩ := s
  simp only at h hclosed hid hdelta htime hvalue
  have hvalueRead : Readable value := hread value (by simp [DeltaStep.elements])
  cases time with
  | none =>
    have hbytes : Holds storage index (element value) := by simpa [DeltaStep.elements] using h
    obtain ⟨hforward, hback⟩ := mirrored (c := c) hvalueRead.1 hvalueRead.2 hclosed hbytes
    rw [BaseRecorder.stepForward, BaseRecorder.stepBack]
    simp only [hforward, hback, isValue.1, Bool.false_eq_true, if_false, word_back hid,
      moved_moved _ hvalue, time_back htime (word_lt _)]
    simp only [Behind] at hbehind
    split_ifs at hbehind ⊢ with hstart htimed
    · rw [hbehind.1, hbehind.2]
    · -- The element before is a value, so it is not a part of this step.
      obtain ⟨e, before, hflag, hreadable, hclosed', hbefore, rfl⟩ := hbehind
      rw [(mirrored (c := c) hreadable.1 hreadable.2 hclosed' hbefore).2, hflag] at htimed
      exact absurd htimed (by decide)
    · obtain ⟨e, before, hflag, hreadable, hclosed', hbefore, rfl⟩ := hbehind
      rw [(mirrored (c := c) hreadable.1 hreadable.2 hclosed' hbefore).2]
      simp
  | some e =>
    have hread' : Readable e := hread e (by simp [DeltaStep.elements])
    obtain ⟨hflag, -⟩ := isTime e rfl
    have hbytes : Holds storage index (element e) ∧
        Holds storage (index + (element e).length) (element value) := by
      simpa [DeltaStep.elements, holds_append] using h
    have hbetween := element_closed (by have := hread'.2; omega) hbytes.1
    obtain ⟨hforward, hback⟩ := mirrored (c := c) hread'.1 hread'.2 hclosed hbytes.1
    obtain ⟨hforward', hback'⟩ :=
      mirrored (c := c) hvalueRead.1 hvalueRead.2 hbetween hbytes.2
    rw [BaseRecorder.stepForward, BaseRecorder.stepBack]
    simp only [hforward, hforward', hflag, if_true, hback', word_back hid,
      moved_moved _ hvalue, time_back htime (word_lt _), hback, moved_moved _ hdelta]
    simp only [Behind] at hbehind
    split_ifs at hbehind ⊢ with hstart
    · rw [hbehind.1, hbehind.2]
    · rfl

end Steps

/-! ### Recordings -/

section Recordings

variable {c} {size : Nat}

theorem elements_lt (hsize : size ≤ 2 ^ 64) {steps : List (DeltaStep size)} {e : Element}
    (he : e ∈ steps.flatMap DeltaStep.elements) : e.value < 2 ^ 64 := by
  obtain ⟨s, -, he⟩ := List.mem_flatMap.mp he
  rcases List.mem_append.mp he with he | he
  · have := (s.isTime e (by simpa using he)).2
    omega
  · obtain rfl := List.mem_singleton.mp he
    have := s.isValue.2
    omega

theorem size_le (c : RecorderType) : 256 ^ c.valueSize ≤ 2 ^ 64 := by
  have hmem := c.valueSize_mem
  simp only [List.mem_cons, List.not_mem_nil, or_false] at hmem
  rcases hmem with h | h | h | h <;> rw [h] <;> decide

theorem length_le_bytes (steps : List (DeltaStep size)) :
    steps.length ≤ ((steps.flatMap DeltaStep.elements).flatMap element).length := by
  induction steps with
  | nil => exact Nat.le_refl 0
  | cons s steps ih =>
    rw [List.flatMap_cons, List.flatMap_append, List.length_append, List.length_cons,
      DeltaStep.elements, List.flatMap_append, List.length_append, List.flatMap_singleton]
    have := element_length_pos s.value
    omega

/-- An element of a recording, with what it stands behind. -/
theorem holds_element {storage : Nat → UInt8} {before after : List Element} {e : Element}
    (hvalue : ∀ e ∈ before, e.value < 2 ^ 64)
    (h : Holds storage 0 ((before ++ e :: after).flatMap element)) :
    Closed storage (before.flatMap element).length ∧
      Holds storage (before.flatMap element).length (element e) := by
  rw [List.flatMap_append, holds_append, List.flatMap_cons, holds_append, Nat.zero_add] at h
  refine ⟨?_, h.2.1⟩
  have hclosed := elements_closed hvalue h.1 (fun h => absurd h (by decide))
  rwa [Nat.zero_add] at hclosed

theorem Stands.holds {memory : Nat → UInt8} {before steps : List (DeltaStep size)}
    {r : BaseRecorder} (h : Stands memory before steps r) :
    Holds r.storage 0 ((steps.flatMap DeltaStep.elements).flatMap element) := by
  apply (stored_holds memory _).congr
  intro j _ hj
  apply h.storage
  rw [stored_index]
  omega

theorem Stands.behind (hsize : size ≤ 2 ^ 64) {memory : Nat → UInt8}
    {before after : List (DeltaStep size)} {r : BaseRecorder}
    (h : Stands memory before (before ++ after) r)
    (hread : ∀ e ∈ before.flatMap DeltaStep.elements, Readable e) : Behind r := by
  have hindex := h.index
  rw [stored_index] at hindex
  unfold Behind
  rcases List.eq_nil_or_concat before with rfl | ⟨init, last, rfl⟩
  · have hid : r.currentId = r.start.id := by
      rw [h.currentId]
      exact word_of_lt h.start_lt
    rw [if_pos hid]
    exact ⟨hindex, h.first rfl⟩
  · have hlength := length_le_bytes (init.concat last)
    have hid : r.currentId ≠ r.start.id := by
      have hstart := h.start_lt
      have hlt := h.index_lt
      rw [h.currentId, word]
      rw [List.length_concat] at hlength ⊢
      omega
    rw [if_neg hid]
    have hall : (init.concat last).flatMap DeltaStep.elements =
        (init.flatMap DeltaStep.elements ++ last.time.toList) ++ [last.value] := by
      rw [List.concat_eq_append, List.flatMap_append, List.flatMap_singleton, DeltaStep.elements,
        List.append_assoc]
    have hholds := h.holds
    rw [List.flatMap_append, hall, List.append_assoc] at hholds
    have hlt : ∀ e ∈ init.flatMap DeltaStep.elements ++ last.time.toList, e.value < 2 ^ 64 := by
      intro e he
      have hmem : e ∈ (init.concat last).flatMap DeltaStep.elements := by
        rw [hall]
        exact List.mem_append_left _ he
      exact elements_lt hsize hmem
    obtain ⟨hclosed, hvalue⟩ := holds_element hlt hholds
    refine ⟨last.value, _, last.isValue.1, hread last.value ?_, hclosed, hvalue, ?_⟩
    · rw [hall]
      exact List.mem_append_right _ (List.mem_singleton.mpr rfl)
    · rw [hindex, hall, List.flatMap_append, List.length_append, List.flatMap_singleton]

theorem Stands.undone {memory : Nat → UInt8} {before after : List (DeltaStep (256 ^ c.valueSize))}
    {s : DeltaStep (256 ^ c.valueSize)} {r : BaseRecorder}
    (h : Stands memory before (before ++ s :: after) r)
    (hread : ∀ e ∈ (before ++ s :: after).flatMap DeltaStep.elements, Readable e) :
    c.Undone r := by
  have hindex := h.index
  rw [stored_index] at hindex
  rw [List.flatMap_append, List.flatMap_cons] at hread
  have hholds := h.holds
  rw [List.flatMap_append, List.flatMap_cons, List.flatMap_append, List.flatMap_append,
    holds_append, holds_append, Nat.zero_add, ← hindex] at hholds
  have hclosed : Closed r.storage r.index := by
    have hfrom := elements_closed (fun e he => elements_lt c.size_le he) hholds.1
      (fun h => absurd h (by decide))
    rwa [Nat.zero_add, ← hindex] at hfrom
  have hsame : (r.stepForward c).stepBack c = r := by
    apply stepBack_stepForward hholds.2.1 hclosed
    · intro e he
      exact hread e (List.mem_append_right _ (List.mem_append_left _ he))
    · exact h.behind c.size_le fun e he => hread e (List.mem_append_left _ he)
    · rw [h.currentId]
      exact word_lt _
    · exact h.delta_lt
    · exact h.time_lt
    · exact h.value_lt
  unfold Undone
  rw [hsame]
  exact ⟨rfl, rfl, rfl⟩

end Recordings

/-- Stepping back undoes stepping forward in a recording, whatever the shift of an `int` over its
width gives, exactly when none of its numbers is 32 and all of them are below 2 ^ 31. -/
theorem stepsBack_iff (memory : Nat → UInt8) (steps : List (DeltaStep (256 ^ c.valueSize))) :
    (∀ wide, StepsBack { c with wide } memory steps) ↔
      ∀ e ∈ steps.flatMap DeltaStep.elements, e.value ≠ 32 ∧ e.value < 2 ^ 31 := by
  constructor
  · intro h e he
    obtain ⟨before, after, hsplit⟩ := List.append_of_mem he
    have hvalue : ∀ e ∈ steps.flatMap DeltaStep.elements, e.value < 2 ^ 64 :=
      fun e he => elements_lt c.size_le he
    have hholds := stored_holds memory (steps.flatMap DeltaStep.elements)
    have hmirrored := (h fun _ _ => 0).2 before e after hsplit
    rw [stored_index, stored_index, List.flatMap_append, List.length_append,
      List.flatMap_singleton] at hmirrored
    rw [hsplit] at hvalue hholds hmirrored
    obtain ⟨hclosed, hbytes⟩ :=
      holds_element (fun e he => hvalue e (List.mem_append_left _ he)) hholds
    have hne : e.value ≠ 32 := by
      intro h32
      have hstart := hmirrored.2
      rw [backwardElement_thirtyTwo h32 hbytes] at hstart
      omega
    exact ⟨hne, hmirrored.lt rfl (hvalue e (by simp)) hne hclosed hbytes⟩
  · intro hread wide
    constructor
    · rintro before s after rfl r hstands
      exact hstands.undone hread
    · intro before e after hsplit
      have hholds := stored_holds memory (steps.flatMap DeltaStep.elements)
      have hvalue : ∀ x ∈ before ++ e :: after, x.value < 2 ^ 64 := by
        rw [← hsplit]
        exact fun x hx => elements_lt c.size_le hx
      have he := hread e (by rw [hsplit]; simp)
      rw [stored_index, stored_index, List.flatMap_append, List.length_append,
        List.flatMap_singleton]
      rw [hsplit] at hholds ⊢
      obtain ⟨hclosed, hbytes⟩ :=
        holds_element (fun e he => hvalue e (List.mem_append_left _ he)) hholds
      obtain ⟨hforward, hback⟩ := mirrored (c := { c with wide }) he.1 he.2 hclosed hbytes
      rw [Mirrored, hforward, hback]
      exact ⟨rfl, rfl⟩

/-- A value that grows by 32. -/
theorem not_stepsBack_thirtyTwo :
    ¬StepsBack ⟨4, 1, fun _ _ => 0, by decide, by decide⟩ (fun _ => 0)
      [⟨none, ⟨false, false, 32⟩, nofun, by decide⟩] := by
  intro h
  have hmirrored := h.2 [] ⟨false, false, 32⟩ [] rfl
  exact absurd hmirrored.2 (by decide)

end Thunder.Core.RecorderType
