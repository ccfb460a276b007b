import Thunder.Core.JSONNumberRead

/-! Which texts `NumberType::Deserialize` takes for a number, and which number: what the text begins
with says the base, the digits behind it add up. -/

namespace Thunder.Core.JSON.NumberType

variable {f : NumberFormat}

/-! ### Digits -/

/-- What digits add up to behind others: a letter counts as a digit of base 16. -/
def magnitude (base : Nat) (start : Nat) (digits : Text) : Nat :=
  digits.foldl (fun n c => n * (if isdigit c then base else 16) + hexValue c) start

/-- What a text is read as, and how many of its bytes. -/
inductive Reading (f : NumberFormat)
  | null (loaded : Nat)
  | number (value : f.Value) (loaded : Nat)

def Reading.add (n : Nat) : Reading f → Reading f
  | null loaded => null (n + loaded)
  | number value loaded => number value (n + loaded)

/-- What a run reads. -/
def reading : Run (NumberType f) → Option (Reading f)
  | .finished x loaded => some (if x.undefined then .null loaded else .number x.value loaded)
  | _ => none

/-- The bytes that are taken of what ends the digits. -/
def closing (quoted : Bool) : Text → Option Nat
  | [] => none
  | c :: _ =>
    if quoted ∧ c = 0x22 then some 1 else if quoted = false ∧ isEnd c then some 0 else none

/-- The digits a text begins with, read as a number. -/
def readDigits (f : NumberFormat) (quoted negative : Bool) (base start : Nat) (text : Text) :
    Option (Reading f) :=
  let sum := magnitude base start (text.takeWhile isxdigit)
  if (sum : Int) ≤ f.max then
    (closing quoted (text.dropWhile isxdigit)).map fun n =>
      .number (f.cast (if negative then -sum else sum)) ((text.takeWhile isxdigit).length + n)
  else none

theorem min_le_zero (f : NumberFormat) : f.min ≤ 0 := by
  have hpow : (0 : Int) < 2 ^ (f.bits - 1) := Int.pow_pos (by decide)
  unfold NumberFormat.min
  split <;> omega

theorem max_ge (f : NumberFormat) : 127 ≤ f.max := by
  have h := f.bits_mem
  unfold NumberFormat.max
  simp only [List.mem_cons, List.not_mem_nil, or_false] at h
  rcases h with h | h | h | h <;> rw [h] <;> split <;> decide

theorem wrap_eq {n : Int} (hmin : f.min ≤ n) (hmax : n ≤ f.max) : f.wrap n = n := by
  have hbits := f.bits_pos
  have hsplit : (2 : Int) ^ f.bits = 2 * 2 ^ (f.bits - 1) := by
    rw [← Int.pow_succ', show f.bits - 1 + 1 = f.bits by omega]
  unfold NumberFormat.min at hmin
  unfold NumberFormat.max at hmax
  unfold NumberFormat.wrap
  split
  · have hcast : ((2 ^ f.bits : Nat) : Int) = 2 * 2 ^ (f.bits - 1) := by
      rw [← hsplit]
      norm_cast
    rw [if_pos ‹_›] at hmin hmax
    apply Int.bmod_eq_of_le <;> omega
  · rw [if_neg ‹_›] at hmin hmax
    apply Int.emod_eq_of_lt <;> omega

theorem cast_val {n : Int} (hmin : f.min ≤ n) (hmax : n ≤ f.max) : (f.cast n).1 = n :=
  wrap_eq hmin hmax

theorem cast_value (v : f.Value) : f.cast v.1 = v := Subtype.ext (wrap_eq v.2.1 v.2.2)

theorem cast_zero (f : NumberFormat) : (f.cast 0).1 = ((0 : Nat) : Int) := by
  have hmin := min_le_zero f
  have hmax := max_ge f
  exact cast_val hmin (by omega)

/-- A digit more fits, or the number wraps. -/
theorem accumulate_fits {value base digit : Nat}
    (h : (value * base + digit : Nat) ≤ f.max) :
    accumulate f value base digit = (f.cast (value * base + digit : Nat), false) := by
  have hmin := min_le_zero f
  push_cast at h ⊢
  have hmul : (0 : Int) ≤ value * base := by
    rw [← Int.natCast_mul]
    exact Int.natCast_nonneg _
  rw [accumulate, wrap_eq (by omega) (by omega), if_pos rfl, wrap_eq (by omega) h]
  simp

theorem accumulate_overflows {value base digit : Nat}
    (h : f.max < (value * base + digit : Nat)) : (accumulate f value base digit).2 = true := by
  push_cast at h
  unfold accumulate
  split
  · have hwrap := (f.wrap_mem (value * base + digit)).2
    simp only [ne_eq, decide_eq_true_eq]
    omega
  · rfl

theorem magnitude_ge {base : Nat} (hbase : 0 < base) (start : Nat) (digits : Text) :
    start ≤ magnitude base start digits := by
  induction digits generalizing start with
  | nil => exact Nat.le_refl _
  | cons c digits ih =>
    have hpos : 0 < if isdigit c then base else 16 := by split <;> omega
    calc start ≤ start * (if isdigit c then base else 16) := Nat.le_mul_of_pos_right start hpos
      _ ≤ start * (if isdigit c then base else 16) + hexValue c := Nat.le_add_right _ _
      _ ≤ magnitude base start (c :: digits) := ih _

theorem reading_succ (r : Run (NumberType f)) :
    reading r.succ = (reading r).map (Reading.add 1) := by
  cases r with
  | finished x loaded =>
    simp only [Run.succ, reading, Option.map_some, Nat.add_comm loaded]
    split <;> rfl
  | unfinished => rfl
  | failed => rfl

/-- What a digit makes of the number before it. -/
def push (base start : Nat) (c : UInt8) : Nat :=
  start * (if isdigit c then base else 16) + hexValue c

theorem readDigits_digit {c : UInt8} (hdigit : isxdigit c = true) (quoted negative : Bool)
    (base start : Nat) (rest : Text) : readDigits f quoted negative base start (c :: rest) =
      (readDigits f quoted negative base (push base start c) rest).map (Reading.add 1) := by
  have hsum (digits : Text) : magnitude base start (c :: digits) =
      magnitude base (push base start c) digits := rfl
  simp only [readDigits, List.takeWhile_cons_of_pos hdigit, List.dropWhile_cons_of_pos hdigit, hsum]
  split
  · rw [Option.map_map]
    congr 1
    funext n
    simp only [Function.comp, Reading.add, List.length_cons]
    rw [Nat.add_right_comm, Nat.add_comm 1]
  · rfl

theorem readDigits_overflow {c : UInt8} (hdigit : isxdigit c = true) {base start : Nat}
    (hbase : 0 < base) (h : f.max < push base start c) (quoted negative : Bool) (rest : Text) :
    readDigits f quoted negative base start (c :: rest) = none := by
  rw [readDigits, if_neg]
  rw [List.takeWhile_cons_of_pos hdigit]
  have hge := magnitude_ge hbase (push base start c) (rest.takeWhile isxdigit)
  have hsum : magnitude base start (c :: rest.takeWhile isxdigit) =
    magnitude base (push base start c) (rest.takeWhile isxdigit) := rfl
  omega

theorem readDigits_stop {c : UInt8} (hdigit : isxdigit c = false) {start : Nat}
    (hstart : (start : Int) ≤ f.max) (quoted negative : Bool) (base : Nat) (rest : Text) :
    readDigits f quoted negative base start (c :: rest) = (closing quoted (c :: rest)).map
      (.number (f.cast (if negative then -start else start))) := by
  have hneg : ¬isxdigit c = true := by simp [hdigit]
  simp only [readDigits, List.takeWhile_cons_of_neg hneg, List.dropWhile_cons_of_neg hneg]
  rw [if_pos (show (magnitude base start [] : Int) ≤ f.max from hstart)]
  simp [magnitude]

theorem complete_value {x : NumberType f} {start : Nat} (hvalue : x.value.1 = start) :
    x.complete.value = f.cast (if x.negative then -start else start) := by
  rw [complete]
  cases x.negative with
  | true => simp [hvalue]
  | false => simp [← hvalue, cast_value]

/-- A run over digits reads them. -/
theorem reading_digits {x : NumberType f} {start : Nat} (hundefined : x.undefined = false)
    (hbase : 0 < x.base) (hvalue : x.value.1 = start) (text : Text) :
    reading (run step text x 4) = readDigits f x.quoted x.negative x.base start text := by
  have hstart : (start : Int) ≤ f.max := hvalue ▸ x.value.2.2
  induction text generalizing x start with
  | nil => simp [run, reading, readDigits, closing]
  | cons c rest ih =>
    rw [run, step, if_neg (by decide)]
    by_cases hdigit : isxdigit c = true
    · rw [if_pos hdigit]
      have hsum : accumulate f x.value.1 (if isdigit c then x.base else 16) (hexValue c) =
          accumulate f start (if isdigit c then x.base else 16 : Nat) (hexValue c) := by
        rw [hvalue]
        split <;> rfl
      simp only [hsum]
      by_cases hfits : (push x.base start c : Int) ≤ f.max
      · rw [accumulate_fits hfits, readDigits_digit hdigit, if_neg Bool.false_ne_true]
        simp only
        rw [reading_succ]
        have hnonneg := min_le_zero f
        exact congrArg _ (ih hundefined hbase (cast_val (by omega) hfits) hfits)
      · rw [if_pos (accumulate_overflows (Int.not_le.mp hfits)),
          readDigits_overflow hdigit hbase (Int.not_le.mp hfits)]
        rfl
    · rw [if_neg hdigit, readDigits_stop (by simpa using hdigit) hstart, closing]
      have hread (n : Nat) : reading (.finished x.complete n) =
          some (.number (f.cast (if x.negative then -start else start)) n) := by
        rw [reading, complete_value hvalue, if_neg]
        rw [complete, hundefined]
        exact Bool.false_ne_true
      by_cases hclosed : x.quoted = true ∧ c = 0x22
      · rw [if_pos hclosed, if_pos hclosed]
        exact hread 1
      · rw [if_neg hclosed, if_neg hclosed]
        by_cases hended : x.quoted = false ∧ isEnd c = true
        · rw [if_pos hended, if_pos hended]
          exact hread 0
        · rw [if_neg hended, if_neg hended]
          rfl

/-! ### What a text begins with -/

/-- What the bytes in front of the digits say: `size` is how many they are, the zeros of an octal
number not counted, and `proper` is whether the `x` is behind a single zero. -/
structure Mark where
  quoted : Bool
  negative : Bool
  base : Nat
  proper : Bool
  size : Nat

/-- Behind a quote, a minus or zero, and a zero. -/
def markLast (negative : Bool) : Text → Option Mark
  | [] => none
  | c :: _ =>
    if isX c then some ⟨true, negative, 16, negative, 4⟩
    else if isdigit c ∨ c = 0x22 then some ⟨true, negative, 8, true, if negative then 2 else 1⟩
    else none

/-- Behind a quote and a minus or zero. -/
def markSecond (negative : Bool) : Text → Option Mark
  | [] => none
  | c :: text =>
    if c = 0x30 then markLast negative text
    else if isX c then some ⟨true, negative, 16, !negative, 3⟩
    else if isdigit c ∨ c = 0x22 then
      some (if negative then ⟨true, true, 10, true, 2⟩ else ⟨true, false, 8, true, 1⟩)
    else none

/-- Behind a quote. -/
def markQuoted : Text → Option Mark
  | [] => none
  | c :: text =>
    if c = 0x30 then markSecond false text
    else if c = 0x2D then markSecond true text
    else if isdigit c ∨ c = 0x22 then some ⟨true, false, 10, true, 1⟩
    else none

def mark : Text → Option Mark
  | [] => none
  | c :: text =>
    if c = 0x22 then markQuoted text
    else if c = 0x2D then some ⟨false, true, 10, true, 1⟩
    else if isdigit c then some ⟨false, false, 10, true, 0⟩
    else none

/-- The number behind a mark. -/
def Mark.read (f : NumberFormat) (m : Mark) (text : Text) : Option (Reading f) :=
  (readDigits f m.quoted m.negative m.base 0 (text.drop m.size)).map (Reading.add m.size)

/-- How many bytes of a text with an `n` in front are taken for null. -/
def nullLast : Text → Option Nat
  | [] => none
  | c :: _ => if isX c ∨ isdigit c ∨ c = 0x6C then some 4 else none

@[inherit_doc nullLast]
def nullThird : Text → Option Nat
  | [] => none
  | c :: text =>
    if c = 0x30 ∨ c = 0x6C then nullLast text else if isX c ∨ isdigit c then some 3 else none

@[inherit_doc nullLast]
def nullSecond : Text → Option Nat
  | [] => none
  | c :: text =>
    if c = 0x30 ∨ c = 0x2D ∨ c = 0x75 then nullThird text else if isdigit c then some 2 else none

@[inherit_doc nullLast]
def nullMark : Text → Option Nat
  | [] => none
  | c :: text => if c = 0x6E then nullSecond text else none

section Turns

variable {x y : NumberType f} {offset offset' : Nat} {c : UInt8}

theorem run_taken (hoffset : offset < 4) (hturn : x.leadTurn offset c none = ⟨y, offset', 1, none⟩)
    (hgo : y.undefined = true → offset' ≠ 4) (rest : Text) :
    run step (c :: rest) x offset = (run step rest y offset').succ := by
  have hnot : ¬(y.undefined = true ∧ offset' = 4) := fun h => hgo h.1 h.2
  rw [run, step, if_pos hoffset]
  simp only [hturn, OfNat.one_ne_ofNat, one_ne_zero, if_false, if_neg hnot]

theorem run_null (hoffset : offset < 4) (hturn : x.leadTurn offset c none = ⟨y, 4, 1, none⟩)
    (hnull : y.undefined = true) (rest : Text) :
    reading (run step (c :: rest) x offset) = some (.null 1) := by
  rw [run, step, if_pos hoffset]
  simp [hturn, hnull, reading, complete]

theorem run_refused (hoffset : offset < 4) (hturn : x.leadTurn offset c none = y.refuse c)
    (rest : Text) : run step (c :: rest) x offset = .failed := by
  rw [run, step, if_pos hoffset]
  simp [hturn, refuse]

theorem run_empty (hoffset : offset < 4) (hturn : x.leadTurn offset c none = ⟨x, 4, 0, none⟩)
    (rest : Text) : run step (c :: rest) x offset = .finished x.complete 1 := by
  rw [run, step, if_pos hoffset]
  simp [hturn]

end Turns

/-- A quoted number before its first digit. -/
structure Quoted (x : NumberType f) : Prop where
  quoted : x.quoted = true
  defined : x.undefined = false
  value : x.value.1 = 0

theorem digitValue_le {c : UInt8} (h : isdigit c = true) : digitValue c ≤ 9 := by
  have hle : c ≤ 0x39 := by
    simp only [isdigit, decide_eq_true_eq] at h
    exact h.2
  have hnat : c.toNat ≤ 0x39 := UInt8.le_iff_toNat_le.mp hle
  rw [digitValue]
  omega

theorem isxdigit_of_isdigit {c : UInt8} (h : isdigit c = true) : isxdigit c = true := by
  simp [isxdigit, h]

theorem push_zero {c : UInt8} (h : isdigit c = true) (base : Nat) :
    push base 0 c = digitValue c := by
  rw [push, Nat.zero_mul, Nat.zero_add, hexValue, if_pos h]
  rfl

theorem firstDigit_value (x : NumberType f) (base : Nat) {c : UInt8} (h : isdigit c = true) :
    (x.firstDigit base c).value.1 = digitValue c := by
  have hle := digitValue_le h
  have hmax := max_ge f
  have hmin := min_le_zero f
  exact cast_val (by omega) (by omega)

/-- The first digit and those behind it. -/
theorem reading_first {x : NumberType f} (hundefined : x.undefined = false) {base : Nat}
    (hbase : 0 < base) {c : UInt8} (h : isdigit c = true) (rest : Text) :
    (reading (run step rest (x.firstDigit base c) 4)).map (Reading.add 1) =
      readDigits f x.quoted x.negative base 0 (c :: rest) := by
  rw [readDigits_digit (isxdigit_of_isdigit h), push_zero h]
  exact congrArg _ (reading_digits (x := x.firstDigit base c) hundefined hbase
    (firstDigit_value x base h) rest)

/-- Zeros in front do not count. -/
theorem readDigits_zero (quoted negative : Bool) (base : Nat) (rest : Text) :
    readDigits f quoted negative base 0 (0x30 :: rest) =
      (readDigits f quoted negative base 0 rest).map (Reading.add 1) := by
  rw [readDigits_digit (by decide), push_zero (by decide)]
  rfl

theorem readDigits_none (negative : Bool) (base : Nat) (rest : Text) :
    readDigits f true negative base 0 (0x22 :: rest) = some (.number (f.cast 0) 1) := by
  have hmax := max_ge f
  rw [readDigits_stop (by decide) (by omega)]
  cases negative <;> rfl

theorem reading_empty {x : NumberType f} (h : x.Quoted) :
    reading (.finished x.complete 1) = some (.number (f.cast 0) 1) := by
  have hzero : x.value.1 = ((0 : Nat) : Int) := h.value
  have hvalue := complete_value hzero
  rw [reading, if_neg (by rw [complete, h.defined]; exact Bool.false_ne_true), hvalue]
  cases x.negative <;> rfl

theorem Reading.map_zero (r : Option (Reading f)) : r.map (Reading.add 0) = r := by
  cases r with
  | none => rfl
  | some r => cases r <;> simp [Reading.add]

theorem Reading.map_add (r : Option (Reading f)) (m n : Nat) :
    (r.map (Reading.add m)).map (Reading.add n) = r.map (Reading.add (n + m)) := by
  rw [Option.map_map]
  congr 1
  funext r
  cases r <;> simp [Function.comp, Reading.add, Nat.add_assoc]

/-- The same behind an `x`. -/
theorem reading_hexadecimal {x : NumberType f} (h : x.Quoted) (rest : Text) :
    reading (run step rest { x with base := 16 } 4) = readDigits f true x.negative 16 0 rest := by
  have hzero : x.value.1 = ((0 : Nat) : Int) := h.value
  have hread := reading_digits (x := { x with base := 16 }) h.defined (by decide : 0 < 16) hzero
    rest
  rw [hread, ← h.quoted]

theorem leadTurn_one (x : NumberType f) (c : UInt8) : x.leadTurn 1 c none =
    if c = 0x30 then ⟨x, 2, 1, none⟩
    else if c = 0x2D then ⟨{ x with negative := true }, 2, 1, none⟩
    else if isdigit c then ⟨x.firstDigit 10 c, 4, 1, none⟩
    else if x.undefined ∧ c = 0x75 then ⟨x, 2, 1, none⟩
    else if c = 0x22 ∧ x.quoted then ⟨x, 4, 0, none⟩
    else x.refuse c := rfl

theorem leadTurn_two (x : NumberType f) (c : UInt8) : x.leadTurn 2 c none =
    if c = 0x30 then ⟨x, 3, 1, none⟩
    else if isX c then ⟨{ x with base := 16 }, 4, 1, none⟩
    else if isdigit c then ⟨x.firstDigit (if x.negative then 10 else 8) c, 4, 1, none⟩
    else if x.undefined ∧ c = 0x6C then ⟨x, 3, 1, none⟩
    else if c = 0x22 ∧ x.quoted then ⟨x, 4, 0, none⟩
    else x.refuse c := rfl

theorem leadTurn_three (x : NumberType f) (c : UInt8) : x.leadTurn 3 c none =
    if isX c then ⟨{ x with base := 16 }, 4, 1, none⟩
    else if isdigit c then ⟨x.firstDigit 8 c, 4, 1, none⟩
    else if x.undefined ∧ c = 0x6C then ⟨x, 4, 1, none⟩
    else if c = 0x22 ∧ x.quoted then ⟨x, 4, 0, none⟩
    else x.refuse c := rfl

theorem reading_last {x : NumberType f} (h : x.Quoted) (text : Text) :
    (reading (run step text x 3)).map (Reading.add 3) = (markLast x.negative text).bind
      (Mark.read f · (0x22 :: (if x.negative then 0x2D else 0x30) :: 0x30 :: text)) := by
  cases text with
  | nil => rfl
  | cons c rest =>
    rw [markLast]
    by_cases hx : isX c = true
    · have hturn : x.leadTurn 3 c none = ⟨{ x with base := 16 }, 4, 1, none⟩ := by
        simp [leadTurn_three, hx]
      rw [if_pos hx, run_taken (by decide) hturn (by simp [h.defined]), reading_succ,
        reading_hexadecimal h, Reading.map_add]
      rfl
    · rw [if_neg hx]
      by_cases hdigit : isdigit c = true
      · have hturn : x.leadTurn 3 c none = ⟨x.firstDigit 8 c, 4, 1, none⟩ := by
          simp [leadTurn_three, hx, hdigit]
        rw [if_pos (.inl hdigit), run_taken (by decide) hturn (by simp [firstDigit, h.defined]),
          reading_succ, reading_first h.defined (by decide) hdigit, h.quoted]
        cases x.negative with
        | true =>
          show _ = (readDigits f true true 8 0 (0x30 :: c :: rest)).map _
          rw [readDigits_zero, Reading.map_add]
          rfl
        | false =>
          show _ = (readDigits f true false 8 0 (0x30 :: 0x30 :: c :: rest)).map _
          rw [readDigits_zero, readDigits_zero, Reading.map_add, Reading.map_add]
          rfl
      · by_cases hquote : c = 0x22
        · subst hquote
          have hturn : x.leadTurn 3 0x22 none = ⟨x, 4, 0, none⟩ := by
            simp [leadTurn_three, hx, hdigit, h.quoted, h.defined]
          rw [if_pos (.inr rfl), run_empty (by decide) hturn, reading_empty h]
          cases x.negative with
          | true =>
            show _ = (readDigits f true true 8 0 (0x30 :: 0x22 :: rest)).map _
            rw [readDigits_zero, readDigits_none]
            rfl
          | false =>
            show _ = (readDigits f true false 8 0 (0x30 :: 0x30 :: 0x22 :: rest)).map _
            rw [readDigits_zero, readDigits_zero, readDigits_none]
            rfl
        · have hturn : x.leadTurn 3 c none = x.refuse c := by
            simp [leadTurn_three, hx, hdigit, hquote, h.defined]
          rw [if_neg (by simp [hdigit, hquote]), run_refused (by decide) hturn]
          rfl

theorem reading_second {x : NumberType f} (h : x.Quoted) (text : Text) :
    (reading (run step text x 2)).map (Reading.add 2) = (markSecond x.negative text).bind
      (Mark.read f · (0x22 :: (if x.negative then 0x2D else 0x30) :: text)) := by
  cases text with
  | nil => rfl
  | cons c rest =>
    rw [markSecond]
    by_cases hzero : c = 0x30
    · subst hzero
      have hturn : x.leadTurn 2 0x30 none = ⟨x, 3, 1, none⟩ := by simp [leadTurn_two]
      rw [if_pos rfl, run_taken (by decide) hturn (by simp), reading_succ, Reading.map_add]
      exact reading_last h rest
    rw [if_neg hzero]
    by_cases hx : isX c = true
    · have hturn : x.leadTurn 2 c none = ⟨{ x with base := 16 }, 4, 1, none⟩ := by
        simp [leadTurn_two, hzero, hx]
      rw [if_pos hx, run_taken (by decide) hturn (by simp [h.defined]), reading_succ,
        reading_hexadecimal h, Reading.map_add]
      rfl
    rw [if_neg hx]
    by_cases hdigit : isdigit c = true
    · have hturn : x.leadTurn 2 c none =
          ⟨x.firstDigit (if x.negative then 10 else 8) c, 4, 1, none⟩ := by
        simp [leadTurn_two, hzero, hx, hdigit]
      rw [if_pos (.inl hdigit), run_taken (by decide) hturn (by simp [firstDigit, h.defined]),
        reading_succ, reading_first h.defined (by split <;> decide) hdigit, h.quoted]
      cases x.negative with
      | true => rfl
      | false =>
        show _ = (readDigits f true false 8 0 (0x30 :: c :: rest)).map _
        rw [readDigits_zero, Reading.map_add]
        rfl
    by_cases hquote : c = 0x22
    · subst hquote
      have hturn : x.leadTurn 2 0x22 none = ⟨x, 4, 0, none⟩ := by
        simp [leadTurn_two, hx, hdigit, h.quoted, h.defined]
      rw [if_pos (.inr rfl), run_empty (by decide) hturn, reading_empty h]
      cases x.negative with
      | true =>
        show _ = (readDigits f true true 10 0 (0x22 :: rest)).map _
        rw [readDigits_none]
        rfl
      | false =>
        show _ = (readDigits f true false 8 0 (0x30 :: 0x22 :: rest)).map _
        rw [readDigits_zero, readDigits_none]
        rfl
    · have hturn : x.leadTurn 2 c none = x.refuse c := by
        simp [leadTurn_two, hzero, hx, hdigit, hquote, h.defined]
      rw [if_neg (by simp [hdigit, hquote]), run_refused (by decide) hturn]
      rfl

theorem reading_quoted {x : NumberType f} (h : x.Quoted) (hnegative : x.negative = false)
    (text : Text) : (reading (run step text x 1)).map (Reading.add 1) =
      (markQuoted text).bind (Mark.read f · (0x22 :: text)) := by
  cases text with
  | nil => rfl
  | cons c rest =>
    rw [markQuoted]
    by_cases hzero : c = 0x30
    · subst hzero
      have hturn : x.leadTurn 1 0x30 none = ⟨x, 2, 1, none⟩ := by simp [leadTurn_one]
      have hsecond := reading_second h rest
      rw [hnegative] at hsecond
      rw [if_pos rfl, run_taken (by decide) hturn (by simp), reading_succ, Reading.map_add]
      exact hsecond
    rw [if_neg hzero]
    by_cases hminus : c = 0x2D
    · subst hminus
      have hturn : x.leadTurn 1 0x2D none = ⟨{ x with negative := true }, 2, 1, none⟩ := by
        simp [leadTurn_one]
      rw [if_pos rfl, run_taken (by decide) hturn (by simp), reading_succ, Reading.map_add]
      exact reading_second (x := { x with negative := true }) ⟨h.quoted, h.defined, h.value⟩ rest
    rw [if_neg hminus]
    by_cases hdigit : isdigit c = true
    · have hturn : x.leadTurn 1 c none = ⟨x.firstDigit 10 c, 4, 1, none⟩ := by
        simp [leadTurn_one, hzero, hminus, hdigit]
      rw [if_pos (.inl hdigit), run_taken (by decide) hturn (by simp [firstDigit, h.defined]),
        reading_succ, reading_first h.defined (by decide) hdigit, h.quoted, hnegative]
      rfl
    by_cases hquote : c = 0x22
    · subst hquote
      have hturn : x.leadTurn 1 0x22 none = ⟨x, 4, 0, none⟩ := by
        simp [leadTurn_one, hdigit, h.quoted, h.defined]
      rw [if_pos (.inr rfl), run_empty (by decide) hturn, reading_empty h]
      show _ = (readDigits f true false 10 0 (0x22 :: rest)).map _
      rw [readDigits_none]
    · have hturn : x.leadTurn 1 c none = x.refuse c := by
        simp [leadTurn_one, hzero, hminus, hdigit, hquote, h.defined]
      rw [if_neg (by simp [hdigit, hquote]), run_refused (by decide) hturn]
      rfl

section Null

variable {x : NumberType f}

theorem reading_nullLast (hundefined : x.undefined = true) (hquoted : x.quoted = false)
    (text : Text) : (reading (run step text x 3)).map (Reading.add 3) =
      (nullLast text).map .null := by
  cases text with
  | nil => rfl
  | cons c rest =>
    rw [nullLast]
    by_cases hx : isX c = true
    · have hturn : x.leadTurn 3 c none = ⟨{ x with base := 16 }, 4, 1, none⟩ := by
        simp [leadTurn_three, hx]
      rw [if_pos (.inl hx), run_null (by decide) hturn hundefined]
      rfl
    by_cases hdigit : isdigit c = true
    · have hturn : x.leadTurn 3 c none = ⟨x.firstDigit 8 c, 4, 1, none⟩ := by
        simp [leadTurn_three, hx, hdigit]
      rw [if_pos (.inr (.inl hdigit)), run_null (by decide) hturn hundefined]
      rfl
    by_cases hl : c = 0x6C
    · subst hl
      have hturn : x.leadTurn 3 0x6C none = ⟨x, 4, 1, none⟩ := by
        simp [leadTurn_three, hx, hdigit, hundefined]
      rw [if_pos (.inr (.inr rfl)), run_null (by decide) hturn hundefined]
      rfl
    · have hturn : x.leadTurn 3 c none = x.refuse c := by
        simp [leadTurn_three, hx, hdigit, hl, hquoted]
      rw [if_neg (by simp [hx, hdigit, hl]), run_refused (by decide) hturn]
      rfl

theorem reading_nullThird (hundefined : x.undefined = true) (hquoted : x.quoted = false)
    (text : Text) : (reading (run step text x 2)).map (Reading.add 2) =
      (nullThird text).map .null := by
  cases text with
  | nil => rfl
  | cons c rest =>
    rw [nullThird]
    by_cases hzero : c = 0x30
    · subst hzero
      have hturn : x.leadTurn 2 0x30 none = ⟨x, 3, 1, none⟩ := by simp [leadTurn_two]
      rw [if_pos (.inl rfl), run_taken (by decide) hturn (by simp), reading_succ, Reading.map_add]
      exact reading_nullLast hundefined hquoted rest
    by_cases hl : c = 0x6C
    · subst hl
      have hturn : x.leadTurn 2 0x6C none = ⟨x, 3, 1, none⟩ := by
        simp [leadTurn_two, show isX 0x6C = false by decide, show isdigit 0x6C = false by decide,
          hundefined]
      rw [if_pos (.inr rfl), run_taken (by decide) hturn (by simp), reading_succ, Reading.map_add]
      exact reading_nullLast hundefined hquoted rest
    rw [if_neg (by simp [hzero, hl])]
    by_cases hx : isX c = true
    · have hturn : x.leadTurn 2 c none = ⟨{ x with base := 16 }, 4, 1, none⟩ := by
        simp [leadTurn_two, hzero, hx]
      rw [if_pos (.inl hx), run_null (by decide) hturn hundefined]
      rfl
    by_cases hdigit : isdigit c = true
    · have hturn : x.leadTurn 2 c none =
          ⟨x.firstDigit (if x.negative then 10 else 8) c, 4, 1, none⟩ := by
        simp [leadTurn_two, hzero, hx, hdigit]
      rw [if_pos (.inr hdigit), run_null (by decide) hturn hundefined]
      rfl
    · have hturn : x.leadTurn 2 c none = x.refuse c := by
        simp [leadTurn_two, hzero, hx, hdigit, hl, hquoted]
      rw [if_neg (by simp [hx, hdigit]), run_refused (by decide) hturn]
      rfl

theorem reading_nullSecond (hundefined : x.undefined = true) (hquoted : x.quoted = false)
    (text : Text) : (reading (run step text x 1)).map (Reading.add 1) =
      (nullSecond text).map .null := by
  cases text with
  | nil => rfl
  | cons c rest =>
    rw [nullSecond]
    by_cases hzero : c = 0x30
    · subst hzero
      have hturn : x.leadTurn 1 0x30 none = ⟨x, 2, 1, none⟩ := by simp [leadTurn_one]
      rw [if_pos (.inl rfl), run_taken (by decide) hturn (by simp), reading_succ, Reading.map_add]
      exact reading_nullThird hundefined hquoted rest
    by_cases hminus : c = 0x2D
    · subst hminus
      have hturn : x.leadTurn 1 0x2D none = ⟨{ x with negative := true }, 2, 1, none⟩ := by
        simp [leadTurn_one]
      rw [if_pos (.inr (.inl rfl)), run_taken (by decide) hturn (by simp), reading_succ,
        Reading.map_add]
      exact reading_nullThird (x := { x with negative := true }) hundefined hquoted rest
    by_cases hu : c = 0x75
    · subst hu
      have hturn : x.leadTurn 1 0x75 none = ⟨x, 2, 1, none⟩ := by
        simp [leadTurn_one, show isdigit 0x75 = false by decide, hundefined]
      rw [if_pos (.inr (.inr rfl)), run_taken (by decide) hturn (by simp), reading_succ,
        Reading.map_add]
      exact reading_nullThird hundefined hquoted rest
    rw [if_neg (by simp [hzero, hminus, hu])]
    by_cases hdigit : isdigit c = true
    · have hturn : x.leadTurn 1 c none = ⟨x.firstDigit 10 c, 4, 1, none⟩ := by
        simp [leadTurn_one, hzero, hminus, hdigit]
      rw [if_pos hdigit, run_null (by decide) hturn hundefined]
      rfl
    · have hturn : x.leadTurn 1 c none = x.refuse c := by
        simp [leadTurn_one, hzero, hminus, hdigit, hu, hquoted]
      rw [if_neg hdigit, run_refused (by decide) hturn]
      rfl

end Null

/-- What `Deserialize` reads. -/
theorem reading_text (x : NumberType f) (text : Text) : reading (run step text x 0) =
    ((mark text).bind (Mark.read f · text)).or ((nullMark text).map .null) := by
  cases text with
  | nil => rfl
  | cons c rest =>
    rw [mark, nullMark]
    by_cases hquote : c = 0x22
    · subst hquote
      have hturn : x.leadTurn 0 0x22 none = ⟨{ x.clear with quoted := true }, 1, 1, none⟩ := by
        simp [leadTurn]
      rw [if_pos rfl, if_neg (by decide), run_taken (by decide) hturn (by simp), reading_succ]
      rw [Option.map_none, Option.or_none]
      exact reading_quoted (x := { x.clear with quoted := true }) ⟨rfl, rfl, cast_zero f⟩ rfl rest
    rw [if_neg hquote]
    by_cases hminus : c = 0x2D
    · subst hminus
      have hturn : x.leadTurn 0 0x2D none =
          ⟨{ x.clear with negative := true, base := 10 }, 4, 1, none⟩ := by simp [leadTurn]
      rw [if_pos rfl, if_neg (by decide), run_taken (by decide) hturn (by simp [clear]),
        reading_succ]
      rw [Option.map_none, Option.or_none]
      exact congrArg _ (reading_digits (x := { x.clear with negative := true, base := 10 }) rfl
        (by decide : 0 < 10) (cast_zero f) rest)
    rw [if_neg hminus]
    by_cases hdigit : isdigit c = true
    · have hturn : x.leadTurn 0 c none = ⟨x.clear.firstDigit 10 c, 4, 1, none⟩ := by
        simp [leadTurn, hquote, hminus, hdigit]
      have hn : c ≠ 0x6E := by
        rintro rfl
        exact absurd hdigit (by decide)
      rw [if_pos hdigit, if_neg hn, run_taken (by decide) hturn (by simp [firstDigit, clear]),
        reading_succ, reading_first rfl (by decide) hdigit]
      rw [Option.map_none, Option.or_none]
      exact (Reading.map_zero _).symm
    rw [if_neg hdigit, Option.bind_none, Option.none_or]
    by_cases hn : c = 0x6E
    · subst hn
      have hturn : x.leadTurn 0 0x6E none = ⟨{ x.clear with undefined := true }, 1, 1, none⟩ := by
        simp [leadTurn, hdigit]
      rw [if_pos rfl, run_taken (by decide) hturn (by simp), reading_succ]
      exact reading_nullSecond (x := { x.clear with undefined := true }) rfl rfl rest
    · have hturn : x.leadTurn 0 c none = x.clear.refuse c := by
        simp [leadTurn, hquote, hminus, hdigit, hn]
      rw [if_neg hn, run_refused (by decide) hturn]
      rfl

end Thunder.Core.JSON.NumberType
