import Thunder.Core.Number
import Mathlib.Algebra.Order.Group.Unbundled.Int
import Mathlib.Data.Int.DivMod

/-! `NumberType` of every integer type and base: `Text` with its `FillBuffer`, and `Convert`.  The
negative of the smallest number of a signed type is that number again. -/

namespace Thunder.Core

/-- `int8_t` to `uint64_t`. -/
structure IntegerType where
  signed : Bool
  bits : Nat
  known : bits ∈ [8, 16, 32, 64]
  deriving DecidableEq

namespace IntegerType

open NumberType (digit)

def max (type : IntegerType) : Int :=
  if type.signed then 2 ^ (type.bits - 1) - 1 else 2 ^ type.bits - 1

def min (type : IntegerType) : Int := if type.signed then -1 - type.max else 0

/-- A value is one of the type. -/
def holds (type : IntegerType) (value : Int) : Prop := type.min ≤ value ∧ value ≤ type.max

instance (type : IntegerType) (value : Int) : Decidable (type.holds value) :=
  inferInstanceAs (Decidable (_ ∧ _))

/-! ### `FillBuffer` -/

/-- `Abs`. -/
def abs (type : IntegerType) (value : Int) : Int :=
  if type.signed ∧ value < 0 then (-value).bmod (2 ^ type.bits) else value

/-- The character of `newDigit`, which is a `uint8_t`. -/
def digitChar (newDigit : Nat) : UInt8 :=
  if newDigit < 10 then UInt8.ofNat (newDigit + 0x30) else UInt8.ofNat (newDigit - 10 + 0x41)

/-- The loop of `FillBuffer`, with `index` characters left in the buffer. -/
def fillLoop (divider : Nat) : Nat → Int → Text → Text
  | 0, _, buffer => buffer
  | index + 1, value, buffer =>
    let newDigit := (value.tmod divider % 256).toNat
    let buffer := digitChar newDigit :: buffer
    let value := value.tdiv divider
    if value ≠ 0 ∧ 0 < index then fillLoop divider index value buffer else buffer

/-- `Divider`. -/
def divider (base : NumberBase) : Nat := if base = .unknown then 10 else base.value

/-- What is put in front of the digits. -/
def basePrefix : NumberBase → Text
  | .octal => [0x30]
  | .hexadecimal => [0x30, 0x78]
  | _ => []

def signText (value : Int) : Text := if value < 0 then [0x2D] else []

/-- `Text`; the buffer has 36 characters, the last of them the closing one. -/
def text (type : IntegerType) (base : NumberBase) (value : Int) : Text :=
  let index := 36 - 1 - (signText value).length - (basePrefix base).length
  signText value ++ (basePrefix base ++ fillLoop (divider base) index (type.abs value) [])

/-! ### `Convert` -/

/-- What `Convert` knows so far. -/
structure Reading where
  value : Int
  sign : Bool
  base : NumberBase
  deriving DecidableEq

/-- `Max`. -/
def limit (type : IntegerType) (sign : Bool) : Int := if sign then type.min else type.max

/-- A digit is behind the ones before. -/
def takeDigit (type : IntegerType) (s : Reading) (d : Nat) : Option Reading :=
  let value := s.value * s.base.value
  if s.sign then
    if s.value ≥ (type.limit true).tdiv s.base.value ∧ -(d : Int) ≥ type.limit true - value then
      some { s with value := value - d }
    else none
  else
    if s.value ≤ (type.limit false).tdiv s.base.value ∧ d ≤ type.limit false - value then
      some { s with value := value + d }
    else none

/-- The characters in front of a number, a minus with a signed type only. -/
def skips (type : IntegerType) (c : UInt8) : Bool :=
  c = 0x2B ∨ type.signed ∧ c = 0x2D ∨ c = 0x20 ∨ c = 0x09 ∨ c = 0x30

/-- One turn of the loop; nothing if it has no success. -/
def step (type : IntegerType) (s : Reading) (c : UInt8) : Option Reading :=
  if s.value = 0 ∧ c = 0x30 ∧ s.base = .unknown then some { s with base := .octal }
  else if s.value = 0 ∧ (c = 0x58 ∨ c = 0x78) ∧ (s.base = .octal ∨ s.base = .hexadecimal) then
    some { s with base := .hexadecimal }
  else if s.value = 0 ∧ type.skips c then some { s with sign := s.sign || c == 0x2D }
  else
    let s := if s.base = .unknown then { s with base := .decimal } else s
    (digit c s.base).bind (type.takeDigit s)

/-- The loop: what it knows at its end, and how many characters it has taken. -/
def convertLoop (type : IntegerType) : Text → Reading → Reading × Nat
  | [], s => (s, 0)
  | c :: rest, s =>
    if c = 0 then (s, 0)
    else
      match type.step s c with
      | none => (s, 0)
      | some s =>
        let (s, taken) := type.convertLoop rest s
        (s, taken + 1)

/-- `Convert`: the number, and the characters taken. -/
def convert (type : IntegerType) (base : NumberBase) (text : Text) : Int × Nat :=
  let (s, taken) := type.convertLoop text ⟨0, false, base⟩
  (s.value, taken)

def int8 : IntegerType := ⟨true, 8, by decide⟩

example : int8.text .decimal (-128) = [0x2D, 0x36, 0x35, 0x2F] := by decide

/-! ### What a text says -/

/-- A turn of the loop on numbers without a limit. -/
def exactStep (type : IntegerType) (s : Reading) (c : UInt8) : Option Reading :=
  if s.value = 0 ∧ c = 0x30 ∧ s.base = .unknown then some { s with base := .octal }
  else if s.value = 0 ∧ (c = 0x58 ∨ c = 0x78) ∧ (s.base = .octal ∨ s.base = .hexadecimal) then
    some { s with base := .hexadecimal }
  else if s.value = 0 ∧ type.skips c then some { s with sign := s.sign || c == 0x2D }
  else
    let base := if s.base = .unknown then .decimal else s.base
    (digit c base).map fun d : Nat =>
      ⟨s.value * base.value + (if s.sign then -(d : Int) else d), s.sign, base⟩

/-- The number that a text stands for, if it is all of a number. -/
def valueOf (type : IntegerType) (base : NumberBase) (text : Text) : Option Int :=
  (text.foldlM type.exactStep ⟨0, false, base⟩).map Reading.value

/-- The text of a value is all taken and gives the value, with the base that it was written in or
the one that it shows. -/
def RoundTrips (type : IntegerType) (base : NumberBase) (value : Int) : Prop :=
  ∀ read, read = base ∨ read = .unknown →
    type.convert read (type.text base value) = (value, (type.text base value).length)

/-- What comes of a text is the number that the characters taken stand for, and one of the type. -/
def NeverWraps (type : IntegerType) (base : NumberBase) (text : Text) : Prop :=
  type.valueOf base (text.take (type.convert base text).2) = some (type.convert base text).1 ∧
    type.holds (type.convert base text).1

variable {type : IntegerType} {s s' : Reading} {c : UInt8} {base read : NumberBase}
  {sign : Bool} {value : Int} {front k n : Nat}

theorem min_le_zero (type : IntegerType) : type.min ≤ 0 := by
  unfold min max
  split_ifs
  · have hpos : (0 : Int) < 2 ^ (type.bits - 1) := Int.pow_pos (by decide)
    omega
  · exact Int.le_refl 0

theorem zero_le_max (type : IntegerType) : 0 ≤ type.max := by
  unfold max
  split_ifs
  · have hpos : (0 : Int) < 2 ^ (type.bits - 1) := Int.pow_pos (by decide)
    omega
  · have hpos : (0 : Int) < 2 ^ type.bits := Int.pow_pos (by decide)
    omega

/-! ### No number wraps -/

/-- A reading is on the side of its sign, and in the range of the type. -/
def Inv (type : IntegerType) (s : Reading) : Prop :=
  if s.sign then type.min ≤ s.value ∧ s.value ≤ 0 else 0 ≤ s.value ∧ s.value ≤ type.max

theorem Inv.holds (h : type.Inv s) : type.holds s.value := by
  have hmin := type.min_le_zero
  have hmax := type.zero_le_max
  unfold Inv at h
  unfold IntegerType.holds
  split_ifs at h <;> omega

theorem inv_of_value (h : s.value = 0) : type.Inv s := by
  have hmin := type.min_le_zero
  have hmax := type.zero_le_max
  unfold Inv
  split_ifs <;> omega

/-- A digit that is taken leaves the number in the range. -/
theorem takeDigit_spec {d : Nat} (hinv : type.Inv s) (h : type.takeDigit s d = some s') :
    s' = ⟨s.value * s.base.value + (if s.sign then -(d : Int) else d), s.sign, s.base⟩ ∧
      type.Inv s' := by
  have hmul : (0 : Int) ≤ s.base.value := Int.natCast_nonneg _
  unfold takeDigit at h
  unfold Inv at hinv ⊢
  cases hsign : s.sign with
  | true =>
    rw [hsign, if_pos rfl] at h hinv
    obtain ⟨⟨-, hfits⟩, htaken⟩ := Option.ite_none_right_eq_some.mp h
    obtain rfl := Option.some.inj htaken
    have hvalue : s.value * s.base.value ≤ 0 := Int.mul_nonpos_of_nonpos_of_nonneg hinv.2 hmul
    rw [limit, if_pos rfl] at hfits
    simp only [if_true]
    exact ⟨by rw [Int.sub_eq_add_neg], by omega, by omega⟩
  | false =>
    rw [hsign, if_neg Bool.false_ne_true] at h hinv
    obtain ⟨⟨-, hfits⟩, htaken⟩ := Option.ite_none_right_eq_some.mp h
    obtain rfl := Option.some.inj htaken
    have hvalue : 0 ≤ s.value * s.base.value := Int.mul_nonneg hinv.1 hmul
    rw [limit, if_neg Bool.false_ne_true] at hfits
    simp only [Bool.false_eq_true, if_false]
    exact ⟨trivial, by omega, by omega⟩

/-- A turn of the loop is one on numbers without a limit. -/
theorem step_exact (hinv : type.Inv s) (h : type.step s c = some s') :
    type.exactStep s c = some s' ∧ type.Inv s' := by
  unfold step at h
  unfold exactStep
  by_cases hoctal : s.value = 0 ∧ c = 0x30 ∧ s.base = .unknown
  · rw [if_pos hoctal] at h ⊢
    obtain rfl := Option.some.inj h
    exact ⟨rfl, inv_of_value hoctal.1⟩
  rw [if_neg hoctal] at h ⊢
  by_cases hhex : s.value = 0 ∧ (c = 0x58 ∨ c = 0x78) ∧ (s.base = .octal ∨ s.base = .hexadecimal)
  · rw [if_pos hhex] at h ⊢
    obtain rfl := Option.some.inj h
    exact ⟨rfl, inv_of_value hhex.1⟩
  rw [if_neg hhex] at h ⊢
  by_cases hskip : s.value = 0 ∧ type.skips c
  · rw [if_pos hskip] at h ⊢
    obtain rfl := Option.some.inj h
    exact ⟨rfl, inv_of_value hskip.1⟩
  rw [if_neg hskip] at h ⊢
  obtain ⟨d, hd, htaken⟩ := Option.bind_eq_some_iff.mp h
  by_cases hbase : s.base = .unknown
  · simp only [if_pos hbase] at hd htaken ⊢
    obtain ⟨rfl, hinv'⟩ := takeDigit_spec (s := { s with base := .decimal }) hinv htaken
    rw [hd]
    exact ⟨rfl, hinv'⟩
  · simp only [if_neg hbase] at hd htaken ⊢
    obtain ⟨rfl, hinv'⟩ := takeDigit_spec hinv htaken
    rw [hd]
    exact ⟨rfl, hinv'⟩

/-- The characters that the loop takes are those of its reading, without a limit too. -/
theorem convertLoop_exact (type : IntegerType) (text : Text) (s : Reading) (hinv : type.Inv s) :
    (text.take (type.convertLoop text s).2).foldlM type.exactStep s =
      some (type.convertLoop text s).1 ∧ type.Inv (type.convertLoop text s).1 := by
  induction text generalizing s with
  | nil => exact ⟨rfl, hinv⟩
  | cons c rest ih =>
    rw [convertLoop]
    split_ifs
    · exact ⟨rfl, hinv⟩
    · cases hstep : type.step s c with
      | none => exact ⟨rfl, hinv⟩
      | some next =>
        obtain ⟨hexact, hinv'⟩ := step_exact hinv hstep
        obtain ⟨hrun, hend⟩ := ih next hinv'
        simp only [List.take_succ_cons, List.foldlM_cons, hexact, Option.bind_eq_bind,
          Option.bind_some]
        exact ⟨hrun, hend⟩

theorem neverWraps (type : IntegerType) (base : NumberBase) (text : Text) :
    type.NeverWraps base text := by
  obtain ⟨hrun, hinv⟩ := convertLoop_exact type text ⟨0, false, base⟩ (inv_of_value rfl)
  refine ⟨?_, hinv.holds⟩
  simp only [convert, valueOf, hrun, Option.map_some]

/-! ### The digits of a number are read -/

/-- A number on the side of a sign. -/
def onSide (sign : Bool) (n : Nat) : Int := if sign then -(n : Int) else n

/-- How far the numbers of a type go on the side of a sign. -/
def reach (type : IntegerType) (sign : Bool) : Nat :=
  if sign then (-type.min).toNat else type.max.toNat

theorem limit_eq (type : IntegerType) (sign : Bool) :
    type.limit sign = onSide sign (type.reach sign) := by
  have hmin := type.min_le_zero
  have hmax := type.zero_le_max
  unfold limit onSide reach
  split_ifs <;> omega

/-- The base that digits are read in. -/
def resolved (base : NumberBase) : NumberBase := if base = .unknown then .decimal else base

theorem divider_eq (base : NumberBase) : divider base = (resolved base).value := by
  cases base <;> rfl

theorem digitChar_spec : ∀ base : NumberBase, ∀ k < (resolved base).value,
    digit (digitChar k) (resolved base) = some k ∧ digitChar k ≠ 0x58 ∧ digitChar k ≠ 0x78 ∧
      (k ≠ 0 → digitChar k ≠ 0x30 ∧ ∀ type : IntegerType, type.skips (digitChar k) = false) := by
  have hskips (type : IntegerType) (c : UInt8) (hc : c ≠ 0x2B ∧ c ≠ 0x2D ∧ c ≠ 0x20 ∧ c ≠ 0x09 ∧
      c ≠ 0x30) : type.skips c = false := by
    simp [skips, hc]
  have hdigit : ∀ k < 16, digitChar k ≠ 0x58 ∧ digitChar k ≠ 0x78 ∧
      (k ≠ 0 → digitChar k ≠ 0x2B ∧ digitChar k ≠ 0x2D ∧ digitChar k ≠ 0x20 ∧
        digitChar k ≠ 0x09 ∧ digitChar k ≠ 0x30) := by decide
  intro base k hk
  have hvalue : digit (digitChar k) (resolved base) = some k := by
    cases base <;> revert k <;> decide
  have hlt : k < 16 := by
    cases base <;> exact Nat.lt_of_lt_of_le hk (by decide)
  obtain ⟨hX, hx, hne⟩ := hdigit k hlt
  exact ⟨hvalue, hX, hx, fun hk => ⟨(hne hk).2.2.2.2, fun type => hskips type _ (hne hk)⟩⟩

/-- A digit is taken when the number with it is in the reach. -/
theorem takeDigit_eq (hbase : 0 < base.value)
    (hreach : front * base.value + k ≤ type.reach sign) :
    type.takeDigit ⟨onSide sign front, sign, base⟩ k =
      some ⟨onSide sign (front * base.value + k), sign, base⟩ := by
  have hfront : front ≤ type.reach sign / base.value := by
    rw [Nat.le_div_iff_mul_le hbase]
    omega
  have hdiv : (type.reach sign : Int).tdiv base.value = (type.reach sign / base.value : Nat) := rfl
  have hmul : (front : Int) * base.value = (front * base.value : Nat) := rfl
  unfold takeDigit
  cases sign with
  | true =>
    simp only [limit_eq, onSide, if_true, Int.neg_tdiv, hdiv, Int.neg_mul, hmul]
    rw [if_pos (by omega)]
    congr 2
    omega
  | false =>
    simp only [limit_eq, onSide, Bool.false_eq_true, if_false, hdiv, hmul]
    rw [if_pos (by omega)]
    rfl

/-- A digit behind others, or the first one, which is not zero. -/
theorem step_digit {front k : Nat}
    (hbase : front = 0 ∧ k ≠ 0 ∧ resolved read = base ∨ front ≠ 0 ∧ read = base)
    (hk : k < base.value) (hknown : resolved base = base)
    (hreach : front * base.value + k ≤ type.reach sign) :
    type.step ⟨onSide sign front, sign, read⟩ (digitChar k) =
      some ⟨onSide sign (front * base.value + k), sign, base⟩ := by
  obtain ⟨hdigit, hX, hx, hzero⟩ := digitChar_spec base k (hknown.symm ▸ hk)
  rw [hknown] at hdigit
  have hplain : onSide sign front = 0 → digitChar k ≠ 0x30 ∧ type.skips (digitChar k) = false := by
    intro hvalue
    have hfront : front = 0 := by
      unfold onSide at hvalue
      split_ifs at hvalue <;> omega
    obtain ⟨-, hk, -⟩ | ⟨hne, -⟩ := hbase
    · exact ⟨(hzero hk).1, (hzero hk).2 type⟩
    · exact absurd hfront hne
  have hread : resolved read = base := by
    obtain ⟨-, -, h⟩ | ⟨-, rfl⟩ := hbase
    · exact h
    · exact hknown
  unfold step
  rw [if_neg fun h => (hplain h.1).1 h.2.1, if_neg fun h => h.2.1.elim hX hx,
    if_neg fun h => absurd h.2 (by rw [(hplain h.1).2]; exact Bool.false_ne_true)]
  have hstate : (if read = .unknown then (⟨onSide sign front, sign, .decimal⟩ : Reading)
      else ⟨onSide sign front, sign, read⟩) = ⟨onSide sign front, sign, base⟩ := by
    rw [← hread, resolved]
    split_ifs <;> rfl
  simp only [hstate, hdigit, Option.bind_some]
  exact takeDigit_eq (Nat.lt_of_le_of_lt (Nat.zero_le k) hk) hreach

theorem fillLoop_succ {d : Nat} (hd : 0 < d ∧ d ≤ 16) (index n : Nat) (buffer : Text) :
    fillLoop d (index + 1) n buffer =
      if n / d ≠ 0 ∧ 0 < index then fillLoop d index (n / d : Nat) (digitChar (n % d) :: buffer)
      else digitChar (n % d) :: buffer := by
  have hmod : (((n : Int).tmod d) % 256).toNat = n % d := by
    have hlt : n % d < d := Nat.mod_lt _ hd.1
    rw [← Int.ofNat_tmod]
    omega
  have hdiv : (n : Int).tdiv d = (n / d : Nat) := rfl
  rw [fillLoop, hmod, hdiv]
  simp only [Int.natCast_ne_zero]

/-- A number that is put down in front of a text is read in front of it. -/
theorem foldlM_fillLoop (index n : Nat) (buffer : Text) (hresolved : resolved read = base)
    (hknown : resolved base = base) (hn : 0 < n) (hreach : n ≤ type.reach sign)
    (hindex : n < base.value ^ index) :
    (fillLoop base.value index n buffer).foldlM type.step ⟨0, sign, read⟩ =
      buffer.foldlM type.step ⟨onSide sign n, sign, base⟩ := by
  have hd : 0 < base.value ∧ base.value ≤ 16 := by
    rw [← hknown]
    cases base <;> decide
  induction index generalizing n buffer with
  | zero =>
    rw [Nat.pow_zero] at hindex
    omega
  | succ index ih =>
    have hdigit : n % base.value < base.value := Nat.mod_lt _ hd.1
    have hsum : n / base.value * base.value + n % base.value = n := Nat.div_add_mod' n _
    rw [fillLoop_succ hd]
    by_cases hfront : n / base.value = 0
    · have hsmall : n % base.value = n := by
        rw [hfront] at hsum
        omega
      have hbase : 0 = 0 ∧ n ≠ 0 ∧ resolved read = base ∨ 0 ≠ 0 ∧ read = base :=
        .inl ⟨rfl, Nat.ne_of_gt hn, hresolved⟩
      have hfits : 0 * base.value + n ≤ type.reach sign := by rwa [Nat.zero_mul, Nat.zero_add]
      have hstep := step_digit hbase (hsmall ▸ hdigit) hknown hfits
      have hzero : onSide sign 0 = 0 := by cases sign <;> rfl
      rw [Nat.zero_mul, Nat.zero_add, hzero] at hstep
      rw [if_neg fun h => h.1 hfront, List.foldlM_cons, hsmall, hstep]
      rfl
    · have hroom : 0 < index := by
        apply Nat.pos_of_ne_zero
        rintro rfl
        rw [Nat.zero_add, Nat.pow_one] at hindex
        exact hfront (Nat.div_eq_of_lt hindex)
      have hless : n / base.value < base.value ^ index := by
        rw [Nat.div_lt_iff_lt_mul hd.1]
        exact hindex
      rw [if_pos ⟨hfront, hroom⟩,
        ih _ _ (Nat.pos_of_ne_zero hfront) ((Nat.div_le_self _ _).trans hreach) hless,
        List.foldlM_cons, step_digit (.inr ⟨hfront, rfl⟩) hdigit hknown (by rwa [hsum]), hsum]
      rfl

/-- The text in front of the digits shows their base. -/
theorem foldlM_prefix (type : IntegerType) (sign : Bool) (hread : read = base ∨ read = .unknown) :
    ∃ shown, resolved shown = resolved base ∧
      (basePrefix base).foldlM type.step ⟨0, sign, read⟩ = some ⟨0, sign, shown⟩ := by
  have hskips : type.skips 0x30 = true := by simp [skips]
  obtain rfl | rfl := hread
  · refine ⟨read, rfl, ?_⟩
    cases read <;> simp [basePrefix, step, hskips]
  · cases base with
    | unknown => exact ⟨.unknown, rfl, rfl⟩
    | octal => exact ⟨.octal, rfl, by simp [basePrefix, step]⟩
    | decimal => exact ⟨.unknown, rfl, rfl⟩
    | hexadecimal => exact ⟨.hexadecimal, rfl, by simp [basePrefix, step]⟩

theorem foldlM_sign (h : type.holds value) (read : NumberBase) :
    (signText value).foldlM type.step ⟨0, false, read⟩ =
      some ⟨0, decide (value < 0), read⟩ := by
  unfold signText
  split_ifs with hneg
  · have hsigned : type.signed = true := by
      by_contra hunsigned
      have hmin : type.min = 0 := by rw [min, if_neg hunsigned]
      have hlow := h.1
      omega
    have hskips : type.skips 0x2D = true := by simp [skips, hsigned]
    simp [step, hskips, hneg]
  · simp [hneg]

/-! ### There and back -/

theorem step_zero (type : IntegerType) (s : Reading) : type.step s 0 = none := by
  have hskips : type.skips 0 = false := by simp [skips]
  have hdigit (base : NumberBase) : digit 0 base = none := by simp [digit]
  simp [step, hskips, hdigit]

/-- Characters that are all taken are all counted. -/
theorem convertLoop_of_foldlM (text : Text) (h : text.foldlM type.step s = some s') :
    type.convertLoop text s = (s', text.length) := by
  induction text generalizing s with
  | nil =>
    obtain rfl := Option.some.inj h
    rfl
  | cons c rest ih =>
    obtain ⟨next, hstep, hrest⟩ := Option.bind_eq_some_iff.mp h
    have hc : c ≠ 0 := by
      rintro rfl
      rw [step_zero] at hstep
      cases hstep
    rw [convertLoop, if_neg hc, hstep]
    simp only [ih hrest, List.length_cons]

/-- The powers of two that the ranges are made of. -/
theorem known_cases (type : IntegerType) :
    ∃ half : Nat, 0 < half ∧ half ≤ 2 ^ 63 ∧ 2 ^ (type.bits - 1) = half ∧
      2 ^ type.bits = 2 * half := by
  have hknown := type.known
  refine ⟨2 ^ (type.bits - 1), Nat.two_pow_pos _, ?_, rfl, ?_⟩
  · apply Nat.pow_le_pow_right (by decide)
    simp only [List.mem_cons, List.not_mem_nil, or_false] at hknown
    omega
  · rw [← Nat.pow_succ']
    congr 1
    simp only [List.mem_cons, List.not_mem_nil, or_false] at hknown
    omega

/-- A number that has a negative, in the reach of its side. -/
theorem abs_eq (h : type.holds value) (hmin : ¬ (type.signed = true ∧ value = type.min)) :
    type.abs value = value.natAbs ∧ value.natAbs ≤ type.reach (decide (value < 0)) ∧
      value.natAbs < 2 ^ 64 := by
  obtain ⟨half, hpos, hle, hhalf, hwhole⟩ := type.known_cases
  have hhalf' : (2 : Int) ^ (type.bits - 1) = half := by exact_mod_cast hhalf
  have hwhole' : (2 : Int) ^ type.bits = 2 * half := by exact_mod_cast hwhole
  obtain ⟨hlow, hhigh⟩ := h
  unfold min max at hlow hmin
  unfold max at hhigh
  unfold reach min max
  rw [hhalf'] at hlow hhigh hmin ⊢
  rw [hwhole'] at hlow hhigh hmin ⊢
  cases hsigned : type.signed with
  | true =>
    simp only [hsigned, if_true, true_and] at hlow hhigh hmin ⊢
    have habs : type.abs value = value.natAbs := by
      unfold abs
      split_ifs with hneg
      · rw [hwhole, Int.bmod_eq_of_le_mul_two (by omega) (by omega)]
        omega
      · simp only [hsigned, true_and] at hneg
        omega
    refine ⟨habs, ?_, by omega⟩
    split_ifs with hneg
    · omega
    · simp only [decide_eq_true_eq] at hneg
      omega
  | false =>
    simp only [hsigned, Bool.false_eq_true, if_false] at hlow hhigh ⊢
    have habs : type.abs value = value.natAbs := by
      unfold abs
      rw [if_neg fun h => absurd h.1 (by rw [hsigned]; exact Bool.false_ne_true)]
      omega
    refine ⟨habs, ?_, by omega⟩
    rw [decide_eq_false (by omega)]
    simp only [Bool.false_eq_true, if_false]
    omega

/-- There is room for all digits. -/
theorem exists_index (value : Int) (base : NumberBase) :
    ∃ index, 36 - 1 - (signText value).length - (basePrefix base).length = index + 32 := by
  have hsign : (signText value).length ≤ 1 := by
    unfold signText
    split_ifs <;> simp
  have hprefix : (basePrefix base).length ≤ 2 := by cases base <;> decide
  exact ⟨3 - (signText value).length - (basePrefix base).length, by omega⟩

/-- The digit of zero is skipped, or shows an octal number. -/
theorem fillLoop_zero (type : IntegerType) (base shown : NumberBase) (index : Nat) :
    ∃ s, (fillLoop (resolved base).value (index + 32) (Int.natAbs 0 : Nat) []).foldlM type.step
      ⟨0, decide ((0 : Int) < 0), shown⟩ = some s ∧ s.value = 0 := by
  have hskips : type.skips 0x30 = true := by simp [skips]
  have hd : 0 < (resolved base).value ∧ (resolved base).value ≤ 16 := by cases base <;> decide
  rw [fillLoop_succ hd, if_neg fun h => h.1 (by simp)]
  cases shown <;> simp [digitChar, step, hskips]

theorem roundTrips_of_ne_min (h : type.holds value)
    (hmin : ¬ (type.signed = true ∧ value = type.min)) (base : NumberBase) :
    type.RoundTrips base value := by
  intro read hread
  obtain ⟨habs, hreach, hlt⟩ := abs_eq h hmin
  obtain ⟨shown, hshown, hprefix⟩ := foldlM_prefix type (decide (value < 0)) hread
  have hside : onSide (decide (value < 0)) value.natAbs = value := by
    unfold onSide
    split_ifs with hneg
    · simp only [decide_eq_true_eq] at hneg
      omega
    · simp only [decide_eq_true_eq] at hneg
      omega
  have hdigits : ∃ s, (fillLoop (divider base)
      (36 - 1 - (signText value).length - (basePrefix base).length) (type.abs value) []).foldlM
        type.step ⟨0, decide (value < 0), shown⟩ = some s ∧ s.value = value := by
    obtain ⟨index, hindex⟩ := exists_index value base
    have hknown : resolved (resolved base) = resolved base := by cases base <;> rfl
    rw [hindex, habs, divider_eq]
    by_cases hzero : value.natAbs = 0
    · obtain rfl := Int.natAbs_eq_zero.mp hzero
      exact fillLoop_zero type base shown index
    · refine ⟨_, foldlM_fillLoop _ _ [] hshown hknown (Nat.pos_of_ne_zero hzero) hreach ?_, hside⟩
      calc value.natAbs < 2 ^ 64 := hlt
        _ ≤ 8 ^ 32 := by decide
        _ ≤ 8 ^ (index + 32) := Nat.pow_le_pow_right (by decide) (Nat.le_add_left _ _)
        _ ≤ (resolved base).value ^ (index + 32) :=
          Nat.pow_le_pow_left (by cases base <;> decide) _
  obtain ⟨s, hdigits, hvalue⟩ := hdigits
  have hrun : (type.text base value).foldlM type.step ⟨0, false, read⟩ = some s := by
    rw [text, List.foldlM_append, foldlM_sign h, Option.bind_eq_bind, Option.bind_some,
      List.foldlM_append, hprefix]
    exact hdigits
  simp only [convert, convertLoop_of_foldlM _ hrun, hvalue]

/-- The smallest number of a signed type has a text that is not taken to its end, or as another
number. -/
theorem not_roundTrips_min (type : IntegerType) (hsigned : type.signed = true) (base : NumberBase) :
    ¬ type.RoundTrips base type.min := by
  intro h
  have hback := h base (.inl rfl)
  obtain ⟨signed, bits, known⟩ := type
  obtain rfl := hsigned
  simp only [List.mem_cons, List.not_mem_nil, or_false] at known
  revert hback
  clear h
  obtain rfl | rfl | rfl | rfl := known <;> cases base <;> decide +kernel +revert

/-- The text of every number but the smallest of a signed type gives it back, and no text gives a
number that it does not stand for. -/
theorem number_text_exact (type : IntegerType) :
    (∀ base value, type.holds value →
      (type.RoundTrips base value ↔ ¬ (type.signed = true ∧ value = type.min))) ∧
    ∀ base text, type.NeverWraps base text := by
  refine ⟨fun base value h => ⟨?_, fun hmin => roundTrips_of_ne_min h hmin base⟩, type.neverWraps⟩
  rintro hback ⟨hsigned, rfl⟩
  exact not_roundTrips_min type hsigned base hback

/-- The largest `int8_t`, in hexadecimals. -/
theorem number_text_exact_max : int8.RoundTrips .hexadecimal 127 :=
  ((number_text_exact int8).1 .hexadecimal 127 (by decide)).mpr (by decide)

/-- The smallest `int8_t`. -/
theorem not_number_text_exact : ¬ ∀ type : IntegerType,
    (∀ base value, type.holds value → type.RoundTrips base value) ∧
      ∀ base text, type.NeverWraps base text :=
  fun h => not_roundTrips_min int8 rfl .decimal ((h int8).1 .decimal int8.min (by decide))

end IntegerType

end Thunder.Core
