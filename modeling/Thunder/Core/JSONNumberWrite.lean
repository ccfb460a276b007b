import Thunder.Core.JSONNumberGrammar

/-! What `NumberType::Serialize` writes, into buffers of any size: a token, or for the lowest number
of a signed type one digit of a number below zero. -/

namespace Thunder.Core.JSON.NumberType

open Chunks

variable {f : NumberFormat}

/-! ### Digits -/

/-- The digits that `Convert` writes. -/
def written (f : NumberFormat) : Nat → Int → Int → Text
  | 0, _, _ => []
  | turns + 1, value, divider =>
    if 0 < divider then digitChar f.base (value.tdiv divider % 2 ^ 8).toNat ::
      written f turns (value.tmod divider) (divider.tdiv f.base.toNat)
    else []

/-- It writes them from where it was. -/
theorem convertLoop_eq (turns : Nat) (value divider : Int) {parsed offset : Nat} (room : Nat)
    (h : parsed ≤ offset) : convertLoop f turns value divider parsed offset room =
      (((written f turns value divider).drop (offset - parsed)).take room,
        offset + (((written f turns value divider).drop (offset - parsed)).take room).length) := by
  induction turns generalizing value divider parsed offset room with
  | zero => simp [convertLoop, written]
  | succ turns ih =>
    rw [convertLoop, written]
    by_cases hdivider : 0 < divider
    · rw [if_pos hdivider]
      cases room with
      | zero => simp
      | succ room =>
        rw [if_pos ⟨hdivider, Nat.succ_pos room⟩]
        split
        · next hle =>
          obtain rfl : offset = parsed := by omega
          simp only [Nat.add_sub_cancel]
          rw [ih _ _ room (Nat.le_refl _)]
          simp only [Nat.sub_self, List.drop_zero, List.take_succ_cons, List.length_cons]
          rw [Nat.add_right_comm, Nat.add_assoc]
        · next hlt =>
          simp only
          rw [ih _ _ (room + 1) (by omega : parsed + 1 ≤ offset)]
          rw [show offset - parsed = offset - (parsed + 1) + 1 by omega, List.drop_succ_cons]
    · rw [if_neg hdivider, if_neg (fun h => hdivider h.1)]
      simp

theorem base_le (b : NumberBase) : 8 ≤ b.toNat ∧ b.toNat ≤ 16 := by cases b <;> decide

theorem digitChar_digit (b : NumberBase) {d : Nat} (h : d < b.toNat) :
    IsDigit b.toNat (digitChar b d) ∧ hexValue (digitChar b d) = d := by
  have hall : ∀ d < b.toNat, (isxdigit (digitChar b d) = true ∧
      hexValue (digitChar b d) < b.toNat) ∧ hexValue (digitChar b d) = d := by
    cases b <;> decide
  exact hall d h

theorem written_succ (turns : Nat) (v p : Nat) (hp : 0 < p) (hv : v / p < 16) :
    written f (turns + 1) v p =
      digitChar f.base (v / p) :: written f turns (v % p : Nat) (p / f.base.toNat : Nat) := by
  rw [written, if_pos (by exact_mod_cast hp)]
  have hdiv : ((v : Int).tdiv p % 2 ^ 8).toNat = v / p := by
    rw [← Int.ofNat_tdiv]
    generalize v / p = q at hv
    omega
  rw [hdiv, ← Int.ofNat_tmod, ← Int.ofNat_tdiv]

theorem written_zero (turns : Nat) (v : Int) : written f turns v 0 = [] := by
  cases turns with
  | zero => rfl
  | succ turns => rw [written, if_neg (Int.lt_irrefl 0)]

/-- Below the next power of the base the digits are of the base and say the number. -/
theorem written_digits (k : Nat) {turns v : Nat} (hk : k < turns)
    (hv : v < f.base.toNat ^ (k + 1)) (start : Nat) :
    (∀ c ∈ written f turns v (f.base.toNat ^ k : Nat), IsDigit f.base.toNat c) ∧
    written f turns v (f.base.toNat ^ k : Nat) ≠ [] ∧
    (written f turns v (f.base.toNat ^ k : Nat)).foldl
      (fun n c => n * f.base.toNat + hexValue c) start = start * f.base.toNat ^ (k + 1) + v := by
  have hbase := base_le f.base
  induction k generalizing turns v start with
  | zero =>
    obtain ⟨turns, rfl⟩ := Nat.exists_eq_add_of_lt hk
    rw [Nat.pow_one] at hv
    have hdigit := digitChar_digit f.base hv
    have hone : 1 / f.base.toNat = 0 := Nat.div_eq_of_lt (by omega)
    rw [Nat.zero_add, Nat.pow_zero, written_succ turns v 1 Nat.one_pos (by omega), Nat.div_one,
      hone, show ((0 : Nat) : Int) = 0 from rfl, written_zero]
    refine ⟨?_, by simp, ?_⟩
    · intro c hc
      rw [List.mem_singleton.mp hc]
      exact hdigit.1
    · simp [hdigit.2]
  | succ k ih =>
    obtain ⟨turns, rfl⟩ : ∃ n, turns = n + 1 := ⟨turns - 1, by omega⟩
    have hpos : 0 < f.base.toNat ^ (k + 1) := Nat.pow_pos (by omega)
    have hlt : v / f.base.toNat ^ (k + 1) < f.base.toNat := by
      rw [Nat.div_lt_iff_lt_mul hpos, ← Nat.pow_succ']
      exact hv
    have hdigit := digitChar_digit f.base hlt
    have hdivider : f.base.toNat ^ (k + 1) / f.base.toNat = f.base.toNat ^ k := by
      rw [Nat.pow_succ, Nat.mul_div_cancel _ (by omega)]
    rw [written_succ turns v _ hpos (by omega), hdivider]
    obtain ⟨hall, -, hsum⟩ := ih (by omega : k < turns) (Nat.mod_lt v hpos)
      (start * f.base.toNat + v / f.base.toNat ^ (k + 1))
    refine ⟨?_, by simp, ?_⟩
    · intro c hc
      obtain rfl | hc := List.mem_cons.mp hc
      · exact hdigit.1
      · exact hall c hc
    · rw [List.foldl_cons, hdigit.2, hsum, Nat.add_mul, Nat.mul_assoc, ← Nat.pow_succ',
        Nat.add_assoc, Nat.mul_comm (v / _), Nat.div_add_mod]

theorem lt_two_pow {v : Nat} (hv : (v : Int) ≤ f.max) : v < 2 ^ f.bits := by
  have hbits := f.bits_pos
  have hsplit : (2 : Int) ^ f.bits = 2 * 2 ^ (f.bits - 1) := by
    rw [← Int.pow_succ', show f.bits - 1 + 1 = f.bits by omega]
  have hpos : (0 : Int) < 2 ^ (f.bits - 1) := Int.pow_pos (by decide)
  have hlt : (v : Int) < 2 ^ f.bits := by
    unfold NumberFormat.max at hv
    split at hv <;> omega
  exact_mod_cast hlt

/-- The divider goes on in powers of the base. -/
theorem divider_power (turns : Nat) {q : Nat} (hq : (q * f.base.toNat : Nat) ≤ f.max) (j : Nat) :
    ∃ k, k ≤ j + turns ∧ divider f q turns (f.base.toNat ^ j : Nat) = (f.base.toNat ^ k : Nat) ∧
      (q < f.base.toNat ^ k ∨ k = j + turns) := by
  induction turns generalizing j with
  | zero => exact ⟨j, Nat.le_refl _, rfl, .inr rfl⟩
  | succ turns ih =>
    rw [divider]
    split
    · next hle =>
      have hpow : f.base.toNat ^ j ≤ q := by exact_mod_cast hle
      have hnext : f.base.toNat ^ (j + 1) ≤ q * f.base.toNat := Nat.mul_le_mul_right _ hpow
      have hmin := min_le_zero f
      have hwrap : f.wrap ((f.base.toNat ^ j : Nat) * f.base.toNat) =
          (f.base.toNat ^ (j + 1) : Nat) := by
        rw [← Int.natCast_mul, ← Nat.pow_succ]
        exact wrap_eq (Int.le_trans hmin (Int.natCast_nonneg _))
          (Int.le_trans (Int.ofNat_le.mpr hnext) hq)
      obtain ⟨k, hk, hdivider, hend⟩ := ih (j + 1)
      refine ⟨k, by omega, ?_, ?_⟩
      · rw [hwrap, hdivider]
      · rwa [Nat.add_right_comm] at hend
    · next hlt =>
      have hlt : q < f.base.toNat ^ j := by
        rw [Int.not_le] at hlt
        exact_mod_cast hlt
      exact ⟨j, by omega, rfl, .inl hlt⟩

/-- The first divider is the power of the base in front of the highest digit. -/
theorem divider_eq {v : Nat} (hv : (v : Int) ≤ f.max) : ∃ k < f.bits + 1,
    divider f ((v : Int).tdiv f.base.toNat) f.bits 1 = (f.base.toNat ^ k : Nat) ∧
      v < f.base.toNat ^ (k + 1) := by
  have hbase := base_le f.base
  have hmul := Nat.div_mul_le_self v f.base.toNat
  obtain ⟨k, hk, hdivider, hend⟩ := divider_power (f := f) f.bits (q := v / f.base.toNat)
    (by omega) 0
  refine ⟨k, by omega, ?_, ?_⟩
  · rw [← Int.ofNat_tdiv]
    exact hdivider
  · have hq : v / f.base.toNat < f.base.toNat ^ k := by
      obtain hlt | rfl := hend
      · exact hlt
      · calc v / f.base.toNat ≤ v := Nat.div_le_self _ _
          _ < 2 ^ f.bits := lt_two_pow hv
          _ ≤ f.base.toNat ^ f.bits := Nat.pow_le_pow_left (by omega) _
          _ = f.base.toNat ^ (0 + f.bits) := by rw [Nat.zero_add]
    rw [Nat.pow_succ]
    exact (Nat.div_lt_iff_lt_mul (by omega)).mp hq

/-- The digits that a number gets. -/
def digits (x : NumberType f) : Text :=
  written f (f.bits + 1) x.absolute (divider f (x.absolute.tdiv f.base.toNat) f.bits 1)

theorem digits_spec (x : NumberType f) {v : Nat} (habsolute : x.absolute = v) :
    (∀ c ∈ x.digits, IsDigit f.base.toNat c) ∧ x.digits ≠ [] ∧
      x.digits.foldl (fun n c => n * f.base.toNat + hexValue c) 0 = v := by
  have hv : (v : Int) ≤ f.max := by
    rw [← habsolute, absolute]
    split
    · exact (f.wrap_mem _).2
    · exact x.value.2.2
  obtain ⟨k, hk, hdivider, hlt⟩ := divider_eq hv
  rw [digits, habsolute, hdivider]
  obtain ⟨hall, hne, hsum⟩ := written_digits k hk hlt 0
  refine ⟨hall, hne, ?_⟩
  rw [hsum, Nat.zero_mul, Nat.zero_add]

/-- But for the lowest number of a signed type. -/
theorem absolute_eq {x : NumberType f} (h : ¬(f.signed = true ∧ x.value.1 = f.min)) :
    x.absolute = x.value.1.natAbs := by
  have hvalue := x.value.2
  have hmin := min_le_zero f
  rw [absolute]
  split
  · next hsigned =>
    have hmax := max_signed hsigned
    have hne : x.value.1 ≠ f.min := fun he => h ⟨hsigned, he⟩
    apply wrap_eq <;> omega
  · next hsigned =>
    have := min_unsigned (f := f) (by simpa using hsigned)
    omega

/-! ### The text -/

/-- What is in front of the digits, from an offset. -/
def front (x : NumberType f) (offset : Nat) : Text :=
  match f.base, offset with
  | .decimal, 0 => x.sign
  | .octal, 0 => 0x22 :: (x.sign ++ [0x30])
  | .octal, 1 => x.sign ++ [0x30]
  | .octal, 2 => [0x30]
  | .hexadecimal, 0 => 0x22 :: (x.sign ++ [0x30, 0x78])
  | .hexadecimal, 1 => x.sign ++ [0x30, 0x78]
  | .hexadecimal, 2 => [0x30, 0x78]
  | .hexadecimal, 3 => [0x78]
  | _, _ => []

def tail (f : NumberFormat) : Text := if f.base = .decimal then [] else [0x22]

/-- What is still to be written at an offset. -/
def pending (x : NumberType f) (offset : Nat) : Text :=
  x.front offset ++ x.digits.drop (offset - 4) ++ tail f

/-- The offsets between two calls. -/
def At (f : NumberFormat) (offset : Nat) : Prop :=
  match f.base with
  | .decimal => offset = 0 ∨ 4 ≤ offset
  | .octal => offset ≠ 3
  | .hexadecimal => True

theorem sign_cases (x : NumberType f) : x.sign = [] ∨ x.sign = [0x2D] := by
  unfold sign
  split <;> simp

theorem front_four {x : NumberType f} {offset : Nat} (h : 4 ≤ offset) : x.front offset = [] := by
  obtain ⟨n, rfl⟩ := Nat.exists_eq_add_of_le' h
  unfold front
  cases f.base <;> rfl

/-- A turn of the first loop. -/
theorem serializeTurn_eq {x : NumberType f} (hdefined : x.undefined = false) {offset : Nat}
    (hat : At f offset) (hoffset : offset < 4) : ∃ bytes next,
      x.serializeTurn offset = (bytes, next) ∧ x.front offset = bytes ++ x.front next ∧
        bytes.length ≤ 1 ∧ offset < next ∧ next ≤ 4 ∧ At f next := by
  have hsign : x.sign.length ≤ 1 := by
    obtain h | h := sign_cases x <;> rw [h] <;> decide
  cases hbase : f.base with
  | decimal =>
    obtain rfl : offset = 0 := by
      simp only [At, hbase] at hat
      omega
    exact ⟨x.sign, 4, by simp [serializeTurn, hdefined, hbase], by simp [front, hbase], hsign,
      by decide, by decide, by simp [At, hbase]⟩
  | octal =>
    match offset, hoffset with
    | 0, _ => exact ⟨[0x22], 1, by simp [serializeTurn, hdefined, hbase], by simp [front, hbase],
        by decide, by decide, by decide, by simp [At, hbase]⟩
    | 1, _ => exact ⟨x.sign, 2, by simp [serializeTurn, hdefined, hbase], by simp [front, hbase],
        hsign, by decide, by decide, by simp [At, hbase]⟩
    | 2, _ => exact ⟨[0x30], 4, by simp [serializeTurn, hdefined, hbase], by simp [front, hbase],
        by decide, by decide, by decide, by simp [At, hbase]⟩
    | 3, _ => exact absurd hat (by simp [At, hbase])
  | hexadecimal =>
    match offset, hoffset with
    | 0, _ => exact ⟨[0x22], 1, by simp [serializeTurn, hdefined, hbase], by simp [front, hbase],
        by decide, by decide, by decide, by simp [At, hbase]⟩
    | 1, _ => exact ⟨x.sign, 2, by simp [serializeTurn, hdefined, hbase], by simp [front, hbase],
        hsign, by decide, by decide, by simp [At, hbase]⟩
    | 2, _ => exact ⟨[0x30], 3, by simp [serializeTurn, hdefined, hbase], by simp [front, hbase],
        by decide, by decide, by decide, by simp [At, hbase]⟩
    | 3, _ => exact ⟨[0x78], 4, by simp [serializeTurn, hdefined, hbase], by simp [front, hbase],
        by decide, by decide, by decide, by simp [At, hbase]⟩

/-- The first loop writes what is in front, as much as there is room for. -/
theorem serializeLead_eq {x : NumberType f} (hdefined : x.undefined = false) (turns room : Nat)
    {offset : Nat} (hat : At f offset) (hturns : 4 ≤ offset + turns) :
    (x.serializeLead turns room offset).1 = (x.front offset).take room ∧
      At f (x.serializeLead turns room offset).2 ∧
      x.front (x.serializeLead turns room offset).2 = (x.front offset).drop room ∧
      ((x.front offset).length < room → 4 ≤ (x.serializeLead turns room offset).2) ∧
      (0 < room → 0 < (x.serializeLead turns room offset).2) ∧
      offset ≤ (x.serializeLead turns room offset).2 ∧
      (x.serializeLead turns room offset).2 - 4 = offset - 4 := by
  induction turns generalizing room offset with
  | zero =>
    rw [Nat.add_zero] at hturns
    rw [serializeLead]
    simp [hat, front_four hturns, hturns, show 0 < offset by omega]
  | succ turns ih =>
    rw [serializeLead]
    by_cases hgo : offset < 4 ∧ 0 < room
    · obtain ⟨bytes, next, hturn, hfront, hlength, hlt, hnext, hat'⟩ :=
        serializeTurn_eq hdefined hat hgo.1
      obtain ⟨hout, hlast, hrest, hfour, -, hle, hsame⟩ := ih (room - bytes.length) hat' (by omega)
      have hroom : bytes.length ≤ room := by omega
      rw [if_pos hgo]
      simp only [hturn, if_neg (show ¬next = 0 by omega)]
      refine ⟨?_, hlast, ?_, fun h => hfour ?_, fun _ => by omega, by omega, by omega⟩
      · rw [hfront, take_append_of_ge hroom, hout]
      · rw [hrest, hfront, drop_append_of_ge hroom]
      · rw [hfront, List.length_append] at h
        omega
    · rw [if_neg hgo]
      obtain hfour | rfl : 4 ≤ offset ∨ room = 0 := by omega
      · simp [front_four hfour, hat, hfour, show 0 < offset by omega]
      · simp [hat]

/-- `Convert` writes the digits from where it was. -/
theorem convert_eq (x : NumberType f) {room offset : Nat} (h : 4 ≤ offset) :
    convert f x.absolute room offset = ((x.digits.drop (offset - 4)).take room,
      if f.base = .decimal ∧ ((x.digits.drop (offset - 4)).take room).length < room then 0
      else offset + ((x.digits.drop (offset - 4)).take room).length) := by
  rw [convert]
  simp only [convertLoop_eq _ _ _ room h]
  rfl

/-- A call writes the next bytes of what is pending. -/
theorem serialize_eq {x : NumberType f} (hdefined : x.undefined = false) {size offset : Nat}
    (hat : At f offset) (hsize : 0 < size) :
    (x.serialize size offset).1 = (x.pending offset).take size ∧
      (x.serialize size offset).2.1 = x ∧
      ((x.serialize size offset).2.2 = 0 → (x.pending offset).length ≤ size) ∧
      ((x.pending offset).length < size → (x.serialize size offset).2.2 = 0) ∧
      ((x.serialize size offset).2.2 ≠ 0 → At f (x.serialize size offset).2.2 ∧
        x.pending (x.serialize size offset).2.2 = (x.pending offset).drop size) := by
  obtain ⟨hout, hlast, hrest, hfour, hpos, -, hsame⟩ :=
    serializeLead_eq hdefined 4 size hat (Nat.le_add_left 4 offset)
  rw [serialize]
  simp only [hdefined, true_and]
  generalize x.serializeLead 4 size offset = lead at hout hlast hrest hfour hpos hsame
  by_cases hfront : (x.front offset).length < size
  · have hfour := hfour hfront
    rw [List.take_of_length_le (Nat.le_of_lt hfront)] at hout
    have hnone : x.front lead.2 = [] := front_four hfour
    have hpending : (x.pending offset).length = (x.front offset).length +
        ((x.digits.drop (offset - 4)).length + (tail f).length) := by
      rw [pending, List.append_assoc, List.length_append, List.length_append]
    have htake : (x.pending offset).take size = x.front offset ++
        ((x.digits.drop (offset - 4)) ++ tail f).take (size - (x.front offset).length) := by
      rw [pending, List.append_assoc, take_append_of_ge (Nat.le_of_lt hfront)]
    have hdrop : (x.pending offset).drop size =
        ((x.digits.drop (offset - 4)) ++ tail f).drop (size - (x.front offset).length) := by
      rw [pending, List.append_assoc, drop_append_of_ge (Nat.le_of_lt hfront)]
    rw [hout, if_pos (by omega : 0 < size - (x.front offset).length), convert_eq x hfour, hsame]
    have hroom : 0 < size - (x.front offset).length := by omega
    have hsize : size = (x.front offset).length + (size - (x.front offset).length) := by omega
    generalize size - (x.front offset).length = room at *
    have hnext (k : Nat) : x.pending (lead.2 + k) =
        ((x.digits.drop (offset - 4)).drop k) ++ tail f := by
      rw [pending, front_four (by omega), List.nil_append, List.drop_drop]
      rw [show lead.2 + k - 4 = offset - 4 + k by omega]
    have hat' (k : Nat) : At f (lead.2 + k) := by
      unfold At
      split
      · exact .inr (by omega)
      · omega
      · trivial
    by_cases hshort : (x.digits.drop (offset - 4)).length < room
    · rw [List.take_of_length_le (Nat.le_of_lt hshort)]
      by_cases hbase : f.base = .decimal
      · have htail : tail f = [] := if_pos hbase
        rw [htail, List.append_nil] at htake
        rw [List.take_of_length_le (Nat.le_of_lt hshort)] at htake
        rw [htail, List.length_nil] at hpending
        have hdone : (if f.base = .decimal ∧ (x.digits.drop (offset - 4)).length < room then 0
            else lead.2 + (x.digits.drop (offset - 4)).length) = 0 := if_pos ⟨hbase, hshort⟩
        simp only [hdone]
        rw [if_neg (fun h => h.1 rfl)]
        exact ⟨htake.symm, rfl, fun _ => by omega, fun _ => rfl, fun h => absurd rfl h⟩
      · have htail : tail f = [0x22] := if_neg hbase
        have hall : (x.digits.drop (offset - 4) ++ [0x22]).length ≤ room := by
          rw [List.length_append]
          exact hshort
        rw [htail, List.take_of_length_le hall] at htake
        rw [htail, List.length_singleton] at hpending
        have hgone : (if f.base = .decimal ∧ (x.digits.drop (offset - 4)).length < room then 0
            else lead.2 + (x.digits.drop (offset - 4)).length) =
            lead.2 + (x.digits.drop (offset - 4)).length := if_neg fun h => hbase h.1
        simp only [hgone]
        rw [if_pos ⟨by omega, hshort⟩]
        refine ⟨?_, rfl, fun _ => by omega, fun _ => rfl, fun h => absurd rfl h⟩
        rw [htake, List.append_assoc]
    · have hlength : ((x.digits.drop (offset - 4)).take room).length = room := by
        rw [List.length_take]
        omega
      have hgone : (if f.base = .decimal ∧ room < room then 0 else lead.2 + room) = lead.2 + room :=
        if_neg fun h => Nat.lt_irrefl _ h.2
      simp only [hlength, hgone]
      rw [if_neg (fun h => Nat.lt_irrefl _ h.2)]
      refine ⟨?_, rfl, fun h => by simp only at h; omega, fun h => by omega,
        fun _ => ⟨hat' room, ?_⟩⟩
      · rw [htake, List.take_append_of_le_length (by omega)]
      · rw [hdrop, hnext, List.drop_append_of_le_length (by omega)]
  · have hle : size ≤ (x.front offset).length := Nat.not_lt.mp hfront
    have hlength : lead.1.length = size := by
      rw [hout, List.length_take]
      omega
    rw [hlength, Nat.sub_self, if_neg (Nat.lt_irrefl 0), if_neg (fun h => absurd h.2 (by simp)),
      List.append_nil, hout]
    have hnext : x.pending lead.2 = (x.pending offset).drop size := by
      rw [pending, pending, hrest, hsame, List.append_assoc, List.append_assoc,
        List.drop_append_of_le_length hle]
    refine ⟨?_, rfl, fun h => ?_, fun h => ?_, fun _ => ⟨hlast, hnext⟩⟩
    · rw [pending, List.append_assoc, List.take_append_of_le_length hle]
    · exact absurd (hpos hsize) (by simp only at h; omega)
    · rw [pending, List.append_assoc, List.length_append] at h
      omega

/-- An element and its offset that have these bytes to write. -/
def Rest (x : NumberType f) (w : NumberType f × Nat) (bytes : Text) : Prop :=
  w.1 = x ∧ At f w.2 ∧ bytes = x.pending w.2

theorem finishes {x : NumberType f} (hdefined : x.undefined = false) :
    Finishes IElement.write (fun w : NumberType f × Nat => w.2 = 0) (Rest x) := by
  rintro ⟨_, offset⟩ bytes size hsize ⟨rfl, hat, rfl⟩
  obtain ⟨hout, hsame, hall, henough, hrest⟩ := serialize_eq hdefined hat hsize
  exact ⟨hout, henough, hall, fun h => ⟨hsame, (hrest h).1, (hrest h).2.symm⟩⟩

/-- The text of a number. -/
def text (x : NumberType f) : Text := x.pending 0

theorem serializeAll_eq {x : NumberType f} (hdefined : x.undefined = false) {sizes : List Nat}
    (hsizes : ∀ size ∈ sizes, 0 < size) :
    (IElement.serializeAll x sizes).1 = x.text.take sizes.sum ∧
      (x.text.length < sizes.sum → (IElement.serializeAll x sizes).2.2 = 0) ∧
      ((IElement.serializeAll x sizes).2.2 = 0 → sizes = [] ∨ x.text.length ≤ sizes.sum) := by
  have hat : At f 0 := by
    unfold At
    split
    · exact .inl rfl
    · decide
    · trivial
  exact (finishes hdefined).writeUntil (s := (x, 0)) ⟨rfl, hat, rfl⟩ hsizes

theorem sign_eq (x : NumberType f) : x.sign = if decide (x.value.1 < 0) then [0x2D] else [] := by
  have hvalue := x.value.2.1
  rw [sign]
  by_cases hneg : x.value.1 < 0
  · have hsigned : f.signed = true := by
      by_contra h
      have := min_unsigned (f := f) (by simpa using h)
      omega
    rw [if_pos ⟨hsigned, hneg⟩, if_pos (decide_eq_true hneg)]
  · rw [if_neg (fun h => hneg h.2), if_neg (by simpa using hneg)]

theorem signed_natAbs (n : Int) : (if decide (n < 0) then -(n.natAbs : Int) else n.natAbs) = n := by
  split
  · next h =>
    have := of_decide_eq_true h
    omega
  · next h =>
    have : ¬n < 0 := by simpa using h
    omega

/-- But for the lowest number of a signed type, the text is a token of the number. -/
theorem text_token {x : NumberType f} (h : ¬(f.signed = true ∧ x.value.1 = f.min)) :
    ∃ t : Token, t.text = x.text ∧ t.value = x.value.1 ∧ (t.amount : Int) ≤ f.max := by
  obtain ⟨hall, hne, hsum⟩ := digits_spec x (absolute_eq h)
  have hmax : (x.value.1.natAbs : Int) ≤ f.max := by
    rw [← absolute_eq h, absolute]
    split
    · exact (f.wrap_mem _).2
    · exact x.value.2.2
  have hvalue (t : Token) (hneg : t.negative = decide (x.value.1 < 0))
      (hamount : t.amount = x.value.1.natAbs) :
      t.value = x.value.1 ∧ (t.amount : Int) ≤ f.max := by
    rw [Token.value, hamount, hneg]
    exact ⟨signed_natAbs _, hmax⟩
  cases hbase : f.base with
  | decimal =>
    rw [hbase] at hall hsum
    refine ⟨⟨.plain, decide (x.value.1 < 0), x.digits, hne, hall, trivial⟩, ?_,
      hvalue _ rfl hsum⟩
    simp [Token.text, Token.opening, Token.closing, Form.quoted, Form.radix, text, pending, front,
      tail, hbase, sign_eq]
  | octal =>
    rw [hbase] at hall hsum
    have hdigits : ∀ c ∈ 0x30 :: x.digits, IsDigit 8 c := by
      intro c hc
      obtain rfl | hc := List.mem_cons.mp hc
      · exact ⟨by decide, by decide⟩
      · exact hall c hc
    refine ⟨⟨.octal, decide (x.value.1 < 0), 0x30 :: x.digits, by simp, hdigits, rfl⟩, ?_,
      hvalue _ rfl hsum⟩
    simp [Token.text, Token.opening, Token.closing, Form.quoted, Form.radix, text, pending, front,
      tail, hbase, sign_eq]
  | hexadecimal =>
    rw [hbase] at hall hsum
    refine ⟨⟨.hexadecimal 0x78, decide (x.value.1 < 0), x.digits, hne, hall, rfl⟩, ?_,
      hvalue _ rfl hsum⟩
    simp [Token.text, Token.opening, Token.closing, Form.quoted, Form.radix, text, pending, front,
      tail, hbase, sign_eq]

theorem length_written (turns : Nat) (value divider : Int) :
    (written f turns value divider).length ≤ turns := by
  induction turns generalizing value divider with
  | zero => exact Nat.le_refl 0
  | succ turns ih =>
    rw [written]
    split
    · exact Nat.succ_le_succ (ih _ _)
    · exact Nat.zero_le _

/-- No text is longer than that of the bits, its sign and what is around it. -/
theorem length_text (x : NumberType f) : x.text.length ≤ 70 := by
  have hdigits : x.digits.length ≤ f.bits + 1 := length_written _ _ _
  have hbits : f.bits ≤ 64 := by
    have h := f.bits_mem
    simp only [List.mem_cons, List.not_mem_nil, or_false] at h
    omega
  have hsign : x.sign.length ≤ 1 := by
    obtain h | h := sign_cases x <;> rw [h] <;> decide
  have hfront : (x.front 0).length ≤ 4 := by
    unfold front
    cases f.base <;> simp <;> omega
  have htail : (tail f).length ≤ 1 := by
    unfold tail
    split <;> simp
  rw [text, pending, List.length_append, List.length_append, List.length_drop]
  omega

end Thunder.Core.JSON.NumberType
