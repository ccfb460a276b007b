import Mathlib.Data.List.TakeWhile
import Mathlib.Data.Nat.Bitwise
import Mathlib.Data.UInt

/-! Bytes in groups of six bits: three bytes are four numbers below 64, and the bytes of a shorter
last group are filled up with zeros.  `spread` and `gather` make and read the groups one by one,
with the bits left over from one step to the next, and an `Alphabet` has a character for each. -/

namespace Thunder.Sextets

/-- The groups of six bits of a byte string. -/
def sextets : List UInt8 → List Nat
  | a :: b :: c :: rest =>
    a.toNat / 4 :: (a.toNat % 4 * 16 + b.toNat / 16) :: (b.toNat % 16 * 4 + c.toNat / 64) ::
      c.toNat % 64 :: sextets rest
  | [a, b] => [a.toNat / 4, a.toNat % 4 * 16 + b.toNat / 16, b.toNat % 16 * 4]
  | [a] => [a.toNat / 4, a.toNat % 4 * 16]
  | [] => []

/-- The whole bytes of groups of six bits. -/
def octets : List Nat → List UInt8
  | p :: q :: r :: s :: rest =>
    UInt8.ofNat (p * 4 + q / 16) :: UInt8.ofNat (q % 16 * 16 + r / 4) ::
      UInt8.ofNat (r % 4 * 64 + s) :: octets rest
  | [p, q, r] => [UInt8.ofNat (p * 4 + q / 16), UInt8.ofNat (q % 16 * 16 + r / 4)]
  | [p, q] => [UInt8.ofNat (p * 4 + q / 16)]
  | _ => []

theorem sextets_lt (bytes : List UInt8) : ∀ n ∈ sextets bytes, n < 64 := by
  have hlt : ∀ b : UInt8, b.toNat < 256 := UInt8.toNat_lt
  induction bytes using sextets.induct with
  | case1 a b c rest ih =>
    have := hlt a; have := hlt b; have := hlt c
    simp only [sextets, List.forall_mem_cons]
    exact ⟨by omega, by omega, by omega, by omega, ih⟩
  | case2 a b =>
    have := hlt a; have := hlt b
    simp only [sextets, List.forall_mem_cons]
    exact ⟨by omega, by omega, by omega, by simp⟩
  | case3 a =>
    have := hlt a
    simp only [sextets, List.forall_mem_cons]
    exact ⟨by omega, by omega, by simp⟩
  | case4 => simp [sextets]

theorem length_sextets (bytes : List UInt8) :
    (sextets bytes).length = (bytes.length * 4 + 2) / 3 := by
  induction bytes using sextets.induct with
  | case1 a b c rest ih =>
    simp only [sextets, List.length_cons, ih]
    omega
  | case2 => simp [sextets]
  | case3 => simp [sextets]
  | case4 => rfl

theorem ofNat_of_eq {n : Nat} {b : UInt8} (h : n = b.toNat) : UInt8.ofNat n = b := by
  rw [h, UInt8.ofNat_toNat]

/-- The groups of a byte string are read back. -/
theorem octets_sextets (bytes : List UInt8) : octets (sextets bytes) = bytes := by
  have hlt : ∀ b : UInt8, b.toNat < 256 := UInt8.toNat_lt
  induction bytes using sextets.induct with
  | case1 a b c rest ih =>
    have := hlt a; have := hlt b; have := hlt c
    simp only [sextets, octets, ih]
    rw [ofNat_of_eq (b := a) (by omega), ofNat_of_eq (b := b) (by omega),
      ofNat_of_eq (b := c) (by omega)]
  | case2 a b =>
    have := hlt a; have := hlt b
    simp only [sextets, octets]
    rw [ofNat_of_eq (b := a) (by omega), ofNat_of_eq (b := b) (by omega)]
  | case3 a =>
    have := hlt a
    simp only [sextets, octets]
    rw [ofNat_of_eq (b := a) (by omega)]
  | case4 => rfl

/-! ### Fields of a byte -/

theorem toNat_ofNat_shift {shift : Nat} (hshift : shift < 8) :
    (UInt8.ofNat shift).toNat % 8 = shift := by
  rw [UInt8.toNat_ofNat', Nat.mod_mod_of_dvd _ (by decide), Nat.mod_eq_of_lt hshift]

/-- The bits from `shift` on, as far as the mask has them. -/
theorem toNat_field {mask : UInt8} {shift width : Nat} (hshift : shift < 8)
    (hmask : mask.toNat >>> shift = 2 ^ width - 1) (a : UInt8) :
    ((a &&& mask) >>> UInt8.ofNat shift).toNat = a.toNat / 2 ^ shift % 2 ^ width := by
  rw [UInt8.toNat_shiftRight, toNat_ofNat_shift hshift, UInt8.toNat_and,
    Nat.shiftRight_and_distrib, hmask, Nat.and_two_pow_sub_one_eq_mod, Nat.shiftRight_eq_div_pow]

/-- The lowest bits, moved up by `shift`. -/
theorem toNat_raised {mask : UInt8} {shift width : Nat} (hshift : shift < 8)
    (hwidth : shift + width ≤ 8) (hmask : mask.toNat = 2 ^ width - 1) (a : UInt8) :
    ((a &&& mask) <<< UInt8.ofNat shift).toNat = 2 ^ shift * (a.toNat % 2 ^ width) := by
  have hlt : 2 ^ shift * (a.toNat % 2 ^ width) < 2 ^ 8 := by
    calc
      2 ^ shift * (a.toNat % 2 ^ width) < 2 ^ shift * 2 ^ width :=
        Nat.mul_lt_mul_of_pos_left (Nat.mod_lt _ (Nat.two_pow_pos _)) (Nat.two_pow_pos _)
      _ = 2 ^ (shift + width) := (Nat.pow_add ..).symm
      _ ≤ 2 ^ 8 := Nat.pow_le_pow_right (by decide) hwidth
  rw [UInt8.toNat_shiftLeft, toNat_ofNat_shift hshift, UInt8.toNat_and, hmask,
    Nat.and_two_pow_sub_one_eq_mod, Nat.shiftLeft_eq, Nat.mul_comm, Nat.mod_eq_of_lt hlt]

theorem or_toNat {high low : UInt8} {width n : Nat} (hhigh : high.toNat = 2 ^ width * n)
    (hlow : low.toNat < 2 ^ width) : (low ||| high).toNat = 2 ^ width * n + low.toNat := by
  rw [UInt8.toNat_or, hhigh, Nat.or_comm, Nat.two_pow_add_eq_or_of_lt hlow]

theorem or_ofNat {low high : UInt8} {width n m : Nat} (hhigh : high.toNat = 2 ^ width * n)
    (hlow : low.toNat = m) (hlt : m < 2 ^ width) :
    low ||| high = UInt8.ofNat (2 ^ width * n + m) := by
  rw [← hlow, ← or_toNat hhigh (hlow ▸ hlt), UInt8.ofNat_toNat]

theorem high_six (a : UInt8) : ((a &&& 0xFC) >>> 2).toNat = a.toNat / 4 := by
  have hlt := a.toNat_lt
  have hfield : ((a &&& 0xFC) >>> 2).toNat = a.toNat / 2 ^ 2 % 2 ^ 6 :=
    toNat_field (by decide) (by decide) a
  omega

theorem low_two (a : UInt8) : ((a &&& 0x03) <<< 4).toNat = 2 ^ 4 * (a.toNat % 4) :=
  toNat_raised (by decide) (by decide : 4 + 2 ≤ 8) (by decide) a

theorem high_four (b : UInt8) : ((b &&& 0xF0) >>> 4).toNat = b.toNat / 16 := by
  have hlt := b.toNat_lt
  have hfield : ((b &&& 0xF0) >>> 4).toNat = b.toNat / 2 ^ 4 % 2 ^ 4 :=
    toNat_field (by decide) (by decide) b
  omega

theorem low_four (b : UInt8) : ((b &&& 0x0F) <<< 2).toNat = 2 ^ 2 * (b.toNat % 16) :=
  toNat_raised (by decide) (by decide : 2 + 4 ≤ 8) (by decide) b

theorem high_two (c : UInt8) : ((c &&& 0xC0) >>> 6).toNat = c.toNat / 64 := by
  have hlt := c.toNat_lt
  have hfield : ((c &&& 0xC0) >>> 6).toNat = c.toNat / 2 ^ 6 % 2 ^ 2 :=
    toNat_field (by decide) (by decide) c
  omega

theorem low_six (c : UInt8) : (c &&& 0x3F).toNat = c.toNat % 64 := by
  have hmask : (0x3F : UInt8).toNat = 2 ^ 6 - 1 := rfl
  rw [UInt8.toNat_and, hmask, Nat.and_two_pow_sub_one_eq_mod]

/-! ### Writing the groups -/

/-- The groups of the bytes, the position in a group of three and the bits that are left. -/
def spread : List UInt8 → Nat → UInt8 → List UInt8 × Nat × UInt8
  | [], state, left => ([], state, left)
  | byte :: bytes, state, left =>
    if state = 0 then
      let r := spread bytes 1 ((byte &&& 0x03) <<< 4)
      (((byte &&& 0xFC) >>> 2) :: r.1, r.2)
    else if state = 1 then
      let r := spread bytes 2 ((byte &&& 0x0F) <<< 2)
      ((((byte &&& 0xF0) >>> 4) ||| left) :: r.1, r.2)
    else
      let r := spread bytes 0 left
      ((((byte &&& 0xC0) >>> 6) ||| left) :: (byte &&& 0x3F) :: r.1, r.2)

theorem second_group (a b : UInt8) :
    (((b &&& 0xF0) >>> 4) ||| ((a &&& 0x03) <<< 4)).toNat = a.toNat % 4 * 16 + b.toNat / 16 := by
  have hb : b.toNat < 256 := b.toNat_lt
  rw [or_toNat (low_two a) (by rw [high_four]; omega), high_four]
  omega

theorem third_group (b c : UInt8) :
    (((c &&& 0xC0) >>> 6) ||| ((b &&& 0x0F) <<< 2)).toNat = b.toNat % 16 * 4 + c.toNat / 64 := by
  have hc : c.toNat < 256 := c.toNat_lt
  rw [or_toNat (low_four b) (by rw [high_two]; omega), high_two]
  omega

theorem spread_cons (a b c : UInt8) (bytes : List UInt8) (left : UInt8) :
    spread (a :: b :: c :: bytes) 0 left =
      (((a &&& 0xFC) >>> 2) :: (((b &&& 0xF0) >>> 4) ||| ((a &&& 0x03) <<< 4)) ::
        (((c &&& 0xC0) >>> 6) ||| ((b &&& 0x0F) <<< 2)) :: (c &&& 0x3F) ::
        (spread bytes 0 ((b &&& 0x0F) <<< 2)).1, (spread bytes 0 ((b &&& 0x0F) <<< 2)).2) := rfl

theorem spread_state (bytes : List UInt8) (left : UInt8) :
    (spread bytes 0 left).2.1 = bytes.length % 3 := by
  induction bytes using sextets.induct generalizing left with
  | case1 a b c bytes ih =>
    rw [spread_cons]
    simp only [ih, List.length_cons, Nat.add_assoc, Nat.reduceAdd, Nat.add_mod_right]
  | case2 => rfl
  | case3 => rfl
  | case4 => rfl

/-- The groups are those of the bytes, with the one of the bits that are left. -/
theorem spread_eq (bytes : List UInt8) (left : UInt8) :
    ((spread bytes 0 left).1 ++
      if (spread bytes 0 left).2.1 = 0 then [] else [(spread bytes 0 left).2.2]).map UInt8.toNat =
      sextets bytes := by
  induction bytes using sextets.induct generalizing left with
  | case1 a b c bytes ih =>
    have hrest := ih ((b &&& 0x0F) <<< 2)
    rw [spread_cons]
    simp only [List.cons_append, List.map_cons, sextets, high_six, second_group, third_group,
      low_six, hrest]
  | case2 a b =>
    have hlast : ((b &&& 0x0F) <<< 2).toNat = b.toNat % 16 * 4 :=
      (low_four b).trans (Nat.mul_comm _ _)
    change List.map UInt8.toNat [(a &&& 0xFC) >>> 2, ((b &&& 0xF0) >>> 4) ||| ((a &&& 0x03) <<< 4),
      (b &&& 0x0F) <<< 2] = _
    simp only [List.map_cons, List.map_nil, sextets, high_six, second_group, hlast]
  | case3 a =>
    have hlast : ((a &&& 0x03) <<< 4).toNat = a.toNat % 4 * 16 :=
      (low_two a).trans (Nat.mul_comm _ _)
    change List.map UInt8.toNat [(a &&& 0xFC) >>> 2, (a &&& 0x03) <<< 4] = _
    simp only [List.map_cons, List.map_nil, sextets, high_six, hlast]
  | case4 => rfl

/-! ### Reading the groups -/

/-- The bytes of the groups, with the position in a group of four and the bits that are left. -/
def gather : List UInt8 → Nat → UInt8 → List UInt8
  | [], _, _ => []
  | converted :: groups, state, left =>
    if state = 0 then gather groups 1 (converted <<< 2)
    else if state = 1 then
      (((converted &&& 0x30) >>> 4) ||| left) :: gather groups 2 ((converted &&& 0x0F) <<< 4)
    else if state = 2 then
      (((converted &&& 0x3C) >>> 2) ||| left) :: gather groups 3 ((converted &&& 0x03) <<< 6)
    else ((converted &&& 0x3F) ||| left) :: gather groups 0 left

theorem shift_two {converted : UInt8} (hlt : converted.toNat < 64) :
    (converted <<< 2).toNat = 2 ^ 2 * converted.toNat := by
  have hraised : ((converted &&& 0x3F) <<< 2).toNat = 2 ^ 2 * (converted.toNat % 2 ^ 6) :=
    toNat_raised (by decide) (by decide : 2 + 6 ≤ 8) (by decide) converted
  have hself : converted &&& 0x3F = converted := by
    apply UInt8.toNat_inj.mp
    rw [low_six, Nat.mod_eq_of_lt hlt]
  rw [← Nat.mod_eq_of_lt (show converted.toNat < 2 ^ 6 from hlt), ← hraised, hself]

theorem shift_four (converted : UInt8) :
    ((converted &&& 0x0F) <<< 4).toNat = 2 ^ 4 * (converted.toNat % 16) :=
  toNat_raised (by decide) (by decide : 4 + 4 ≤ 8) (by decide) converted

theorem shift_six (converted : UInt8) :
    ((converted &&& 0x03) <<< 6).toNat = 2 ^ 6 * (converted.toNat % 4) :=
  toNat_raised (by decide) (by decide : 6 + 2 ≤ 8) (by decide) converted

theorem converted_high_two {converted : UInt8} (hlt : converted.toNat < 64) :
    ((converted &&& 0x30) >>> 4).toNat = converted.toNat / 16 := by
  have hfield : ((converted &&& 0x30) >>> 4).toNat = converted.toNat / 2 ^ 4 % 2 ^ 2 :=
    toNat_field (by decide) (by decide) converted
  omega

theorem converted_high_four {converted : UInt8} (hlt : converted.toNat < 64) :
    ((converted &&& 0x3C) >>> 2).toNat = converted.toNat / 4 := by
  have hfield : ((converted &&& 0x3C) >>> 2).toNat = converted.toNat / 2 ^ 2 % 2 ^ 4 :=
    toNat_field (by decide) (by decide) converted
  omega

theorem first_byte {p q : UInt8} (hp : p.toNat < 64) (hq : q.toNat < 64) :
    ((q &&& 0x30) >>> 4) ||| (p <<< 2) = UInt8.ofNat (p.toNat * 4 + q.toNat / 16) := by
  rw [or_ofNat (shift_two hp) (converted_high_two hq) (by omega)]
  congr 1
  omega

theorem second_byte (q : UInt8) {r : UInt8} (hr : r.toNat < 64) :
    ((r &&& 0x3C) >>> 2) ||| ((q &&& 0x0F) <<< 4) =
      UInt8.ofNat (q.toNat % 16 * 16 + r.toNat / 4) := by
  rw [or_ofNat (shift_four q) (converted_high_four hr) (by omega)]
  congr 1
  omega

theorem third_byte (r : UInt8) {s : UInt8} (hs : s.toNat < 64) :
    (s &&& (0x3F : UInt8)) ||| ((r &&& 0x03) <<< 6) =
      UInt8.ofNat (r.toNat % 4 * 64 + s.toNat) := by
  rw [or_ofNat (shift_six r) ((low_six s).trans (Nat.mod_eq_of_lt hs)) (by omega)]
  congr 1
  omega

/-- The bytes are those of the groups, each group below 64. -/
theorem gather_eq : ∀ (groups : List UInt8) (left : UInt8), (∀ n ∈ groups, n.toNat < 64) →
    gather groups 0 left = octets (groups.map UInt8.toNat)
  | [], _, _ => rfl
  | [_], _, _ => rfl
  | [p, q], _, h => by
    have hp := h p (by simp)
    have hq := h q (by simp)
    exact congrArg (· :: []) (first_byte hp hq)
  | [p, q, r], _, h => by
    have hp := h p (by simp)
    have hq := h q (by simp)
    have hr := h r (by simp)
    exact congrArg₂ (fun a b => [a, b]) (first_byte hp hq) (second_byte q hr)
  | p :: q :: r :: s :: rest, _, h => by
    have hp := h p (by simp)
    have hq := h q (by simp)
    have hr := h r (by simp)
    have hs := h s (by simp)
    have hrest := gather_eq rest ((r &&& 0x03) <<< 6) fun n hn => h n (by simp [hn])
    change (((q &&& 0x30) >>> 4) ||| (p <<< 2)) :: (((r &&& 0x3C) >>> 2) |||
      ((q &&& 0x0F) <<< 4)) :: ((s &&& (0x3F : UInt8)) ||| ((r &&& 0x03) <<< 6)) ::
      gather rest 0 ((r &&& 0x03) <<< 6) = _
    rw [first_byte hp hq, second_byte q hr, third_byte r hs, hrest]
    rfl

theorem gather_prefix {groups groups' : List UInt8} (h : groups <+: groups') (state : Nat)
    (left : UInt8) : gather groups state left <+: gather groups' state left := by
  induction groups generalizing groups' state left with
  | nil => exact List.nil_prefix
  | cons converted groups ih =>
    obtain ⟨rest, rfl⟩ := h
    have hrest : groups <+: groups ++ rest := List.prefix_append groups rest
    rw [List.cons_append, gather, gather]
    split_ifs
    · exact ih hrest _ _
    · exact List.cons_prefix_cons.mpr ⟨rfl, ih hrest _ _⟩
    · exact List.cons_prefix_cons.mpr ⟨rfl, ih hrest _ _⟩
    · exact List.cons_prefix_cons.mpr ⟨rfl, ih hrest _ _⟩

/-! ### Alphabets -/

/-- The characters of the groups, and what a character is read as. -/
structure Alphabet where
  char : Nat → UInt8
  value : UInt8 → Option UInt8
  value_lt : ∀ c, ∀ n ∈ value c, n.toNat < 64
  value_char : ∀ n < 64, value (char n) = some (UInt8.ofNat n)

/-- Characters that are put in between, each of them ignored. -/
inductive Inserted (ignored : UInt8 → Bool) : List UInt8 → List UInt8 → Prop
  | nil : Inserted ignored [] []
  | keep {source source' : List UInt8} (c : UInt8) :
      Inserted ignored source source' → Inserted ignored (c :: source) (c :: source')
  | insert {source source' : List UInt8} (c : UInt8) : ignored c = true →
      Inserted ignored source source' → Inserted ignored source (c :: source')

namespace Alphabet

variable (A : Alphabet) (ignored : UInt8 → Bool)

/-- The characters of a byte string. -/
def text (bytes : List UInt8) : List UInt8 := (sextets bytes).map A.char

/-- What is in front of the first character that has no place there. -/
def accepted (source : List UInt8) : List UInt8 :=
  (source.takeWhile fun c => (A.value c).isSome || ignored c).filterMap A.value

variable {A ignored} {source source' fill : List UInt8}

theorem accepted_cons (c : UInt8) (source : List UInt8) :
    A.accepted ignored (c :: source) =
      if (A.value c).isSome || ignored c then (A.value c).toList ++ A.accepted ignored source
      else [] := by
  rw [accepted, List.takeWhile_cons]
  split_ifs
  · rw [List.filterMap_cons]
    cases A.value c <;> rfl
  · rfl

theorem accepted_lt : ∀ n ∈ A.accepted ignored source, n.toNat < 64 := by
  intro n hn
  obtain ⟨c, -, hvalue⟩ := List.mem_filterMap.mp hn
  exact A.value_lt c n hvalue

theorem accepted_prefix (h : source <+: source') :
    A.accepted ignored source <+: A.accepted ignored source' := by
  obtain ⟨rest, rfl⟩ := h
  apply List.IsPrefix.filterMap
  induction source with
  | nil => exact List.nil_prefix
  | cons c source ih =>
    rw [List.cons_append, List.takeWhile_cons, List.takeWhile_cons]
    split_ifs
    · exact List.cons_prefix_cons.mpr ⟨rfl, ih⟩
    · exact List.nil_prefix

theorem isSome_of_mem_text {bytes : List UInt8} {c : UInt8} (h : c ∈ A.text bytes) :
    (A.value c).isSome := by
  obtain ⟨n, hn, rfl⟩ := List.mem_map.mp h
  rw [A.value_char n (sextets_lt bytes n hn)]
  rfl

/-- The groups of a text are those that it was written for, whatever is behind that has none. -/
theorem accepted_text (bytes : List UInt8) (hfill : ∀ c ∈ fill, A.value c = none) :
    (A.accepted ignored (A.text bytes ++ fill)).map UInt8.toNat = sextets bytes := by
  have hplace : ∀ c ∈ A.text bytes, (A.value c).isSome || ignored c := by
    intro c hc
    rw [isSome_of_mem_text hc, Bool.true_or]
  have hnone : ∀ c ∈ fill.takeWhile (fun c => (A.value c).isSome || ignored c),
      A.value c = none := fun c hc => hfill c (List.takeWhile_subset _ hc)
  have hread : (A.text bytes).filterMap A.value = (sextets bytes).map UInt8.ofNat := by
    rw [text, List.filterMap_map, ← List.filterMap_eq_map]
    exact List.filterMap_congr fun n hn => A.value_char n (sextets_lt bytes n hn)
  have hlow : ∀ n ∈ sextets bytes, (UInt8.ofNat n).toNat = n := by
    intro n hn
    rw [UInt8.toNat_ofNat', Nat.mod_eq_of_lt (lt_trans (sextets_lt bytes n hn) (by decide))]
  rw [accepted, List.takeWhile_append_of_pos hplace, List.filterMap_append,
    List.filterMap_eq_nil_iff.mpr hnone, List.append_nil, hread, List.map_map]
  exact (List.map_congr_left hlow).trans (List.map_id' _)

/-- A byte string is read back from its text. -/
theorem gather_text (bytes : List UInt8) (hfill : ∀ c ∈ fill, A.value c = none) (left : UInt8) :
    gather (A.accepted ignored (A.text bytes ++ fill)) 0 left = bytes := by
  rw [gather_eq _ _ accepted_lt, accepted_text bytes hfill, octets_sextets]

/-- Without a group of their own they change nothing. -/
theorem accepted_inserted {among : UInt8 → Bool} (h : Inserted among source source')
    (hignored : ∀ c, among c = true → ignored c = true ∧ A.value c = none) :
    A.accepted ignored source' = A.accepted ignored source := by
  induction h with
  | nil => rfl
  | keep c _ ih => rw [accepted_cons, accepted_cons, ih]
  | insert c hc _ ih =>
    obtain ⟨hpass, hnone⟩ := hignored c hc
    rw [accepted_cons, if_pos (by rw [hpass, Bool.or_true]), hnone, ih]
    rfl

end Alphabet

end Thunder.Sextets
