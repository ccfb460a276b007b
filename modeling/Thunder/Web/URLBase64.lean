import Thunder.Core.Base64

/-! `URL::Base64Encode` and `URL::Base64Decode`: Base64 with the minus and the underscore, and with
full stops, 0x2E, for the padding.  The lengths are `uint16_t`, and neither the index of the source
nor that of the destination goes beyond them. -/

namespace Thunder.Core.URL

open Sextets

/-- `base64_chars`: the letters, the digits, the minus and the underscore. -/
def base64Chars : Text :=
  (List.range' 0x41 26 ++ List.range' 0x61 26 ++ List.range' 0x30 10 ++ [0x2D, 0x5F]).map
    UInt8.ofNat

def base64Char (n : UInt8) : UInt8 := base64Chars.getD n.toNat 0

/-- The loop of `Base64Encode`, with room for so many characters: what it writes, its state and the
bits that are left. -/
def base64EncodeLoop : Text → Nat → UInt8 → Nat → Text × Nat × UInt8
  | [], state, lastStuff, _ => ([], state, lastStuff)
  | byte :: source, state, lastStuff, room =>
    if room = 0 then ([], state, lastStuff)
    else if state = 0 then
      let r := base64EncodeLoop source 1 ((byte &&& 0x03) <<< 4) (room - 1)
      (base64Char ((byte &&& 0xFC) >>> 2) :: r.1, r.2)
    else if state = 1 then
      let r := base64EncodeLoop source 2 ((byte &&& 0x0F) <<< 2) (room - 1)
      (base64Char (((byte &&& 0xF0) >>> 4) ||| lastStuff) :: r.1, r.2)
    else
      let r := base64EncodeLoop source 0 lastStuff (room - 2)
      (base64Char (((byte &&& 0xC0) >>> 6) ||| lastStuff) ::
        ((if 1 < room then [base64Char (byte &&& 0x3F)] else []) ++ r.1), r.2)

/-- `Base64Encode`: what is written to the destination. -/
def base64Encode (source : Text) (destinationLength : Nat) (padding : Bool) : Text :=
  let (result, state, lastStuff) := base64EncodeLoop source 0 0 destinationLength
  if state ≠ 0 ∧ result.length < destinationLength then
    let result := result ++ [base64Char lastStuff]
    if padding = true then
      let result := if result.length < destinationLength then result ++ [0x2E] else result
      if state = 2 ∧ result.length < destinationLength then result ++ [0x2E] else result
    else result
  else result

def base64Value (current : UInt8) : Option UInt8 :=
  if 0x41 ≤ current ∧ current ≤ 0x5A then some (current - 0x41)
  else if 0x61 ≤ current ∧ current ≤ 0x7A then some (current - 0x61 + 26)
  else if 0x30 ≤ current ∧ current ≤ 0x39 then some (current - 0x30 + 52)
  else if current = 0x2D then some 62
  else if current = 0x5F then some 63
  else none

/-- The loop of `Base64Decode`, with room for so many bytes. -/
def base64DecodeLoop (ignored : UInt8 → Bool) : Text → Nat → UInt8 → Nat → Text
  | [], _, _, _ => []
  | current :: source, state, lastStuff, room =>
    if room = 0 then []
    else
      match base64Value current with
      | none => if ignored current then base64DecodeLoop ignored source state lastStuff room else []
      | some converted =>
        if state = 0 then base64DecodeLoop ignored source 1 (converted <<< 2) room
        else if state = 1 then
          (((converted &&& 0x30) >>> 4) ||| lastStuff) ::
            base64DecodeLoop ignored source 2 ((converted &&& 0x0F) <<< 4) (room - 1)
        else if state = 2 then
          (((converted &&& 0x3C) >>> 2) ||| lastStuff) ::
            base64DecodeLoop ignored source 3 ((converted &&& 0x03) <<< 6) (room - 1)
        else
          ((converted &&& 0x3F) ||| lastStuff) ::
            base64DecodeLoop ignored source 0 lastStuff (room - 1)

/-- `Base64Decode`: what is written to the destination. -/
def base64Decode (source : Text) (destinationLength : Nat) (ignoreList : Option Text) : Text :=
  base64DecodeLoop (Base64.ignores ignoreList) source 0 0 destinationLength

/-! ### Encoding -/

/-- The text of a byte string.  The padding is one full stop behind one byte of the last group, and
two behind two of them. -/
def base64Text (source : Text) (padding : Bool) : Text :=
  (sextets source).map (fun n => base64Chars.getD n 0) ++
    if padding = true then List.replicate (source.length % 3) 0x2E else []

theorem length_base64Text (source : Text) (padding : Bool) :
    (base64Text source padding).length =
      (source.length * 4 + 2) / 3 + if padding = true then source.length % 3 else 0 := by
  rw [base64Text, List.length_append, List.length_map, length_sextets]
  split_ifs <;> simp

theorem base64Text_eq (source : Text) (padding : Bool) :
    base64Text source padding = (spread source 0 0).1.map base64Char ++
      ((if (spread source 0 0).2.1 = 0 then [] else [base64Char (spread source 0 0).2.2]) ++
        if padding = true then List.replicate (spread source 0 0).2.1 0x2E else []) := by
  rw [base64Text, ← spread_eq source 0, spread_state, List.map_map, List.map_append,
    List.append_assoc]
  split_ifs <;> rfl

/-- The loop writes the characters of the groups, as far as there is room. -/
theorem base64EncodeLoop_eq (source : Text) (state : Nat) (lastStuff : UInt8) (room : Nat) :
    (base64EncodeLoop source state lastStuff room).1 =
      ((spread source state lastStuff).1.map base64Char).take room ∧
    ((spread source state lastStuff).1.length ≤ room →
      (base64EncodeLoop source state lastStuff room).2 = (spread source state lastStuff).2) := by
  induction source generalizing state lastStuff room with
  | nil => exact ⟨(List.take_nil ..).symm, fun _ => rfl⟩
  | cons byte source ih =>
    rw [base64EncodeLoop, spread]
    by_cases hroom : room = 0
    · rw [if_pos hroom, hroom, List.take_zero]
      refine ⟨rfl, fun hle => ?_⟩
      split_ifs at hle <;> simp at hle
    obtain ⟨room, rfl⟩ := Nat.exists_eq_succ_of_ne_zero hroom
    rw [if_neg hroom]
    split_ifs with hzero hone hmore
    · obtain ⟨htext, hleft⟩ := ih 1 ((byte &&& 0x03) <<< 4) room
      exact ⟨by simp [htext], fun hle => hleft (by simpa using hle)⟩
    · obtain ⟨htext, hleft⟩ := ih 2 ((byte &&& 0x0F) <<< 2) room
      exact ⟨by simp [htext], fun hle => hleft (by simpa using hle)⟩
    · obtain ⟨htext, hleft⟩ := ih 0 lastStuff (room - 1)
      obtain ⟨room, rfl⟩ := Nat.exists_eq_succ_of_ne_zero (show room ≠ 0 by omega)
      exact ⟨by simpa using htext, fun hle => hleft (by simpa using hle)⟩
    · obtain rfl : room = 0 := by omega
      obtain ⟨htext, -⟩ := ih 0 lastStuff 0
      exact ⟨by simpa using htext, fun hle => absurd hle (by simp)⟩

/-- The destination holds the text, cut where it ends. -/
theorem base64Encode_eq (source : Text) (destinationLength : Nat) (padding : Bool) :
    base64Encode source destinationLength padding =
      (base64Text source padding).take destinationLength := by
  obtain ⟨htext, hleft⟩ := base64EncodeLoop_eq source 0 0 destinationLength
  have hstate : (spread source 0 0).2.1 < 3 := by
    rw [spread_state]
    exact Nat.mod_lt _ (by decide)
  rw [base64Encode, base64Text_eq]
  generalize spread source 0 0 = groups at *
  generalize base64EncodeLoop source 0 0 destinationLength = loop at *
  obtain ⟨groups, state, last⟩ := groups
  obtain ⟨result, state', last'⟩ := loop
  dsimp only at *
  by_cases hfits : groups.length ≤ destinationLength
  · obtain ⟨rfl, rfl⟩ := Prod.mk.inj (hleft hfits)
    rw [List.take_of_length_le (by simpa using hfits)] at htext
    subst htext
    rw [List.take_append, List.take_of_length_le (by simpa using hfits)]
    obtain ⟨room, rfl⟩ : ∃ room, destinationLength = (groups.map base64Char).length + room := by
      exact ⟨destinationLength - groups.length, by rw [List.length_map]; omega⟩
    rw [Nat.add_sub_cancel_left]
    -- the character of the last bits and its padding end where there is no room
    obtain rfl | rfl | rfl : state' = 0 ∨ state' = 1 ∨ state' = 2 := by omega
    · simp
    · rcases room with _ | _ | room <;> cases padding <;> simp
    · rcases room with _ | _ | _ | room <;> cases padding <;> simp
  · have hfull : result.length = destinationLength := by
      rw [htext, List.length_take, List.length_map]
      omega
    rw [if_neg (by omega), List.take_append_of_le_length (by rw [List.length_map]; omega), htext]

/-! ### Decoding -/

theorem base64Value_lt (current : UInt8) :
    ∀ converted ∈ base64Value current, converted.toNat < 64 := by
  intro converted hvalue
  unfold base64Value at hvalue
  split_ifs at hvalue with hupper hlower hdigit <;> cases hvalue
  · rw [UInt8.toNat_sub_of_le _ _ hupper.1]
    exact Nat.lt_of_le_of_lt (Nat.sub_le_sub_right (UInt8.le_iff_toNat_le.mp hupper.2) _) (by decide)
  · have hle := UInt8.le_iff_toNat_le.mp hlower.2
    have hsub := UInt8.toNat_sub_of_le _ _ hlower.1
    rw [UInt8.toNat_add]
    simp only [UInt8.reduceToNat] at hle hsub ⊢
    omega
  · have hle := UInt8.le_iff_toNat_le.mp hdigit.2
    have hsub := UInt8.toNat_sub_of_le _ _ hdigit.1
    rw [UInt8.toNat_add]
    simp only [UInt8.reduceToNat] at hle hsub ⊢
    omega
  · decide
  · decide

theorem base64Value_char : ∀ n < 64, base64Value (base64Chars.getD n 0) = some (UInt8.ofNat n) := by
  decide +kernel

def base64 : Alphabet where
  char n := base64Chars.getD n 0
  value := base64Value
  value_lt := base64Value_lt
  value_char := base64Value_char

/-- The loop gives the bytes of what it accepts, as far as there is room. -/
theorem base64DecodeLoop_eq (ignored : UInt8 → Bool) (source : Text) (state : Nat)
    (lastStuff : UInt8) (room : Nat) :
    base64DecodeLoop ignored source state lastStuff room =
      (gather (base64.accepted ignored source) state lastStuff).take room := by
  induction source generalizing state lastStuff room with
  | nil => simp [base64DecodeLoop, Alphabet.accepted, gather]
  | cons current source ih =>
    rw [base64DecodeLoop]
    by_cases hroom : room = 0
    · rw [if_pos hroom, hroom, List.take_zero]
    rw [if_neg hroom]
    cases hvalue : base64Value current with
    | none =>
      by_cases hignored : ignored current
      · simp [Alphabet.accepted_cons, base64, hvalue, hignored, ih]
      · simp [Alphabet.accepted_cons, base64, hvalue, hignored, gather]
    | some converted =>
      have haccepted : base64.accepted ignored (current :: source) =
          converted :: base64.accepted ignored source := by
        simp [Alphabet.accepted_cons, base64, hvalue]
      obtain ⟨room, rfl⟩ := Nat.exists_eq_succ_of_ne_zero hroom
      rw [haccepted, gather]
      dsimp only
      split_ifs <;> simp only [ih, List.take_succ_cons, Nat.succ_eq_add_one, Nat.add_sub_cancel]

/-- The bytes of the whole text are those that it was written for. -/
theorem gather_base64Text (ignored : UInt8 → Bool) (source : Text) (padding : Bool) :
    gather (base64.accepted ignored (base64Text source padding)) 0 0 = source := by
  apply base64.gather_text source
  intro c hc
  split_ifs at hc
  · rw [List.eq_of_mem_replicate hc]
    decide
  · contradiction

/-- What is read of a text that was cut is a part of the bytes from the first one on. -/
theorem base64Decode_take (source : Text) (padding : Bool) (ignoreList : Option Text)
    (destinationLength length : Nat) :
    base64Decode ((base64Text source padding).take destinationLength) length ignoreList <+:
      source := by
  rw [base64Decode, base64DecodeLoop_eq]
  refine (List.take_prefix _ _).trans ?_
  have haccepted : base64.accepted (Base64.ignores ignoreList)
      ((base64Text source padding).take destinationLength) <+:
        base64.accepted (Base64.ignores ignoreList) (base64Text source padding) :=
    Alphabet.accepted_prefix (List.take_prefix _ _)
  have hprefix := gather_prefix haccepted 0 0
  rwa [gather_base64Text] at hprefix

/-- The characters of an ignore list that the alphabet does not have. -/
def ignorable (ignoreList : Text) (c : UInt8) : Bool := c ∈ ignoreList ∧ base64Value c = none

/-- A byte string whose text fits the destination is read back, and so is what there is room for of
it; and characters to ignore that are put into a text change nothing, where the alphabet does not
have them. -/
theorem base64url_exact :
    (∀ (source : Text) (padding : Bool), source.length ≤ 49000 →
      (base64Text source padding).length < 2 ^ 16) ∧
    (∀ (source : Text) (padding : Bool) (ignoreList : Option Text) (destinationLength length : Nat),
      (base64Encode source destinationLength padding).length ≤ destinationLength ∧
      base64Decode (base64Encode source destinationLength padding) length ignoreList <+: source ∧
      ((base64Text source padding).length ≤ destinationLength → source.length ≤ length →
        base64Decode (base64Encode source destinationLength padding) length ignoreList = source)) ∧
    ∀ (text text' ignoreList : Text) (length : Nat),
      Sextets.Inserted (ignorable ignoreList) text text' →
      base64Decode text' length (some ignoreList) = base64Decode text length (some ignoreList) := by
  refine ⟨?_, ?_, ?_⟩
  · intro source padding hlength
    rw [length_base64Text]
    split_ifs <;> omega
  · intro source padding ignoreList destinationLength length
    rw [base64Encode_eq]
    refine ⟨List.length_take_le _ _, base64Decode_take source padding ignoreList _ length, ?_⟩
    intro hfits hlength
    rw [List.take_of_length_le hfits, base64Decode, base64DecodeLoop_eq, gather_base64Text,
      List.take_of_length_le hlength]
  · intro text text' ignoreList length hinserted
    have hignored : ∀ c, ignorable ignoreList c = true →
        Base64.ignores (some ignoreList) c = true ∧ base64.value c = none := by
      intro c hc
      obtain ⟨hmem, hnone⟩ := of_decide_eq_true hc
      exact ⟨decide_eq_true (.inr hmem), hnone⟩
    rw [base64Decode, base64Decode, base64DecodeLoop_eq, base64DecodeLoop_eq,
      Alphabet.accepted_inserted hinserted hignored]

/-- Four bytes with their padding, and a line feed in the text of them. -/
theorem base64url_exact_four :
    base64Decode (base64Encode [0x4D, 0x61, 0x6E, 0xFF] 8 true) 4 none = [0x4D, 0x61, 0x6E, 0xFF] ∧
    base64Decode [0x54, 0x0A, 0x51] 1 (some [0x0A]) = base64Decode [0x54, 0x51] 1 (some [0x0A]) :=
  ⟨(base64url_exact.2.1 [0x4D, 0x61, 0x6E, 0xFF] true none 8 4).2.2 (by decide) (by decide),
    base64url_exact.2.2 [0x54, 0x51] [0x54, 0x0A, 0x51] [0x0A] 1
      (.keep _ (.insert _ (by decide) (.keep _ .nil)))⟩

/-- A letter in the ignore list is taken for a letter. -/
theorem not_base64url_exact :
    ¬ ∀ (source : Text) (padding : Bool) (text' ignoreList : Text) (length : Nat),
      Sextets.Inserted (fun c => decide (c ∈ ignoreList)) (base64Encode source 65535 padding) text' →
      base64Decode text' length (some ignoreList) =
        base64Decode (base64Encode source 65535 padding) length (some ignoreList) := by
  intro h
  have heq := h [0] false [0x41, 0x41, 0x41] [0x41] 2
    (.insert _ (by decide) (.keep _ (.keep _ .nil)))
  exact absurd heq (by decide)

end Thunder.Core.URL
