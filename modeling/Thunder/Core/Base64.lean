import Thunder.Core.Metadata
import Thunder.Core.Words
import Thunder.Library.Sextets
import Mathlib.Data.List.TakeWhile

/-! `ToString` and `FromString` of bytes: texts in Base64.  The padding is the equals sign, 0x3D. -/

namespace Thunder.Core.Base64

open Sextets

/-- `base64_chars`: the letters, the digits, the plus and the slash. -/
def base64Chars : Text :=
  (List.range' 0x41 26 ++ List.range' 0x61 26 ++ List.range' 0x30 10 ++ [0x2B, 0x2F]).map
    UInt8.ofNat

def base64Char (n : UInt8) : UInt8 := base64Chars.getD n.toNat 0

/-- The loop of `ToString`: what it adds to the result, its state and the bits that are left. -/
def encodeLoop : Text → Nat → UInt8 → Text × Nat × UInt8
  | [], state, lastStuff => ([], state, lastStuff)
  | byte :: object, state, lastStuff =>
    if state = 0 then
      let (more, left) := encodeLoop object 1 ((byte &&& 0x03) <<< 4)
      (base64Char ((byte &&& 0xFC) >>> 2) :: more, left)
    else if state = 1 then
      let (more, left) := encodeLoop object 2 ((byte &&& 0x0F) <<< 2)
      (base64Char (((byte &&& 0xF0) >>> 4) ||| lastStuff) :: more, left)
    else
      let (more, left) := encodeLoop object 0 lastStuff
      (base64Char (((byte &&& 0xC0) >>> 6) ||| lastStuff) :: base64Char (byte &&& 0x3F) :: more,
        left)

/-- `ToString`, behind what is in the result. -/
def toString (object : Text) (padding : Bool) (result : Text) : Text :=
  let (text, state, lastStuff) := encodeLoop object 0 0
  let tail :=
    if state = 0 then []
    else base64Char lastStuff ::
      if padding = false then [] else if state = 1 then [0x3D, 0x3D] else [0x3D]
  result ++ text ++ tail

def base64Value (current : UInt8) : Option UInt8 :=
  if 0x41 ≤ current ∧ current ≤ 0x5A then some (current - 0x41)
  else if 0x61 ≤ current ∧ current ≤ 0x7A then some (current - 0x61 + 26)
  else if 0x30 ≤ current ∧ current ≤ 0x39 then some (current - 0x30 + 52)
  else if current = 0x2B then some 62
  else if current = 0x2F then some 63
  else none

/-- The loop of `FromString`, with room for so many bytes: these, and how many characters it has
taken. -/
def decodeLoop (ignored : UInt8 → Bool) : Text → Nat → UInt8 → Nat → Text × Nat
  | [], _, _, _ => ([], 0)
  | current :: newValue, state, lastStuff, room =>
    if room = 0 then ([], 0)
    else
      match base64Value current with
      | none =>
        if ignored current then
          let (object, index) := decodeLoop ignored newValue state lastStuff room
          (object, index + 1)
        else ([], 1)
      | some converted =>
        if state = 0 then
          let (object, index) := decodeLoop ignored newValue 1 (converted <<< 2) room
          (object, index + 1)
        else if state = 1 then
          let (object, index) :=
            decodeLoop ignored newValue 2 ((converted &&& 0x0F) <<< 4) (room - 1)
          ((((converted &&& 0x30) >>> 4) ||| lastStuff) :: object, index + 1)
        else if state = 2 then
          let (object, index) :=
            decodeLoop ignored newValue 3 ((converted &&& 0x03) <<< 6) (room - 1)
          ((((converted &&& 0x3C) >>> 2) ||| lastStuff) :: object, index + 1)
        else
          let (object, index) := decodeLoop ignored newValue 0 lastStuff (room - 1)
          (((converted &&& 0x3F) ||| lastStuff) :: object, index + 1)

/-- What is in the ignore list, as `strchr` sees it: the zero that ends the list is in it. -/
def ignores (ignoreList : Option Text) (current : UInt8) : Bool :=
  ignoreList.any fun list => current = 0 ∨ current ∈ list

/-- `FromString` to an array of `length`. -/
def fromString (newValue : Text) (length : Nat) (ignoreList : Option Text) : Text × Nat :=
  decodeLoop (ignores ignoreList) newValue 0 0 length

/-- Whether the character so far from the end is the padding. -/
def padded (value : Text) (back : Nat) : Nat :=
  if back ≤ value.length ∧ value.getD (value.length - back) 0 = 0x3D then 1 else 0

/-- `FromString` to a vector that it resizes, to `length` at most. -/
def fromStringVector (value : Text) (length : Nat) (ignoreList : Option Text) : Text × Nat :=
  let padding := padded value 1 + padded value 2
  let maxSize := u32 (value.length / 4 * 3 + (2 ^ 64 - padding))
  fromString value (min maxSize length) ignoreList

/-! ### What they do -/

/-- The loop writes the characters of the groups. -/
theorem encodeLoop_eq (object : Text) (state : Nat) (lastStuff : UInt8) :
    encodeLoop object state lastStuff =
      ((spread object state lastStuff).1.map base64Char, (spread object state lastStuff).2) := by
  induction object generalizing state lastStuff with
  | nil => rfl
  | cons byte object ih =>
    rw [encodeLoop, spread]
    split_ifs <;> simp only [ih, List.map_cons]

/-- The characters of a byte string. -/
def base64Text (source : Text) : Text := (sextets source).map fun n => base64Chars.getD n 0

/-- They are those of the groups, with the one of the bits that are left. -/
theorem base64Text_eq (object : Text) (lastStuff : UInt8) :
    base64Text object = (spread object 0 lastStuff).1.map base64Char ++
      if (spread object 0 lastStuff).2.1 = 0 then []
      else [base64Char (spread object 0 lastStuff).2.2] := by
  rw [base64Text, ← spread_eq object lastStuff, List.map_map, List.map_append]
  split_ifs <;> rfl

/-- The padding behind so many bytes. -/
def fill (length : Nat) (padding : Bool) : Text :=
  if padding = false then [] else List.replicate ((3 - length % 3) % 3) 0x3D

theorem toString_eq (object : Text) (padding : Bool) (result : Text) :
    toString object padding result =
      result ++ (base64Text object ++ fill object.length padding) := by
  have hstate := spread_state object 0
  rw [toString, base64Text_eq object 0, encodeLoop_eq, fill]
  generalize spread object 0 0 = loop at hstate ⊢
  obtain ⟨groups, state, last⟩ := loop
  simp only at hstate ⊢
  rw [← hstate]
  cases padding with
  | false => by_cases hzero : state = 0 <;> simp [hzero]
  | true =>
    have hlt : state < 3 := hstate ▸ Nat.mod_lt _ (by decide)
    obtain rfl | rfl | rfl : state = 0 ∨ state = 1 ∨ state = 2 := by omega
    · simp
    · simp [List.replicate]
    · simp

/-! ### Decoding -/

theorem base64Value_lt (current : UInt8) :
    ∀ converted ∈ base64Value current, converted.toNat < 64 := by
  intro converted hvalue
  unfold base64Value at hvalue
  split_ifs at hvalue with hupper hlower hdigit <;> cases hvalue
  · rw [UInt8.toNat_sub_of_le _ _ hupper.1]
    exact Nat.lt_of_le_of_lt (Nat.sub_le_sub_right (UInt8.le_iff_toNat_le.mp hupper.2) _) (by decide)
  · have hle := UInt8.le_iff_toNat_le.mp hlower.2
    have hsub := UInt8.toNat_sub_of_le _ _ hlower.1
    rw [UInt8.toNat_add]
    simp only [UInt8.reduceToNat] at hle hsub ⊢
    omega
  · have hle := UInt8.le_iff_toNat_le.mp hdigit.2
    have hsub := UInt8.toNat_sub_of_le _ _ hdigit.1
    rw [UInt8.toNat_add]
    simp only [UInt8.reduceToNat] at hle hsub ⊢
    omega
  · decide
  · decide

theorem base64Value_char : ∀ n < 64, base64Value (base64Chars.getD n 0) = some (UInt8.ofNat n) := by
  decide +kernel

def alphabet : Alphabet where
  char n := base64Chars.getD n 0
  value := base64Value
  value_lt := base64Value_lt
  value_char := base64Value_char

/-- The loop gives the bytes of what it accepts, as far as there is room. -/
theorem decodeLoop_eq (ignored : UInt8 → Bool) (source : Text) (state : Nat) (lastStuff : UInt8)
    (room : Nat) :
    (decodeLoop ignored source state lastStuff room).1 =
      (gather (alphabet.accepted ignored source) state lastStuff).take room := by
  induction source generalizing state lastStuff room with
  | nil => simp [decodeLoop, Alphabet.accepted, gather]
  | cons current rest ih =>
    rw [decodeLoop]
    by_cases hroom : room = 0
    · rw [if_pos hroom, hroom, List.take_zero]
    rw [if_neg hroom]
    cases hvalue : base64Value current with
    | none =>
      by_cases hignored : ignored current
      · simp only [hignored, if_true, ih]
        simp [Alphabet.accepted_cons, alphabet, hvalue, hignored]
      · simp [Alphabet.accepted_cons, alphabet, hvalue, hignored, gather]
    | some converted =>
      have haccepted : alphabet.accepted ignored (current :: rest) =
          converted :: alphabet.accepted ignored rest := by
        simp [Alphabet.accepted_cons, alphabet, hvalue]
      obtain ⟨room, rfl⟩ := Nat.exists_eq_succ_of_ne_zero hroom
      rw [haccepted, gather]
      dsimp only
      split_ifs <;> simp only [ih, List.take_succ_cons, Nat.succ_eq_add_one, Nat.add_sub_cancel]

theorem fromString_eq (newValue : Text) (length : Nat) (ignoreList : Option Text) :
    (fromString newValue length ignoreList).1 =
      (gather (alphabet.accepted (ignores ignoreList) newValue) 0 0).take length :=
  decodeLoop_eq _ newValue 0 0 length

theorem base64Value_fill (length : Nat) (padding : Bool) :
    ∀ c ∈ fill length padding, base64Value c = none := by
  intro c hc
  rw [fill] at hc
  split_ifs at hc
  · contradiction
  · rw [List.eq_of_mem_replicate hc]
    decide

/-- The array gets the bytes back, as far as there is room. -/
theorem fromString_toString (object : Text) (padding : Bool) (length : Nat)
    (ignoreList : Option Text) :
    (fromString (toString object padding []) length ignoreList).1 = object.take length := by
  rw [toString_eq, List.nil_append, fromString_eq]
  exact congrArg (List.take length)
    (alphabet.gather_text object (base64Value_fill object.length padding) 0)

/-! ### The vector -/

theorem length_base64Text (object : Text) :
    (base64Text object).length = (object.length * 4 + 2) / 3 := by
  rw [base64Text, List.length_map, length_sextets]

theorem not_mem_base64Text (object : Text) : 0x3D ∉ base64Text object :=
  fun h => absurd (Alphabet.isSome_of_mem_text (show _ ∈ alphabet.text object from h)) (by decide)

theorem padded_append (text : Text) {rest : Text} {back : Nat} (h : back < rest.length) :
    padded (text ++ rest) (back + 1) = padded rest (back + 1) := by
  unfold padded
  rw [List.length_append, Nat.add_sub_assoc h, List.getD_append_right _ _ _ _ (by omega),
    Nat.add_sub_cancel_left]
  simp only [show back + 1 ≤ text.length + rest.length by omega, true_and, Nat.succ_le_of_lt h]

theorem padded_eq_zero {text : Text} (h : 0x3D ∉ text) (rest : Text) {back : Nat}
    (hback : rest.length ≤ back) : padded (text ++ rest) (back + 1) = 0 := by
  unfold padded
  rw [if_neg]
  rintro ⟨hle, hpad⟩
  rw [List.length_append] at hle
  rw [List.length_append, List.getD_append _ _ _ _ (by omega),
    List.getD_eq_getElem _ _ (by omega)] at hpad
  exact h (hpad ▸ List.getElem_mem _)

/-- The padding of a text is counted. -/
theorem padded_replicate {text : Text} (h : 0x3D ∉ text) {count : Nat} (hcount : count ≤ 2) :
    padded (text ++ List.replicate count 0x3D) 1 + padded (text ++ List.replicate count 0x3D) 2 =
      count := by
  obtain rfl | rfl | rfl : count = 0 ∨ count = 1 ∨ count = 2 := by omega
  · rw [padded_eq_zero h _ (by decide), padded_eq_zero h _ (by decide)]
  · rw [padded_append text (by decide), padded_eq_zero h _ (by decide)]
    rfl
  · rw [padded_append text (by decide), padded_append text (by decide)]
    rfl

/-- The size of the vector: what is not a whole group of four characters is left out. -/
theorem maxSize_eq {object : Text} (hlt : object.length < 2 ^ 32) (padding : Bool) :
    u32 ((toString object padding []).length / 4 * 3 + (2 ^ 64 -
      (padded (toString object padding []) 1 + padded (toString object padding []) 2))) =
      if padding = true then object.length else object.length / 3 * 3 := by
  rw [toString_eq, List.nil_append, fill]
  cases padding with
  | false =>
    have hpadded := padded_replicate (not_mem_base64Text object) (Nat.zero_le 2)
    rw [List.replicate_zero, List.append_nil] at hpadded
    have hgroups : (object.length * 4 + 2) / 3 / 4 = object.length / 3 := by omega
    simp only [if_true, hpadded, List.append_nil, length_base64Text, Bool.false_eq_true, if_false,
      u32, hgroups]
    omega
  | true =>
    have hcount : (3 - object.length % 3) % 3 ≤ 2 := by omega
    have hgroups : (object.length * 4 + 2) / 3 + (3 - object.length % 3) % 3 =
        (object.length + 2) / 3 * 4 := by
      obtain hmod | hmod | hmod : object.length % 3 = 0 ∨ object.length % 3 = 1 ∨
        object.length % 3 = 2 := by omega
      all_goals rw [hmod]; omega
    simp only [Bool.true_eq_false, if_false, padded_replicate (not_mem_base64Text object) hcount,
      List.length_append, List.length_replicate, length_base64Text, if_true, u32, hgroups]
    generalize hfill : (3 - object.length % 3) % 3 = count at hcount
    omega

theorem fromStringVector_toString {object : Text} (hlt : object.length < 2 ^ 32) (padding : Bool)
    (length : Nat) (ignoreList : Option Text) :
    (fromStringVector (toString object padding []) length ignoreList).1 =
      object.take (min (if padding = true then object.length else object.length / 3 * 3)
        length) := by
  rw [fromStringVector, maxSize_eq hlt, fromString_toString]

/-- No more bytes are written than there is room for. -/
theorem length_fromString_le (newValue : Text) (length : Nat) (ignoreList : Option Text) :
    (fromString newValue length ignoreList).1.length ≤ length := by
  rw [fromString_eq]
  exact List.length_take_le _ _

theorem length_fromStringVector_le (value : Text) (length : Nat) (ignoreList : Option Text) :
    (fromStringVector value length ignoreList).1.length ≤ length :=
  (length_fromString_le value _ ignoreList).trans (Nat.min_le_right _ _)

/-! ### There and back -/

/-- The bytes come back in an array and in a vector that have room for them. -/
def RoundTrips (object : Text) (padding : Bool) : Prop :=
  ∀ ignoreList length, object.length ≤ length →
    (fromString (toString object padding []) length ignoreList).1 = object ∧
    (fromStringVector (toString object padding []) length ignoreList).1 = object

theorem roundTrips_iff_whole {object : Text} (hlt : object.length < 2 ^ 32) (padding : Bool) :
    RoundTrips object padding ↔ padding = true ∨ object.length % 3 = 0 := by
  constructor
  · intro h
    obtain ⟨-, hvector⟩ := h none object.length (Nat.le_refl _)
    rw [fromStringVector_toString hlt] at hvector
    by_contra hnot
    obtain ⟨hpadding, hmod⟩ := not_or.mp hnot
    have hlen := congrArg List.length hvector
    rw [if_neg hpadding, List.length_take] at hlen
    omega
  · intro h ignoreList length hlength
    refine ⟨?_, ?_⟩
    · rw [fromString_toString, List.take_of_length_le hlength]
    · have hwhole :
          (if padding = true then object.length else object.length / 3 * 3) = object.length := by
        obtain hpadding | hmod := h
        · exact if_pos hpadding
        · split_ifs <;> omega
      rw [fromStringVector_toString hlt, hwhole, Nat.min_eq_left hlength, List.take_length]

/-- What an array or a vector with room for it gets back is what was written, if it has a padding or
is a whole number of groups of three bytes; no text at all is written behind the room. -/
theorem base64_exact (object : Text) (padding : Bool) :
    (object.length < 2 ^ 32 →
      (RoundTrips object padding ↔ padding = true ∨ object.length % 3 = 0)) ∧
    ∀ text length ignoreList, (fromString text length ignoreList).1.length ≤ length ∧
      (fromStringVector text length ignoreList).1.length ≤ length :=
  ⟨fun hlt => roundTrips_iff_whole hlt padding, fun text length ignoreList =>
    ⟨length_fromString_le text length ignoreList,
      length_fromStringVector_le text length ignoreList⟩⟩

/-- One byte with its padding, and three without. -/
theorem base64_exact_short : RoundTrips [0x4D] true ∧ RoundTrips [0x4D, 0x61, 0x6E] false :=
  ⟨((base64_exact [0x4D] true).1 (by decide)).mpr (by decide),
    ((base64_exact [0x4D, 0x61, 0x6E] false).1 (by decide)).mpr (by decide)⟩

/-- One byte without a padding. -/
theorem not_base64_exact :
    ¬ ((∀ object : Text, object.length < 2 ^ 32 → ∀ padding, RoundTrips object padding) ∧
      ∀ text length ignoreList, (fromString text length ignoreList).1.length ≤ length ∧
        (fromStringVector text length ignoreList).1.length ≤ length) :=
  fun h => absurd (h.1 [0x4D] (by decide) false none 1 (by decide)).2 (by decide)

end Thunder.Core.Base64
