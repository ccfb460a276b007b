import Thunder.Core.JSONString
import Thunder.Core.Words
import Mathlib.Data.List.Forall2

/-! `ToHexString` and `FromHexString`: bytes as two hexadecimal digits each, with a delimiter
between them if it is not zero.  Lengths and positions are `uint32_t`.  Nothing stands for an access
behind the end of a string; the zero at its end may be read. -/

namespace Thunder.Core.HexString

open JSON (isdigit isxdigit)

/-- `hex_chars`, at one of its 16 positions. -/
def hexChar (n : UInt8) : UInt8 := if n < 10 then 0x30 + n else 0x61 + (n - 10)

/-- `FromHexDigits`. -/
def fromHexDigits (element : UInt8) : UInt8 :=
  if isdigit element then element - 0x30
  else if 0x61 ≤ element ∧ element ≤ 0x66 then element - 0x61 + 10
  else if 0x41 ≤ element ∧ element ≤ 0x46 then element - 0x41 + 10
  else 0

/-! ### `ToHexString` -/

/-- `result[j++] = c`. -/
def put (c : UInt8) (s : Nat × Text) : Option (Nat × Text) :=
  if s.1 < s.2.length then some (u32 (s.1 + 1), s.2.set s.1 c) else none

/-- The loop, from the byte at `i` on. -/
def toHexLoop (delimiter : UInt8) : Text → Nat → Nat × Text → Option Text
  | [], _, s => some s.2
  | byte :: object, i, s => do
    let s ← (if delimiter ≠ 0 ∧ 0 < i then put delimiter s else some s)
    let s ← put (hexChar (byte >>> 4)) s
    let s ← put (hexChar (byte &&& 0xF)) s
    toHexLoop delimiter object (i + 1) s

/-- The length that `ToHexString` gives to the result, in `uint32_t`. -/
def resultSize (index length : Nat) (delimiter : UInt8) : Nat :=
  u32 (index + length * 2 + if delimiter = 0 then 0 else length + (2 ^ 32 - 1))

/-- `string::resize`. -/
def resize (text : Text) (size : Nat) : Text :=
  text.take size ++ List.replicate (size - text.length) 0

/-- `ToHexString` of a vector, or of as many bytes as a `uint32_t` counts. -/
def toHexString (object result : Text) (delimiter : UInt8) : Option Text :=
  let length := u32 object.length
  let index := u32 result.length
  toHexLoop delimiter (object.take length) 0
    (index, resize result (resultSize index length delimiter))

/-! ### `FromHexString` -/

/-- `hexString[strIndex]`. -/
def charAt (hexString : Text) (strIndex : Nat) : Option UInt8 :=
  if strIndex ≤ hexString.length then some (hexString.getD strIndex 0) else none

/-- One turn of the loop: the byte, and the position behind it and its delimiter. -/
def fromHexByte (hexString : Text) (delimiter : UInt8) (strIndex : Nat) :
    Option (UInt8 × Nat) := do
  let nibble := fromHexDigits (← charAt hexString strIndex)
  let second ← charAt hexString (u32 (strIndex + 1))
  if delimiter = 0 then
    some ((nibble <<< 4) + fromHexDigits second, u32 (strIndex + 2))
  else if second = delimiter then
    some (nibble, u32 (strIndex + 2))
  else
    let third ← charAt hexString (u32 (strIndex + 2))
    some ((nibble <<< 4) + fromHexDigits second,
      u32 (strIndex + if third = delimiter then 3 else 2))

/-- The loop, with room for so many bytes. -/
def fromHexLoop (hexString : Text) (delimiter : UInt8) : Nat → Nat → Option Text
  | 0, _ => some []
  | room + 1, strIndex =>
    if strIndex < hexString.length then do
      let (byte, strIndex) ← fromHexByte hexString delimiter strIndex
      let object ← fromHexLoop hexString delimiter room strIndex
      some (byte :: object)
    else some []

/-- The bytes that `FromHexString` stores in an array of `maxLength`; its result is how many they
are. -/
def fromHexString (hexString : Text) (maxLength : Nat) (delimiter : UInt8) : Option Text :=
  if delimiter = 0 ∧ hexString.length % 2 = 1 then
    if maxLength = 0 then none
    else do
      let nibble := fromHexDigits (← charAt hexString 0)
      let object ← fromHexLoop hexString delimiter (maxLength - 1) 1
      some (nibble :: object)
  else fromHexLoop hexString delimiter maxLength 0

/-- `FromHexString` to a vector that it resizes. -/
def fromHexVector (hexString : Text) (maxLength : Nat) (delimiter : UInt8) : Option Text :=
  let maxSize :=
    u32 (if delimiter = 0 then hexString.length / 2 else (hexString.length + 1) / 3)
  fromHexString hexString (min maxSize maxLength) delimiter

/-! ### What the text is -/

/-- The two digits of a byte. -/
def digits (byte : UInt8) : Text := [hexChar (byte >>> 4), hexChar (byte &&& 0xF)]

/-- The delimiter, if there is one. -/
def mark (delimiter : UInt8) : Text := if delimiter = 0 then [] else [delimiter]

/-- The text of bytes. -/
def hexText (delimiter : UInt8) : Text → Text
  | [] => []
  | byte :: object => digits byte ++ object.flatMap fun byte => mark delimiter ++ digits byte

/-- A character, or a hexadecimal letter in upper case for one in lower case. -/
def Cased (c c' : UInt8) : Prop := c' = c ∨ 0x61 ≤ c ∧ c ≤ 0x66 ∧ c' = c - 0x20

/-- The bytes come back from their text, with its letters in either case, as far as there is
room. -/
def RoundTrips (object : Text) (delimiter : UInt8) : Prop :=
  ∃ text, toHexString object [] delimiter = some text ∧
    ∀ hexString, List.Forall₂ Cased text hexString →
      ∀ maxLength, 0 < maxLength → maxLength < 2 ^ 32 →
      fromHexString hexString maxLength delimiter = some (object.take maxLength) ∧
      fromHexVector hexString maxLength delimiter = some (object.take maxLength)

variable {object before rest text hexString : Text} {delimiter byte high low : UInt8}
  {j room : Nat}

theorem hexText_cons_cons (delimiter byte byte' : UInt8) (object : Text) :
    hexText delimiter (byte :: byte' :: object) =
      digits byte ++ (mark delimiter ++ hexText delimiter (byte' :: object)) := by
  simp [hexText]

theorem length_hexText (delimiter : UInt8) (object : Text) :
    (hexText delimiter object).length =
      if delimiter = 0 then 2 * object.length else 3 * object.length - 1 := by
  cases object with
  | nil => simp [hexText]
  | cons byte object =>
    simp only [hexText, mark, digits, List.length_append, List.length_flatMap, List.length_cons,
      List.length_nil]
    split_ifs <;> simp <;> omega

/-! ### Writing -/

/-- What is put one behind the other replaces so many characters, if they are there. -/
theorem foldlM_put (cs result : Text) (j : Nat) (hj : j ≤ result.length)
    (hlt : result.length < 2 ^ 32) :
    cs.foldlM (fun s c => put c s) (j, result) =
      if j + cs.length ≤ result.length then
        some (j + cs.length, result.take j ++ cs ++ result.drop (j + cs.length))
      else none := by
  induction cs generalizing j result with
  | nil => simp [hj]
  | cons c cs ih =>
    rw [List.foldlM_cons, put]
    by_cases hplace : j < result.length
    · simp only [if_pos hplace, u32_of_lt (show j + 1 < 2 ^ 32 by omega), Option.bind_eq_bind,
        Option.bind_some]
      rw [ih (result.set j c) (j + 1) (by simpa [Nat.succ_le_iff] using hplace)
        (by simpa using hlt)]
      rw [List.length_set, List.length_cons, show j + 1 + cs.length = j + (cs.length + 1) by omega,
        List.drop_set_of_lt (by omega), List.take_set, List.take_succ_eq_append_getElem hplace,
        List.set_append_right _ _ (List.length_take_le _ _)]
      simp [Nat.min_eq_left (Nat.le_of_lt hplace)]
    · rw [if_neg hplace, List.length_cons, if_neg (by omega)]
      rfl

/-- Two characters are put one after the other. -/
theorem foldlM_digits (byte : UInt8) (s : Nat × Text) :
    (digits byte).foldlM (fun s c => put c s) s =
      (put (hexChar (byte >>> 4)) s).bind (put (hexChar (byte &&& 0xF))) := by
  simp [digits]

theorem toHexLoop_succ (delimiter : UInt8) (object : Text) (i : Nat) (s : Nat × Text) :
    toHexLoop delimiter object (i + 1) s =
      ((object.flatMap fun byte => mark delimiter ++ digits byte).foldlM
        (fun s c => put c s) s).map Prod.snd := by
  induction object generalizing i s with
  | nil => rfl
  | cons byte object ih =>
    have hmark : (if delimiter ≠ 0 ∧ 0 < i + 1 then put delimiter s else some s) =
        (mark delimiter).foldlM (fun s c => put c s) s := by
      by_cases hd : delimiter = 0 <;> simp [mark, hd]
    rw [List.flatMap_cons, List.foldlM_append, List.foldlM_append, toHexLoop, hmark]
    simp only [foldlM_digits, ih, Option.bind_eq_bind, Option.map_bind, Option.bind_assoc,
      Function.comp_def]

theorem toHexLoop_eq (delimiter : UInt8) (object : Text) (s : Nat × Text) :
    toHexLoop delimiter object 0 s =
      ((hexText delimiter object).foldlM (fun s c => put c s) s).map Prod.snd := by
  cases object with
  | nil => rfl
  | cons byte object =>
    rw [hexText, List.foldlM_append, toHexLoop, if_neg (fun h => absurd h.2 (Nat.lt_irrefl 0))]
    simp only [foldlM_digits, toHexLoop_succ, Option.bind_eq_bind, Option.map_bind,
      Option.bind_assoc, Option.bind_some, Function.comp_def]

/-- `ToHexString` gives the text, if there is room for it in the length that it computes. -/
theorem toHexString_eq (object : Text) (delimiter : UInt8) :
    toHexString object [] delimiter =
      let text := hexText delimiter (object.take (u32 object.length))
      let size := resultSize 0 (u32 object.length) delimiter
      if text.length ≤ size then some (text ++ List.replicate (size - text.length) 0)
      else none := by
  have hsize : resultSize 0 (u32 object.length) delimiter < 2 ^ 32 := Nat.mod_lt _ (by decide)
  generalize htext : hexText delimiter (object.take (u32 object.length)) = text
  have hresize (size : Nat) : resize [] size = List.replicate size 0 := by simp [resize]
  simp only [toHexString, toHexLoop_eq, htext, hresize, List.length_nil, show u32 0 = 0 from rfl]
  rw [foldlM_put _ _ _ (Nat.zero_le _) (by rwa [List.length_replicate])]
  simp only [Nat.zero_add, List.length_replicate, List.take_zero, List.nil_append,
    List.drop_replicate]
  split_ifs <;> rfl

theorem length_toHexString (h : toHexString object [] delimiter = some text) :
    text.length = resultSize 0 (u32 object.length) delimiter := by
  rw [toHexString_eq] at h
  obtain ⟨hle, htext⟩ := Option.ite_none_right_eq_some.mp h
  rw [← Option.some.inj htext, List.length_append, List.length_replicate]
  omega

/-! ### Reading -/

theorem cased_hexChar {n : Nat} (hn : n < 16) {c : UInt8}
    (h : Cased (hexChar (UInt8.ofNat n)) c) :
    fromHexDigits c = UInt8.ofNat n ∧ isxdigit c = true := by
  have hread : ∀ m < 16, fromHexDigits (hexChar (UInt8.ofNat m)) = UInt8.ofNat m ∧
      isxdigit (hexChar (UInt8.ofNat m)) = true ∧ (0x61 ≤ hexChar (UInt8.ofNat m) →
        fromHexDigits (hexChar (UInt8.ofNat m) - 0x20) = UInt8.ofNat m ∧
        isxdigit (hexChar (UInt8.ofNat m) - 0x20) = true) := by decide
  obtain ⟨hvalue, hdigit, hupper⟩ := hread n hn
  obtain rfl | ⟨hlow, -, rfl⟩ := h
  · exact ⟨hvalue, hdigit⟩
  · exact hupper hlow

/-- The two digits of a byte give it back. -/
theorem cased_digits (hhigh : Cased (hexChar (byte >>> 4)) high)
    (hlow : Cased (hexChar (byte &&& 0xF)) low) :
    (fromHexDigits high <<< 4) + fromHexDigits low = byte ∧ isxdigit low = true := by
  have hparts : byte >>> 4 = UInt8.ofNat (byte.toNat / 16) ∧
      byte &&& 0xF = UInt8.ofNat (byte.toNat % 16) ∧
      (UInt8.ofNat (byte.toNat / 16) <<< 4) + UInt8.ofNat (byte.toNat % 16) = byte :=
    forall_byte (P := fun byte => byte >>> 4 = UInt8.ofNat (byte.toNat / 16) ∧
      byte &&& 0xF = UInt8.ofNat (byte.toNat % 16) ∧
      (UInt8.ofNat (byte.toNat / 16) <<< 4) + UInt8.ofNat (byte.toNat % 16) = byte)
      (by decide +kernel) byte
  obtain ⟨hhi, hlo, hbyte⟩ := hparts
  have hlt : byte.toNat < 256 := byte.toNat_lt
  rw [hhi] at hhigh
  rw [hlo] at hlow
  obtain ⟨hhighval, -⟩ := cased_hexChar (by omega) hhigh
  obtain ⟨hlowval, hdigit⟩ := cased_hexChar (Nat.mod_lt _ (by decide)) hlow
  exact ⟨by rw [hhighval, hlowval, hbyte], hdigit⟩

theorem cased_delimiter (hdelimiter : isxdigit delimiter = false) {c : UInt8}
    (h : Cased delimiter c) : c = delimiter := by
  obtain rfl | ⟨hlow, hhigh, -⟩ := h
  · rfl
  · simp [isxdigit, hlow, hhigh] at hdelimiter

theorem charAt_append {k : Nat} (before rest : Text) (hk : k ≤ rest.length) :
    charAt (before ++ rest) (before.length + k) = some (rest.getD k 0) := by
  rw [charAt, List.length_append, if_pos (Nat.add_le_add_left hk _), List.getD_eq_getElem?_getD,
    List.getElem?_append_right (Nat.le_add_right _ _), Nat.add_sub_cancel_left,
    ← List.getD_eq_getElem?_getD]

/-- One turn reads the two digits of a byte, and the delimiter behind them if there is more. -/
theorem fromHexByte_eq (hdelimiter : isxdigit delimiter = false)
    (hhigh : Cased (hexChar (byte >>> 4)) high) (hlow : Cased (hexChar (byte &&& 0xF)) low)
    (hrest : rest = [] ∨ delimiter = 0 ∨ rest.head? = some delimiter)
    (hlt : (before ++ high :: low :: rest).length < 2 ^ 32) :
    fromHexByte (before ++ high :: low :: rest) delimiter before.length =
      some (byte, before.length + 2 + if rest = [] then 0 else (mark delimiter).length) := by
  obtain ⟨hbyte, hdigit⟩ := cased_digits hhigh hlow
  have hne : low ≠ delimiter := by
    rintro rfl
    rw [hdigit] at hdelimiter
    cases hdelimiter
  simp only [List.length_append, List.length_cons] at hlt
  have hfirst := charAt_append (k := 0) before (high :: low :: rest) (Nat.zero_le _)
  have hsecond := charAt_append (k := 1) before (high :: low :: rest) (by simp)
  have hthird := charAt_append (k := 2) before (high :: low :: rest) (by simp)
  simp only [Nat.add_zero] at hfirst
  rw [fromHexByte, hfirst, u32_of_lt (show before.length + 1 < 2 ^ 32 by omega), hsecond,
    u32_of_lt (show before.length + 2 < 2 ^ 32 by omega), hthird]
  simp only [List.getD_cons_zero, List.getD_cons_succ, Option.bind_eq_bind, Option.bind_some, hbyte,
    if_neg hne]
  by_cases hzero : delimiter = 0
  · simp [hzero, mark]
  · rw [if_neg hzero, mark, if_neg hzero]
    obtain rfl | hhead := hrest.imp_right (Or.resolve_left · hzero)
    · rw [if_neg (by simpa using Ne.symm hzero), u32_of_lt (by omega), if_pos rfl]
    · obtain ⟨more, rfl⟩ := List.head?_eq_some_iff.mp hhead
      rw [List.length_cons] at hlt
      rw [if_pos (by simp), u32_of_lt (by omega), if_neg nofun]
      rfl

theorem fromHexLoop_end {strIndex : Nat} (h : hexString.length ≤ strIndex) (delimiter : UInt8)
    (room : Nat) : fromHexLoop hexString delimiter room strIndex = some [] := by
  cases room with
  | zero => rfl
  | succ room => rw [fromHexLoop, if_neg (Nat.not_lt_of_le h)]

/-- The text of bytes in either case: their delimiter is as it was. -/
theorem cased_mark (hdelimiter : isxdigit delimiter = false)
    (h : List.Forall₂ Cased (mark delimiter ++ text) rest) :
    ∃ more, rest = mark delimiter ++ more ∧ List.Forall₂ Cased text more := by
  unfold mark at h ⊢
  split_ifs at h ⊢ with hzero
  · exact ⟨rest, rfl, h⟩
  · obtain ⟨c, more, hc, hmore, rfl⟩ := List.forall₂_cons_left_iff.mp h
    exact ⟨more, by rw [cased_delimiter hdelimiter hc]; rfl, hmore⟩

/-- From the text of some bytes on, the loop reads these. -/
theorem fromHexLoop_eq (hdelimiter : isxdigit delimiter = false) (before object : Text)
    (h : List.Forall₂ Cased (hexText delimiter object) rest)
    (hlt : (before ++ rest).length < 2 ^ 32) (room : Nat) :
    fromHexLoop (before ++ rest) delimiter room before.length = some (object.take room) := by
  induction object generalizing before rest room with
  | nil =>
    obtain rfl := List.forall₂_nil_left_iff.mp h
    rw [fromHexLoop_end (by simp), List.take_nil]
  | cons byte object ih =>
    cases room with
    | zero => rfl
    | succ room =>
      cases object with
      | nil =>
        obtain ⟨high, tail, hhigh, htail, rfl⟩ := List.forall₂_cons_left_iff.mp h
        obtain ⟨low, tail, hlow, hend, rfl⟩ := List.forall₂_cons_left_iff.mp htail
        obtain rfl := List.forall₂_nil_left_iff.mp hend
        rw [fromHexLoop, if_pos (by simp), fromHexByte_eq hdelimiter hhigh hlow (.inl rfl) hlt]
        simp [fromHexLoop_end]
      | cons byte' object =>
        rw [hexText_cons_cons] at h
        obtain ⟨high, tail, hhigh, htail, rfl⟩ := List.forall₂_cons_left_iff.mp h
        obtain ⟨low, tail, hlow, hmark, rfl⟩ := List.forall₂_cons_left_iff.mp htail
        obtain ⟨more, rfl, hmore⟩ := cased_mark hdelimiter hmark
        have hhead : mark delimiter ++ more = [] ∨ delimiter = 0 ∨
            (mark delimiter ++ more).head? = some delimiter := by
          by_cases hzero : delimiter = 0
          · exact .inr (.inl hzero)
          · exact .inr (.inr (by simp [mark, hzero]))
        have hne : mark delimiter ++ more ≠ [] := by
          intro hnil
          rw [(List.append_eq_nil_iff.mp hnil).2] at hmore
          cases hmore
        rw [fromHexLoop, if_pos (by simp), fromHexByte_eq hdelimiter hhigh hlow hhead hlt,
          if_neg hne]
        have hnext := ih (before ++ high :: low :: mark delimiter) hmore
          (by simpa [Nat.add_assoc] using hlt) room
        simp only [List.append_assoc, List.cons_append, List.length_append, List.length_cons,
          ← Nat.add_assoc] at hnext
        simp only [Option.bind_eq_bind, Option.bind_some, List.take_succ_cons]
        rw [show before.length + 2 + (mark delimiter).length =
          before.length + (mark delimiter).length + 1 + 1 by omega, hnext]
        rfl

theorem fromHexString_eq (hdelimiter : isxdigit delimiter = false) (object : Text)
    (h : List.Forall₂ Cased (hexText delimiter object) hexString)
    (hlt : (hexText delimiter object).length < 2 ^ 32) (maxLength : Nat) :
    fromHexString hexString maxLength delimiter = some (object.take maxLength) := by
  have hlen := h.length_eq
  have heven : ¬ (delimiter = 0 ∧ hexString.length % 2 = 1) := by
    rintro ⟨hzero, hodd⟩
    rw [← hlen, length_hexText, if_pos hzero] at hodd
    omega
  rw [fromHexString, if_neg heven]
  exact fromHexLoop_eq hdelimiter [] object h (by rwa [List.nil_append, ← hlen]) maxLength

theorem fromHexVector_eq (hdelimiter : isxdigit delimiter = false) (object : Text)
    (h : List.Forall₂ Cased (hexText delimiter object) hexString)
    (hlt : (hexText delimiter object).length < 2 ^ 32) (maxLength : Nat) :
    fromHexVector hexString maxLength delimiter = some (object.take maxLength) := by
  have hsize : u32 (if delimiter = 0 then hexString.length / 2 else (hexString.length + 1) / 3) =
      object.length := by
    rw [length_hexText] at hlt
    rw [← h.length_eq, length_hexText]
    split_ifs at hlt ⊢ <;> rw [u32_of_lt (by omega)] <;> omega
  simp only [fromHexVector, hsize]
  rw [fromHexString_eq hdelimiter object h hlt, ← List.take_take, List.take_of_length_le]
  exact List.length_take_le' _ _

/-- No more bytes are stored than there is room for. -/
theorem length_fromHexLoop_le {strIndex : Nat}
    (h : fromHexLoop hexString delimiter room strIndex = some object) : object.length ≤ room := by
  induction room generalizing strIndex object with
  | zero =>
    obtain rfl := Option.some.inj h
    exact Nat.le_refl 0
  | succ room ih =>
    rw [fromHexLoop] at h
    split_ifs at h
    · simp only [Option.bind_eq_bind, Option.bind_eq_some_iff] at h
      obtain ⟨⟨byte, next⟩, -, rest, hrest, hobject⟩ := h
      obtain rfl := Option.some.inj hobject
      exact Nat.succ_le_succ (ih hrest)
    · obtain rfl := Option.some.inj h
      exact Nat.zero_le _

theorem length_fromHexString_le {maxLength : Nat}
    (h : fromHexString hexString maxLength delimiter = some object) :
    object.length ≤ maxLength := by
  rw [fromHexString] at h
  split_ifs at h with hodd hzero
  · simp only [Option.bind_eq_bind, Option.bind_eq_some_iff] at h
    obtain ⟨first, -, rest, hrest, hobject⟩ := h
    obtain rfl := Option.some.inj hobject
    have hle := length_fromHexLoop_le hrest
    rw [List.length_cons]
    omega
  · exact length_fromHexLoop_le h

/-- Something is read from every text. -/
theorem fromHexString_one (hne : hexString ≠ []) :
    fromHexString hexString 1 delimiter ≠ some [] := by
  intro h
  rw [fromHexString] at h
  split_ifs at h with hodd
  · simp [Option.bind_eq_some_iff] at h
  · rw [fromHexLoop, if_pos (List.length_pos_of_ne_nil hne)] at h
    simp [Option.bind_eq_some_iff] at h

/-! ### There and back -/

theorem forall₂_cased_refl (text : Text) : List.Forall₂ Cased text text :=
  List.forall₂_same.mpr fun _ _ => .inl rfl

/-- The length that is computed is that of the text. -/
theorem roundTrips_of_size (hdelimiter : isxdigit delimiter = false)
    (hsize : resultSize 0 object.length delimiter = (hexText delimiter object).length)
    (hlt : object.length < 2 ^ 32) : RoundTrips object delimiter := by
  have htext : (hexText delimiter object).length < 2 ^ 32 := hsize ▸ Nat.mod_lt _ (by decide)
  refine ⟨hexText delimiter object, ?_, fun hexString hcased maxLength _ _ =>
    ⟨fromHexString_eq hdelimiter object hcased htext maxLength,
      fromHexVector_eq hdelimiter object hcased htext maxLength⟩⟩
  rw [toHexString_eq]
  simp only [u32_of_lt hlt, List.take_length, hsize, le_refl, if_true, Nat.sub_self,
    List.replicate_zero, List.append_nil]

/-- More bytes than a `uint32_t` counts do not come back. -/
theorem RoundTrips.length_lt (h : RoundTrips object delimiter) : object.length < 2 ^ 32 := by
  obtain ⟨text, htext, hback⟩ := h
  by_contra hlong
  obtain ⟨-, hvector⟩ := hback text (forall₂_cased_refl text) (2 ^ 32 - 1) (by decide) (by decide)
  have hle := length_fromHexString_le hvector
  have hsize : u32 (if delimiter = 0 then text.length / 2 else (text.length + 1) / 3) <
      2 ^ 32 - 1 := by
    have hlen : text.length < 2 ^ 32 := length_toHexString htext ▸ Nat.mod_lt _ (by decide)
    split_ifs <;> rw [u32_of_lt (by omega)] <;> omega
  rw [List.length_take] at hle
  omega

theorem RoundTrips.length_le (h : RoundTrips object delimiter) :
    (hexText delimiter object).length ≤ resultSize 0 object.length delimiter := by
  have hlt := h.length_lt
  obtain ⟨text, htext, -⟩ := h
  rw [toHexString_eq, u32_of_lt hlt, List.take_length] at htext
  exact (Option.ite_none_right_eq_some.mp htext).1

theorem not_roundTrips_nil (hzero : delimiter ≠ 0) : ¬ RoundTrips [] delimiter := by
  rintro ⟨text, htext, hback⟩
  obtain ⟨harray, -⟩ := hback text (forall₂_cased_refl text) 1 (by decide) (by decide)
  have hsize : resultSize 0 (u32 0) delimiter = 2 ^ 32 - 1 := by
    rw [resultSize, if_neg hzero]
    rfl
  refine fromHexString_one ?_ harray
  rintro rfl
  have hlen := length_toHexString htext
  exact absurd (hlen.trans hsize) (by decide)

/-- The bytes come back exactly if the length of their text is a `uint32_t`, and is not that of no
bytes with delimiters between them. -/
theorem hexString_roundTrips_iff (object : Text) (hdelimiter : isxdigit delimiter = false) :
    RoundTrips object delimiter ↔ delimiter = 0 ∧ 2 * object.length < 2 ^ 32 ∨
      delimiter ≠ 0 ∧ 0 < object.length ∧ 3 * object.length - 1 < 2 ^ 32 := by
  constructor
  · intro h
    have hlt := h.length_lt
    have hle := h.length_le
    rw [length_hexText, resultSize, u32] at hle
    by_cases hzero : delimiter = 0
    · rw [if_pos hzero, if_pos hzero] at hle
      exact .inl ⟨hzero, by omega⟩
    · rw [if_neg hzero, if_neg hzero] at hle
      have hpos : 0 < object.length := by
        apply List.length_pos_of_ne_nil
        rintro rfl
        exact not_roundTrips_nil hzero h
      exact .inr ⟨hzero, hpos, by omega⟩
  · intro h
    apply roundTrips_of_size hdelimiter
    · rw [length_hexText, resultSize]
      obtain ⟨hzero, hfit⟩ | ⟨hzero, hpos, hfit⟩ := h
      · rw [if_pos hzero, if_pos hzero, u32_of_lt (by omega)]
        omega
      · rw [if_neg hzero, if_neg hzero, u32]
        omega
    · omega

/-- Two bytes with a colon between them. -/
theorem hexString_roundTrips_two : RoundTrips [0xB1, 0x32] 0x3A :=
  (hexString_roundTrips_iff [0xB1, 0x32] (by decide)).mpr (by decide)

/-- No bytes, with a colon between them. -/
theorem not_hexString_roundTrips :
    ¬ ∀ object delimiter, isxdigit delimiter = false → RoundTrips object delimiter :=
  fun h => not_roundTrips_nil (by decide) (h [] 0x3A (by decide))

end Thunder.Core.HexString
