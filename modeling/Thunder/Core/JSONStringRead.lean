import Thunder.Core.JSONString

/-! What `String::Deserialize` reads between quotes: the items of a string literal, one after
another, through chunks of any size.  Two `\u` escapes are one character when the first one is a
high surrogate, whatever stands between them. -/

namespace Thunder.Core.JSON.String

open Unicode

/-! ### Bytes that are taken -/

theorem turns_of_taken {s : String} {error : Option Error} {current : UInt8}
    (h : (s.turn error current).taken = true) (count : Nat) :
    turns current count s error = s.turn error current := by
  cases count with
  | zero => rfl
  | succ count =>
    rw [turns]
    simp [h]

/-- `s` takes bytes, each of which adds to the value what stands beside it, and becomes `t`. -/
inductive Takes : String → List (UInt8 × Text) → String → Prop
  | nil (s : String) : Takes s [] s
  | cons {s s' t : String} {b : UInt8} {added : Text} {l : List (UInt8 × Text)} :
      (∀ error, s.turn error b = ⟨s', error, true, false⟩) → s'.value = s.value ++ added →
      Takes s' l t → Takes s ((b, added) :: l) t

/-- What bytes add to the value. -/
def added (l : List (UInt8 × Text)) : Text := l.flatMap Prod.snd

def taken (l : List (UInt8 × Text)) : Text := l.map Prod.fst

@[simp] theorem added_nil : added [] = [] := rfl

@[simp] theorem added_cons (b : UInt8) (bytes : Text) (l : List (UInt8 × Text)) :
    added ((b, bytes) :: l) = bytes ++ added l := rfl

@[simp] theorem added_append (l l' : List (UInt8 × Text)) : added (l ++ l') = added l ++ added l' :=
  List.flatMap_append

@[simp] theorem taken_append (l l' : List (UInt8 × Text)) : taken (l ++ l') = taken l ++ taken l' :=
  List.map_append

@[simp] theorem length_taken (l : List (UInt8 × Text)) : (taken l).length = l.length :=
  List.length_map ..

section Takes

variable {s t u : String} {l l' : List (UInt8 × Text)}

theorem Takes.append (h : Takes s l t) (h' : Takes t l' u) : Takes s (l ++ l') u := by
  induction h with
  | nil => exact h'
  | cons hturn hvalue _ ih => exact Takes.cons hturn hvalue (ih h')

theorem Takes.value (h : Takes s l t) : t.value = s.value ++ added l := by
  induction h with
  | nil => simp
  | cons _ hvalue _ ih => rw [ih, hvalue, added_cons, List.append_assoc]

theorem turn_set (s : String) (error : Option Error) (current : UInt8) :
    (s.turn error current).string.set = s.set := by
  have hin {square : Bool} {t : String} (h : s.inScope square = some t) : t.set = s.set := by
    unfold inScope at h
    dsimp only at h
    split at h
    · exact Option.some.inj h ▸ rfl
    · exact absurd h (by simp)
  have hout {square : Bool} {t : String} (h : s.outScope square = some t) : t.set = s.set := by
    unfold outScope at h
    split at h
    · exact Option.some.inj h ▸ rfl
    · exact absurd h (by simp)
  have hscope : (s.scope error current).1.set = s.set := by
    unfold scope
    repeat' split
    all_goals first | rfl | exact hin ‹_› | exact hout ‹_›
  have hdecode (s : String) : (s.decodeStorage error).1.set = s.set := by
    unfold decodeStorage
    dsimp only
    repeat' split
    all_goals rfl
  unfold turn opaqueTurn quotedTurn
  dsimp only
  repeat' split
  all_goals first | rfl | exact hscope | exact hdecode _

theorem Takes.set (h : Takes s l t) : t.set = s.set := by
  induction h with
  | nil => rfl
  | @cons s s' t b bytes l hturn _ _ ih =>
    have hb := turn_set s none b
    rw [hturn] at hb
    exact ih.trans hb

theorem Takes.split (h : Takes s l t) (n : Nat) :
    ∃ m, Takes s (l.take n) m ∧ Takes m (l.drop n) t := by
  induction h generalizing n with
  | nil s => exact ⟨s, by simpa using Takes.nil s, by simpa using Takes.nil s⟩
  | @cons s s' t b bytes l hturn hvalue hrest ih =>
    cases n with
    | zero => exact ⟨s, Takes.nil s, Takes.cons hturn hvalue hrest⟩
    | succ n =>
      obtain ⟨m, hm, hrest'⟩ := ih n
      exact ⟨m, Takes.cons hturn hvalue hm, hrest'⟩

/-- The loop comes behind bytes that are taken. -/
theorem Takes.loop (h : Takes s l t) (rest : Text) (error : Option Error) :
    deserializeLoop (taken l ++ rest) s error =
      { deserializeLoop rest t error with
        result := (deserializeLoop rest t error).result + l.length } := by
  induction h with
  | nil => rfl
  | @cons s s' t b bytes l hturn hvalue hrest ih =>
    have hturns : turns b s.counter s error = ⟨s', error, true, false⟩ := by
      rw [turns_of_taken (by rw [hturn]), hturn]
    rw [show taken ((b, bytes) :: l) ++ rest = b :: (taken l ++ rest) from rfl, deserializeLoop,
      hturns]
    simp only [Bool.false_eq_true, if_false, ih, List.length_cons, Nat.add_assoc]

end Takes

section Turns

variable {s : String} {error : Option Error} {current : UInt8}

theorem takes_one {t : String} {bytes : Text}
    (h : ∀ error, s.turn error current = ⟨t, error, true, false⟩) (hvalue : t.value = s.value ++ bytes) :
    Takes s [(current, bytes)] t := Takes.cons h hvalue (Takes.nil t)

theorem quotedTurn_copy (h : s.special = false) (hback : current ≠ 0x5C) (hquote : current ≠ 0x22)
    (hcontrol : 0x20 ≤ current) :
    s.quotedTurn error current = ⟨{ s with value := s.value ++ [current] }, error, true, false⟩ := by
  have hnot : ¬current ≤ 0x1F := by
    rw [UInt8.not_le]
    exact UInt8.lt_of_lt_of_le (by decide) hcontrol
  unfold quotedTurn
  rw [if_pos h, if_neg hback, if_neg hquote, if_neg hnot]

theorem quotedTurn_backslash (h : s.special = false) :
    s.quotedTurn error 0x5C = ⟨{ s with special := true }, error, true, false⟩ := by
  unfold quotedTurn
  rw [if_pos h, if_pos rfl]

theorem quotedTurn_quote (h : s.special = false) :
    s.quotedTurn error 0x22 = ⟨s, error, true, true⟩ := by
  unfold quotedTurn
  rw [if_pos h, if_neg (by decide), if_pos rfl]

theorem quotedTurn_letter (h : s.special = true) (hcounter : s.counter = 0) {c : UInt8}
    (hc : unescape current = some c) :
    s.quotedTurn error current =
      ⟨{ s with value := s.value ++ [c], special := false }, error, true, false⟩ := by
  have hu : current ≠ 0x75 := by
    rintro rfl
    have : unescape 0x75 = none := by decide
    rw [this] at hc
    exact absurd hc (by simp)
  unfold quotedTurn
  rw [if_neg (by simp [h]), if_pos (by simp [hcounter]), if_neg hu, hc]

theorem quotedTurn_unknown (h : s.special = true) (hcounter : s.counter = 0)
    (hu : current ≠ 0x75) (hc : unescape current = none) :
    s.quotedTurn error current =
      ⟨{ s with special := false }, some "unknown escaping code.", true, false⟩ := by
  unfold quotedTurn
  rw [if_neg (by simp [h]), if_pos (by simp [hcounter]), if_neg hu, hc]

theorem quotedTurn_u (h : s.special = true) (hcounter : s.counter = 0) :
    s.quotedTurn error 0x75 = ⟨{ s with counter := 4 }, error, true, false⟩ := by
  unfold quotedTurn
  rw [if_neg (by simp [h]), if_pos (by simp [hcounter]), if_pos rfl, hcounter, Nat.zero_or]

theorem mask_small {n : Nat} (h : n < 5) : n &&& 0xFF = n := by
  have : ∀ n < 5, n &&& 0xFF = n := by decide
  exact this n h

/-- A digit, but for the last one of four. -/
theorem quotedTurn_digit (h : s.special = true) {counter : Nat} (hcounter : s.counter = counter + 1)
    (hpos : 0 < counter) (hlt : counter < 4) (hd : isxdigit current = true) :
    s.quotedTurn error current =
      ⟨{ s with counter := counter, storage := u32 (s.storage <<< 4) ||| (hexValue current &&& 0xF) },
        error, true, false⟩ := by
  unfold quotedTurn
  rw [if_neg (by simp [h]), if_neg (by rw [hcounter, mask_small (by omega)]; omega)]
  dsimp only
  rw [if_neg (by simp [hd]), if_neg (by
    rw [hcounter, Nat.add_sub_cancel, mask_small (by omega)]; omega), hcounter, Nat.add_sub_cancel]

theorem quotedTurn_last (h : s.special = true) (hcounter : s.counter = 1)
    (hd : isxdigit current = true) :
    s.quotedTurn error current =
      let decoded := decodeStorage
        { s with
          counter := 0
          special := false
          storage := u32 (s.storage <<< 4) ||| (hexValue current &&& 0xF) } error
      ⟨decoded.1, decoded.2, true, false⟩ := by
  unfold quotedTurn
  rw [if_neg (by simp [h]), if_neg (by rw [hcounter]; decide)]
  dsimp only
  rw [if_neg (by simp [hd]), if_pos (by rw [hcounter]; rfl), hcounter]

/-- A byte that is no digit is not taken. -/
theorem quotedTurn_noDigit (h : s.special = true) {counter : Nat} (hcounter : s.counter = counter + 1)
    (hlt : counter < 4) (hd : isxdigit current = false) :
    s.quotedTurn error current =
      ⟨{ s with counter := counter },
        some "the unescaping of the u requires hexadecimal characters", false, false⟩ := by
  unfold quotedTurn
  rw [if_neg (by simp [h]), if_neg (by rw [hcounter, mask_small (by omega)]; omega)]
  dsimp only
  rw [if_pos hd, hcounter, Nat.add_sub_cancel]

end Turns

/-! ### Items of a literal -/

/-- A character as it is, a backslash and a letter, or a backslash, a `u` and four digits. -/
inductive Item
  | raw (c : Char) (h : 0x20 ≤ c.toNat ∧ c.toNat ≠ 0x22 ∧ c.toNat ≠ 0x5C)
  | short (letter c : UInt8) (h : unescape letter = some c)
  | unicode (digits : Fin 4 → UInt8) (hex : ∀ i, isxdigit (digits i) = true)

/-- The number that four digits stand for. -/
def unitValue (digits : Fin 4 → UInt8) : Nat :=
  ((hexValue (digits 0) * 16 + hexValue (digits 1)) * 16 + hexValue (digits 2)) * 16 +
    hexValue (digits 3)

/-- What a unit adds to the value behind the high surrogate `storage`, or behind none (0), and the
high surrogate that waits after it. -/
def unitAdds (storage unit : Nat) : Text × Nat :=
  if storage = 0 ∧ unit / 0x400 = 0x36 then ([], unit)
  else (fromCodePoint (utf16ToCodePoint unit storage).1, 0)

theorem unitAdds_lt (storage : Nat) {unit : Nat} (h : unit < 0x10000) :
    (unitAdds storage unit).2 < 0x10000 := by
  unfold unitAdds
  split
  · exact h
  · exact Nat.zero_lt_succ _

/-- The bytes of an item, each with what it adds to the value, and the high surrogate that waits
behind the item. -/
def Item.trace (storage : Nat) : Item → List (UInt8 × Text) × Nat
  | .raw c _ => ((String.utf8EncodeChar c).map fun b => (b, [b]), storage)
  | .short letter c _ => ([(0x5C, []), (letter, [c])], storage)
  | .unicode digits _ =>
    ([(0x5C, []), (0x75, []), (digits 0, []), (digits 1, []), (digits 2, []),
      (digits 3, (unitAdds storage (unitValue digits)).1)], (unitAdds storage (unitValue digits)).2)

def trace : List Item → Nat → List (UInt8 × Text)
  | [], _ => []
  | item :: items, storage => (item.trace storage).1 ++ trace items (item.trace storage).2

/-- A String inside a literal. -/
def reading (s : String) (value : Text) (special : Bool) (counter storage : Nat) : String :=
  { s with value := value, special := special, counter := counter, storage := storage }

theorem hexValue_lt {d : UInt8} (h : isxdigit d = true) : hexValue d < 16 := by
  rw [isxdigit_iff] at h
  simp only [hexValue, isdigit_iff, UInt8.le_iff_toNat_le, UInt8.reduceToNat]
  split_ifs <;> omega

theorem storage_digit {storage : Nat} (h : storage < 2 ^ 28) {d : UInt8} (hd : isxdigit d = true) :
    u32 (storage <<< 4) ||| (hexValue d &&& 0xF) = storage * 16 + hexValue d := by
  have hlow : hexValue d &&& 0xF = hexValue d :=
    (Nat.and_two_pow_sub_one_eq_mod _ 4).trans (Nat.mod_eq_of_lt (hexValue_lt hd))
  have hshift : storage <<< 4 = storage * 16 := Nat.shiftLeft_eq storage 4
  rw [hlow, u32_of_lt (by omega), ← Nat.shiftLeft_add_eq_or_of_lt (hexValue_lt hd), hshift]

theorem unitValue_lt {digits : Fin 4 → UInt8} (hex : ∀ i, isxdigit (digits i) = true) :
    unitValue digits < 0x10000 := by
  have h0 := hexValue_lt (hex 0)
  have h1 := hexValue_lt (hex 1)
  have h2 := hexValue_lt (hex 2)
  have h3 := hexValue_lt (hex 3)
  unfold unitValue
  omega

theorem fromCodePoint_ne_nil (codePoint : Nat) : fromCodePoint codePoint ≠ [] := by
  unfold fromCodePoint
  dsimp only
  split <;> exact List.cons_ne_nil _ _

theorem decodeStorage_eq {s : String} {storage unit : Nat} (hstorage : storage < 0x10000)
    (hunit : unit < 0x10000) (h : s.storage = storage * 0x10000 + unit) (error : Option Error) :
    s.decodeStorage error =
      ({ s with
        value := s.value ++ (unitAdds storage unit).1
        storage := (unitAdds storage unit).2 }, error) := by
  have hlow : s.storage &&& 0xFFFF = unit := by
    refine (Nat.and_two_pow_sub_one_eq_mod _ 16).trans ?_
    omega
  have hhigh : s.storage >>> 16 &&& 0xFFFF = storage := by
    refine (Nat.and_two_pow_sub_one_eq_mod _ 16).trans ?_
    rw [Nat.shiftRight_eq_div_pow]
    omega
  unfold decodeStorage unitAdds
  by_cases hwait : storage = 0 ∧ unit / 0x400 = 0x36
  · obtain ⟨rfl, hsurrogate⟩ := hwait
    have hmask : s.storage &&& 0xFC00 = 0xD800 := by
      rw [and_FC00 (by omega)]
      omega
    rw [if_neg (by rw [hmask]; omega), if_pos ⟨rfl, hsurrogate⟩, List.append_nil]
    have : s.storage = unit := by omega
    rw [← this]
  · have hdecode : 0xFFFF ≤ s.storage ∨ s.storage &&& 0xFC00 ≠ 0xD800 := by
      by_cases hlarge : 0xFFFF ≤ s.storage
      · exact Or.inl hlarge
      · rw [and_FC00 (by omega)]
        omega
    rw [if_pos hdecode, if_neg hwait, hlow, hhigh]
    dsimp only
    rw [if_neg (fromCodePoint_ne_nil _)]

/-- The bytes of a character that stands for itself. -/
theorem raw_bytes {c : Char} (h : 0x20 ≤ c.toNat ∧ c.toNat ≠ 0x22 ∧ c.toNat ≠ 0x5C) :
    ∀ b ∈ String.utf8EncodeChar c, 0x20 ≤ b ∧ b ≠ 0x22 ∧ b ≠ 0x5C := by
  have hbyte (n : Nat) (hn : n < 256) (h0 : 0x20 ≤ n) (h1 : n ≠ 0x22) (h2 : n ≠ 0x5C) :
      0x20 ≤ UInt8.ofNat n ∧ UInt8.ofNat n ≠ 0x22 ∧ UInt8.ofNat n ≠ 0x5C := by
    simp only [UInt8.le_iff_toNat_le, ← UInt8.toNat_inj, UInt8.reduceToNat, UInt8.toNat_ofNat',
      Nat.mod_eq_of_lt hn, ne_eq]
    exact ⟨h0, h1, h2⟩
  intro b hb
  obtain ⟨_, he⟩ | ⟨_, _, he⟩ | ⟨_, _, he⟩ | ⟨_, _, he⟩ := utf8EncodeChar_cases c
  · obtain rfl : b = UInt8.ofNat c.toNat := by simpa [he] using hb
    exact hbyte _ (by omega) h.1 h.2.1 h.2.2
  all_goals
    rw [he] at hb
    simp only [List.mem_cons, List.not_mem_nil, or_false] at hb
    obtain rfl | rfl | rfl | rfl := hb <;>
      exact hbyte _ (by omega) (by omega) (by omega) (by omega)

section Items

variable {s : String} (hs : s.quoteFound = true)
include hs

theorem turn_quoted (value : Text) (special : Bool) (counter storage : Nat) (error : Option Error)
    (current : UInt8) : (reading s value special counter storage).turn error current =
      (reading s value special counter storage).quotedTurn error current := by
  unfold turn
  rw [if_neg (by simp [reading, hs])]

variable (value : Text)

theorem takes_raw {b : UInt8} (hb : 0x20 ≤ b) (hquote : b ≠ 0x22) (hback : b ≠ 0x5C)
    (storage : Nat) :
    Takes (reading s value false 0 storage) [(b, [b])] (reading s (value ++ [b]) false 0 storage) := by
  apply takes_one _ rfl
  intro error
  rw [turn_quoted hs]
  exact quotedTurn_copy rfl hback hquote hb

theorem takes_backslash (storage : Nat) :
    Takes (reading s value false 0 storage) [(0x5C, [])] (reading s value true 0 storage) := by
  apply takes_one _ (List.append_nil value).symm
  intro error
  rw [turn_quoted hs]
  exact quotedTurn_backslash rfl

theorem takes_short {letter c : UInt8} (hc : unescape letter = some c) (storage : Nat) :
    Takes (reading s value false 0 storage) [(0x5C, []), (letter, [c])]
      (reading s (value ++ [c]) false 0 storage) := by
  apply (takes_backslash hs value storage).append
  apply takes_one _ rfl
  intro error
  rw [turn_quoted hs]
  exact quotedTurn_letter rfl rfl hc

theorem takes_u (storage : Nat) :
    Takes (reading s value false 0 storage) [(0x5C, []), (0x75, [])]
      (reading s value true 4 storage) := by
  apply (takes_backslash hs value storage).append
  apply takes_one _ (List.append_nil value).symm
  intro error
  rw [turn_quoted hs, quotedTurn_u rfl rfl]
  rfl

theorem takes_digit {d : UInt8} (hd : isxdigit d = true) (counter : Nat) (hpos : 0 < counter)
    (hlt : counter < 4) {storage : Nat} (hstorage : storage < 2 ^ 28) :
    Takes (reading s value true (counter + 1) storage) [(d, [])]
      (reading s value true counter (storage * 16 + hexValue d)) := by
  apply takes_one _ (List.append_nil value).symm
  intro error
  rw [turn_quoted hs, quotedTurn_digit rfl rfl hpos hlt hd]
  show (⟨reading s value true counter (u32 (storage <<< 4) ||| (hexValue d &&& 0xF)), error, true,
    false⟩ : Turn) = _
  rw [storage_digit hstorage hd]

theorem takes_unicode {digits : Fin 4 → UInt8} (hex : ∀ i, isxdigit (digits i) = true)
    {storage : Nat} (hstorage : storage < 0x10000) :
    Takes (reading s value false 0 storage)
      [(0x5C, []), (0x75, []), (digits 0, []), (digits 1, []), (digits 2, []),
        (digits 3, (unitAdds storage (unitValue digits)).1)]
      (reading s (value ++ (unitAdds storage (unitValue digits)).1) false 0
        (unitAdds storage (unitValue digits)).2) := by
  have h0 := hexValue_lt (hex 0)
  have h1 := hexValue_lt (hex 1)
  have h2 := hexValue_lt (hex 2)
  have h3 := hexValue_lt (hex 3)
  have t0 := takes_digit hs value (hex 0) 3 (by decide) (by decide)
    (by omega : storage < 2 ^ 28)
  have t1 := takes_digit hs value (hex 1) 2 (by decide) (by decide)
    (by omega : storage * 16 + hexValue (digits 0) < 2 ^ 28)
  have t2 := takes_digit hs value (hex 2) 1 (by decide) (by decide)
    (by omega : (storage * 16 + hexValue (digits 0)) * 16 + hexValue (digits 1) < 2 ^ 28)
  refine (takes_u hs value storage).append (t0.append (t1.append (t2.append (takes_one ?_ rfl))))
  intro error
  have hstored : u32 ((((storage * 16 + hexValue (digits 0)) * 16 + hexValue (digits 1)) * 16 +
      hexValue (digits 2)) <<< 4) ||| (hexValue (digits 3) &&& 0xF) =
        storage * 0x10000 + unitValue digits := by
    rw [storage_digit (by omega) (hex 3)]
    unfold unitValue
    omega
  rw [turn_quoted hs, quotedTurn_last rfl rfl (hex 3)]
  dsimp only
  rw [decodeStorage_eq hstorage (unitValue_lt hex) hstored]
  rfl

theorem takes_char {c : Char} (h : 0x20 ≤ c.toNat ∧ c.toNat ≠ 0x22 ∧ c.toNat ≠ 0x5C)
    (storage : Nat) :
    Takes (reading s value false 0 storage) ((String.utf8EncodeChar c).map fun b => (b, [b]))
      (reading s (value ++ String.utf8EncodeChar c) false 0 storage) := by
  have hbytes (bytes : Text) (hb : ∀ b ∈ bytes, 0x20 ≤ b ∧ b ≠ 0x22 ∧ b ≠ 0x5C) (value : Text) :
      Takes (reading s value false 0 storage) (bytes.map fun b => (b, [b]))
        (reading s (value ++ bytes) false 0 storage) := by
    induction bytes generalizing value with
    | nil => simpa using Takes.nil _
    | cons b bytes ih =>
      obtain ⟨h0, h1, h2⟩ := hb b (by simp)
      have hrest := ih (fun b' hb' => hb b' (by simp [hb'])) (value ++ [b])
      rw [List.append_assoc] at hrest
      exact (takes_raw hs value h0 h1 h2 storage).append hrest
  exact hbytes _ (raw_bytes h) value

theorem takes_item (item : Item) {storage : Nat} (hstorage : storage < 0x10000) :
    Takes (reading s value false 0 storage) (item.trace storage).1
      (reading s (value ++ added (item.trace storage).1) false 0 (item.trace storage).2) ∧
      (item.trace storage).2 < 0x10000 := by
  cases item with
  | raw c h =>
    have hadded : added (Item.trace storage (.raw c h)).1 = String.utf8EncodeChar c := by
      simp [Item.trace, added, List.flatMap_map]
    rw [hadded]
    exact ⟨takes_char hs value h storage, hstorage⟩
  | short letter c h => exact ⟨takes_short hs value h storage, hstorage⟩
  | unicode digits hex =>
    have hadded : added (Item.trace storage (.unicode digits hex)).1 =
        (unitAdds storage (unitValue digits)).1 := by simp [Item.trace]
    rw [hadded]
    exact ⟨takes_unicode hs value hex hstorage, unitAdds_lt storage (unitValue_lt hex)⟩

/-- The items of a literal are taken; a high surrogate may wait before and after them. -/
theorem takes_items (items : List Item) {storage : Nat} (hstorage : storage < 0x10000) :
    ∃ storage' < 0x10000, Takes (reading s value false 0 storage) (trace items storage)
      (reading s (value ++ added (trace items storage)) false 0 storage') := by
  induction items generalizing value storage with
  | nil => exact ⟨storage, hstorage, by simpa [trace] using Takes.nil _⟩
  | cons item items ih =>
    obtain ⟨hitem, hlt⟩ := takes_item hs value item hstorage
    obtain ⟨storage', hlt', hrest⟩ := ih (value ++ added (item.trace storage).1) hlt
    refine ⟨storage', hlt', ?_⟩
    rw [trace, added_append, ← List.append_assoc]
    exact hitem.append hrest

end Items

/-! ### Chunks -/

/-- The offset is carried on from chunk to chunk as something other than 0, up to the chunk that
reaches behind the bytes `l`; `held` is the length of the value before them. -/
def Carried : Nat → Nat → List (UInt8 × Text) → List Text → Prop
  | _, _, _, [] => True
  | offset, held, l, chunk :: chunks =>
    l.length < chunk.length ∨
      (u32 (offset + u32 (held + (added (l.take chunk.length)).length)) ≠ 0 ∧
        Carried (u32 (offset + u32 (held + (added (l.take chunk.length)).length)))
          (held + (added (l.take chunk.length)).length) (l.drop chunk.length) chunks)

section Chunks

variable {s t : String} {l : List (UInt8 × Text)} {offset : Nat}

/-- A chunk that ends inside the bytes. -/
theorem deserialize_inside (h : Takes s l t) (hoffset : offset ≠ 0) :
    deserialize s (taken l) offset none =
      ⟨t, l.length, u32 (offset + u32 (s.value.length + (added l).length)), none⟩ := by
  have hloop := h.loop [] none
  rw [List.append_nil] at hloop
  unfold deserialize
  simp only [hoffset, false_and, decide_false, if_false, hloop, deserializeLoop,
    and_self, if_true, h.value, List.length_append, Nat.zero_add]

theorem split_flatten {chunk rest more : Text} (hlen : chunk.length ≤ l.length)
    (h : chunk ++ rest = taken l ++ more) :
    chunk = taken (l.take chunk.length) ∧ rest = taken (l.drop chunk.length) ++ more := by
  have hsplit : taken l = taken (l.take chunk.length) ++ taken (l.drop chunk.length) := by
    rw [← taken_append, List.take_append_drop]
  rw [hsplit, List.append_assoc] at h
  exact List.append_inj h (by simp [hlen])

theorem split_beyond {chunk rest more : Text} {x : UInt8} (hlen : l.length < chunk.length)
    (h : chunk ++ rest = taken l ++ x :: more) : ∃ y, chunk = taken l ++ x :: y := by
  rcases List.append_eq_append_iff.mp h with ⟨a, ha, -⟩ | ⟨c, hc, hx⟩
  · have := congrArg List.length ha
    simp at this
    omega
  · cases c with
    | nil =>
      have := congrArg List.length hc
      simp at this
      omega
    | cons b c =>
      obtain ⟨rfl, -⟩ := List.cons.inj hx
      exact ⟨c, hc⟩

/-- Reading chunks comes to the chunk that reaches behind the bytes, unless the offset carried is 0
before. -/
theorem deserializeFrom_walk (h : Takes s l t) (hoffset : offset ≠ 0) {chunks : List Text}
    {x : UInt8} {rest : Text} (hflat : chunks.flatten = taken l ++ x :: rest) :
    (Carried offset s.value.length l chunks → ∃ y l' s' offset' chunks', Takes s' l' t ∧
      offset' ≠ 0 ∧ l'.length ≤ l.length ∧ IElement.deserializeFrom s offset none chunks =
        (IElement.deserializeFrom s' offset' none ((taken l' ++ x :: y) :: chunks')).after
          (l.length - l'.length)) ∧
    (¬Carried offset s.value.length l chunks →
      (IElement.deserializeFrom s offset none chunks).error = none ∧
        (IElement.deserializeFrom s offset none chunks).loaded ≤ l.length ∧
        (IElement.deserializeFrom s offset none chunks).element.set = s.set) := by
  induction chunks generalizing s l offset with
  | nil => simp at hflat
  | cons chunk chunks ih =>
    rw [List.flatten_cons] at hflat
    by_cases hlen : l.length < chunk.length
    · obtain ⟨y, rfl⟩ := split_beyond hlen hflat
      refine ⟨fun _ => ⟨y, l, s, offset, chunks, h, hoffset, le_rfl, ?_⟩, fun hnot => ?_⟩
      · rw [Nat.sub_self, Loaded.after_zero]
      · exact absurd (Or.inl hlen) hnot
    obtain ⟨hchunk, hrest⟩ := split_flatten (Nat.le_of_not_lt hlen) hflat
    obtain ⟨m, hm, hmore⟩ := h.split chunk.length
    have hheld : s.value.length + (added (l.take chunk.length)).length = m.value.length := by
      rw [hm.value, List.length_append]
    have htake : (l.take chunk.length).length = chunk.length := by
      rw [List.length_take]
      omega
    have hread : IElement.deserialize s chunk offset none =
        ⟨m, chunk.length, u32 (offset + u32 m.value.length), none⟩ := by
      have := deserialize_inside hm hoffset
      rw [← hchunk, htake, hheld] at this
      exact this
    rw [Carried, hheld]
    by_cases hzero : u32 (offset + u32 m.value.length) = 0
    · have hstop : IElement.deserializeFrom s offset none (chunk :: chunks) =
          ⟨m, chunk.length, 0, none⟩ := by
        rw [IElement.deserializeFrom_stop (Or.inl (by rw [hread, hzero])), hread, hzero]
      rw [hstop]
      exact ⟨fun hc => absurd hzero (hc.resolve_left hlen).1,
        fun _ => ⟨rfl, Nat.le_of_not_lt hlen, hm.set⟩⟩
    · have hnext : IElement.deserializeFrom s offset none (chunk :: chunks) =
          (IElement.deserializeFrom m (u32 (offset + u32 m.value.length)) none chunks).after
            chunk.length := by
        rw [IElement.deserializeFrom_next (by rw [hread]; exact hzero) (by rw [hread])
          (by rw [hread]), hread]
      obtain ⟨hcarried, hwrapped⟩ := ih hmore hzero hrest
      rw [hnext]
      refine ⟨fun hc => ?_, fun hnot => ?_⟩
      · obtain ⟨y, l', s', offset', chunks', htakes, hoffset', hle, heq⟩ :=
          hcarried (hc.resolve_left hlen).2
        rw [List.length_drop] at hle heq
        refine ⟨y, l', s', offset', chunks', htakes, hoffset', by omega, ?_⟩
        rw [heq, Loaded.after_after]
        congr 1
        omega
      · obtain ⟨herror, hloaded, hset⟩ := hwrapped fun hc => hnot (Or.inr ⟨hzero, hc⟩)
        rw [List.length_drop] at hloaded
        refine ⟨herror, ?_, hset.trans hm.set⟩
        show chunk.length + _ ≤ l.length
        omega

/-- The chunk with the byte that ends the value. -/
theorem deserialize_finished {u : String} {x : UInt8} {last : Bool} (h : Takes s l t)
    (hturn : t.turn none x = ⟨u, none, last, true⟩) (hoffset : offset ≠ 0) (y : Text) :
    deserialize s (taken l ++ x :: y) offset none =
      ⟨u.complete, l.length + last.toNat, 0, none⟩ := by
  have hturns : turns x t.counter t none = ⟨u, none, last, true⟩ := by
    cases ht : t.counter with
    | zero => rw [turns, hturn]
    | succ count =>
      rw [turns, hturn]
      simp
  have hend : deserializeLoop (x :: y) t none = ⟨u, none, last.toNat, true⟩ := by
    rw [deserializeLoop, hturns]
    rfl
  have hloop := h.loop (x :: y) none
  rw [hend] at hloop
  unfold deserialize
  simp only [hoffset, false_and, decide_false, if_false, hloop, Bool.true_eq_false]
  rw [Nat.zero_add, Nat.add_comm]

/-- Reading chunks comes to the byte that ends the value, unless the offset carried is 0 before. -/
theorem deserializeFrom_finished {u : String} {x : UInt8} {last : Bool} (h : Takes s l t)
    (hturn : t.turn none x = ⟨u, none, last, true⟩) (hoffset : offset ≠ 0) {chunks : List Text}
    {rest : Text} (hflat : chunks.flatten = taken l ++ x :: rest)
    (hcarried : Carried offset s.value.length l chunks) :
    IElement.deserializeFrom s offset none chunks =
      ⟨u.complete, l.length + last.toNat, 0, none⟩ := by
  obtain ⟨y, l', s', offset', chunks', htakes, hoffset', hle, heq⟩ :=
    (deserializeFrom_walk h hoffset hflat).1 hcarried
  have hlast : IElement.deserialize s' (taken l' ++ x :: y) offset' none = _ :=
    deserialize_finished htakes hturn hoffset' y
  rw [heq, IElement.deserializeFrom_stop (Or.inl (by rw [hlast])), hlast]
  simp only [Loaded.after]
  congr 1
  omega

theorem turn_closed {t : String} (hquote : t.quoteFound = true) (hspecial : t.special = false) :
    t.turn none 0x22 = ⟨t, none, true, true⟩ := by
  unfold turn
  rw [if_neg (by simp [hquote]), quotedTurn_quote hspecial]

/-- The chunk with a byte that is an error. -/
theorem deserialize_error (h : Takes s l t) (hoffset : offset ≠ 0) {x : UInt8} {y : Text}
    (herror : (deserializeLoop (x :: y) t none).error.isSome) :
    (deserialize s (taken l ++ x :: y) offset none).error.isSome := by
  have hloop := h.loop (x :: y) none
  obtain ⟨e, he⟩ := Option.isSome_iff_exists.mp herror
  unfold deserialize
  simp only [hoffset, false_and, decide_false, if_false, hloop, he]
  rw [if_neg (by simp)]
  rfl

end Chunks

/-! ### Errors stay -/

section Errors

variable {s : String} {error : Option Error} {current : UInt8}

theorem scope_error (h : error.isSome) : (s.scope error current).2.isSome := by
  unfold scope
  repeat' split
  all_goals first | exact h | rfl

theorem opaqueTurn_error (h : error.isSome) : (s.opaqueTurn error current).error.isSome := by
  unfold opaqueTurn
  split
  · exact h
  · by_cases harea : s.quotedArea = true
    · simpa [harea] using h
    · simpa [harea] using scope_error h

theorem quotedTurn_error (h : error.isSome) : (s.quotedTurn error current).error.isSome := by
  have hdecode (s : String) : (s.decodeStorage error).2.isSome := by
    unfold decodeStorage
    dsimp only
    repeat' split
    all_goals first | exact h | rfl
  unfold quotedTurn
  dsimp only
  repeat' split
  all_goals first | exact h | rfl | exact hdecode _

theorem turns_error (h : error.isSome) (count : Nat) :
    (turns current count s error).error.isSome := by
  have hturn (s : String) (error : Option Error) (h : error.isSome) :
      (s.turn error current).error.isSome := by
    unfold turn
    split
    · exact opaqueTurn_error h
    · exact quotedTurn_error h
  induction count generalizing s error with
  | zero => exact hturn s error h
  | succ count ih =>
    rw [turns]
    split
    · exact hturn s error h
    · exact ih (hturn s error h)

theorem deserializeLoop_error (h : error.isSome) (bytes : Text) :
    (deserializeLoop bytes s error).error.isSome := by
  induction bytes generalizing s error with
  | nil => exact h
  | cons b bytes ih =>
    have hb : (turns b s.counter s error).error.isSome := turns_error h s.counter
    rw [deserializeLoop]
    split
    · exact hb
    · exact ih hb

/-- A byte with an error on it is reported, whatever follows. -/
theorem deserializeLoop_report (h : (turns current s.counter s none).error.isSome) (y : Text) :
    (deserializeLoop (current :: y) s none).error.isSome := by
  rw [deserializeLoop]
  split
  · exact h
  · exact deserializeLoop_error h y

end Errors

end Thunder.Core.JSON.String
