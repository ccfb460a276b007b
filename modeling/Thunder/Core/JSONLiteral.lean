import Thunder.Core.JSONStringRead
import Mathlib.Data.Fin.VecNotation
import Mathlib.Data.List.TakeWhile

/-! String literals of RFC 8259 as `String::Deserialize` reads them, set beside the text that the
standard assigns to them. -/

namespace Thunder.Core.JSON.String

open Unicode

/-! ### What a literal stands for -/

/-- The characters of the items, behind the high surrogate `high` or behind none (0); there are none
when a surrogate has no partner. -/
def decode : List Item → Nat → Option (List Char)
  | [], high => if high = 0 then some [] else none
  | .raw c _ :: items, high => if high = 0 then (decode items 0).map (c :: ·) else none
  | .short _ c _ :: items, high =>
    if high = 0 then (decode items 0).map (Char.ofNat c.toNat :: ·) else none
  | .unicode digits _ :: items, high =>
    let unit := unitValue digits
    if high = 0 then
      if unit / 0x400 = 0x36 then decode items unit
      else if unit / 0x400 = 0x37 then none
      else (decode items 0).map (Char.ofNat unit :: ·)
    else if unit / 0x400 = 0x37 then
      (decode items 0).map
        (Char.ofNat ((high - 0xD800) * 0x400 + (unit - 0xDC00) + 0x10000) :: ·)
    else none

/-- How a literal ends: with the closing quote, or with the byte that makes it invalid. -/
inductive Ending
  | closed
  | badLetter (b : UInt8) (h : b ≠ 0x75 ∧ unescape b = none)
  | badDigit (digits : List UInt8) (hex : ∀ d ∈ digits, isxdigit d = true)
    (few : digits.length < 4) (b : UInt8) (h : isxdigit b = false)

/-- What an ending has before its last byte. -/
def Ending.before : Ending → Text
  | .closed => []
  | .badLetter _ _ => [0x5C]
  | .badDigit digits _ _ _ _ => 0x5C :: 0x75 :: digits

def Ending.last : Ending → UInt8
  | .closed => 0x22
  | .badLetter b _ => b
  | .badDigit _ _ _ b _ => b

/-- A literal without NUL, valid or up to the byte that makes it invalid. -/
structure Literal where
  items : List Item
  ending : Ending
  noNul : ∀ digits hex, Item.unicode digits hex ∈ items → unitValue digits ≠ 0

namespace Literal

/-- The bytes before the last one, each with what it adds to the value. -/
def trace (literal : Literal) : List (UInt8 × Text) :=
  (0x22, []) :: String.trace literal.items 0 ++ literal.ending.before.map fun b => (b, [])

def bytes (literal : Literal) : Text := taken literal.trace ++ [literal.ending.last]

/-- A valid literal is taken to its closing quote and its text is the value; an invalid one is an
error. -/
def ReadBy (literal : Literal) (s : String) (chunks : List Text) : Prop :=
  let r := IElement.deserializeAll s chunks
  match literal.ending, decode literal.items 0 with
  | .closed, some chars =>
    r.loaded = literal.bytes.length ∧ r.offset = 0 ∧ r.error = none ∧
      r.element.getValue = utf8 chars
  | _, _ => r.error.isSome

/-- No surrogate lacks its partner in a literal that has its closing quote, and the text can be told
from `null`. -/
def Plain (literal : Literal) (s : String) : Prop :=
  match literal.ending, decode literal.items 0 with
  | .closed, some chars =>
    (s.null = false ∧ utf8 chars ≠ nullTag) ∨ cString s.default = utf8 chars
  | .closed, none => False
  | _, _ => True

end Literal

/-! ### Decoding -/

theorem toNat_ofNat {n : Nat} (h : n < 0xD800 ∨ 0xDFFF < n ∧ n < 0x110000) :
    (Char.ofNat n).toNat = n := by
  have hvalid : n.isValidChar := h
  rw [Char.ofNat, dif_pos hvalid]
  rfl

theorem fromCodePoint_ofNat {n : Nat} (h : n < 0xD800 ∨ 0xDFFF < n ∧ n < 0x110000) :
    fromCodePoint n = String.utf8EncodeChar (Char.ofNat n) := by
  have := fromCodePoint_char (Char.ofNat n)
  rwa [toNat_ofNat h] at this

theorem unescape_ascii {letter c : UInt8} (h : unescape letter = some c) :
    c ≠ 0 ∧ String.utf8EncodeChar (Char.ofNat c.toNat) = [c] := by
  obtain ⟨hne, hlt⟩ : c ≠ 0 ∧ c < 0x80 := by
    unfold unescape at h
    split_ifs at h with hsame <;> cases h
    · rcases hsame with rfl | rfl | rfl <;> decide
    all_goals decide
  have hsmall : c.toNat < 0x80 := UInt8.lt_iff_toNat_lt.mp hlt
  have hnat : (Char.ofNat c.toNat).toNat = c.toNat := toNat_ofNat (Or.inl (by omega))
  refine ⟨hne, ?_⟩
  rcases utf8EncodeChar_cases (Char.ofNat c.toNat) with ⟨_, he⟩ | ⟨hge, _⟩ | ⟨hge, _⟩ | ⟨hge, _⟩
  · rw [he, hnat, UInt8.ofNat_toNat]
  all_goals
    rw [hnat] at hge
    omega

/-- The code decodes what the standard decodes. -/
theorem added_trace {items : List Item} {high : Nat} (hhigh : high = 0 ∨ high / 0x400 = 0x36)
    {chars : List Char} (h : decode items high = some chars) :
    added (trace items high) = utf8 chars := by
  induction items generalizing high chars with
  | nil =>
    unfold decode at h
    split at h
    · obtain rfl : chars = [] := by simpa using h.symm
      rfl
    · exact absurd h (by simp)
  | cons item items ih =>
    cases item with
    | raw c hc =>
      unfold decode at h
      split at h
      case isFalse => exact absurd h (by simp)
      case isTrue hzero =>
        subst hzero
        obtain ⟨chars', hrest, rfl⟩ := Option.map_eq_some_iff.mp h
        have hadded : added ((String.utf8EncodeChar c).map fun b => (b, [b])) =
            String.utf8EncodeChar c := by simp [added, List.flatMap_map]
        rw [trace, added_append, utf8_cons, ← ih (Or.inl rfl) hrest]
        exact congrArg (· ++ _) hadded
    | short letter c hc =>
      unfold decode at h
      split at h
      case isFalse => exact absurd h (by simp)
      case isTrue hzero =>
        subst hzero
        obtain ⟨chars', hrest, rfl⟩ := Option.map_eq_some_iff.mp h
        rw [trace, added_append, utf8_cons, ← ih (Or.inl rfl) hrest, (unescape_ascii hc).2]
        rfl
    | unicode digits hex =>
      have hlt := unitValue_lt hex
      have hadded : added (Item.trace high (.unicode digits hex)).1 =
          (unitAdds high (unitValue digits)).1 := by simp [Item.trace]
      rw [trace, added_append, hadded]
      show (unitAdds high (unitValue digits)).1 ++
        added (trace items (unitAdds high (unitValue digits)).2) = utf8 chars
      unfold decode at h
      dsimp only at h
      unfold unitAdds
      by_cases hzero : high = 0
      · subst hzero
        rw [if_pos rfl] at h
        by_cases hwait : unitValue digits / 0x400 = 0x36
        · rw [if_pos hwait] at h
          rw [if_pos ⟨rfl, hwait⟩]
          exact ih (Or.inr hwait) h
        · rw [if_neg hwait] at h
          rw [if_neg (fun hand => hwait hand.2)]
          by_cases hlone : unitValue digits / 0x400 = 0x37
          · rw [if_pos hlone] at h
            exact absurd h (by simp)
          rw [if_neg hlone] at h
          obtain ⟨chars', hrest, rfl⟩ := Option.map_eq_some_iff.mp h
          rw [utf8_cons, ← ih (Or.inl rfl) hrest, utf16ToCodePoint_low,
            fromCodePoint_ofNat (by omega)]
      · have hhigh' := hhigh.resolve_left hzero
        rw [if_neg hzero] at h
        rw [if_neg (fun hand => hzero hand.1)]
        by_cases hlow : unitValue digits / 0x400 = 0x37
        · rw [if_pos hlow] at h
          obtain ⟨chars', hrest, rfl⟩ := Option.map_eq_some_iff.mp h
          rw [utf8_cons, ← ih (Or.inl rfl) hrest, utf16ToCodePoint_pair hlow hhigh',
            fromCodePoint_ofNat (by omega)]
        · rw [if_neg hlow] at h
          exact absurd h (by simp)

/-! ### Reading a literal -/

/-- A String that has taken an opening quote. -/
def opened (s : String) : String := reading { s with quotedArea := false, quoteFound := true } [] false 0 0

theorem takes_digits {s : String} (hs : s.quoteFound = true) (value : Text) {digits : List UInt8}
    (hex : ∀ d ∈ digits, isxdigit d = true) (counter : Nat) (hpos : 0 < counter)
    (hlt : counter + digits.length ≤ 4) {storage : Nat}
    (hstorage : (storage + 1) * 16 ^ digits.length ≤ 2 ^ 32) :
    ∃ storage', Takes (reading s value true (counter + digits.length) storage)
      (digits.map fun d => (d, [])) (reading s value true counter storage') := by
  induction digits generalizing storage with
  | nil => exact ⟨storage, Takes.nil _⟩
  | cons d digits ih =>
    have hd := hex d (by simp)
    have hvalue := hexValue_lt hd
    rw [List.length_cons] at hlt
    rw [List.length_cons, pow_succ'] at hstorage
    have hpow : 0 < 16 ^ digits.length := Nat.pow_pos (by decide)
    have hsmall : storage < 2 ^ 28 := by
      have : (storage + 1) * (16 * 1) ≤ (storage + 1) * (16 * 16 ^ digits.length) :=
        Nat.mul_le_mul_left _ (Nat.mul_le_mul_left _ hpow)
      omega
    have hnext : (storage * 16 + hexValue d + 1) * 16 ^ digits.length ≤ 2 ^ 32 := by
      refine le_trans (Nat.mul_le_mul_right _ (by omega : _ ≤ (storage + 1) * 16)) ?_
      rwa [Nat.mul_assoc]
    obtain ⟨storage', hrest⟩ := ih (fun d' hd' => hex d' (by simp [hd'])) (by omega) hnext
    have hfirst := takes_digit hs value hd (counter + digits.length) (by omega) (by omega) hsmall
    exact ⟨storage', hfirst.append hrest⟩

/-- The byte that makes a literal invalid is reported. -/
theorem reports_ending {s : String} (hs : s.quoteFound = true) (value : Text) {storage : Nat}
    (hstorage : storage < 0x10000) {ending : Ending} (hbad : ending ≠ .closed) :
    ∃ t, Takes (reading s value false 0 storage) (ending.before.map fun b => (b, [])) t ∧
      ∀ y, (deserializeLoop (ending.last :: y) t none).error.isSome := by
  cases ending with
  | closed => exact absurd rfl hbad
  | badLetter b h =>
    refine ⟨_, takes_backslash hs value storage, deserializeLoop_report ?_⟩
    show (turns b 0 (reading s value true 0 storage) none).error.isSome
    rw [turns, turn_quoted hs, quotedTurn_unknown rfl rfl h.1 h.2]
    rfl
  | badDigit digits hex few b h =>
    have hroom : (storage + 1) * 16 ^ digits.length ≤ 2 ^ 32 := by
      have hpow : 16 ^ digits.length ≤ 16 ^ 3 := Nat.pow_le_pow_right (by decide) (by omega)
      calc (storage + 1) * 16 ^ digits.length ≤ 0x10000 * 16 ^ 3 := Nat.mul_le_mul hstorage hpow
        _ ≤ 2 ^ 32 := by decide
    obtain ⟨storage', hdigits⟩ := takes_digits hs value hex (4 - digits.length) (by omega)
      (by omega) hroom
    rw [Nat.sub_add_cancel (by omega)] at hdigits
    refine ⟨_, (takes_u hs value storage).append hdigits, deserializeLoop_report ?_⟩
    obtain ⟨counter, hcounter⟩ : ∃ counter, 4 - digits.length = counter + 1 :=
      ⟨3 - digits.length, by omega⟩
    rw [hcounter]
    show (turns b (counter + 1) (reading s value true (counter + 1) storage') none).error.isSome
    rw [turns, turn_quoted hs, quotedTurn_noDigit rfl rfl (by omega) h]
    exact turns_error rfl _

theorem deserialize_opening (s : String) (c : Text) :
    deserialize s (0x22 :: c) 0 none = (deserialize (opened s) c 1 none).after 1 := by
  unfold deserialize
  simp only [true_and, List.head?_cons, decide_true, if_true, List.tail_cons, Nat.one_ne_zero,
    false_and, decide_false, if_false, Nat.zero_add]
  have hopened : ({ s with
      value := [], storage := 0, counter := 0, quotedArea := false, special := false,
      quoteFound := true } : String) = opened s := rfl
  rw [hopened]
  by_cases h : (deserializeLoop c (opened s) none).finished = false ∧
      (deserializeLoop c (opened s) none).error = none
  · simp only [if_pos h]
    rfl
  · simp only [if_neg h]
    rfl

theorem deserializeAll_opening (s : String) (c : Text) (chunks : List Text) :
    IElement.deserializeAll s ((0x22 :: c) :: chunks) =
      (IElement.deserializeFrom (opened s) 1 none (c :: chunks)).after 1 := by
  have hfirst : IElement.deserialize s (0x22 :: c) 0 none =
      (IElement.deserialize (opened s) c 1 none).after 1 := deserialize_opening s c
  unfold IElement.deserializeAll
  rw [IElement.deserializeFrom, IElement.deserializeFrom, hfirst]
  by_cases h : (IElement.deserialize (opened s) c 1 none).offset = 0 ∨
      (IElement.deserialize (opened s) c 1 none).error.isSome ∨
      (IElement.deserialize (opened s) c 1 none).loaded < c.length
  · rw [if_pos h, if_pos (by simpa [Loaded.after, Nat.add_comm 1] using h)]
  · rw [if_neg h, if_neg (by simpa [Loaded.after, Nat.add_comm 1] using h), Loaded.after_after]
    rfl

theorem carried_opening (offset held : Nat) (b : UInt8) (l : List (UInt8 × Text)) (b' : UInt8)
    (c : Text) (chunks : List Text) :
    Carried offset held ((b, []) :: l) ((b' :: c) :: chunks) ↔
      Carried offset held l (c :: chunks) := by
  simp [Carried]

theorem split_opening {chunks : List Text} {more : Text} (hflat : chunks.flatten = 0x22 :: more)
    (hne : ∀ chunk ∈ chunks, chunk ≠ []) :
    ∃ c chunks', chunks = (0x22 :: c) :: chunks' ∧ (c :: chunks').flatten = more := by
  cases chunks with
  | nil => exact absurd hflat (by simp)
  | cons chunk chunks =>
    cases chunk with
    | nil => exact absurd rfl (hne [] (by simp))
    | cons b c =>
      rw [List.flatten_cons, List.cons_append] at hflat
      obtain ⟨rfl, hmore⟩ := List.cons.inj hflat
      exact ⟨c, chunks, rfl, by rw [List.flatten_cons, hmore]⟩

/-- A literal with its closing quote: the items are the value. -/
theorem deserializeAll_closed (s : String) (items : List Item) {chunks : List Text} {rest : Text}
    (hflat : chunks.flatten = 0x22 :: taken (trace items 0) ++ 0x22 :: rest)
    (hne : ∀ chunk ∈ chunks, chunk ≠ []) :
    (Carried 1 0 ((0x22, []) :: trace items 0) chunks →
      ∃ t : String, IElement.deserializeAll s chunks =
          ⟨t.complete, (trace items 0).length + 2, 0, none⟩ ∧ t.value = added (trace items 0) ∧
        t.default = s.default ∧ t.quotedSerialize = s.quotedSerialize ∧ t.quoteFound = true ∧
        t.null = s.null) ∧
    (¬Carried 1 0 ((0x22, []) :: trace items 0) chunks →
      (IElement.deserializeAll s chunks).error = none ∧
        (IElement.deserializeAll s chunks).loaded ≤ (trace items 0).length + 1) := by
  obtain ⟨c, chunks', rfl, hflat'⟩ := split_opening hflat hne
  have hquote : (opened s).quoteFound = true := rfl
  obtain ⟨storage', -, htakes⟩ := takes_items hquote [] items (Nat.zero_lt_succ 0xFFFF)
  have hwrapped := (deserializeFrom_walk htakes Nat.one_ne_zero hflat').2
  rw [deserializeAll_opening, carried_opening]
  refine ⟨fun hc => ?_, fun hnot => ?_⟩
  · have hstart : IElement.deserializeFrom (opened s) 1 none (c :: chunks') = _ :=
      deserializeFrom_finished htakes (turn_closed rfl rfl) Nat.one_ne_zero hflat' hc
    refine ⟨reading (opened s) ([] ++ added (trace items 0)) false 0 storage', ?_,
      List.nil_append _, rfl, rfl, rfl, rfl⟩
    rw [hstart]
    simp only [Loaded.after, Bool.toNat_true]
    congr 1
    omega
  · obtain ⟨herror, hloaded, -⟩ := hwrapped hnot
    refine ⟨herror, ?_⟩
    show 1 + _ ≤ _
    rw [Nat.add_comm]
    exact Nat.succ_le_succ hloaded

/-- A literal with an error: it is reported if the chunks are carried on to it. -/
theorem deserializeAll_bad (s : String) (literal : Literal) (hbad : literal.ending ≠ .closed)
    {chunks : List Text} {rest : Text} (hflat : chunks.flatten = literal.bytes ++ rest)
    (hne : ∀ chunk ∈ chunks, chunk ≠ []) :
    (IElement.deserializeAll s chunks).error.isSome ↔ Carried 1 0 literal.trace chunks := by
  have hbytes : literal.bytes ++ rest = 0x22 :: (taken (String.trace literal.items 0 ++
      literal.ending.before.map fun b => (b, [])) ++ literal.ending.last :: rest) := by
    simp [Literal.bytes, Literal.trace, taken]
  rw [hbytes] at hflat
  obtain ⟨c, chunks', rfl, hflat'⟩ := split_opening hflat hne
  have hquote : (opened s).quoteFound = true := rfl
  obtain ⟨storage', hlt, htakes⟩ := takes_items hquote [] literal.items (Nat.zero_lt_succ 0xFFFF)
  obtain ⟨t, htakes', hreport⟩ := reports_ending hquote ([] ++ added (trace literal.items 0)) hlt
    hbad
  obtain ⟨hcarried, hwrapped⟩ := deserializeFrom_walk (htakes.append htakes') Nat.one_ne_zero hflat'
  have htrace : literal.trace = (0x22, []) :: (String.trace literal.items 0 ++
      literal.ending.before.map fun b => (b, [])) := rfl
  rw [deserializeAll_opening, htrace, carried_opening]
  refine ⟨fun herror => ?_, fun hc => ?_⟩
  · by_contra hnot
    have hnone := (hwrapped hnot).1
    have herror' : (IElement.deserializeFrom (opened s) 1 none (c :: chunks')).error.isSome := herror
    have hsome : (none : Option Error).isSome := hnone ▸ herror'
    exact absurd hsome (by simp)
  · obtain ⟨y, l', s', offset', chunks'', htakes'', hoffset', hle, heq⟩ := hcarried hc
    have herror : (IElement.deserialize s' (taken l' ++ literal.ending.last :: y) offset'
        none).error.isSome := deserialize_error htakes'' hoffset' (hreport y)
    have hstart : IElement.deserializeFrom (opened s) 1 none (c :: chunks') = _ := heq
    rw [hstart, IElement.deserializeFrom_stop (Or.inr herror)]
    exact herror

/-- Without NUL among the items there is none in the text. -/
theorem decode_noNul {items : List Item} (h : ∀ digits hex, Item.unicode digits hex ∈ items →
    unitValue digits ≠ 0) {high : Nat} (hhigh : high = 0 ∨ high / 0x400 = 0x36) {chars : List Char}
    (hdecode : decode items high = some chars) : ∀ c ∈ chars, c.toNat ≠ 0 := by
  induction items generalizing high chars with
  | nil =>
    unfold decode at hdecode
    split at hdecode
    · obtain rfl : chars = [] := by simpa using hdecode.symm
      exact fun c hc => absurd hc (by simp)
    · exact absurd hdecode (by simp)
  | cons item items ih =>
    have ih' {high : Nat} (hhigh : high = 0 ∨ high / 0x400 = 0x36) {chars : List Char}
        (hrest : decode items high = some chars) : ∀ c ∈ chars, c.toNat ≠ 0 :=
      ih (fun digits hex hmem => h digits hex (by simp [hmem])) hhigh hrest
    have hcons {c : Char} {chars' : List Char} (hc : c.toNat ≠ 0)
        (hrest : decode items 0 = some chars') : ∀ d ∈ c :: chars', d.toNat ≠ 0 := by
      intro d hd
      rcases List.mem_cons.mp hd with rfl | hd
      · exact hc
      · exact ih' (Or.inl rfl) hrest d hd
    cases item with
    | raw c hc =>
      unfold decode at hdecode
      split at hdecode
      case isFalse => exact absurd hdecode (by simp)
      obtain ⟨chars', hrest, rfl⟩ := Option.map_eq_some_iff.mp hdecode
      exact hcons (by omega) hrest
    | short letter c hc =>
      unfold decode at hdecode
      split at hdecode
      case isFalse => exact absurd hdecode (by simp)
      obtain ⟨chars', hrest, rfl⟩ := Option.map_eq_some_iff.mp hdecode
      obtain ⟨hne, hbytes⟩ := unescape_ascii hc
      refine hcons (fun h0 => ?_) hrest
      have := (zero_mem_utf8EncodeChar (Char.ofNat c.toNat)).mpr h0
      rw [hbytes, List.mem_singleton] at this
      exact hne this.symm
    | unicode digits hex =>
      have hlt := unitValue_lt hex
      have hne := h digits hex (by simp)
      unfold decode at hdecode
      dsimp only at hdecode
      split at hdecode
      · split at hdecode
        · exact ih' (Or.inr ‹_›) hdecode
        split at hdecode
        · exact absurd hdecode (by simp)
        obtain ⟨chars', hrest, rfl⟩ := Option.map_eq_some_iff.mp hdecode
        exact hcons (by rw [toNat_ofNat (by omega)]; exact hne) hrest
      · split at hdecode
        · obtain ⟨chars', hrest, rfl⟩ := Option.map_eq_some_iff.mp hdecode
          exact hcons (by rw [toNat_ofNat (by omega)]; omega) hrest
        · exact absurd hdecode (by simp)

theorem cString_of_noNul {text : Text} (h : 0 ∉ text) : cString text = text := by
  rw [cString, List.takeWhile_eq_self_iff]
  intro b hb
  simpa using fun h0 : b = 0 => h (h0 ▸ hb)

/-- The value of a quoted String that has been read to its end. -/
theorem getValue_complete {t : String} (hquoted : t.quotedSerialize = true)
    (hfound : t.quoteFound = true) : t.complete.getValue =
      if t.null = false ∧ t.value ≠ nullTag then cString t.value else cString t.default := by
  have hvalue : t.complete.value = t.value := if_pos hfound
  have hstatus : t.complete.null = (t.null || decide (t.value = nullTag)) := by
    simp [complete]
  unfold getValue
  rw [if_neg (by simp [complete, hquoted]), hvalue, hstatus]
  by_cases h : t.null = false ∧ t.value ≠ nullTag
  · rw [if_pos h, if_pos (by simp [complete, h])]
  · have hnot : ¬(t.complete.set = true ∧ (t.null || decide (t.value = nullTag)) = false) := by
      rintro ⟨-, hboth⟩
      simp only [Bool.or_eq_false_iff, decide_eq_false_iff_not] at hboth
      exact h hboth
    rw [if_neg h, if_neg hnot]
    rfl

namespace Literal

/-- Literals are read as the standard says if and only if no surrogate lacks its partner, the text
is not `null` and the carried offset does not come to 0. -/
theorem readBy_iff (literal : Literal) {s : String} (hs : s.quotedSerialize = true)
    {chunks : List Text} (rest : Text) (hflat : chunks.flatten = literal.bytes ++ rest)
    (hne : ∀ chunk ∈ chunks, chunk ≠ []) :
    literal.ReadBy s chunks ↔ Carried 1 0 literal.trace chunks ∧ literal.Plain s := by
  by_cases hclosed : literal.ending = .closed
  · have htrace : literal.trace = (0x22, []) :: String.trace literal.items 0 := by
      simp [trace, hclosed, Ending.before]
    have hbytes : literal.bytes ++ rest =
        0x22 :: taken (String.trace literal.items 0) ++ 0x22 :: rest := by
      simp [bytes, htrace, hclosed, Ending.last, taken]
    have hlen : literal.bytes.length = (String.trace literal.items 0).length + 2 := by
      simp [bytes, htrace]
    rw [hbytes] at hflat
    obtain ⟨hcarried, hwrapped⟩ := deserializeAll_closed s literal.items hflat hne
    rw [← htrace] at hcarried hwrapped
    unfold ReadBy Plain
    rw [hclosed]
    cases hdecode : decode literal.items 0 with
    | none =>
      dsimp only
      refine ⟨fun herror => ?_, fun h => h.2.elim⟩
      by_cases hc : Carried 1 0 literal.trace chunks
      · obtain ⟨t, ht, -⟩ := hcarried hc
        rw [ht] at herror
        exact absurd herror (by simp)
      · rw [(hwrapped hc).1] at herror
        exact absurd herror (by simp)
    | some chars =>
      dsimp only
      by_cases hc : Carried 1 0 literal.trace chunks
      · obtain ⟨t, ht, hvalue, hdefault, hquoted, hfound, hnull⟩ := hcarried hc
        rw [added_trace (Or.inl rfl) hdecode] at hvalue
        have hnul : 0 ∉ t.value := by
          rw [hvalue, zero_mem_utf8]
          rintro ⟨c, hmem, h0⟩
          exact decode_noNul literal.noNul (Or.inl rfl) hdecode c hmem h0
        have hget := getValue_complete (hquoted.trans hs) hfound
        rw [cString_of_noNul hnul, hvalue, hnull, hdefault] at hget
        rw [ht, hlen, hget]
        simp only [true_and, hc]
        split
        · exact iff_of_true rfl (Or.inl ‹_›)
        · exact ⟨Or.inr, fun h => h.resolve_left ‹_›⟩
      · refine ⟨fun h => ?_, fun h => absurd h.1 hc⟩
        have := (hwrapped hc).2
        omega
  · have hbad := deserializeAll_bad s literal hclosed hflat hne
    have hread : literal.ReadBy s chunks = ((IElement.deserializeAll s chunks).error.isSome) := by
      unfold ReadBy
      split
      · exact absurd ‹_› hclosed
      · rfl
    have hplain : literal.Plain s := by
      unfold Plain
      split
      · exact absurd ‹_› hclosed
      · exact absurd ‹_› hclosed
      · trivial
    rw [hread, hbad]
    exact ⟨fun hc => ⟨hc, hplain⟩, fun h => h.1⟩

/-- `"a"`, in two chunks. -/
theorem readBy_letter :
    ReadBy ⟨[.raw (Char.ofNat 0x61) (by decide)], .closed, by simp⟩ (new true)
      [[0x22, 0x61], [0x22]] := by
  refine (readBy_iff _ rfl [] rfl (by simp)).mpr ⟨?_, Or.inl ⟨rfl, by decide⟩⟩
  refine Or.inr ⟨by decide, Or.inl (by decide)⟩

/-- `"\uD800\u0041"` is read without an error, and its text is a blank. -/
theorem not_readBy_lone :
    ¬ReadBy ⟨[.unicode ![0x44, 0x38, 0x30, 0x30] (by decide),
      .unicode ![0x30, 0x30, 0x34, 0x31] (by decide)], .closed, by
        intro digits hex h
        simp only [List.mem_cons, List.not_mem_nil, or_false, Item.unicode.injEq] at h
        obtain rfl | rfl := h <;> decide⟩ (new true)
      [[0x22, 0x5C, 0x75, 0x44, 0x38, 0x30, 0x30, 0x5C, 0x75, 0x30, 0x30, 0x34, 0x31, 0x22]] := by
  show ¬(IElement.deserializeAll (new true) _).error.isSome = true
  decide

end Literal

end Thunder.Core.JSON.String
