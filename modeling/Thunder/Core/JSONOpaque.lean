import Thunder.Library.Json
import Thunder.Core.JSONRoundTrip

/-! The capture of a value as opaque text: what `String::Deserialize` keeps of a value when the
first byte is no quote, and what it hands out of a string literal. -/

namespace Thunder.Core.JSON.String

open Unicode Json

/-! ### String literals -/

/-- A string literal as text. -/
def quotedText (items : List Item) : Text := 0x22 :: items.flatMap Item.bytes ++ [0x22]

theorem marks_bytes (bytes : Text) (h : ∀ b ∈ bytes, b ≠ 0x22 ∧ b ≠ 0x5C) (rest : Text) :
    marks true false (bytes ++ rest) = bytes.map (fun b => (b, [b])) ++ marks true false rest := by
  induction bytes with
  | nil => rfl
  | cons b bytes ih =>
    obtain ⟨hquote, hback⟩ := h b (by simp)
    rw [List.cons_append, marks, decide_eq_true hquote, decide_eq_false hback,
      ih fun b' hb' => h b' (by simp [hb'])]
    rfl

theorem digit_bytes {d : UInt8} (hd : isxdigit d = true) : d ≠ 0x22 ∧ d ≠ 0x5C := by
  constructor <;>
  · rintro rfl
    exact absurd hd (by decide)

theorem marks_item (item : Item) (rest : Text) : marks true false (item.bytes ++ rest) =
    item.bytes.map (fun b => (b, [b])) ++ marks true false rest := by
  cases item with
  | raw c h => exact marks_bytes _ (fun b hb => (raw_bytes h b hb).2) rest
  | short letter c h => rfl
  | unicode digits hex =>
    have hrest := marks_bytes [digits 0, digits 1, digits 2, digits 3] (by
      simp [digit_bytes (hex 0), digit_bytes (hex 1), digit_bytes (hex 2), digit_bytes (hex 3)]) rest
    show (0x5C, [0x5C]) :: (0x75, [0x75]) :: marks true false
      ([digits 0, digits 1, digits 2, digits 3] ++ rest) = _
    rw [hrest]
    rfl

theorem marks_items (items : List Item) (rest : Text) :
    marks true false (items.flatMap Item.bytes ++ rest) =
      (items.flatMap Item.bytes).map (fun b => (b, [b])) ++ marks true false rest := by
  induction items with
  | nil => rfl
  | cons item items ih => rw [List.flatMap_cons, List.append_assoc, marks_item, ih, List.map_append,
      List.append_assoc]

theorem marks_quotedText (items : List Item) (rest : Text) :
    marks false false (quotedText items ++ rest) =
      (quotedText items).map (fun b => (b, [b])) ++ marks false false rest := by
  have hopen (more : Text) :
      marks false false (0x22 :: more) = (0x22, [0x22]) :: marks true false more := rfl
  have hclose : marks true false (0x22 :: rest) = (0x22, [0x22]) :: marks false false rest := rfl
  show marks false false (0x22 :: (items.flatMap Item.bytes ++ [0x22] ++ rest)) = _
  rw [hopen, List.append_assoc, marks_items]
  simp [quotedText, hclose]

theorem delimited_quotedText : Delimited quotedText := by
  intro items
  have hmarks := marks_quotedText items []
  rw [List.append_nil, marks, List.append_nil] at hmarks
  refine ⟨fun rest => by rw [marks_quotedText, hmarks], ?_⟩
  rw [strip, hmarks, List.flatMap_map]
  simp

/-! ### Turns of the capture -/

/-- The number of backslashes at the end. -/
def trailing (value : Text) : Nat := (value.reverse.takeWhile (· = 0x5C)).length

theorem trailing_append (value : Text) (b : UInt8) :
    trailing (value ++ [b]) = if b = 0x5C then trailing value + 1 else 0 := by
  unfold trailing
  rw [List.reverse_append, List.reverse_singleton, List.singleton_append, List.takeWhile_cons]
  by_cases h : b = 0x5C <;> simp [h]

theorem isEscaped_append {value : Text} (h : value.length + 1 < 2 ^ 32) (b : UInt8) :
    isEscaped (value ++ [b]) = decide (trailing value % 2 ≠ 0) := by
  unfold isEscaped
  rw [List.length_append, List.length_singleton]
  by_cases hnil : value = []
  · subst hnil
    rfl
  · have hpos : 0 < value.length := List.length_pos_iff.mpr hnil
    rw [if_neg (by omega), u32_of_lt (by omega)]
    have hindex : value.length + 1 - 2 + 1 = value.length := by omega
    dsimp only
    rw [hindex, List.take_left]
    rfl

/-- A String that captures a value. -/
def capturing (s : String) (value : Text) (depth storage : Nat) (area : Bool) : String :=
  { s with value := value, counter := depth, storage := storage, quotedArea := area }

/-- Brackets, square or curly. -/
def leftBracket (square : Bool) : UInt8 := if square then 0x5B else 0x7B

def rightBracket (square : Bool) : UInt8 := if square then 0x5D else 0x7D

def isBracket (b : UInt8) : Bool := b = 0x7B ∨ b = 0x5B ∨ b = 0x7D ∨ b = 0x5D

theorem mask_depth {depth : Nat} (h : depth ≤ 31) : depth &&& 0x1F = depth := by
  refine (Nat.and_two_pow_sub_one_eq_mod depth 5).trans (Nat.mod_eq_of_lt ?_)
  exact Nat.lt_succ_of_le h

section Turns

variable {s : String} {value : Text} {depth storage : Nat} {area : Bool} {error : Option Error}
  {b : UInt8}

theorem scope_other (h : isBracket b = false) : s.scope error b = (s, error) := by
  obtain ⟨h1, h2, h3, h4⟩ : b ≠ 0x7B ∧ b ≠ 0x5B ∧ b ≠ 0x7D ∧ b ≠ 0x5D := by
    simpa [isBracket, not_or] using h
  unfold scope
  rw [if_neg (by simp [h1, h2]), if_neg h3, if_neg h4]
  split <;> rfl

/-- A byte that is no bracket, or one inside a string literal. -/
theorem opaqueTurn_keep (hdepth : depth ≤ 31)
    (h : area = true ∨ isBracket b = false ∧ (depth ≠ 0 ∨ endsOpaque value b = false)) :
    (capturing s value depth storage area).opaqueTurn error b =
      let kept := if area ∨ isspace b = false then [b] else []
      ⟨capturing s (value ++ kept) depth storage
        (if b = 0x22 ∧ isEscaped (value ++ kept) = false then !area else area),
        error, true, false⟩ := by
  unfold opaqueTurn
  have hgo : ¬((capturing s value depth storage area).quotedArea = false ∧ b ≠ 0x7B ∧ b ≠ 0x5B ∧
      (capturing s value depth storage area).counter &&& 0x1F = 0 ∧
      endsOpaque (capturing s value depth storage area).value b) := by
    rintro ⟨harea, -, -, hcounter, hend⟩
    rcases h with rfl | ⟨-, h | h⟩
    · exact absurd harea (by simp [capturing])
    · exact h ((mask_depth hdepth).symm.trans hcounter)
    · exact absurd (h.symm.trans hend) (by simp)
  rw [if_neg hgo]
  cases area with
  | true =>
    by_cases hquote : b = 0x22 ∧ isEscaped (value ++ [b]) = false
    · simp [capturing, hquote.1, hquote.1 ▸ hquote.2]
    · simp [capturing, hquote]
  | false =>
    obtain ⟨hbracket, -⟩ := h.resolve_left (by simp)
    have hother : ¬(b = 0x7D ∨ b = 0x5D) := by
      rintro (rfl | rfl) <;> exact absurd hbracket (by decide)
    have harea : (capturing s value depth storage false).quotedArea = false := rfl
    simp only [harea, scope_other hbracket, hother, Bool.false_eq_true, if_false, false_or,
      and_false, decide_false]
    cases isspace b with
    | false =>
      by_cases hquote : b = 0x22 ∧ isEscaped (value ++ [b]) = false
      · simp [capturing, hquote.1, hquote.1 ▸ hquote.2]
      · simp [capturing, hquote]
    | true =>
      by_cases hquote : b = 0x22 ∧ isEscaped value = false
      · simp [capturing, hquote.1, hquote.2]
      · simp [capturing, hquote]

theorem opaqueTurn_bracket {t t' : String} (harea : t.quotedArea = false)
    (harea' : t'.quotedArea = false) (hb : isBracket b = true)
    (hopen : t.counter &&& 0x1F = 0 → b = 0x7B ∨ b = 0x5B)
    (hscope : t.scope error b = (t', error)) :
    t.opaqueTurn error b =
      ⟨{ t' with value := t'.value ++ [b] }, error, true,
        decide (t'.counter &&& 0x1F = 0 ∧ (b = 0x7D ∨ b = 0x5D))⟩ := by
  have hgo : ¬(t.quotedArea = false ∧ b ≠ 0x7B ∧ b ≠ 0x5B ∧ t.counter &&& 0x1F = 0 ∧
      endsOpaque t.value b) := by
    rintro ⟨-, h1, h2, hcounter, -⟩
    exact (hopen hcounter).elim h1 h2
  have hspace : isspace b = false ∧ b ≠ 0x22 := by
    simp only [isBracket, decide_eq_true_eq] at hb
    rcases hb with rfl | rfl | rfl | rfl <;> decide
  unfold opaqueTurn
  rw [if_neg hgo]
  simp only [harea, harea', hscope, hspace, Bool.false_eq_true, if_false, if_true, or_true, true_and,
    false_and]

theorem scope_open (square : Bool) (hdepth : depth + 1 ≤ 31) (h : depth ≠ 0 ∨ value = [])
    (hstorage : storage < 2 ^ depth) :
    (capturing s value depth storage false).scope error (leftBracket square) =
      (capturing s value (depth + 1) (2 * storage + square.toNat) false, error) := by
  have hmask := mask_depth (by omega : depth ≤ 31)
  have hpow : 2 ^ depth ≤ 2 ^ 30 := Nat.pow_le_pow_right (by decide) (by omega)
  have hshift : u32 (storage <<< 1) ||| square.toNat = 2 * storage + square.toNat := by
    have hdouble : storage <<< 1 = storage * 2 := Nat.shiftLeft_eq storage 1
    rw [hdouble, u32_of_lt (by omega), ← hdouble,
      ← Nat.shiftLeft_add_eq_or_of_lt (by cases square <;> decide), hdouble, Nat.mul_comm]
  have hscope : (capturing s value depth storage false).inScope square =
      some (capturing s value (depth + 1) (2 * storage + square.toNat) false) := by
    unfold inScope
    simp only [capturing, hmask, hshift]
    rw [if_pos ⟨h, hdepth⟩]
  have hsquare : decide (leftBracket square = 0x5B) = square := by cases square <;> rfl
  unfold scope
  rw [if_pos (by cases square <;> decide), hsquare, hscope]

theorem scope_close (square : Bool) (hdepth : depth + 1 ≤ 31) :
    (capturing s value (depth + 1) (2 * storage + square.toNat) false).scope error
        (rightBracket square) = (capturing s value depth storage false, error) := by
  have hmask := mask_depth hdepth
  have hscope : (capturing s value (depth + 1) (2 * storage + square.toNat) false).outScope square =
      some (capturing s value depth storage false) := by
    unfold outScope
    have hlow : 2 * storage + square.toNat &&& 1 = square.toNat := by
      rw [Nat.and_one_is_mod]
      cases square <;> simp
    have hshift : (2 * storage + square.toNat) >>> 1 = storage := by
      rw [Nat.shiftRight_one]
      cases square
      · simp
      · simp
        omega
    simp [capturing, hmask, hlow, hshift]
  have hcounter : ¬(capturing s value (depth + 1) (2 * storage + square.toNat) false).counter &&&
      0x1F = 0 := by
    simp [capturing, hmask]
  unfold scope
  cases square with
  | false =>
    rw [if_neg (by decide), if_neg hcounter, if_pos (by decide), hscope]
  | true =>
    rw [if_neg (by decide), if_neg hcounter, if_neg (by decide), if_pos (by decide), hscope]

theorem opaqueTurn_open (square : Bool) (hdepth : depth + 1 ≤ 31) (h : depth ≠ 0 ∨ value = [])
    (hstorage : storage < 2 ^ depth) :
    (capturing s value depth storage false).opaqueTurn error (leftBracket square) =
      ⟨capturing s (value ++ [leftBracket square]) (depth + 1)
        (2 * storage + square.toNat) false, error, true, false⟩ := by
  rw [opaqueTurn_bracket rfl rfl (by cases square <;> decide)
    (fun _ => by cases square <;> decide) (scope_open square hdepth h hstorage)]
  simp [capturing, mask_depth hdepth]

theorem opaqueTurn_close (square : Bool) (hdepth : depth + 1 ≤ 31) :
    (capturing s value (depth + 1) (2 * storage + square.toNat) false).opaqueTurn error
        (rightBracket square) =
      ⟨capturing s (value ++ [rightBracket square]) depth storage false, error, true,
        decide (depth = 0)⟩ := by
  have hcounter : (capturing s value (depth + 1) (2 * storage + square.toNat) false).counter &&&
      0x1F ≠ 0 := by
    simp [capturing, mask_depth hdepth]
  rw [opaqueTurn_bracket rfl rfl (by cases square <;> decide) (fun h => absurd h hcounter)
    (scope_close square hdepth)]
  have hmask := mask_depth (by omega : depth ≤ 31)
  cases square <;> simp [capturing, hmask, rightBracket]

end Turns

/-! ### Pieces of a value -/

section Pieces

variable {s : String} (hs : s.quoteFound = false)
include hs

theorem turn_capturing (value : Text) (depth storage : Nat) (area : Bool) (error : Option Error)
    (b : UInt8) : (capturing s value depth storage area).turn error b =
      (capturing s value depth storage area).opaqueTurn error b := by
  unfold turn
  rw [if_pos (by simp [capturing, hs])]

variable {depth : Nat} (hdepth : depth ≤ 31) (storage : Nat)
include hdepth

/-- A byte outside string literals that is no quote and changes no depth. -/
theorem takes_byte (value : Text) {b : UInt8} (hb : isBracket b = false) (hquote : b ≠ 0x22)
    (hin : depth ≠ 0 ∨ endsOpaque value b = false) :
    let kept := if isspace b = false then [b] else []
    Takes (capturing s value depth storage false) [(b, kept)]
      (capturing s (value ++ kept) depth storage false) := by
  apply takes_one _ rfl
  intro error
  rw [turn_capturing hs, opaqueTurn_keep hdepth (Or.inr ⟨hb, hin⟩)]
  simp only [Bool.false_eq_true, false_or, hquote, false_and, if_false]

/-- A byte in a string literal that does not end it. -/
theorem takes_area (value : Text) (b : UInt8) (hlen : value.length + 1 < 2 ^ 32)
    (hb : b ≠ 0x22 ∨ trailing value % 2 ≠ 0) :
    Takes (capturing s value depth storage true) [(b, [b])]
      (capturing s (value ++ [b]) depth storage true) := by
  apply takes_one _ rfl
  intro error
  rw [turn_capturing hs, opaqueTurn_keep hdepth (Or.inl rfl)]
  simp only [true_or, if_true]
  rw [if_neg]
  rintro ⟨rfl, hescaped⟩
  rw [isEscaped_append hlen] at hescaped
  exact absurd hescaped (by simpa using hb.resolve_left (by simp))

/-- A quote that no backslash escapes. -/
theorem takes_quote (value : Text) (hlen : value.length + 1 < 2 ^ 32)
    (htrailing : trailing value % 2 = 0) (area : Bool) (hin : area = true ∨ depth ≠ 0) :
    Takes (capturing s value depth storage area) [(0x22, [0x22])]
      (capturing s (value ++ [0x22]) depth storage !area) := by
  have hescaped : isEscaped (value ++ [0x22]) = false := by
    rw [isEscaped_append hlen]
    simp [htrailing]
  apply takes_one _ rfl
  intro error
  rw [turn_capturing hs, opaqueTurn_keep hdepth (hin.imp_right fun h => ⟨by decide, Or.inl h⟩)]
  have hspace : isspace 0x22 = false := by decide
  simp only [hspace, or_true, if_true, hescaped, and_self]

/-- Bytes of a literal that are no quotes and no backslashes. -/
theorem takes_bytes (value bytes : Text) (hlen : (value ++ bytes).length < 2 ^ 32)
    (htrailing : trailing value % 2 = 0) (hbytes : ∀ b ∈ bytes, b ≠ 0x22 ∧ b ≠ 0x5C) :
    Takes (capturing s value depth storage true) (bytes.map fun b => (b, [b]))
      (capturing s (value ++ bytes) depth storage true) ∧ trailing (value ++ bytes) % 2 = 0 := by
  induction bytes generalizing value with
  | nil => exact ⟨by simpa using Takes.nil _, by simpa using htrailing⟩
  | cons b bytes ih =>
    obtain ⟨hquote, hback⟩ := hbytes b (by simp)
    simp only [List.length_append, List.length_cons] at hlen
    have htrailing' : trailing (value ++ [b]) % 2 = 0 := by
      rw [trailing_append, if_neg hback]
    obtain ⟨hrest, hend⟩ := ih (value ++ [b]) (by simp; omega) htrailing'
      fun b' hb' => hbytes b' (by simp [hb'])
    rw [List.append_assoc, List.singleton_append] at hrest hend
    exact ⟨(takes_area hs hdepth storage value b (by omega) (Or.inl hquote)).append hrest, hend⟩

/-- A backslash and the byte behind it. -/
theorem takes_escape (value : Text) (b : UInt8) (hlen : value.length + 2 < 2 ^ 32)
    (htrailing : trailing value % 2 = 0) :
    Takes (capturing s value depth storage true) ([0x5C, b].map fun b => (b, [b]))
      (capturing s (value ++ [0x5C, b]) depth storage true) ∧
      trailing (value ++ [0x5C, b]) % 2 = 0 := by
  have hback : trailing (value ++ [0x5C]) = trailing value + 1 := by
    rw [trailing_append, if_pos rfl]
  have hfirst := takes_area hs hdepth storage value 0x5C (by omega) (Or.inl (by decide))
  have hsecond := takes_area hs hdepth storage (value ++ [0x5C]) b (by simpa using hlen)
    (Or.inr (by omega))
  have htwo : value ++ [0x5C, b] = value ++ [0x5C] ++ [b] := by simp
  rw [htwo]
  refine ⟨hfirst.append hsecond, ?_⟩
  rw [trailing_append, hback]
  split
  · omega
  · rfl

theorem takes_itemBytes (value : Text) (item : Item) (hlen : (value ++ item.bytes).length < 2 ^ 32)
    (htrailing : trailing value % 2 = 0) :
    Takes (capturing s value depth storage true) (item.bytes.map fun b => (b, [b]))
      (capturing s (value ++ item.bytes) depth storage true) ∧
      trailing (value ++ item.bytes) % 2 = 0 := by
  cases item with
  | raw c h =>
    exact takes_bytes hs hdepth storage value _ hlen htrailing fun b hb => (raw_bytes h b hb).2
  | short letter c h =>
    simp only [Item.bytes, List.length_append, List.length_cons, List.length_nil] at hlen
    exact takes_escape hs hdepth storage value letter hlen htrailing
  | unicode digits hex =>
    simp only [Item.bytes, List.length_append, List.length_cons, List.length_nil] at hlen
    obtain ⟨hfirst, hu⟩ := takes_escape hs hdepth storage value 0x75 (by omega) htrailing
    obtain ⟨hrest, hend⟩ := takes_bytes hs hdepth storage (value ++ [0x5C, 0x75])
      [digits 0, digits 1, digits 2, digits 3] (by simp; omega) hu (by
        simp [digit_bytes (hex 0), digit_bytes (hex 1), digit_bytes (hex 2), digit_bytes (hex 3)])
    have hbytes : value ++ (Item.unicode digits hex).bytes =
        value ++ [0x5C, 0x75] ++ [digits 0, digits 1, digits 2, digits 3] := by simp [Item.bytes]
    rw [hbytes]
    exact ⟨hfirst.append hrest, hend⟩

theorem takes_inner (value : Text) (items : List Item)
    (hlen : (value ++ items.flatMap Item.bytes).length < 2 ^ 32)
    (htrailing : trailing value % 2 = 0) :
    Takes (capturing s value depth storage true)
      ((items.flatMap Item.bytes).map fun b => (b, [b]))
      (capturing s (value ++ items.flatMap Item.bytes) depth storage true) ∧
      trailing (value ++ items.flatMap Item.bytes) % 2 = 0 := by
  induction items generalizing value with
  | nil => exact ⟨by simpa using Takes.nil _, by simpa using htrailing⟩
  | cons item items ih =>
    rw [List.flatMap_cons] at hlen ⊢
    rw [← List.append_assoc] at hlen ⊢
    have hfits : (value ++ item.bytes).length < 2 ^ 32 := by
      rw [List.length_append] at hlen
      omega
    obtain ⟨hitem, heven⟩ := takes_itemBytes hs hdepth storage value item hfits htrailing
    obtain ⟨hrest, hend⟩ := ih (value ++ item.bytes) hlen heven
    rw [List.map_append]
    exact ⟨hitem.append hrest, hend⟩

/-- A string literal inside brackets. -/
theorem takes_literal (hin : depth ≠ 0) (value : Text) (items : List Item)
    (hlen : (value ++ quotedText items).length < 2 ^ 32) (htrailing : trailing value % 2 = 0) :
    Takes (capturing s value depth storage false)
      ((quotedText items).map fun b => (b, [b]))
      (capturing s (value ++ quotedText items) depth storage false) := by
  simp only [quotedText, List.length_append, List.length_cons, List.length_nil] at hlen
  have hopen := takes_quote hs hdepth storage value (by omega) htrailing false (Or.inr hin)
  have heven : trailing (value ++ [0x22]) % 2 = 0 := by
    rw [trailing_append, if_neg (by decide)]
  obtain ⟨hinner, heven'⟩ := takes_inner hs hdepth storage (value ++ [0x22]) items
    (by simp only [List.length_append, List.length_cons, List.length_nil]; omega) heven
  have hclose := takes_quote hs hdepth storage (value ++ [0x22] ++ items.flatMap Item.bytes)
    (by simp only [List.length_append, List.length_cons, List.length_nil]; omega) heven' true
    (Or.inl rfl)
  have hvalue : value ++ quotedText items =
      value ++ [0x22] ++ items.flatMap Item.bytes ++ [0x22] := by simp [quotedText]
  rw [hvalue, quotedText, List.map_append, List.map_cons]
  exact (hopen.append hinner).append hclose

end Pieces

/-! ### Values inside brackets -/

/-- Inside so many brackets a text is taken, and what is kept of it is its bytes but for the blanks
outside string literals. -/
structure Captures (s : String) (depth storage : Nat) (text : Text) : Prop where
  apart : Apart text
  takes : ∀ value, trailing value = 0 → (value ++ strip text).length < 2 ^ 32 →
    Takes (capturing s value depth storage false) (marks false false text)
      (capturing s (value ++ strip text) depth storage false) ∧ trailing (value ++ strip text) = 0

theorem word_byte {b : UInt8} (h : isWordByte b = true ∨ b = 0x2C ∨ b = 0x3A) :
    isspace b = false ∧ isBracket b = false ∧ b ≠ 0x22 ∧ b ≠ 0x5C ∧ Json.isPlain b = true := by
  simp only [isWordByte, isDigit, isspace, isBracket, Json.isPlain, isBlank,
    UInt8.le_iff_toNat_le, ← UInt8.toNat_inj, UInt8.reduceToNat, decide_eq_true_eq,
    decide_eq_false_iff_not, ne_eq] at h ⊢
  omega

theorem endsOpaque_word {b : UInt8} (h : isWordByte b = true) (value : Text) :
    endsOpaque value b = false := by
  have hne : ∀ c, isWordByte c = false → b ≠ c := fun c hc heq => by
    rw [heq, hc] at h
    contradiction
  have h1 : b ≠ 0x2C := hne _ (by decide)
  have h2 : b ≠ 0x7D := hne _ (by decide)
  have h3 : b ≠ 0x5D := hne _ (by decide)
  have h4 : b ≠ 0 := hne _ (by decide)
  unfold endsOpaque
  simp [h1, h2, h3, h4, (word_byte (Or.inl h)).1]

theorem marks_nested (square : Bool) {text : Text} (h : Apart text) :
    marks false false (leftBracket square :: text ++ [rightBracket square]) =
      (leftBracket square, [leftBracket square]) :: marks false false text ++
        [(rightBracket square, [rightBracket square])] ∧
    strip (leftBracket square :: text ++ [rightBracket square]) =
      leftBracket square :: strip text ++ [rightBracket square] ∧
    Apart (leftBracket square :: text ++ [rightBracket square]) := by
  have hplain : Json.isPlain (leftBracket square) = true ∧
      Json.isPlain (rightBracket square) = true := by
    cases square <;> decide
  have hmarks (b : UInt8) (hb : Json.isPlain b = true) (rest : Text) :
      marks false false (b :: rest) = (b, [b]) :: marks false false rest :=
    marks_plain [b] (by simpa using hb) rest
  have hbracket (b : UInt8) (hb : Json.isPlain b = true) : Apart [b] :=
    (apart_plain (by simpa using hb)).1
  have hlast : marks false false [rightBracket square] =
      [(rightBracket square, [rightBracket square])] := hmarks _ hplain.2 []
  have hall : marks false false (leftBracket square :: text ++ [rightBracket square]) =
      (leftBracket square, [leftBracket square]) :: marks false false text ++
        [(rightBracket square, [rightBracket square])] := by
    rw [List.cons_append, hmarks _ hplain.1, h, hlast]
    rfl
  refine ⟨hall, ?_, ((hbracket _ hplain.1).append h).append (hbracket _ hplain.2)⟩
  rw [strip, hall]
  simp [strip]

section Captures

variable {s : String} {depth storage : Nat} {text text' : Text}

theorem Captures.append (h : Captures s depth storage text) (h' : Captures s depth storage text') :
    Captures s depth storage (text ++ text') := by
  refine ⟨h.apart.append h'.apart, fun value htrailing hlen => ?_⟩
  rw [h.apart.strip, ← List.append_assoc] at hlen ⊢
  obtain ⟨hfirst, hend⟩ := h.takes value htrailing (by rw [List.length_append] at hlen; omega)
  obtain ⟨hsecond, hend'⟩ := h'.takes (value ++ strip text) hend hlen
  rw [h.apart]
  exact ⟨hfirst.append hsecond, hend'⟩

variable (hs : s.quoteFound = false) (hdepth : depth ≤ 31)
include hs hdepth

theorem captures_blanks (hin : depth ≠ 0) {blanks : Text} (h : ∀ b ∈ blanks, isBlank b) :
    Captures s depth storage blanks := by
  refine ⟨(apart_blanks h).1, fun value htrailing hlen => ?_⟩
  have hmarks := marks_blanks h []
  rw [List.append_nil, marks, List.append_nil] at hmarks
  rw [(apart_blanks h).2, List.append_nil, hmarks]
  refine ⟨?_, htrailing⟩
  clear hmarks hlen
  induction blanks with
  | nil => exact Takes.nil _
  | cons b blanks ih =>
    have hb : isspace b = true ∧ isBracket b = false ∧ b ≠ 0x22 := by
      have hblank : isBlank b = true := h b (by simp)
      simp only [isBlank, decide_eq_true_eq] at hblank
      rcases hblank with rfl | rfl | rfl | rfl <;> decide
    have hfirst := takes_byte hs hdepth storage value hb.2.1 hb.2.2 (Or.inl hin)
    simp only [hb.1, Bool.true_eq_false, if_false, List.append_nil] at hfirst
    exact hfirst.append (ih fun b' hb' => h b' (by simp [hb']))

/-- Bytes of a word, a comma or a colon. -/
theorem captures_word {word : Text}
    (h : ∀ b ∈ word, isWordByte b ∨ depth ≠ 0 ∧ (b = 0x2C ∨ b = 0x3A)) :
    Captures s depth storage word := by
  have hplain : ∀ b ∈ word, isspace b = false ∧ isBracket b = false ∧ b ≠ 0x22 ∧ b ≠ 0x5C ∧
      Json.isPlain b = true := fun b hb => word_byte ((h b hb).imp_right And.right)
  have hend : ∀ b ∈ word, ∀ value, depth ≠ 0 ∨ endsOpaque value b = false := fun b hb value =>
    (h b hb).elim (fun hword => Or.inr (endsOpaque_word hword value)) fun hin => Or.inl hin.1
  have hmarks := marks_plain word (fun b hb => (hplain b hb).2.2.2.2) []
  rw [List.append_nil, marks, List.append_nil] at hmarks
  obtain ⟨hapart, hstrip⟩ := apart_plain fun b hb => (hplain b hb).2.2.2.2
  refine ⟨hapart, fun value htrailing hlen => ?_⟩
  rw [hstrip, hmarks]
  clear hmarks hlen hapart hstrip h
  induction word generalizing value with
  | nil => exact ⟨by simpa using Takes.nil _, by simpa using htrailing⟩
  | cons b word ih =>
    obtain ⟨hspace, hbracket, hquote, hback, -⟩ := hplain b (by simp)
    have hfirst := takes_byte hs hdepth storage value hbracket hquote
      (hend b (by simp) value)
    simp only [hspace, if_true] at hfirst
    obtain ⟨hrest, hend'⟩ := ih (fun b' hb' => hplain b' (by simp [hb']))
      (fun b' hb' => hend b' (by simp [hb'])) (value ++ [b])
      (by rw [trailing_append, if_neg hback])
    rw [List.append_assoc, List.singleton_append] at hrest hend'
    exact ⟨hfirst.append hrest, hend'⟩

theorem captures_literal (hin : depth ≠ 0) (items : List Item) :
    Captures s depth storage (quotedText items) := by
  refine ⟨(delimited_quotedText items).1, fun value htrailing hlen => ?_⟩
  have hmarks := marks_quotedText items []
  rw [List.append_nil, marks, List.append_nil] at hmarks
  rw [(delimited_quotedText items).2] at hlen ⊢
  rw [hmarks]
  refine ⟨takes_literal hs hdepth storage hin value items hlen (by rw [htrailing]), ?_⟩
  rw [quotedText, ← List.append_assoc, trailing_append, if_neg (by decide)]

omit hdepth in
/-- What is inside brackets, behind the opening one. -/
theorem takes_opened (square : Bool) (hdepth : depth + 1 ≤ 31) (hstorage : storage < 2 ^ depth)
    (h : Captures s (depth + 1) (2 * storage + square.toNat) text) {value : Text}
    (hin : depth ≠ 0 ∨ value = [])
    (hlen : (value ++ leftBracket square :: strip text).length < 2 ^ 32) :
    Takes (capturing s value depth storage false)
      ((leftBracket square, [leftBracket square]) :: marks false false text)
      (capturing s (value ++ leftBracket square :: strip text) (depth + 1)
        (2 * storage + square.toNat) false) := by
  have hopen : Takes (capturing s value depth storage false)
      [(leftBracket square, [leftBracket square])]
      (capturing s (value ++ [leftBracket square]) (depth + 1)
        (2 * storage + square.toNat) false) := by
    apply takes_one _ rfl
    intro error
    rw [turn_capturing hs, opaqueTurn_open square hdepth hin hstorage]
  obtain ⟨hinner, -⟩ := h.takes (value ++ [leftBracket square])
    (by rw [trailing_append, if_neg (by cases square <;> decide)])
    (by rwa [List.append_assoc, List.singleton_append])
  rw [List.append_assoc, List.singleton_append] at hinner
  exact hopen.append hinner

omit hdepth in
theorem captures_nested (square : Bool) (hdepth : depth + 1 ≤ 31) (hstorage : storage < 2 ^ depth)
    (hin : depth ≠ 0) (h : Captures s (depth + 1) (2 * storage + square.toNat) text) :
    Captures s depth storage
      (leftBracket square :: text ++ [rightBracket square]) := by
  obtain ⟨hmarks, hstrip, hapart⟩ := marks_nested square h.apart
  refine ⟨hapart, fun value htrailing hlen => ?_⟩
  rw [hstrip] at hlen ⊢
  rw [hmarks, ← List.append_assoc]
  have hshort : (value ++ leftBracket square :: strip text).length < 2 ^ 32 := by
    rw [← List.append_assoc, List.length_append] at hlen
    omega
  have hopened := takes_opened hs square hdepth hstorage h (Or.inl hin) hshort
  refine ⟨hopened.append (takes_one ?_ rfl), ?_⟩
  · intro error
    rw [turn_capturing hs, opaqueTurn_close square hdepth, decide_eq_false hin]
  · rw [trailing_append, if_neg (by cases square <;> decide)]

omit hdepth in
/-- Inside brackets every text is captured, up to 31 brackets. -/
theorem captures_written {kind : Kind} {node : Node (List Item) kind}
    (h : Written quotedText node text) (hin : depth ≠ 0) (hdepth : depth + node.depth ≤ 31)
    (hstorage : storage < 2 ^ depth) : Captures s depth storage text := by
  have hbits (square : Bool) {depth storage : Nat} (h : storage < 2 ^ depth) :
      2 * storage + square.toNat < 2 ^ (depth + 1) := by
    have := Bool.toNat_lt square
    rw [pow_succ]
    omega
  have hbyte {depth storage : Nat} {b : UInt8} (hin : depth ≠ 0) (hdepth : depth ≤ 31)
      (hb : b = 0x2C ∨ b = 0x3A) : Captures s depth storage [b] :=
    captures_word hs hdepth (by simp [hin, hb])
  have hseparator {kind : Kind} (node : Node (List Item) kind) {depth storage : Nat} (hin : depth ≠ 0)
      (hdepth : depth ≤ 31) : Captures s depth storage node.separator := by
    cases node <;> first
      | exact hbyte hin hdepth (Or.inl rfl)
      | exact captures_word hs hdepth (by simp [Node.separator])
  induction h generalizing depth storage with
  | null => exact captures_word hs (by omega) fun b hb => Or.inl (isWordByte_nullText b hb)
  | bool v => exact captures_word hs (by omega) fun b hb => Or.inl (isWordByte_boolText v b hb)
  | number h => exact captures_word hs (by omega) fun b hb => Or.inl (h.isWordByte b hb)
  | string items => exact captures_literal hs (by omega) hin items
  | array _ ih =>
    simp only [Node.depth] at hdepth
    exact captures_nested hs true (by omega) hstorage hin
      (ih (by omega) (by omega) (hbits true hstorage))
  | object _ ih =>
    simp only [Node.depth] at hdepth
    exact captures_nested hs false (by omega) hstorage hin
      (ih (by omega) (by omega) (hbits false hstorage))
  | noElements h => exact captures_blanks hs (by omega) hin h
  | noMembers h => exact captures_blanks hs (by omega) hin h
  | @element v rest _ _ _ _ hbefore _ hafter _ ihv ihrest =>
    simp only [Node.depth] at hdepth
    have hlow : depth ≤ 31 := by omega
    have hvalue := (captures_blanks hs hlow hin hbefore).append
      (ihv hin (by omega) hstorage)
    have hended := hvalue.append (captures_blanks hs hlow hin hafter)
    exact (hended.append (hseparator rest hin hlow)).append (ihrest hin (by omega) hstorage)
  | @member key v rest _ _ _ _ _ _ hstart hcolon hbefore _ hafter _ ihv ihrest =>
    simp only [Node.depth] at hdepth
    have hlow : depth ≤ 31 := by omega
    have hkey : Captures s depth storage _ :=
      (captures_blanks hs hlow hin hstart).append (captures_literal hs hlow hin key)
    have hname := (hkey.append (captures_blanks hs hlow hin hcolon)).append
      (hbyte hin hlow (Or.inr rfl))
    have hvalue := (hname.append (captures_blanks hs hlow hin hbefore)).append
      (ihv hin (by omega) hstorage)
    have hended := hvalue.append (captures_blanks hs hlow hin hafter)
    exact (hended.append (hseparator rest hin hlow)).append (ihrest hin (by omega) hstorage)

end Captures

/-! ### What is handed out of a string literal -/

/-- The text that is put between quotes again. -/
def requoted (text : Text) : Text :=
  text.flatMap fun entry => if entry = 0x22 then [0x5C, entry] else [entry]

/-- A character as it is, or an escaped quote. -/
def Item.isVerbatim : Item → Bool
  | .raw _ _ => true
  | .short letter _ _ => letter = 0x22
  | .unicode _ _ => false

theorem requoted_append (text text' : Text) :
    requoted (text ++ text') = requoted text ++ requoted text' := List.flatMap_append

theorem requoted_plain {text : Text} (h : ∀ b ∈ text, b ≠ 0x22) : requoted text = text := by
  induction text with
  | nil => rfl
  | cons b text ih =>
    rw [requoted, List.flatMap_cons, if_neg (h b (by simp))]
    exact congrArg (b :: ·) (ih fun b' hb' => h b' (by simp [hb']))

theorem length_shiftOut (following shifter : Nat) :
    (shiftOut following shifter).length = following := by
  induction following generalizing shifter with
  | zero => rfl
  | succ following ih => rw [shiftOut, List.length_append, ih, List.length_singleton]

theorem shiftOut_bytes (following shifter : Nat) : ∀ b ∈ shiftOut following shifter, b ≠ 0x22 := by
  have hbyte : ∀ x < 64, UInt8.ofNat (x + 0x80) ≠ 0x22 := by decide
  induction following generalizing shifter with
  | zero => exact fun b hb => absurd hb List.not_mem_nil
  | succ following ih =>
    intro b hb
    rw [shiftOut, List.mem_append, List.mem_singleton] at hb
    rcases hb with hb | rfl
    · exact ih _ b hb
    · rw [continuationByte_eq]
      exact hbyte _ (Nat.mod_lt _ (by decide))

/-- The bytes of a code point are fewer than those of its escape, also between quotes again. -/
theorem length_requoted_fromCodePoint {codePoint : Nat} (h : codePoint ≤ 0x3FFFFFF) :
    (requoted (fromCodePoint codePoint)).length < 6 := by
  have hlead : ∀ f < 6, 0 < f → ∀ x < 64,
      UInt8.ofNat ((0xFF ^^^ (1 <<< (7 - f) - 1)) ||| x) ≠ 0x22 := by decide +kernel
  have hfollowing : followingOfCodePoint codePoint < 5 := by
    unfold followingOfCodePoint
    split_ifs <;> omega
  unfold fromCodePoint
  dsimp only
  split
  · rw [requoted, List.flatMap_singleton]
    split <;> simp
  · rw [requoted_plain]
    · rw [List.length_cons, length_shiftOut]
      omega
    · intro b hb
      rcases List.mem_cons.mp hb with rfl | hb
      · rw [and_3F]
        exact hlead _ (by omega) (by omega) _ (Nat.mod_lt _ (by decide))
      · exact shiftOut_bytes _ _ b hb

theorem utf16ToCodePoint_le {lowPart highPart : Nat} (h : lowPart < 0x10000) :
    (utf16ToCodePoint lowPart highPart).1 ≤ 0x3FFFFFF := by
  unfold utf16ToCodePoint
  split
  · show lowPart ≤ _
    omega
  · split
    · have hor : lowPart &&& 0x3FF ||| (highPart &&& 0x3FF) <<< 10 < 2 ^ 20 := by
        apply Nat.or_lt_two_pow
        · rw [and_3FF]
          omega
        · rw [and_3FF, Nat.shiftLeft_eq]
          omega
      show _ + 0x10000 ≤ _
      omega
    · decide

/-- What an item adds to the text is put back as the item, or is shorter. -/
theorem requoted_item (item : Item) (storage : Nat) :
    (item.isVerbatim = true → requoted (added (item.trace storage).1) = item.bytes) ∧
    (item.isVerbatim = false →
      (requoted (added (item.trace storage).1)).length < item.bytes.length) := by
  cases item with
  | raw c h =>
    have hadded : added (Item.trace storage (.raw c h)).1 = String.utf8EncodeChar c := by
      simp [Item.trace, added, List.flatMap_map]
    rw [hadded, requoted_plain fun b hb => (raw_bytes h b hb).2.1]
    exact ⟨fun _ => rfl, fun hnot => absurd hnot (by simp [Item.isVerbatim])⟩
  | short letter c h =>
    have hc : c = 0x22 ↔ letter = 0x22 := by
      unfold unescape at h
      split_ifs at h with hsame <;> cases h
      · rfl
      all_goals
        subst letter
        decide
    have hadded : added (Item.trace storage (.short letter c h)).1 = [c] := by simp [Item.trace]
    rw [hadded, requoted, List.flatMap_singleton]
    by_cases hquote : letter = 0x22
    · have hvalue := hc.mpr hquote
      subst hvalue hquote
      exact ⟨fun _ => rfl, fun hnot => absurd hnot (by simp [Item.isVerbatim])⟩
    · rw [if_neg (mt hc.mp hquote)]
      exact ⟨fun hyes => absurd (by simpa [Item.isVerbatim] using hyes) hquote,
        fun _ => Nat.lt_succ_self 1⟩
  | unicode digits hex =>
    have hadded : added (Item.trace storage (.unicode digits hex)).1 =
        (unitAdds storage (unitValue digits)).1 := by simp [Item.trace]
    refine ⟨fun hyes => absurd hyes (by simp [Item.isVerbatim]), fun _ => ?_⟩
    rw [hadded]
    show _ < 6
    unfold unitAdds
    split
    · exact Nat.succ_pos 5
    · exact length_requoted_fromCodePoint (utf16ToCodePoint_le (unitValue_lt hex))

/-- The literal is put back as it was if and only if all its items are. -/
theorem requoted_items (items : List Item) (storage : Nat) :
    requoted (added (trace items storage)) = items.flatMap Item.bytes ↔
      ∀ item ∈ items, item.isVerbatim = true := by
  have hlength (items : List Item) (storage : Nat) :
      (requoted (added (trace items storage))).length ≤ (items.flatMap Item.bytes).length := by
    induction items generalizing storage with
    | nil => exact le_rfl
    | cons item items ih =>
      obtain ⟨hyes, hno⟩ := requoted_item item storage
      have hrest := ih (item.trace storage).2
      rw [trace, added_append, requoted_append, List.flatMap_cons, List.length_append,
        List.length_append]
      cases hverbatim : item.isVerbatim with
      | true =>
        rw [hyes hverbatim]
        omega
      | false =>
        have := hno hverbatim
        omega
  induction items generalizing storage with
  | nil => simp [trace, requoted]
  | cons item items ih =>
    obtain ⟨hyes, hno⟩ := requoted_item item storage
    rw [trace, added_append, requoted_append, List.flatMap_cons, List.forall_mem_cons]
    cases hverbatim : item.isVerbatim with
    | true =>
      rw [hyes hverbatim, List.append_cancel_left_eq]
      simpa using ih (item.trace storage).2
    | false =>
      refine iff_of_false (fun heq => ?_) (by simp)
      have hlen := congrArg List.length heq
      rw [List.length_append, List.length_append] at hlen
      have := hno hverbatim
      have := hlength items (item.trace storage).2
      omega

/-! ### A value as a whole -/

/-- A String that begins to capture a value. -/
def started (s : String) : String :=
  capturing { s with special := false, quoteFound := false } [] 0 0 false

/-- The bytes of a value up to the one that ends it, each with what it adds. -/
def crossed (node : Node (List Item) .value) (text : Text) : List (UInt8 × Text) :=
  match node with
  | .string items => (0x22, []) :: trace items 0
  | .array _ => (marks false false text).dropLast
  | .object _ => (marks false false text).dropLast
  | _ => marks false false text

/-- A text of `node` is taken to its end, and the value is the same text without its blanks. -/
structure Captured (node : Node (List Item) .value) (text : Text) (r : Loaded String) : Prop where
  loaded : r.loaded = text.length
  offset : r.offset = 0
  error : r.error = none
  set : r.element.set = true
  value : r.element.getValue = strip text
  again : Written quotedText node r.element.getValue

/-- A value that is handed out as it was written. -/
def Exact (default : Text) : Node (List Item) .value → Prop
  | .null => cString default = nullText
  | .string items => ∀ item ∈ items, item.isVerbatim = true
  | _ => True

section Whole

variable {s : String} {chunks : List Text}

theorem deserializeAll_started (s : String) {b : UInt8} (hb : b ≠ 0x22) {more : Text}
    (hflat : chunks.flatten = b :: more) (hne : ∀ chunk ∈ chunks, chunk ≠ []) :
    IElement.deserializeAll s chunks = IElement.deserializeFrom (started s) 1 none chunks := by
  cases chunks with
  | nil => exact absurd hflat (by simp)
  | cons chunk chunks =>
    cases chunk with
    | nil => exact absurd rfl (hne [] (by simp))
    | cons b' c =>
      obtain ⟨rfl, -⟩ := List.cons.inj hflat
      have hfirst : deserialize s (b' :: c) 0 none = deserialize (started s) (b' :: c) 1 none := by
        unfold deserialize
        simp only [List.head?_cons, Option.some.injEq, hb, and_false, decide_false, if_true,
          if_false, Nat.one_ne_zero]
        rfl
      have hfirst' : IElement.deserialize s (b' :: c) 0 none =
          IElement.deserialize (started s) (b' :: c) 1 none := hfirst
      unfold IElement.deserializeAll
      rw [IElement.deserializeFrom, IElement.deserializeFrom, hfirst']

theorem takes_nested (s : String) (square : Bool) {text : Text}
    (h : Captures (started s) 1 square.toNat text)
    (hlen : (leftBracket square :: strip text).length < 2 ^ 32) :
    ∃ t, Takes (started s)
      ((leftBracket square, [leftBracket square]) :: marks false false text) t ∧
      t.turn none (rightBracket square) =
        ⟨capturing (started s) (strip (leftBracket square :: text ++ [rightBracket square])) 0 0
          false, none, true, true⟩ := by
  have hinner : Captures (started s) (0 + 1) (2 * 0 + square.toNat) text := by simpa using h
  have hquote : (started s).quoteFound = false := rfl
  have hopened : Takes (capturing (started s) [] 0 0 false) _ _ :=
    takes_opened hquote square (by decide) (by decide) hinner (Or.inr rfl) hlen
  refine ⟨_, hopened, ?_⟩
  rw [turn_capturing rfl, opaqueTurn_close square (by decide), (marks_nested square h.apart).2.1]
  rfl

theorem takes_word (s : String) {word : Text} (hword : ∀ b ∈ word, isWordByte b = true)
    (hlen : word.length < 2 ^ 32) {terminator : UInt8}
    (hterminator : terminator ∈ [0x2C, 0x7D, 0x5D, 0]) :
    Takes (started s) (marks false false word) (capturing (started s) word 0 0 false) ∧
      (capturing (started s) word 0 0 false).turn none terminator =
        ⟨capturing (started s) word 0 0 false, none, false, true⟩ := by
  have hstrip := (apart_plain fun b hb => isPlain_of_isWordByte (hword b hb)).2
  have hquote : (started s).quoteFound = false := rfl
  have hcaptures : Captures (started s) 0 0 word :=
    captures_word hquote (by decide) fun b hb => Or.inl (hword b hb)
  have htakes := (hcaptures.takes [] rfl (by simpa [hstrip] using hlen)).1
  rw [hstrip, List.nil_append] at htakes
  refine ⟨htakes, ?_⟩
  have hend : endsOpaque word terminator = true ∧ terminator ≠ 0x7B ∧ terminator ≠ 0x5B := by
    simp only [List.mem_cons, List.not_mem_nil, or_false] at hterminator
    obtain rfl | rfl | rfl | rfl := hterminator <;> simp [endsOpaque]
  rw [turn_capturing rfl]
  unfold opaqueTurn
  rw [if_pos ⟨rfl, hend.2.1, hend.2.2, Nat.zero_and 31, hend.1⟩]

/-- If the chunks are carried on over the bytes `l`, `text` is captured from them; else the value is
not completed. -/
def Stops (s : String) (chunks : List Text) (l : List (UInt8 × Text)) (text : Text) : Prop :=
  (Carried 1 0 l chunks → IElement.deserializeAll s chunks =
    ⟨(capturing (started s) (strip text) 0 0 false).complete, text.length, 0, none⟩) ∧
  (¬Carried 1 0 l chunks → (IElement.deserializeAll s chunks).element.set = s.set)

theorem stops {l : List (UInt8 × Text)} {t : String} {x b : UInt8} {last : Bool}
    {text more more' : Text} (htakes : Takes (started s) l t)
    (hturn : t.turn none x = ⟨capturing (started s) (strip text) 0 0 false, none, last, true⟩)
    (hx : chunks.flatten = taken l ++ x :: more) (hall : l.length + last.toNat = text.length)
    (hfirst : chunks.flatten = b :: more') (hb : b ≠ 0x22) (hne : ∀ chunk ∈ chunks, chunk ≠ []) :
    Stops s chunks l text := by
  unfold Stops
  rw [deserializeAll_started s hb hfirst hne]
  refine ⟨fun hc => ?_, fun hnot => ?_⟩
  · rw [deserializeFrom_finished htakes hturn Nat.one_ne_zero hx hc, hall]
  · exact ((deserializeFrom_walk htakes Nat.one_ne_zero hx).2 hnot).2.2

theorem stops_word (s : String) {word : Text} (hword : ∀ b ∈ word, isWordByte b = true)
    (hnil : word ≠ []) (hlen : word.length < 2 ^ 32) {terminator : UInt8}
    (hterminator : terminator ∈ [0x2C, 0x7D, 0x5D, 0]) {rest : Text}
    (hflat : chunks.flatten = word ++ terminator :: rest) (hne : ∀ chunk ∈ chunks, chunk ≠ []) :
    Stops s chunks (marks false false word) word := by
  obtain ⟨htakes, hturn⟩ := takes_word s hword hlen hterminator
  have hstrip := (apart_plain fun b hb => isPlain_of_isWordByte (hword b hb)).2
  have hmarks : taken (marks false false word) = word := map_fst_marks ..
  have hall : (marks false false word).length + false.toNat = word.length := by
    rw [← length_taken, hmarks]
    rfl
  obtain ⟨b, word', rfl⟩ := List.exists_cons_of_ne_nil hnil
  exact stops htakes (by rw [hturn, hstrip]) (by rw [hmarks, hflat]) hall hflat
    (word_byte (Or.inl (hword b (by simp)))).2.2.1 hne

theorem stops_nested (s : String) (square : Bool) {inner : Text}
    (h : Captures (started s) 1 square.toNat inner)
    (hlen : (leftBracket square :: inner ++ [rightBracket square]).length < 2 ^ 32) {rest : Text}
    (hflat : chunks.flatten = leftBracket square :: inner ++ [rightBracket square] ++ rest)
    (hne : ∀ chunk ∈ chunks, chunk ≠ []) :
    Stops s chunks (marks false false (leftBracket square :: inner ++ [rightBracket square])).dropLast
      (leftBracket square :: inner ++ [rightBracket square]) := by
  have hmarks : taken (marks false false inner) = inner := map_fst_marks ..
  have hshort : (leftBracket square :: strip inner).length < 2 ^ 32 := by
    have := length_strip_le inner
    simp only [List.length_append, List.length_cons, List.length_nil] at hlen ⊢
    omega
  obtain ⟨t, htakes, hturn⟩ := takes_nested s square h hshort
  rw [(marks_nested square h.apart).1, List.dropLast_concat]
  have hx : chunks.flatten = taken ((leftBracket square, [leftBracket square]) ::
      marks false false inner) ++ rightBracket square :: rest := by
    rw [hflat]
    simp [taken, map_fst_marks]
  have hquote : leftBracket square ≠ 0x22 := by cases square <;> decide
  refine stops htakes hturn hx ?_ hflat hquote hne
  rw [List.length_cons, ← length_taken, hmarks]
  simp

/-- A value that is no string literal, through chunks of any size. -/
theorem stops_written (s : String) {node : Node (List Item) .value} {text : Text}
    (h : Written quotedText node text) (hnode : ∀ items, node ≠ .string items)
    (hdepth : node.depth ≤ 31) (hlen : text.length < 2 ^ 32) {terminator : UInt8}
    (hterminator : terminator ∈ [0x2C, 0x7D, 0x5D, 0]) {rest : Text}
    (hflat : chunks.flatten = text ++ terminator :: rest) (hne : ∀ chunk ∈ chunks, chunk ≠ []) :
    Stops s chunks (crossed node text) text := by
  cases h with
  | null => exact stops_word s isWordByte_nullText (by decide) hlen hterminator hflat hne
  | bool v =>
    exact stops_word s (isWordByte_boolText v) (by cases v <;> decide) hlen hterminator hflat hne
  | number h => exact stops_word s h.isWordByte h.bytes.1 hlen hterminator hflat hne
  | string items => exact absurd rfl (hnode items)
  | array h =>
    simp only [Node.depth] at hdepth
    have hinner : Captures (started s) 1 1 _ :=
      captures_written rfl h (by decide) (by omega) (by decide)
    exact stops_nested s true hinner hlen hflat hne
  | object h =>
    simp only [Node.depth] at hdepth
    have hinner : Captures (started s) 1 0 _ :=
      captures_written rfl h (by decide) (by omega) (by decide)
    exact stops_nested s false hinner hlen hflat hne

/-- No zero byte is captured. -/
theorem noNul_compact {kind : Kind} {node : Node (List Item) kind} {text : Text}
    (h : Written quotedText node text) : 0 ∉ node.compact quotedText := by
  have hword {text : Text} (h : ∀ b ∈ text, isWordByte b = true) : 0 ∉ text :=
    fun h0 => absurd (h 0 h0) (by decide)
  have hitem (item : Item) : 0 ∉ item.bytes := by
    cases item with
    | raw c h => exact fun h0 => absurd (raw_bytes h 0 h0).1 (by decide)
    | short letter c h =>
      have hletter : letter ≠ 0 := by
        rintro rfl
        exact absurd h (by simp [unescape])
      simpa [Item.bytes] using Ne.symm hletter
    | unicode digits hex =>
      have hdigit (i : Fin 4) : 0 ≠ digits i := fun h0 => absurd (h0 ▸ hex i) (by decide)
      simp [Item.bytes, hdigit]
  have hquoted (items : List Item) : 0 ∉ quotedText items := by
    simp [quotedText, hitem]
  have hseparator {kind : Kind} (node : Node (List Item) kind) : 0 ∉ node.separator := by
    cases node <;> simp [Node.separator]
  induction h with
  | null => exact hword isWordByte_nullText
  | bool v => exact hword (isWordByte_boolText v)
  | number h => exact hword h.isWordByte
  | string items => exact hquoted items
  | array _ ih => simpa [Node.compact] using ih
  | object _ ih => simpa [Node.compact] using ih
  | noElements _ => exact List.not_mem_nil
  | noMembers _ => exact List.not_mem_nil
  | @element v rest _ _ _ _ _ _ _ _ ihv ihrest => simp [Node.compact, ihv, ihrest, hseparator]
  | @member key v rest _ _ _ _ _ _ _ _ _ _ _ _ ihv ihrest =>
    simp [Node.compact, ihv, ihrest, hseparator, hquoted]

/-- The last byte of a value is no blank, and only `null` reads `null`. -/
theorem compact_ends {node : Node (List Item) .value} {text : Text}
    (h : Written quotedText node text) :
    (node.compact quotedText).rdropWhile isspace = node.compact quotedText ∧
      (node.compact quotedText = nullTag ↔ node = .null) := by
  cases h with
  | null => exact ⟨by decide, iff_of_true rfl rfl⟩
  | bool v => exact ⟨by cases v <;> decide, iff_of_false (by cases v <;> decide) (by simp)⟩
  | number h =>
    have hlast := h.isWordByte
    have hne := h.bytes.1
    refine ⟨List.rdropWhile_eq_self_iff.mpr fun hnil => ?_, iff_of_false ?_ (by simp)⟩
    · have := (word_byte (Or.inl (hlast _ (List.getLast_mem hnil)))).1
      simpa using this
    · intro hnull
      have := h.bytes.2 0x6E (by rw [show text = nullTag from hnull]; decide)
      exact absurd this (by decide)
  | string items =>
    exact ⟨List.rdropWhile_concat_neg _ _ _ (by decide),
      iff_of_false (by simp [Node.compact, quotedText, nullTag]) (by simp)⟩
  | array _ =>
    exact ⟨List.rdropWhile_concat_neg _ _ _ (by decide),
      iff_of_false (by simp [Node.compact, nullTag]) (by simp)⟩
  | object _ =>
    exact ⟨List.rdropWhile_concat_neg _ _ _ (by decide),
      iff_of_false (by simp [Node.compact, nullTag]) (by simp)⟩

/-- The value of a String that has captured a value to its end. -/
theorem getValue_opaque {t : String} (hquote : t.quoteFound = false) (hnull : t.null = false) :
    t.complete.getValue =
      if t.value = nullTag then cString t.default else cString (t.value.rdropWhile isspace) := by
  have hvalue : t.complete.value = t.value.rdropWhile isspace := if_neg (by simp [hquote])
  have hstatus : t.complete.null = decide (t.value = nullTag) := by
    simp [complete, hnull]
  unfold getValue
  rw [if_neg (by simp [complete, hquote]), hvalue, hstatus]
  by_cases h : t.value = nullTag
  · rw [if_pos h, if_neg (by simp [h])]
    rfl
  · rw [if_neg h, if_pos (by simp [complete, h])]

theorem captured_opaque (s : String) {node : Node (List Item) .value} {text : Text}
    (h : Written quotedText node text) (hnode : ∀ items, node ≠ .string items) :
    Captured node text ⟨(capturing (started s.clear) (strip text) 0 0 false).complete,
      text.length, 0, none⟩ ↔ Exact s.default node := by
  have hcompact := (h.strip delimited_quotedText).2
  obtain ⟨htrim, hnull⟩ := compact_ends h
  have hvalue : (capturing (started s.clear) (strip text) 0 0 false).complete.getValue =
      if strip text = nullTag then cString s.default
        else cString ((strip text).rdropWhile isspace) := getValue_opaque rfl rfl
  rw [hcompact, htrim, cString_of_noNul (noNul_compact h)] at hvalue
  have hvalueIff : Captured node text ⟨(capturing (started s.clear) (strip text) 0 0 false).complete,
      text.length, 0, none⟩ ↔ (if node.compact quotedText = nullTag then cString s.default
        else node.compact quotedText) = node.compact quotedText := by
    rw [← hvalue, ← hcompact]
    exact ⟨fun hcaptured => hcaptured.value,
      fun heq => ⟨rfl, rfl, rfl, rfl, heq, by rw [heq, hcompact]; exact h.compact⟩⟩
  rw [hvalueIff]
  cases node with
  | null => exact Iff.rfl
  | string items => exact absurd rfl (hnode items)
  | _ => exact iff_of_true (if_neg (mt hnull.mp (by simp))) trivial

theorem captured_literal {s : String} (hs : s.quotedSerialize = false) (items : List Item)
    {chunks : List Text} {rest : Text} (hflat : chunks.flatten = quotedText items ++ rest)
    (hne : ∀ chunk ∈ chunks, chunk ≠ []) :
    Captured (.string items) (quotedText items) (IElement.deserializeAll s.clear chunks) ↔
      Carried 1 0 ((0x22, []) :: trace items 0) chunks ∧
        ∀ item ∈ items, item.isVerbatim = true := by
  have hliteral : quotedText items = 0x22 :: taken (trace items 0) ++ [0x22] := by
    rw [taken_trace, quotedText]
  have hlength : (quotedText items).length = (trace items 0).length + 2 := by
    rw [hliteral]
    simp
  rw [hliteral, List.append_assoc] at hflat
  obtain ⟨hcarried, hwrapped⟩ := deserializeAll_closed s.clear items hflat hne
  by_cases hc : Carried 1 0 ((0x22, []) :: trace items 0) chunks
  · obtain ⟨t, ht, hvalue, -, hquoted, hfound, -⟩ := hcarried hc
    have hget : t.complete.getValue = 0x22 :: requoted (added (trace items 0)) ++ [0x22] := by
      have hkept : t.complete.value = t.value := if_pos hfound
      unfold getValue
      rw [if_pos (by simp [complete, hquoted, hfound, hs, clear]), hkept, hvalue]
      rfl
    have hverbatim : t.complete.getValue = strip (quotedText items) ↔
        ∀ item ∈ items, item.isVerbatim = true := by
      rw [hget, (delimited_quotedText items).2, quotedText, ← requoted_items items 0]
      simp
    rw [ht, ← hlength]
    refine ⟨fun hcaptured => ⟨hc, hverbatim.mp hcaptured.value⟩, fun hand => ?_⟩
    have hexact := hverbatim.mpr hand.2
    refine ⟨rfl, rfl, rfl, rfl, hexact, ?_⟩
    rw [hexact, (delimited_quotedText items).2]
    exact .string items
  · refine iff_of_false (fun hcaptured => ?_) fun hand => hc hand.1
    have hshort := (hwrapped hc).2
    rw [hcaptured.loaded, hlength] at hshort
    omega

theorem captured_string {s : String} (hs : s.quotedSerialize = false)
    {node : Node (List Item) .value} {text : Text} (h : Written quotedText node text)
    (hdepth : node.depth ≤ 31) (hlen : text.length < 2 ^ 32) {terminator : UInt8}
    (hterminator : terminator ∈ [0x2C, 0x7D, 0x5D, 0]) {rest : Text} {chunks : List Text}
    (hflat : chunks.flatten = text ++ terminator :: rest) (hne : ∀ chunk ∈ chunks, chunk ≠ []) :
    Captured node text (IElement.deserializeAll s.clear chunks) ↔
      Carried 1 0 (crossed node text) chunks ∧ Exact s.default node := by
  by_cases hnode : ∀ items, node ≠ .string items
  · obtain ⟨hcarried, hwrapped⟩ :=
      stops_written s.clear h hnode hdepth hlen hterminator hflat hne
    by_cases hc : Carried 1 0 (crossed node text) chunks
    · rw [hcarried hc, captured_opaque s h hnode]
      exact ⟨fun hexact => ⟨hc, hexact⟩, And.right⟩
    · refine iff_of_false (fun hcaptured => ?_) fun hand => hc hand.1
      exact absurd ((hwrapped hc).symm.trans hcaptured.set) (by simp [clear])
  · obtain ⟨items, rfl⟩ : ∃ items, node = .string items := by simpa using hnode
    cases h
    exact captured_literal hs items hflat hne

end Whole

end Thunder.Core.JSON.String
