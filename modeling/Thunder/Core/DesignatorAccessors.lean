import Thunder.Core.Designator

/-! What the messages read off a designator without splitting it. -/

namespace Thunder.Core.JSONRPC.Message

open Text Designator

/-- The first position, going back over digits, that has no digit, or the begin of the text. -/
def backDigits (designator : List Char) : Nat → Nat
  | 0 => 0
  | i + 1 => if (designator[i + 1]?).any Char.isDigit then backDigits designator i else i + 1

/-- The end of the callsign: `npos` where the text begins with a version. -/
def callsignEnd (designator : List Char) (pos : Nat) : Option Nat :=
  if 0 < pos then
    let index := backDigits designator (pos - 1)
    if index ≠ 0 ∧ designator[index]? = some '.' then some index
    else if index = 0 ∧ (designator[0]?).any Char.isDigit then none
    else some pos
  else some pos

/-- `Message::Callsign(designator)`. -/
def callsign (designator : List Char) : List Char :=
  match (rfind (· = '.') designator (rfind (· = '@') designator none)).bind
    (callsignEnd designator) with
  | none => []
  | some pos => designator.take pos

/-- `Message::Method(designator)`. -/
def method (designator : List Char) : List Char :=
  let stop := rfind (· = '@') designator none
  let start := next (rfind (· = '.') designator stop)
  match find (· = '#') designator start with
  | some lookup =>
    (designator.drop start).take (lookup - start) ++
      match find (· = ':') designator (lookup + 1) with
      | none => []
      | some colon => substr designator colon (stop.bind (between colon))
  | none => substr designator start (stop.bind (between start))

/-! ### Where the delimiters are -/

variable {designator : List Char}

/-- The index is what is behind the last `@`; the text before it is searched for the other
delimiters. -/
structure Layout (designator head tail : List Char) : Prop where
  text : designator = head ++ tail
  behind : tail = [] ∨ ∃ index, tail = '@' :: index
  stop : rfind (· = '@') designator none = if tail = [] then none else some head.length

theorem exists_layout (designator : List Char) : ∃ head tail, Layout designator head tail := by
  cases hlast : rfind (· = '@') designator none with
  | none => exact ⟨designator, [], by simp, .inl rfl, by simp [hlast]⟩
  | some i =>
    obtain ⟨head, a, index, rfl, rfl, ha, -⟩ := lastIdx_eq_some.mp hlast
    obtain rfl : a = '@' := by simpa using ha
    exact ⟨head, '@' :: index, rfl, .inr ⟨index, rfl⟩, by simp [hlast]⟩

namespace Layout

variable {head tail : List Char} {p : Char → Bool}

/-- A search from the index on sees the head alone. -/
theorem rfind_eq (h : Layout designator head tail) (hp : p '@' = false) :
    rfind p designator (rfind (· = '@') designator none) = lastIdx p head := by
  rw [h.stop, rfind, h.text]
  obtain rfl | ⟨index, rfl⟩ := h.behind
  · simp [upTo]
  · rw [if_neg (List.cons_ne_nil _ _), upTo_append]
    exact lastIdx_append (by simpa using hp)

/-- The same of a pair. -/
theorem rfindPair_eq_none (h : Layout designator head tail) (hp : p '@' = false)
    (hhead : ∀ c ∈ head, p c = false) :
    rfindPair p designator (rfind (· = '@') designator none) = none := by
  rw [h.stop, rfindPair, h.text]
  obtain rfl | ⟨index, rfl⟩ := h.behind
  · simpa [upTo] using lastPair_eq_none hhead
  · have hbound : upTo (head ++ '@' :: index) (some (head.length + 1)) =
        head ++ '@' :: index.take 1 := by
      rw [upTo, Nat.add_assoc, List.take_length_add_append]
      rfl
    rw [if_neg (List.cons_ne_nil _ _), Option.map_some, hbound,
      lastPair_append_cons hp (by cases index <;> simp)]
    exact lastPair_eq_none hhead

/-- What is between a position in the head and the index. -/
theorem substr_eq {before rest : List Char} (h : Layout designator (before ++ rest) tail) :
    substr designator before.length
      ((rfind (· = '@') designator none).bind (between before.length)) = rest := by
  rw [h.stop, h.text]
  obtain rfl | ⟨index, rfl⟩ := h.behind
  · rw [if_pos rfl, Option.bind_none, substr, List.append_nil, List.drop_left]
  · rw [if_neg (List.cons_ne_nil _ _), Option.bind_some, between, List.length_append,
      if_pos (Nat.le_add_right ..), Nat.add_sub_cancel_left, substr, List.append_assoc,
      List.drop_left, List.take_left]

end Layout

/-- Digits go back to the position that `backDigits` finds. -/
theorem backDigits_digit {pos j : Nat} (hlt : backDigits designator pos < j) (hle : j ≤ pos) :
    ∃ c, designator[j]? = some c ∧ c.isDigit = true := by
  induction pos with
  | zero => exact absurd (Nat.lt_of_lt_of_le hlt hle) (Nat.not_lt_zero _)
  | succ pos ih =>
    rw [backDigits] at hlt
    split_ifs at hlt with hdigit
    · obtain rfl | hle := Nat.eq_or_lt_of_le hle
      · exact (Option.any_eq_true _ _).mp hdigit
      · exact ih hlt (Nat.le_of_lt_succ hle)
    · omega

/-- Before the dot of the method there is the callsign, with digits behind another dot or not. -/
theorem callsignEnd_cases {pos stop : Nat} (h : callsignEnd designator pos = some stop) :
    stop = pos ∨ designator[stop]? = some '.' ∧
      ∀ j, stop < j → j < pos → ∃ c, designator[j]? = some c ∧ c.isDigit = true := by
  rw [callsignEnd] at h
  simp only [] at h
  split_ifs at h with hpos hdot hdigit
  · obtain rfl := Option.some.inj h
    exact .inr ⟨hdot.2, fun j hlt hle => backDigits_digit hlt (by omega)⟩
  · exact .inl (Option.some.inj h).symm
  · exact .inl (Option.some.inj h).symm

end Thunder.Core.JSONRPC.Message
