import Mathlib.Data.List.Basic
import Mathlib.Data.List.TakeDrop

/-! Searches in a text from either end.  A position that is not found is `none`; a bound that is
`none` is the end of the text. -/

namespace Thunder.Text

variable {α : Type*} {p : α → Bool} {l m : List α} {a : α} {i j : Nat}

/-- The last element that meets `p`. -/
def lastIdx (p : α → Bool) : List α → Option Nat
  | [] => none
  | a :: l =>
    match lastIdx p l with
    | some i => some (i + 1)
    | none => if p a then some 0 else none

/-- The part of a text up to a position, the position included. -/
def upTo (l : List α) : Option Nat → List α
  | none => l
  | some i => l.take (i + 1)

/-- The last element at or before a position that meets `p`. -/
def rfind (p : α → Bool) (l : List α) (bound : Option Nat) : Option Nat := lastIdx p (upTo l bound)

/-- The last two elements in a row that meet `p`. -/
def lastPair (p : α → Bool) : List α → Option Nat
  | a :: b :: l =>
    match lastPair p (b :: l) with
    | some i => some (i + 1)
    | none => if p a ∧ p b then some 0 else none
  | _ => none

/-- The last two elements in a row that meet `p`, the first of them at or before a position. -/
def rfindPair (p : α → Bool) (l : List α) (bound : Option Nat) : Option Nat :=
  lastPair p (upTo l (bound.map (· + 1)))

/-- The first element at or behind a position that meets `p`. -/
def find (p : α → Bool) (l : List α) (start : Nat) : Option Nat :=
  ((l.drop start).findIdx? p).map (start + ·)

/-- The text from a position on, of a length or up to the end. -/
def substr (l : List α) (start : Nat) : Option Nat → List α
  | none => l.drop start
  | some n => (l.drop start).take n

/-- A test of every element. -/
theorem forall_mem_of_all {q : α → Prop} [DecidablePred q] (h : l.all fun a => q a) :
    ∀ a ∈ l, q a := by
  simpa using h

theorem lastIdx_eq_none : lastIdx p l = none ↔ ∀ a ∈ l, p a = false := by
  induction l with
  | nil => simp [lastIdx]
  | cons a l ih =>
    rw [List.forall_mem_cons, ← ih, lastIdx]
    cases lastIdx p l with
    | none => cases p a <;> simp
    | some i => simp

theorem lastIdx_append (hm : ∀ b ∈ m, p b = false) : lastIdx p (l ++ m) = lastIdx p l := by
  induction l with
  | nil =>
    rw [← lastIdx_eq_none] at hm
    exact hm
  | cons a l ih => rw [List.cons_append, lastIdx, lastIdx, ih]

/-- The last element that meets `p` has none behind it. -/
theorem lastIdx_append_cons (ha : p a = true) (hm : ∀ b ∈ m, p b = false) :
    lastIdx p (l ++ a :: m) = some l.length := by
  induction l with
  | nil =>
    rw [← lastIdx_eq_none] at hm
    rw [List.nil_append, lastIdx, hm, if_pos ha]
    rfl
  | cons b l ih => rw [List.cons_append, lastIdx, ih, List.length_cons]

theorem lastIdx_eq_some : lastIdx p l = some i ↔
    ∃ before a after, l = before ++ a :: after ∧ before.length = i ∧ p a = true ∧
      ∀ b ∈ after, p b = false := by
  constructor
  · intro h
    induction l generalizing i with
    | nil => cases h
    | cons a l ih =>
      rw [lastIdx] at h
      cases hl : lastIdx p l with
      | none =>
        rw [hl, Option.ite_none_right_eq_some] at h
        rw [lastIdx_eq_none] at hl
        obtain ⟨ha, hi⟩ := h
        exact ⟨[], a, l, rfl, Option.some.inj hi, ha, hl⟩
      | some j =>
        rw [hl] at h
        obtain ⟨before, b, after, rfl, hlen, hb, hafter⟩ := ih hl
        refine ⟨a :: before, b, after, rfl, ?_, hb, hafter⟩
        rw [List.length_cons, hlen]
        exact Option.some.inj h
  · rintro ⟨before, a, after, rfl, rfl, ha, hafter⟩
    exact lastIdx_append_cons ha hafter

theorem lastPair_eq_none (h : ∀ a ∈ l, p a = false) : lastPair p l = none := by
  induction l with
  | nil => rfl
  | cons a l ih =>
    obtain ⟨ha, hl⟩ := List.forall_mem_cons.mp h
    cases l with
    | nil => rfl
    | cons b l => rw [lastPair, ih hl, if_neg fun hab => absurd hab.1 (by rw [ha]; exact nofun)]

/-- A pair does not go over an element that does not meet `p`. -/
theorem lastPair_append_cons (ha : p a = false) (hm : ∀ b ∈ m.drop 1, p b = false) :
    lastPair p (l ++ a :: m) = lastPair p l := by
  have hnone : lastPair p (a :: m) = none := by
    cases m with
    | nil => rfl
    | cons b m =>
      have hrest : lastPair p (b :: m) = none := by
        cases m with
        | nil => rfl
        | cons c m =>
          have hc : p c = false := hm c List.mem_cons_self
          have htail : lastPair p (c :: m) = none := lastPair_eq_none hm
          rw [lastPair, htail, if_neg fun hbc => absurd hbc.2 (by rw [hc]; exact nofun)]
      rw [lastPair, hrest, if_neg fun hab => absurd hab.1 (by rw [ha]; exact nofun)]
  induction l with
  | nil => exact hnone
  | cons b l ih =>
    cases l with
    | nil =>
      rw [List.singleton_append, lastPair, hnone,
        if_neg fun hba => absurd hba.2 (by rw [ha]; exact nofun)]
      rfl
    | cons c l =>
      rw [List.cons_append, List.cons_append, lastPair, ← List.cons_append, ih, lastPair]

/-- The last pair has no other element that meets `p` behind it. -/
theorem lastPair_append_pair {b : α} (ha : p a = true) (hb : p b = true)
    (hm : ∀ c ∈ m, p c = false) : lastPair p (l ++ a :: b :: m) = some l.length := by
  induction l with
  | nil =>
    have hrest : lastPair p (b :: m) = none := by
      cases m with
      | nil => rfl
      | cons c m =>
        have hc : p c = false := hm c List.mem_cons_self
        rw [lastPair, lastPair_eq_none hm, if_neg fun hbc => absurd hbc.2 (by rw [hc]; exact nofun)]
    rw [List.nil_append, lastPair, hrest, if_pos ⟨ha, hb⟩]
    rfl
  | cons c l ih =>
    cases l with
    | nil =>
      rw [List.nil_append] at ih
      rw [List.singleton_append, lastPair, ih]
      rfl
    | cons d l =>
      rw [List.cons_append, List.cons_append, lastPair, ← List.cons_append, ih]
      rfl

/-- A bound behind a part of the text that is searched. -/
theorem upTo_append : upTo (l ++ a :: m) (some l.length) = l ++ [a] := by
  rw [upTo, ← List.singleton_append, ← List.append_assoc]
  exact List.take_left' (by simp)

theorem find_append (hl : ∀ b ∈ l, p b = false) (ha : p a = true) :
    (l ++ a :: m).findIdx? p = some l.length := by
  induction l with
  | nil => simp [List.findIdx?_cons, ha]
  | cons b l ih =>
    obtain ⟨hb, hl⟩ := List.forall_mem_cons.mp hl
    rw [List.cons_append, List.findIdx?_cons, hb, ih hl, List.length_cons]
    rfl

/-! ### Parts between delimiters -/

theorem intercalate_cons (separator : List α) (text : List α) (texts : List (List α)) :
    separator.intercalate (text :: texts) = text ++ texts.flatMap (separator ++ ·) := by
  induction texts generalizing text with
  | nil => rw [List.intercalate_singleton, List.flatMap_nil, List.append_nil]
  | cons next texts ih =>
    rw [List.intercalate_cons_cons, ih, List.flatMap_cons, List.append_assoc, List.append_assoc]

theorem mem_intercalate {d : α} {texts : List (List α)} (h : a ∈ [d].intercalate texts) :
    a = d ∨ ∃ text ∈ texts, a ∈ text := by
  cases texts with
  | nil => cases h
  | cons text texts =>
    rw [intercalate_cons, List.mem_append, List.mem_flatMap] at h
    rcases h with h | ⟨next, hnext, h⟩
    · exact .inr ⟨text, List.mem_cons_self, h⟩
    · rcases List.mem_cons.mp h with h | h
      · exact .inl h
      · exact .inr ⟨next, List.mem_cons_of_mem _ hnext, h⟩

section Parts

variable [DecidableEq α] {d : α} {part : List α}

/-- The parts of a text between delimiters.  Behind a delimiter that ends the text there is none. -/
def parts (d : α) : List α → List (List α)
  | [] => []
  | a :: l =>
    if a = d then [] :: parts d l
    else
      match parts d l with
      | [] => [[a]]
      | part :: rest => (a :: part) :: rest

/-- The first part and those of the text behind its delimiter. -/
theorem parts_of_ne_nil (h : l ≠ []) :
    parts d l = l.take (l.idxOf d) :: parts d (l.drop (l.idxOf d + 1)) := by
  induction l with
  | nil => exact absurd rfl h
  | cons a l ih =>
    rw [parts]
    by_cases ha : a = d
    · subst ha
      rw [if_pos rfl, List.idxOf_cons_self]
      rfl
    · have hidx : (a :: l).idxOf d = l.idxOf d + 1 := List.idxOf_cons_ne l ha
      rw [if_neg ha, hidx, List.take_succ_cons, List.drop_succ_cons]
      cases l with
      | nil => rfl
      | cons b l => rw [ih (List.cons_ne_nil _ _)]

theorem parts_append_cons (h : d ∉ part) (l : List α) :
    parts d (part ++ d :: l) = part :: parts d l := by
  induction part with
  | nil => rw [List.nil_append, parts, if_pos rfl]
  | cons a part ih =>
    obtain ⟨ha, hpart⟩ := List.ne_and_not_mem_of_not_mem_cons h
    rw [List.cons_append, parts, if_neg (Ne.symm ha), ih hpart]

theorem parts_of_not_mem (h : d ∉ part) (hne : part ≠ []) : parts d part = [part] := by
  have hidx : part.idxOf d = part.length := List.idxOf_eq_length h
  rw [parts_of_ne_nil hne, hidx, List.take_length, List.drop_eq_nil_of_le (Nat.le_succ _), parts]

/-- Parts that are joined with delimiters come apart again when the last of them is not empty. -/
theorem parts_intercalate {texts : List (List α)} (h : ∀ text ∈ texts, d ∉ text)
    (hlast : texts.getLast? ≠ some []) : parts d ([d].intercalate texts) = texts := by
  induction texts with
  | nil => rfl
  | cons text texts ih =>
    obtain ⟨htext, htexts⟩ := List.forall_mem_cons.mp h
    cases texts with
    | nil =>
      have hne : text ≠ [] := fun hnil => hlast (by rw [hnil]; rfl)
      rw [List.intercalate_singleton, parts_of_not_mem htext hne]
    | cons next texts =>
      rw [List.intercalate_cons_cons, List.append_assoc, List.singleton_append,
        parts_append_cons htext, ih htexts hlast]

end Parts

end Thunder.Text
