import Thunder.Core.Metadata
import Thunder.Library.Text
import Mathlib.Algebra.Group.Nat.Defs

/-! `TextSegmentIterator` on one delimiter, with `suppressEmpty` off: `Next` hands out the text from
behind the last delimiter up to the next one, which may be empty. -/

namespace Thunder.Core

/-- The iterator; `index` is `none` before the first call of `Next`. -/
structure TextSegmentIterator where
  source : Text
  delimiter : UInt8
  index : Option Nat
  deriving DecidableEq, Repr

namespace TextSegmentIterator

/-- `TextFragment::find_first_of`, with the length for a delimiter that is not found. -/
def findFirstOf (source : Text) (offset : Nat) (delimiter : UInt8) : Nat :=
  if offset < source.length then offset + (source.drop offset).idxOf delimiter else source.length

def start (iterator : TextSegmentIterator) : Nat :=
  match iterator.index with
  | none => 0
  | some index => index + 1

/-- `Next`, with the text of `Current` where it answers true. -/
def next (iterator : TextSegmentIterator) : Option Text × TextSegmentIterator :=
  let start := iterator.start
  if start < iterator.source.length then
    let index := findFirstOf iterator.source start iterator.delimiter
    (some ((iterator.source.drop start).take (index - start)),
      { iterator with index := some index })
  else (none, { iterator with index := some (iterator.source.length + 1) })

/-- The texts of the next calls of `Next`, up to `count` of them. -/
def collect : Nat → TextSegmentIterator → List Text
  | 0, _ => []
  | count + 1, iterator =>
    match iterator.next with
    | (none, _) => []
    | (some text, iterator) => text :: collect count iterator

/-- The texts of all calls of `Next` that follow; every one of them takes a character or more of
the source. -/
def segments (iterator : TextSegmentIterator) : List Text :=
  collect (iterator.source.length - iterator.start) iterator

/-- What `Next` has not been through. -/
def rest (iterator : TextSegmentIterator) : Text := iterator.source.drop iterator.start

variable {iterator : TextSegmentIterator}

theorem next_of_rest_nil (h : iterator.rest = []) : iterator.next.1 = none := by
  have hlen : ¬ iterator.start < iterator.source.length := by
    rw [rest, List.drop_eq_nil_iff] at h
    omega
  rw [next, if_neg hlen]

theorem next_of_rest (h : iterator.rest ≠ []) : ∃ after, iterator.next =
      (some (iterator.rest.take (iterator.rest.idxOf iterator.delimiter)), after) ∧
    after.delimiter = iterator.delimiter ∧
    after.rest = iterator.rest.drop (iterator.rest.idxOf iterator.delimiter + 1) := by
  have hlen : iterator.start < iterator.source.length := by
    rw [rest, Ne, List.drop_eq_nil_iff] at h
    omega
  refine ⟨{ iterator with index := some (iterator.start +
    (iterator.source.drop iterator.start).idxOf iterator.delimiter) }, ?_, rfl, ?_⟩
  · simp only [next, if_pos hlen, findFirstOf, Nat.add_sub_cancel_left]
    rfl
  · rw [rest, rest, List.drop_drop, ← Nat.add_assoc]
    rfl

theorem collect_eq (count : Nat) (iterator : TextSegmentIterator)
    (h : iterator.rest.length ≤ count) :
    collect count iterator = Text.parts iterator.delimiter iterator.rest := by
  induction count generalizing iterator with
  | zero =>
    rw [List.eq_nil_of_length_eq_zero (Nat.le_zero.mp h)]
    rfl
  | succ count ih =>
    rw [collect]
    by_cases hnil : iterator.rest = []
    · have hnext := next_of_rest_nil hnil
      rw [hnil]
      split
      · rfl
      · rename_i heq
        rw [heq] at hnext
        cases hnext
    · obtain ⟨after, hnext, hdelimiter, hrest⟩ := next_of_rest hnil
      have hshort : after.rest.length ≤ count := by
        have := List.length_pos_of_ne_nil hnil
        rw [hrest, List.length_drop]
        omega
      rw [hnext, Text.parts_of_ne_nil hnil, ← hrest, ← hdelimiter]
      exact congrArg _ (ih after hshort)

/-- The segments are the parts of the source between its delimiters. -/
theorem segments_eq (iterator : TextSegmentIterator) :
    iterator.segments = Text.parts iterator.delimiter iterator.rest :=
  collect_eq _ _ (Nat.le_of_eq List.length_drop)

end TextSegmentIterator

end Thunder.Core
