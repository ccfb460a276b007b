import Thunder.Core.Metadata
import Thunder.Core.Words
import Thunder.Library.Fields

/-! `TextSegmentIterator` on every kind of `TextFragment`, with one delimiter or a set of them.
Positions are `uint32_t`. -/

namespace Thunder.Core

/-- A part of a text that the fragment holds, or of the one at a pointer, which ends with its first
zero. -/
structure TextFragment where
  memory : Text
  atPointer : Bool
  first : Nat
  length : Nat
  inside : first + length ≤ memory.length
  small : memory.length < 2 ^ 32
  zeroFree : atPointer = true → 0 ∉ memory

/-- A delimiter, or a set of them where that is zero. -/
structure Delimiters where
  delimiter : UInt8
  delimiters : Text

namespace Delimiters

def holds (d : Delimiters) (c : UInt8) : Bool :=
  if d.delimiter = 0 then c ∈ d.delimiters else c = d.delimiter

end Delimiters

namespace TextFragment

/-- The characters of the fragment. -/
def text (f : TextFragment) : Text := (f.memory.drop f.first).take f.length

/-- `strchr`, on a text without zeros in it. -/
def strchr (d : Delimiters) (rest : Text) : Option Nat := rest.findIdx? d.holds

/-- `find_first_of`, with the length for a delimiter that is not found.  At a pointer one delimiter
is looked for behind the fragment too, and each of a set in the fragment only; in a text that it
holds it looks behind the fragment. -/
def findFirstOf (f : TextFragment) (d : Delimiters) (offset : Nat) : Nat :=
  if offset < f.length then
    if f.atPointer then
      if d.delimiter = 0 then
        offset + ((f.memory.drop (f.first + offset)).take (f.length - offset)).findIdx d.holds
      else
        match strchr d (f.memory.drop (f.first + offset)) with
        | some entry => min (offset + entry) f.length
        | none => f.length
    else
      let found :=
        match (f.memory.drop (f.first + offset)).findIdx? d.holds with
        | some entry => f.first + offset + entry
        | none => 2 ^ 32 - 1
      if found ≤ f.first + f.length then found - f.first else f.length
  else f.length

/-- `TextSegmentIterator`. -/
structure SegmentIterator where
  source : TextFragment
  delimiters : Delimiters
  suppressEmpty : Bool
  index : Nat

/-- The constructors, and `Reset`. -/
def iterator (source : TextFragment) (delimiters : Delimiters) (suppressEmpty : Bool) :
    SegmentIterator :=
  ⟨source, delimiters, suppressEmpty, 2 ^ 32 - 1⟩

namespace SegmentIterator

def start (it : SegmentIterator) : Nat := if it.index = 2 ^ 32 - 1 then 0 else u32 (it.index + 1)

/-- The loop of `Next`, for so many turns: where a segment starts and ends. -/
def nextLoop (it : SegmentIterator) : Nat → Nat → Option (Nat × Nat)
  | 0, _ => none
  | turns + 1, start =>
    if start < it.source.length then
      let index := it.source.findFirstOf it.delimiters start
      if it.suppressEmpty = false ∨ start ≤ index then some (start, index)
      else it.nextLoop turns (u32 (index + 1))
    else none

/-- `Next`, with the text of `Current` where it answers true. -/
def next (it : SegmentIterator) : Option Text × SegmentIterator :=
  match it.nextLoop (it.source.length + 1) it.start with
  | some (start, index) =>
    (some ((it.source.text.drop start).take (u32 (index + (2 ^ 32 - start)))),
      { it with index := index })
  | none => (none, { it with index := u32 (it.source.length + 1) })

/-- The calls of `Next` until one answers false, and the texts that they give. -/
inductive Yields : SegmentIterator → List Text → Prop
  | done {it : SegmentIterator} (h : it.next.1 = none) : Yields it []
  | more {it : SegmentIterator} {segment : Text} {segments : List Text}
      (h : it.next.1 = some segment) (rest : Yields it.next.2 segments) :
      Yields it (segment :: segments)

end SegmentIterator

/-- The segments are the fields between delimiters, all of them or those that are not empty. -/
def SegmentsRight (f : TextFragment) (d : Delimiters) (suppressEmpty : Bool) : Prop :=
  (f.iterator d suppressEmpty).Yields <|
    if suppressEmpty then (f.text.splitOnP d.holds).filter fun field => !field.isEmpty
    else f.text.splitOnP d.holds

variable {f : TextFragment} {d : Delimiters} {offset : Nat}

/-! ### One segment -/

theorem length_text (f : TextFragment) : f.text.length = f.length := by
  have hinside := f.inside
  rw [text, List.length_take, List.length_drop]
  omega

theorem drop_text (f : TextFragment) (offset : Nat) :
    f.text.drop offset = (f.memory.drop (f.first + offset)).take (f.length - offset) := by
  rw [text, List.drop_take, List.drop_drop]

/-- What is found is the next delimiter of the fragment, or its end. -/
theorem findFirstOf_eq (d : Delimiters) (h : offset < f.length) :
    f.findFirstOf d offset = offset + (f.text.drop offset).findIdx d.holds := by
  have hinside := f.inside
  have hsmall := f.small
  have hlen : (f.memory.drop (f.first + offset)).length = f.memory.length - (f.first + offset) :=
    List.length_drop
  rw [drop_text, List.findIdx_take, findFirstOf, if_pos h, strchr]
  have hidx : (f.memory.drop (f.first + offset)).findIdx d.holds =
      ((f.memory.drop (f.first + offset)).findIdx? d.holds).getD _ :=
    List.findIdx_eq_getD_findIdx?
  split_ifs with hpointer hset
  · rw [List.findIdx_take]
  · cases hfind : (f.memory.drop (f.first + offset)).findIdx? d.holds with
    | none =>
      rw [hfind, Option.getD_none] at hidx
      show f.length = _
      omega
    | some entry =>
      rw [hfind, Option.getD_some] at hidx
      show min (offset + entry) f.length = _
      omega
  · cases hfind : (f.memory.drop (f.first + offset)).findIdx? d.holds with
    | none =>
      rw [hfind, Option.getD_none] at hidx
      simp only
      split_ifs <;> omega
    | some entry =>
      rw [hfind, Option.getD_some] at hidx
      simp only
      split_ifs <;> omega

namespace SegmentIterator

variable {it : SegmentIterator} {segments more : List Text}

/-- What `Next` has not been through. -/
def rest (it : SegmentIterator) : Text := it.source.text.drop it.start

/-- There is no call of `Next` that does not find the end of a segment with its first look. -/
theorem nextLoop_eq (it : SegmentIterator) (turns start : Nat) :
    it.nextLoop (turns + 1) start =
      if start < it.source.length then
        some (start, start + (it.source.text.drop start).findIdx it.delimiters.holds)
      else none := by
  rw [nextLoop]
  by_cases hstart : start < it.source.length
  · simp only [if_pos hstart, findFirstOf_eq it.delimiters hstart]
    rw [if_pos (.inr (Nat.le_add_right _ _))]
  · rw [if_neg hstart, if_neg hstart]

theorem next_of_le (h : it.source.length ≤ it.start) :
    it.next = (none, { it with index := u32 (it.source.length + 1) }) := by
  rw [next, nextLoop_eq, if_neg (Nat.not_lt_of_le h)]

theorem next_of_lt (h : it.start < it.source.length) :
    it.next = (some (it.rest.take (it.rest.findIdx it.delimiters.holds)),
      { it with index := it.start + it.rest.findIdx it.delimiters.holds }) := by
  have hlen : it.rest.length = it.source.length - it.start := by
    rw [rest, List.length_drop, length_text]
  have hidx : it.rest.findIdx it.delimiters.holds ≤ it.rest.length := List.findIdx_le_length
  have hinside := it.source.inside
  have hsmall := it.source.small
  rw [next, nextLoop_eq, if_pos h, ← rest]
  have hn : u32 (it.start + it.rest.findIdx it.delimiters.holds + (2 ^ 32 - it.start)) =
      it.rest.findIdx it.delimiters.holds := by
    rw [u32]
    omega
  simp only [hn]
  rfl

/-- It is not at an index that it takes for the begin. -/
theorem start_of_lt {index : Nat} (h : index < 2 ^ 32 - 1) (it : SegmentIterator) :
    start { it with index := index } = index + 1 := by
  rw [start, if_neg (Nat.ne_of_lt h), u32_of_lt (Nat.lt_sub_iff_add_lt.mp h)]

theorem length_rest (it : SegmentIterator) : it.rest.length = it.source.length - it.start := by
  rw [rest, List.length_drop, length_text]

/-- A segment with a delimiter behind it: the next one starts there. -/
theorem next_cut {field l : Text} {sep : UInt8} (hrest : it.rest = field ++ sep :: l)
    (hfield : ∀ c ∈ field, it.delimiters.holds c = false) (hsep : it.delimiters.holds sep = true) :
    ∃ index, it.next = (some field, { it with index := index }) ∧
      rest { it with index := index } = l := by
  have hidx : it.rest.findIdx it.delimiters.holds = field.length := by
    rw [hrest, List.findIdx_append, List.findIdx_eq_length_of_false hfield,
      if_neg (Nat.lt_irrefl _), List.findIdx_cons, hsep, cond_true, Nat.zero_add]
  have hlen := it.length_rest
  rw [hrest, List.length_append, List.length_cons] at hlen
  have hinside := it.source.inside
  have hsmall := it.source.small
  refine ⟨it.start + field.length, ?_, ?_⟩
  · rw [next_of_lt (by omega), hidx, hrest, List.take_left]
  · rw [rest, start_of_lt (by omega), Nat.add_assoc, ← List.drop_drop, ← rest, hrest]
    simp

/-- The last segment. -/
theorem next_last (hrest : ∀ c ∈ it.rest, it.delimiters.holds c = false) (hne : it.rest ≠ []) :
    it.next = (some it.rest, { it with index := it.source.length }) := by
  have hlen := it.length_rest
  have hpos := List.length_pos_of_ne_nil hne
  rw [next_of_lt (by omega), List.findIdx_eq_length_of_false hrest, List.take_length, hlen,
    Nat.add_sub_cancel' (by omega)]

theorem yields_nil (h : it.rest = []) : it.Yields [] := by
  apply Yields.done
  have hlen := it.length_rest
  rw [h, List.length_nil] at hlen
  rw [next_of_le (by omega)]

theorem open_of_forall {p : UInt8 → Bool} {field : Text} (h : ∀ c ∈ field, p c = false)
    (hne : field ≠ []) : Text.Open p field :=
  ⟨field.getLast hne, List.getLast?_eq_some_getLast hne, h _ (List.getLast_mem hne)⟩

/-- Where the end of the text is not the index that is taken for its begin, the segments are the
fields, without an empty one at the end. -/
theorem yields_fields (d : Delimiters) (l : Text) (it : SegmentIterator) (hd : it.delimiters = d)
    (hrest : it.rest = l)
    (h : it.source.length < 2 ^ 32 - 1 ∨ ¬ Text.Open d.holds l) :
    it.Yields (Text.fields d.holds l) := by
  induction l using Text.split_induction (p := d.holds) generalizing it with
  | last field hfield =>
    by_cases hne : field = []
    · subst hne
      exact yields_nil hrest
    · have hlt := h.resolve_right (not_not_intro (open_of_forall hfield hne))
      subst hd hrest
      have hnext := next_last hfield hne
      rw [Text.fields_of_forall hfield hne]
      apply Yields.more (congrArg Prod.fst hnext)
      rw [hnext]
      apply yields_nil
      rw [rest, start_of_lt hlt, List.drop_eq_nil_iff, length_text]
      exact Nat.le_succ _
  | cut field sep l hfield hsep ih =>
    subst hd
    obtain ⟨index, hnext, hafter⟩ := next_cut hrest hfield hsep
    rw [Text.fields_cut hfield hsep]
    apply Yields.more (congrArg Prod.fst hnext)
    rw [hnext]
    rw [Text.open_cut field hsep] at h
    exact ih _ rfl hafter h

theorem Yields.unique {a b : List Text} (ha : it.Yields a) (hb : it.Yields b) : a = b := by
  induction ha generalizing b with
  | done h =>
    cases hb with
    | done _ => rfl
    | more h' _ => rw [h] at h'; cases h'
  | more h _ ih =>
    cases hb with
    | done h' => rw [h] at h'; cases h'
    | more h' rest =>
      rw [h] at h'
      rw [Option.some.inj h', ih rest]

/-- At that length the last segment is followed by the first one. -/
theorem Yields.again (d : Delimiters) (l : Text) (it : SegmentIterator) (hd : it.delimiters = d)
    (hrest : it.rest = l) (hlen : it.source.length = 2 ^ 32 - 1) (hopen : Text.Open d.holds l)
    (h : it.Yields segments) : ∃ fewer, fewer.length < segments.length ∧
      Yields { it with index := 2 ^ 32 - 1 } fewer := by
  induction l using Text.split_induction (p := d.holds) generalizing it segments with
  | last field hfield =>
    have hne : field ≠ [] := by
      rintro rfl
      obtain ⟨c, hc, -⟩ := hopen
      cases hc
    subst hd hrest
    have hnext := next_last hfield hne
    cases h with
    | done h =>
      rw [hnext] at h
      cases h
    | more _ rest =>
      rw [hnext, hlen] at rest
      exact ⟨_, Nat.lt_succ_self _, rest⟩
  | cut field sep l hfield hsep ih =>
    subst hd
    obtain ⟨index, hnext, hafter⟩ := next_cut hrest hfield hsep
    cases h with
    | done h =>
      rw [hnext] at h
      cases h
    | more _ rest =>
      rw [hnext] at rest
      obtain ⟨fewer, hfewer, hagain⟩ :=
        ih { it with index := index } rfl hafter hlen ((Text.open_cut field hsep l).mp hopen) rest
      exact ⟨fewer, Nat.lt_succ_of_lt hfewer, hagain⟩

end SegmentIterator

open SegmentIterator

theorem rest_iterator (f : TextFragment) (d : Delimiters) (suppressEmpty : Bool) :
    (f.iterator d suppressEmpty).rest = f.text := by
  rw [rest, start, iterator, if_pos rfl, List.drop_zero]

/-- The segments come to an end exactly if the last index is not taken for the begin. -/
theorem yields_iff (f : TextFragment) (d : Delimiters) (suppressEmpty : Bool)
    (segments : List Text) :
    (f.iterator d suppressEmpty).Yields segments ↔
      (f.length < 2 ^ 32 - 1 ∨ ¬ Text.Open d.holds f.text) ∧
        segments = Text.fields d.holds f.text := by
  have hrest := rest_iterator f d suppressEmpty
  have hfields := yields_fields d f.text (f.iterator d suppressEmpty) rfl hrest
  constructor
  · intro h
    have hends : f.length < 2 ^ 32 - 1 ∨ ¬ Text.Open d.holds f.text := by
      by_contra hnot
      obtain ⟨hlong, hopen⟩ := not_or.mp hnot
      have hlen : f.length = 2 ^ 32 - 1 := by
        have hinside := f.inside
        have hsmall := f.small
        omega
      induction hn : segments.length using Nat.strong_induction_on generalizing segments with
      | _ n ih =>
        obtain ⟨fewer, hfewer, hagain⟩ :=
          h.again d f.text _ rfl hrest hlen (not_not.mp hopen)
        exact ih _ (hn ▸ hfewer) fewer hagain rfl
    exact ⟨hends, h.unique (hfields hends)⟩
  · rintro ⟨hends, rfl⟩
    exact hfields hends

/-- The segments are the fields exactly if there is no empty field that is left out or kept against
what is asked for, and the length of the text is not that of the greatest index. -/
theorem segments_exact (f : TextFragment) (d : Delimiters) (suppressEmpty : Bool) :
    SegmentsRight f d suppressEmpty ↔
      if suppressEmpty then Text.spaced d.holds true f.text = true ∧
        (f.length < 2 ^ 32 - 1 ∨ ¬ Text.Open d.holds f.text)
      else Text.Open d.holds f.text ∧ f.length < 2 ^ 32 - 1 := by
  rw [SegmentsRight, yields_iff]
  cases suppressEmpty with
  | true =>
    simp only [if_true]
    rw [and_comm, eq_comm, Text.fields_eq_filter_iff]
  | false =>
    simp only [Bool.false_eq_true, if_false]
    rw [and_comm, eq_comm, Text.fields_eq_splitOnP_iff]
    exact and_congr_right fun hopen => or_iff_left (not_not_intro hopen)

/-- A fragment that holds the text `a,,b`. -/
def letters : TextFragment :=
  ⟨[0x61, 0x2C, 0x2C, 0x62], false, 0, 4, by decide, by decide, nofun⟩

/-- The empty field between two commas is not suppressed. -/
theorem not_segments_exact : ¬ ∀ f d suppressEmpty, SegmentsRight f d suppressEmpty := by
  intro h
  have hright := (yields_iff letters ⟨0x2C, []⟩ true _).mp (h letters ⟨0x2C, []⟩ true)
  have hspaced := (Text.fields_eq_filter_iff _).mp hright.2.symm
  exact absurd hspaced (by decide)

end TextFragment

end Thunder.Core
