import Thunder.Library.Bytes
import Thunder.Library.Search

/-! `Search` and `SearchNumber` of a `DataElement`: where a pattern of bytes lies in the element.
The model follows the content `l` of the element; a read outside of it has no result. -/

namespace Thunder.Core.DataElement

open Bytes Search

/-- `memchr` reads one byte after the other and stops at the byte that it looks for. -/
def memchr (l : List UInt8) (b : UInt8) : Nat → Nat → Option (Option Nat)
  | _, 0 => some none
  | start, count + 1 => do
    let byte ← l[start]?
    if byte = b then some (some start) else memchr l b (start + 1) count

/-- `memcmp` with the bytes from `start` on; all of the bytes that it is given have to be there. -/
def memcmp (l : List UInt8) (start : Nat) (bytes : List UInt8) : Option Bool :=
  if start + bytes.length ≤ l.length then some ((l.drop start).take bytes.length == bytes) else none

/-- The `entry` of a turn of the loop, as an index. -/
def entryFrom (l : List UInt8) (b : UInt8) (index : Nat) : Option (Option Nat) :=
  if l[index]? = some b then some (some index)
  else memchr l b index ((l.length - index) % 2 ^ 32)

def searchLoop (l : List UInt8) (b : UInt8) (tail : List UInt8) : Nat → Nat → Option Nat
  | 0, _ => none
  | fuel + 1, index =>
    if index + (tail.length + 1) < l.length then do
      match ← entryFrom l b index with
      | none => searchLoop l b tail fuel l.length
      | some index =>
        let found ← memcmp l (index + 1) tail
        if found then some index else searchLoop l b tail fuel (index + 1)
    else some l.length

/-- An index and the size of a pattern are far below `2 ^ 64`, where their sum would be cut. -/
def search (l : List UInt8) (offset : Nat) : List UInt8 → Option Nat
  | [] => none
  | b :: tail => searchLoop l b tail (l.length + 1) offset

inductive NumberEndian
  | little
  | middle
  | big
  deriving DecidableEq

/-- The bytes of a number in the memory. -/
def memory (littlePlatform : Bool) (width n : Nat) : List UInt8 :=
  if littlePlatform then littleEndian width n else bigEndian width n

/-- `SearchNumber` of an element with the content `l`, a view from `viewOffset` on.  `m_Buffer` is
the first byte of the view already. -/
def searchNumber (littlePlatform : Bool) (width : Nat) (endian : NumberEndian) (l : List UInt8)
    (viewOffset offset info : Nat) : Option Nat :=
  if width > 1 ∧ endian = (if littlePlatform then NumberEndian.big else .little) then
    search l offset (memory littlePlatform width info).reverse
  else if width > 1 then search l offset (memory littlePlatform width info)
  else do
    match ← memchr l (UInt8.ofNat info) (viewOffset + offset) ((l.length - offset) % 2 ^ 32) with
    | none => some l.length
    | some entry => some (entry - viewOffset)

/-- The bytes that a number has in an order; the order in the middle is the one of the platform. -/
def NumberEndian.bytes (littlePlatform : Bool) (endian : NumberEndian) (width n : Nat) :
    List UInt8 :=
  match endian with
  | .little => littleEndian width n
  | .middle => memory littlePlatform width n
  | .big => bigEndian width n

/-- A search returns the first place of the pattern from the offset on, or the size. -/
def Finds (l pattern : List UInt8) (offset : Nat) (result : Option Nat) : Prop :=
  ∃ r, result = some r ∧ FirstOr l.length (Occurs l pattern) offset r

/-! ### The exact condition -/

/-- The byte `b` is at `i`. -/
abbrev At (l : List UInt8) (b : UInt8) (i : Nat) : Prop := l[i]? = some b

/-- The loop goes on at `t`: at the offset, or behind a byte that the pattern starts with. -/
def Turn (l : List UInt8) (b : UInt8) (offset t : Nat) : Prop :=
  t = offset ∨ (offset < t ∧ At l b (t - 1))

/-- The next `b` from `t` on is among the bytes that are looked at, of which there are less than
`2 ^ 32`. -/
def Sees (l : List UInt8) (b : UInt8) (t : Nat) : Prop :=
  ∀ m, First (At l b) t m → m = t ∨ m - t < (l.length - t) % 2 ^ 32

/-- `Search` does what it should for a pattern in the content exactly when the pattern ends before
the last byte, or is found with a jump; for any other pattern exactly when the last jump stays where
the pattern could lie. -/
def Searches (l : List UInt8) (b : UInt8) (tail : List UInt8) (offset : Nat) : Prop :=
  (∃ m, First (Occurs l (b :: tail)) offset m ∧ (∀ t ≤ m, Turn l b offset t → Sees l b t) ∧
    (m + (tail.length + 1) < l.length ∨ (offset < m ∧ ¬At l b (m - 1)))) ∨
  ((∀ m, offset ≤ m → ¬Occurs l (b :: tail) m) ∧
    ∀ t m, Turn l b offset t → First (At l b) t m → t + (tail.length + 1) < l.length →
      (∀ t' ≤ t, Turn l b offset t' → Sees l b t') → m + (tail.length + 1) ≤ l.length)

variable {l tail : List UInt8} {b : UInt8} {offset start count index m t : Nat}

/-! ### The functions of the library -/

theorem memchr_found :
    memchr l b start count = some (some m) ↔ First (At l b) start m ∧ m < start + count := by
  induction count generalizing start with
  | zero =>
    refine iff_of_false (by simp [memchr]) ?_
    rintro ⟨h, hlt⟩
    exact absurd h.le (by omega)
  | succ count ih =>
    rw [memchr]
    cases hbyte : l[start]? with
    | none =>
      refine iff_of_false (by simp) ?_
      rintro ⟨h, -⟩
      have hlt := (List.getElem?_eq_some_iff.mp h.here).1
      have hle := List.getElem?_eq_none_iff.mp hbyte
      exact absurd h.le (by omega)
    | some byte =>
      simp only [Option.bind_eq_bind, Option.bind_some]
      by_cases hb : byte = b
      · have hself : First (At l b) start start := first_self (hb ▸ hbyte)
        rw [if_pos hb, Option.some.injEq, Option.some.injEq]
        refine ⟨fun h => ?_, fun h => hself.unique h.1⟩
        subst h
        exact ⟨hself, by omega⟩
      · have hnot : ∀ i, start ≤ i → i < start + 1 → ¬At l b i := by
          intro i hi hlt hat
          obtain rfl : i = start := by omega
          exact hb (Option.some.inj (hbyte.symm.trans hat))
        rw [if_neg hb, ih, first_iff_of_not (Nat.le_succ start) hnot,
          show start + 1 + count = start + (count + 1) by omega]

theorem memchr_null : memchr l b start count = some none ↔
    (count = 0 ∨ start + count ≤ l.length) ∧ ∀ m, First (At l b) start m → start + count ≤ m := by
  induction count generalizing start with
  | zero => exact iff_of_true rfl ⟨.inl rfl, fun m h => h.le⟩
  | succ count ih =>
    rw [memchr]
    cases hbyte : l[start]? with
    | none =>
      have hle := List.getElem?_eq_none_iff.mp hbyte
      exact iff_of_false (by simp) fun h => absurd h.1 (by omega)
    | some byte =>
      have hstart := (List.getElem?_eq_some_iff.mp hbyte).1
      simp only [Option.bind_eq_bind, Option.bind_some]
      by_cases hb : byte = b
      · rw [if_pos hb]
        refine iff_of_false (by simp) fun h => ?_
        have hle := h.2 start (first_self (hb ▸ hbyte))
        omega
      · have hnot : ∀ i, start ≤ i → i < start + 1 → ¬At l b i := by
          intro i hi hlt hat
          obtain rfl : i = start := by omega
          exact hb (Option.some.inj (hbyte.symm.trans hat))
        simp only [if_neg hb, ih, first_iff_of_not (Nat.le_succ start) hnot,
          show start + 1 + count = start + (count + 1) by omega]
        exact and_congr_left fun _ => by omega

theorem memcmp_eq (h : start + tail.length ≤ l.length) :
    memcmp l start tail = some (decide (Occurs l tail start)) := by
  rw [memcmp, if_pos h, Option.some.injEq, Bool.eq_iff_iff, beq_iff_eq, decide_eq_true_iff,
    occurs_iff_take]

theorem memcmp_eq_none (h : l.length < start + tail.length) : memcmp l start tail = none :=
  if_neg (by omega)

/-- A turn of the loop: the next `b` is seen, or there is none that is. -/
theorem entryFrom_cases (l : List UInt8) (b : UInt8) (index : Nat) :
    (∃ m, First (At l b) index m ∧ Sees l b index ∧ entryFrom l b index = some (some m)) ∨
    (entryFrom l b index = some none ∧ (Sees l b index → ∀ i, index ≤ i → ¬At l b i)) := by
  by_cases hhere : At l b index
  · have hself : First (At l b) index index := first_self hhere
    exact .inl ⟨index, hself, fun m h => .inl (h.unique hself), if_pos hhere⟩
  · rw [entryFrom, if_neg hhere]
    by_cases hseen : ∃ m, First (At l b) index m ∧ m < index + (l.length - index) % 2 ^ 32
    · obtain ⟨m, hm, hlt⟩ := hseen
      refine .inl ⟨m, hm, fun m' h => .inr ?_, memchr_found.mpr ⟨hm, hlt⟩⟩
      have heq := h.unique hm
      have hle := hm.le
      omega
    · have hfar : ∀ m, First (At l b) index m → index + (l.length - index) % 2 ^ 32 ≤ m := by
        intro m hm
        by_contra hlt
        exact hseen ⟨m, hm, by omega⟩
      have hmod := Nat.mod_le (l.length - index) (2 ^ 32)
      refine .inr ⟨memchr_null.mpr ⟨by omega, hfar⟩, fun hsees i hi hat => ?_⟩
      obtain ⟨m, hm⟩ := exists_first hi hat
      have hle := hm.le
      have hge := hfar m hm
      rcases hsees m hm with heq | hlt
      · exact hhere (heq ▸ hm.here)
      · omega

/-! ### The turns of the loop -/

theorem Turn.le (h : Turn l b offset t) : offset ≤ t := by
  rcases h with h | ⟨h, -⟩
  · exact le_of_eq h.symm
  · exact h.le

/-- The turns behind the next `b` are those of a search that starts there. -/
theorem turn_iff (hm : First (At l b) offset m) :
    Turn l b offset t ↔ t = offset ∨ Turn l b (m + 1) t := by
  have hle := hm.le
  constructor
  · rintro (h | ⟨hlt, hat⟩)
    · exact .inl h
    · have hmt : m ≤ t - 1 := hm.le_of (by omega) hat
      rcases Nat.eq_or_lt_of_le (show m + 1 ≤ t by omega) with h | h
      · exact .inr (.inl h.symm)
      · exact .inr (.inr ⟨h, hat⟩)
  · rintro (h | h | ⟨hlt, hat⟩)
    · exact .inl h
    · exact .inr ⟨by omega, h ▸ hm.here⟩
    · exact .inr ⟨by omega, hat⟩

theorem sees_turns_iff {r : Nat} (hm : First (At l b) offset m) (hsees : Sees l b offset) :
    (∀ t ≤ r, Turn l b offset t → Sees l b t) ↔ ∀ t ≤ r, Turn l b (m + 1) t → Sees l b t := by
  refine forall₂_congr fun t ht => ?_
  rw [turn_iff hm]
  constructor
  · exact fun h hturn => h (.inr hturn)
  · rintro h (rfl | hturn)
    · exact hsees
    · exact h hturn

theorem at_of_occurs (h : Occurs l (b :: tail) m) : At l b m := (occurs_cons.mp h).1

/-- No occurrence is passed over by a jump. -/
theorem not_occurs_of_first (hm : First (At l b) offset m) (hnot : ¬Occurs l (b :: tail) m)
    (i : Nat) (hi : offset ≤ i) (hlt : i < m + 1) : ¬Occurs l (b :: tail) i := by
  intro hocc
  have hle := hm.le_of hi (at_of_occurs hocc)
  obtain rfl : i = m := by omega
  exact hnot hocc

/-! ### The condition at a turn -/

theorem searches_end (hend : l.length ≤ offset + (tail.length + 1)) :
    Searches l b tail offset ↔ ∀ m, offset ≤ m → ¬Occurs l (b :: tail) m := by
  constructor
  · rintro (⟨m, hm, -, hlt⟩ | ⟨h, -⟩)
    · have hfit := hm.here.add_le
      have hle := hm.le
      rcases hlt with hlt | ⟨hlt, -⟩ <;> omega
    · exact h
  · refine fun h => .inr ⟨h, fun t m hturn _ hlt => ?_⟩
    have hle := hturn.le
    omega

theorem searches_here (hm : First (At l b) offset m) (hsees : Sees l b offset)
    (hrun : offset + (tail.length + 1) < l.length) (hocc : Occurs l (b :: tail) m) :
    Searches l b tail offset := by
  refine .inl ⟨m, ⟨hm.le, hocc, fun i hi hlt h => hm.before i hi hlt (at_of_occurs h)⟩, ?_, ?_⟩
  · rw [sees_turns_iff hm hsees]
    intro t ht hturn
    have hle := hturn.le
    omega
  · rcases Nat.eq_or_lt_of_le hm.le with heq | hlt
    · exact .inl (heq ▸ hrun)
    · exact .inr ⟨hlt, hm.before (m - 1) (by omega) (by omega)⟩

theorem searches_later (hm : First (At l b) offset m) (hsees : Sees l b offset)
    (hfit : m + (tail.length + 1) ≤ l.length) (hnot : ¬Occurs l (b :: tail) m) :
    Searches l b tail offset ↔ Searches l b tail (m + 1) := by
  have hle := hm.le
  have hpassed := not_occurs_of_first hm hnot
  unfold Searches
  rw [forall_iff_of_not (by omega) hpassed]
  refine or_congr (exists_congr fun r => ?_) (and_congr_right fun _ => ?_)
  · rw [first_iff_of_not (by omega) hpassed, sees_turns_iff hm hsees]
    refine and_congr_right fun hr => and_congr_right fun _ => or_congr_right ?_
    refine and_congr_left fun hr' => ?_
    have hmr := hr.le
    have hne : r ≠ m + 1 := by
      rintro rfl
      exact hr' hm.here
    omega
  · constructor
    · intro h t r hturn hr hrun hall
      exact h t r ((turn_iff hm).mpr (.inr hturn)) hr hrun ((sees_turns_iff hm hsees).mpr hall)
    · intro h t r hturn hr hrun hall
      rcases (turn_iff hm).mp hturn with rfl | hturn
      · rwa [hr.unique hm]
      · exact h t r hturn hr hrun ((sees_turns_iff hm hsees).mp hall)

theorem not_searches (hm : First (At l b) offset m) (hrun : offset + (tail.length + 1) < l.length)
    (hsees : Sees l b offset) (hout : l.length < m + (tail.length + 1)) :
    ¬Searches l b tail offset := by
  rintro (⟨r, hr, -, -⟩ | ⟨-, h⟩)
  · have hfit := hr.here.add_le
    have hle := hm.le_of hr.le (at_of_occurs hr.here)
    omega
  · have hfit := h offset m (.inl rfl) hm hrun fun t ht hturn => by
      obtain rfl : t = offset := le_antisymm ht hturn.le
      exact hsees
    omega

theorem searches_unseen (hunseen : Sees l b offset → ∀ i, offset ≤ i → ¬At l b i) :
    Searches l b tail offset ↔ ∀ m, offset ≤ m → ¬Occurs l (b :: tail) m := by
  constructor
  · rintro (⟨r, hr, hall, -⟩ | ⟨h, -⟩)
    · exact absurd (at_of_occurs hr.here) (hunseen (hall offset hr.le (.inl rfl)) r hr.le)
    · exact h
  · refine fun h => .inr ⟨h, fun t r hturn hr _ hall => ?_⟩
    have hsees := hall offset hturn.le (.inl rfl)
    exact absurd hr.here (hunseen hsees r (le_trans hturn.le hr.le))

/-! ### The whole loop -/

theorem finds_some {p : List UInt8} {r : Nat} :
    Finds l p offset (some r) ↔ FirstOr l.length (Occurs l p) offset r := by
  simp [Finds]

theorem not_finds_none {p : List UInt8} : ¬Finds l p offset none := by
  simp [Finds]

theorem finds_size : Finds l (b :: tail) offset (some l.length) ↔
    ∀ m, offset ≤ m → ¬Occurs l (b :: tail) m := by
  rw [finds_some, FirstOr]
  constructor
  · rintro (h | h)
    · have hfit := h.here.add_le
      omega
    · exact h.2
  · exact fun h => .inr ⟨rfl, h⟩

theorem finds_later {result : Option Nat} (hm : First (At l b) offset m)
    (hnot : ¬Occurs l (b :: tail) m) :
    Finds l (b :: tail) offset result ↔ Finds l (b :: tail) (m + 1) result := by
  have hle := hm.le
  unfold Finds
  simp only [firstOr_iff_of_not (show offset ≤ m + 1 by omega) (not_occurs_of_first hm hnot)]

theorem searchLoop_end {fuel : Nat} (hend : l.length ≤ index + (tail.length + 1)) :
    searchLoop l b tail (fuel + 1) index = some l.length :=
  if_neg (by omega)

theorem searchLoop_finds {fuel : Nat} (hfuel : l.length - offset < fuel) :
    Finds l (b :: tail) offset (searchLoop l b tail fuel offset) ↔ Searches l b tail offset := by
  induction fuel generalizing offset with
  | zero => omega
  | succ fuel ih =>
    by_cases hrun : offset + (tail.length + 1) < l.length
    swap
    · rw [searchLoop_end (by omega), finds_size, searches_end (by omega)]
    rw [searchLoop, if_pos hrun]
    rcases entryFrom_cases l b offset with ⟨m, hm, hsees, hentry⟩ | ⟨hentry, hunseen⟩
    · have hle := hm.le
      rw [hentry]
      simp only [Option.bind_eq_bind, Option.bind_some]
      by_cases hfit : m + 1 + tail.length ≤ l.length
      · rw [memcmp_eq hfit, Option.bind_some]
        by_cases htail : Occurs l tail (m + 1)
        · have hocc : Occurs l (b :: tail) m := occurs_cons.mpr ⟨hm.here, htail⟩
          rw [decide_eq_true htail, if_pos rfl, finds_some]
          have hfirst : First (Occurs l (b :: tail)) offset m :=
            ⟨hle, hocc, fun i hi hlt h => hm.before i hi hlt (at_of_occurs h)⟩
          exact iff_of_true (.inl hfirst) (searches_here hm hsees hrun hocc)
        · have hnot : ¬Occurs l (b :: tail) m := fun h => htail (occurs_cons.mp h).2
          rw [decide_eq_false htail, if_neg Bool.false_ne_true, finds_later hm hnot,
            ih (by omega), searches_later hm hsees (by omega) hnot]
      · rw [memcmp_eq_none (by omega)]
        exact iff_of_false not_finds_none (not_searches hm hrun hsees (by omega))
    · obtain ⟨fuel, rfl⟩ : ∃ n, fuel = n + 1 := ⟨fuel - 1, by omega⟩
      rw [hentry]
      simp only [Option.bind_eq_bind, Option.bind_some]
      rw [searchLoop_end (Nat.le_add_right ..), finds_size, searches_unseen hunseen]

/-! ### Numbers -/

/-- The condition for a pattern of any bytes; a pattern without bytes is not read. -/
def SearchesFor (l : List UInt8) (offset : Nat) : List UInt8 → Prop
  | [] => False
  | b :: tail => Searches l b tail offset

/-- The offset of the view is added a second time where one byte is looked for. -/
def SearchesByte (l : List UInt8) (b : UInt8) (viewOffset offset : Nat) : Prop :=
  let count := (l.length - offset) % 2 ^ 32
  (∃ m, First (At l b) offset m ∧ First (At l b) (viewOffset + offset) (viewOffset + m) ∧
    m < offset + count) ∨
  ((∀ m, offset ≤ m → ¬At l b m) ∧ (count = 0 ∨ viewOffset + offset + count ≤ l.length))

def SearchesNumber (littlePlatform : Bool) (width : Nat) (endian : NumberEndian) (l : List UInt8)
    (viewOffset offset info : Nat) : Prop :=
  if width = 1 then SearchesByte l (UInt8.ofNat info) viewOffset offset
  else SearchesFor l offset (endian.bytes littlePlatform width info)

theorem search_finds (l p : List UInt8) (offset : Nat) :
    Finds l p offset (search l offset p) ↔ SearchesFor l offset p := by
  cases p with
  | nil => exact iff_of_false not_finds_none id
  | cons b tail => exact searchLoop_finds (by omega)

/-- What is turned around on the way to `Search` are the bytes of the other order. -/
theorem searchNumber_eq_search {width : Nat} (hwidth : 1 < width) (littlePlatform : Bool)
    (endian : NumberEndian) (viewOffset info : Nat) :
    searchNumber littlePlatform width endian l viewOffset offset info =
      search l offset (endian.bytes littlePlatform width info) := by
  cases littlePlatform <;> cases endian <;>
    simp [searchNumber, hwidth, NumberEndian.bytes, memory, littleEndian]

theorem memchr_finds {viewOffset : Nat} :
    Finds l [b] offset (do
      match ← memchr l b (viewOffset + offset) ((l.length - offset) % 2 ^ 32) with
      | none => some l.length
      | some entry => some (entry - viewOffset)) ↔ SearchesByte l b viewOffset offset := by
  have hocc : Occurs l [b] = At l b := funext fun i => propext occurs_singleton
  unfold SearchesByte
  rcases hread : memchr l b (viewOffset + offset) ((l.length - offset) % 2 ^ 32) with _ | _ | j
  · refine iff_of_false not_finds_none ?_
    rintro (⟨m, -, hm, hlt⟩ | ⟨hnone, hroom⟩)
    · have hfound := memchr_found.mpr ⟨hm, show _ < _ + (l.length - offset) % 2 ^ 32 by omega⟩
      rw [hread] at hfound
      exact absurd hfound (by simp)
    · have hnull := memchr_null.mpr ⟨hroom, fun m (hm : First (At l b) _ m) =>
        absurd hm.here (hnone m (le_trans (Nat.le_add_left ..) hm.le))⟩
      rw [hread] at hnull
      exact absurd hnull (by simp)
  · obtain ⟨hroom, hfar⟩ := memchr_null.mp hread
    simp only [Option.bind_eq_bind, Option.bind_some]
    rw [finds_size, hocc]
    constructor
    · exact fun h => .inr ⟨h, hroom⟩
    · rintro (⟨m, -, hm, hlt⟩ | ⟨h, -⟩)
      · have hle := hfar _ hm
        omega
      · exact h
  · obtain ⟨hj, hlt⟩ := memchr_found.mp hread
    have hle := hj.le
    have hlength := (List.getElem?_eq_some_iff.mp hj.here).1
    simp only [Option.bind_eq_bind, Option.bind_some]
    rw [finds_some, hocc, FirstOr]
    constructor
    · rintro (h | ⟨h, -⟩)
      · refine .inl ⟨j - viewOffset, h, ?_, by omega⟩
        rwa [show viewOffset + (j - viewOffset) = j by omega]
      · omega
    · rintro (⟨m, hm, hm', -⟩ | ⟨hnone, -⟩)
      · have hjm := hj.unique hm'
        rw [show j - viewOffset = m by omega]
        exact .inl hm
      · exact absurd hj.here (hnone j (by omega))

theorem searchNumber_finds {width : Nat} (hwidth : 0 < width) (littlePlatform : Bool)
    (endian : NumberEndian) (viewOffset info : Nat) :
    Finds l (endian.bytes littlePlatform width info) offset
        (searchNumber littlePlatform width endian l viewOffset offset info) ↔
      SearchesNumber littlePlatform width endian l viewOffset offset info := by
  unfold SearchesNumber
  rcases Nat.eq_or_lt_of_le (show 1 ≤ width from hwidth) with rfl | hlt
  · have hbytes : endian.bytes littlePlatform 1 info = [UInt8.ofNat info] := by
      cases littlePlatform <;> cases endian <;> rfl
    rw [if_pos rfl, hbytes]
    exact memchr_finds
  · rw [if_neg (by omega), searchNumber_eq_search hlt, search_finds]

/-- `Search` and `SearchNumber` return the first place from the offset on, and the size where there
is none, exactly under their conditions. -/
theorem searches_iff {width : Nat} (hwidth : 0 < width) (littlePlatform : Bool)
    (endian : NumberEndian) (l pattern : List UInt8) (viewOffset offset info : Nat) :
    (Finds l pattern offset (search l offset pattern) ↔ SearchesFor l offset pattern) ∧
    (Finds l (endian.bytes littlePlatform width info) offset
        (searchNumber littlePlatform width endian l viewOffset offset info) ↔
      SearchesNumber littlePlatform width endian l viewOffset offset info) :=
  ⟨search_finds l pattern offset, searchNumber_finds hwidth littlePlatform endian viewOffset info⟩

theorem searches_two :
    (Finds [1, 2, 3] [1, 2] 0 (search [1, 2, 3] 0 [1, 2]) ↔ SearchesFor [1, 2, 3] 0 [1, 2]) ∧
    (Finds [1, 2, 3] (NumberEndian.big.bytes true 2 0x102) 0
        (searchNumber true 2 .big [1, 2, 3] 0 0 0x102) ↔
      SearchesNumber true 2 .big [1, 2, 3] 0 0 0x102) :=
  searches_iff (by decide) true .big [1, 2, 3] [1, 2] 0 0 0x102

/-- A pattern that ends at the last byte. -/
theorem not_finds_last : ¬Finds [1, 2] [1, 2] 0 (search [1, 2] 0 [1, 2]) := by
  rw [show search [1, 2] 0 [1, 2] = some 2 by decide, finds_some]
  rintro (h | ⟨-, h⟩)
  · exact absurd h.here (by decide)
  · exact h 0 (le_refl 0) (by decide)

-- the jump to the last byte but one has `memcmp` read behind the element
example : search [0, 0, 1, 1] 0 [1, 2, 3] = none := by decide

end Thunder.Core.DataElement
