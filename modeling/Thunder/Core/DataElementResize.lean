import Thunder.Library.Block
import Thunder.Library.Run
import Mathlib.Algebra.Group.Nat.Defs

/-! `Size`, `Expand`, `Shrink` and `Copy` of a `DataElement` that is a view of a `DataStore`.  An
access outside of the store, and a `memcpy` between places that overlap, has no result. -/

namespace Thunder.Core.DataElement

/-- `m_Buffer` is the byte `offset` of the store. -/
structure Element where
  store : List UInt8
  offset : Nat
  size : Nat
  maxSize : Nat
  deriving DecidableEq

/-- What `realloc` gives: the bytes behind the old ones, unless there is no memory. -/
abbrev Grant := Option (Nat → UInt8)

namespace Element

def content (s : Element) : List UInt8 := (s.store.drop s.offset).take s.size

/-- The view is a part of its store. -/
def Within (s : Element) : Prop := s.offset + s.size ≤ s.store.length

/-- `DataStore::Size`, for a `uint32_t`. -/
def storeSize (store : List UInt8) (size : Nat) (grant : Grant) : List UInt8 :=
  if size > store.length then
    match grant with
    | some fresh => store ++ (List.range (size - store.length)).map fresh
    | none => store
  else store

def reallocation (s : Element) (size : Nat) (grant : Grant) : Element :=
  let store := storeSize s.store (size % 2 ^ 32) grant
  { s with store, size, maxSize := store.length }

/-- The value of a `uint64_t` that asks for all that is there. -/
def maxUnsigned : Nat := 2 ^ 64 - 1

def resize (s : Element) (size : Nat) (grant : Grant) : Element :=
  if size = maxUnsigned then { s with size := s.maxSize - s.offset }
  else if (size + s.offset) % 2 ^ 64 < s.maxSize then { s with size }
  else reallocation s ((size + s.offset) % 2 ^ 64) grant

/-- `Size`, with what it returns. -/
def setSize (s : Element) (size : Nat) (grant : Grant) : Element × Bool :=
  (s.resize size grant, size = (s.resize size grant).size)

/-- `memmove` inside of the view. -/
def move (s : Element) (dst src count : Nat) : Option Element := do
  let store ← Block.move s.store (s.offset + dst) (s.offset + src) count
  some { s with store }

def expand (s : Element) (offset size : Nat) (grant : Grant) : Option (Element × Bool) :=
  let (s, sized) := s.setSize size grant
  if sized then do
    let s ← s.move offset (offset + size) ((s.size + 2 ^ 64 - offset) % 2 ^ 64)
    some ({ s with size := s.size + size }, false)
  else some (s, false)

def shrink (s : Element) (offset size : Nat) : Option (Element × Bool) := do
  let s := { s with size := s.size - size }
  let s ← s.move offset (offset + size) (s.size - offset)
  some (s, true)

/-- What is copied: an element with another store, the element itself, or another view of the same
store. -/
inductive Source
  | other (bytes : List UInt8)
  | self
  | view (start size : Nat)

def Source.bytes (s : Element) : Source → List UInt8
  | .other bytes => bytes
  | .self => s.content
  | .view start size => (s.store.drop start).take size

/-- `memcpy` behind a resize that led from `s` to `s'`.  Another view of a store that has grown is
one of the memory before. -/
def copyable (s s' : Element) (offset : Nat) : Source → Bool
  | .other _ => true
  | .self => true
  | .view start size => s'.store.length = s.store.length ∧
      (start + size ≤ s'.offset + offset ∨ s'.offset + offset + size ≤ start)

def copy (s : Element) (source : Source) (offset : Nat) (grant : Grant) :
    Option (Element × Bool) :=
  let bytes := source.bytes s
  let size := (offset + bytes.length) % 2 ^ 64
  if size > s.size then
    match source with
    | .self => some (s, false)
    | _ =>
      let (s', sized) := s.setSize size grant
      if sized then
        if s.copyable s' offset source then do
          let store ← Block.write s'.store (s'.offset + offset) bytes
          some ({ s' with store, size }, true)
        else none
      else some (s', false)
  else do
    let store ← Block.write s.store (s.offset + offset) bytes
    some ({ s with store, size := if s.size < size then size else s.size }, true)

inductive Operation
  | size (size : Nat) (grant : Grant)
  | expand (offset size : Nat) (grant : Grant)
  | shrink (offset size : Nat)
  | copy (source : Source) (offset : Nat) (grant : Grant)

def perform (s : Element) : Operation → Option (Element × Bool)
  | .size size grant => some (s.setSize size grant)
  | .expand offset size grant => s.expand offset size grant
  | .shrink offset size => s.shrink offset size
  | .copy source offset grant => s.copy source offset grant

def step (s : Element) (op : Operation) : Element :=
  match s.perform op with
  | some (s', _) => s'
  | none => s

/-- What the numbers can be, and what the operations assert. -/
def Allowed (s : Element) : Operation → Prop
  | .size size _ => size < 2 ^ 64
  | .expand offset size _ => offset ≤ s.size ∧ size < 2 ^ 32
  | .shrink offset size => offset + size ≤ s.size
  | .copy source offset _ => (source.bytes s).length < 2 ^ 64 ∧ offset < 2 ^ 64 ∧
      ∀ start size, source = .view start size → start + size ≤ s.store.length

/-- An operation that is carried out on a plain list; bytes that come from nowhere are any. -/
def CarriedOut (s : Element) (l l' : List UInt8) : Operation → Prop
  | .size size _ => l'.length = size ∧ ∀ i, i < size → i < l.length → l'[i]? = l[i]?
  | .expand offset size _ => l'.length = l.length + size ∧ (∀ i, i < offset → l'[i]? = l[i]?) ∧
      ∀ i, offset ≤ i → l'[i + size]? = l[i]?
  | .shrink offset size => l' = l.take offset ++ l.drop (offset + size)
  | .copy source offset _ =>
      let bytes := source.bytes s
      l'.length = max l.length (offset + bytes.length) ∧
      (∀ i, i < bytes.length → l'[offset + i]? = bytes[i]?) ∧
      ∀ i, i < l.length → i < offset ∨ offset + bytes.length ≤ i → l'[i]? = l[i]?

/-- An operation returns true and is carried out, or returns false and changes nothing; the view
stays in its store. -/
def Exact (s : Element) (op : Operation) : Prop :=
  ∃ s' done, s.perform op = some (s', done) ∧ s'.Within ∧
    if done then CarriedOut s s.content s'.content op else s'.content = s.content

/-- `Size` fits the store or, for a view from its beginning, a store that can grow. -/
def Fits (s : Element) (size : Nat) (grant : Grant) : Prop :=
  size ≠ maxUnsigned ∧ (s.offset + size < s.maxSize ∨ (s.offset = 0 ∧
    (size = s.maxSize ∨ (s.maxSize < size ∧ size < 2 ^ 32 ∧ grant.isSome))))

/-- The condition for `Size`, or a request for all that the element has already. -/
def Sizes (s : Element) (size : Nat) (grant : Grant) : Prop :=
  s.Fits size grant ∨ (size = maxUnsigned ∧ s.size = s.maxSize - s.offset)

/-- Another view that is copied behind a resize is apart, and the store does not grow. -/
def Apart (s : Element) (offset : Nat) : Source → Prop
  | .view start size => s.offset + (offset + size) ≤ s.maxSize ∧
      (start + size ≤ s.offset + offset ∨ s.offset + offset + size ≤ start)
  | _ => True

/-- The exact condition.  `Expand` never returns true, so that it must change nothing: it leaves an
element that has twice the size, where the bytes that it moves are there already. -/
def Condition (s : Element) : Operation → Prop
  | .size size grant => s.Sizes size grant
  | .expand offset size grant => s.Fits size grant ∧ s.size = size + size ∧ offset ≤ size ∧
      ∀ i, offset ≤ i → i < size → s.content[i]? = s.content[i + size]?
  | .shrink _ _ => True
  | .copy source offset grant =>
      let size := offset + (source.bytes s).length
      size ≤ s.size ∨ (size < 2 ^ 64 ∧ (source = .self ∨
        (s.Fits size grant ∧ s.Apart offset source) ∨
        (size = maxUnsigned ∧ s.size = s.maxSize - s.offset)))

/-- An element as it is made from a store. -/
structure Inv (s : Element) : Prop where
  within : s.offset + s.size ≤ s.maxSize
  maxSize : s.maxSize = s.store.length
  store : s.store.length < 2 ^ 32

variable {s s' : Element} {size offset : Nat} {grant : Grant}

/-! ### Contents -/

theorem getElem?_content (s : Element) (i : Nat) :
    s.content[i]? = if i < s.size then s.store[s.offset + i]? else none := by
  rw [content, List.getElem?_take, List.getElem?_drop]

theorem length_content (h : s.Within) : s.content.length = s.size := by
  rw [content, List.length_take, List.length_drop]
  unfold Within at h
  omega

theorem content_eq_iff (h : s.Within) (h' : s'.Within) : s'.content = s.content ↔
    s'.size = s.size ∧ ∀ i, i < s.size → s'.store[s'.offset + i]? = s.store[s.offset + i]? := by
  constructor
  · intro heq
    have hlength := congrArg List.length heq
    rw [length_content h, length_content h'] at hlength
    refine ⟨hlength, fun i hi => ?_⟩
    have hi' := congrArg (fun l : List UInt8 => l[i]?) heq
    simp only [getElem?_content] at hi'
    rwa [if_pos hi, if_pos (hlength ▸ hi)] at hi'
  · rintro ⟨hsize, hbytes⟩
    refine List.ext_getElem? fun i => ?_
    rw [getElem?_content, getElem?_content, hsize]
    split_ifs with hi
    · exact hbytes i hi
    · rfl

theorem Inv.in_store (h : s.Inv) : s.Within := by
  have hwithin := h.within
  rwa [h.maxSize] at hwithin

/-! ### `Size` -/

theorem length_storeSize_le (store : List UInt8) (size : Nat) (grant : Grant) :
    (storeSize store size grant).length ≤ max store.length size := by
  unfold storeSize
  split_ifs with hgrow
  · cases grant with
    | none => exact le_max_left ..
    | some fresh =>
      rw [List.length_append, List.length_map, List.length_range]
      omega
  · exact le_max_left ..

/-- A view that is resized as it should be; the bytes of the store stay. -/
structure Resized (s s' : Element) (size : Nat) : Prop where
  offset_eq : s'.offset = s.offset
  size_eq : s'.size = size
  inv : s'.Inv
  old : ∀ i, i < s.store.length → s'.store[i]? = s.store[i]?
  same : s.offset + size ≤ s.maxSize ↔ s'.store.length = s.store.length

theorem Resized.in_store (h : Resized s s' size) : s'.Within := h.inv.in_store

theorem Resized.bytes (h : Resized s s' size) (hin : s.Within) {i : Nat} (hi : i < s.size) :
    s'.store[s'.offset + i]? = s.store[s.offset + i]? := by
  unfold Within at hin
  rw [h.offset_eq, h.old _ (by omega)]

theorem resize_of_fits (h : s.Inv) (hfits : s.Fits size grant) :
    Resized s (s.resize size grant) size := by
  obtain ⟨hmax, hroom⟩ := hfits
  have hlen := h.maxSize
  have hstore := h.store
  rw [resize, if_neg hmax]
  rcases hroom with hroom | ⟨hoffset, heq | ⟨hlt, hword, hgrant⟩⟩
  · rw [if_pos (by omega)]
    exact ⟨rfl, rfl, ⟨hroom.le, hlen, hstore⟩, fun _ _ => rfl, iff_of_true hroom.le rfl⟩
  · have hsame : storeSize s.store (size % 2 ^ 64 % 2 ^ 32) grant = s.store := if_neg (by omega)
    rw [if_neg (by omega), reallocation, hoffset, Nat.add_zero, hsame, Nat.mod_eq_of_lt (by omega)]
    refine ⟨hoffset.symm, rfl, ⟨?_, rfl, hstore⟩, fun _ _ => rfl, iff_of_true ?_ rfl⟩
    · simp only
      omega
    · omega
  · obtain ⟨fresh, rfl⟩ := Option.isSome_iff_exists.mp hgrant
    have hcut : size % 2 ^ 64 % 2 ^ 32 = size := by omega
    have hlength : (s.store ++ (List.range (size - s.store.length)).map fresh).length = size := by
      rw [List.length_append, List.length_map, List.length_range]
      omega
    rw [if_neg (by omega), reallocation, hoffset, Nat.add_zero, hcut, Nat.mod_eq_of_lt (by omega),
      storeSize, if_pos (by omega)]
    refine ⟨hoffset.symm, rfl, ⟨?_, rfl, ?_⟩, fun i hi => List.getElem?_append_left hi,
      iff_of_false ?_ ?_⟩
    · simp only
      omega
    · simp only
      omega
    · omega
    · simp only
      omega

theorem setSize_of_fits (h : s.Inv) (hfits : s.Fits size grant) :
    ∃ s', s.setSize size grant = (s', true) ∧ Resized s s' size := by
  have hresized := resize_of_fits h hfits
  refine ⟨_, ?_, hresized⟩
  rw [setSize, decide_eq_true hresized.size_eq.symm]

/-- Otherwise the view is larger than its store, whatever is returned. -/
theorem not_within_resize (h : s.Inv) (hsize : size < 2 ^ 64) (hmax : size ≠ maxUnsigned)
    (hfits : ¬s.Fits size grant) :
    (s.resize size grant).store.length <
      (s.resize size grant).offset + (s.resize size grant).size ∧
    (s.resize size grant).store.length < 2 ^ 32 := by
  have hlen := h.maxSize
  have hstore := h.store
  have hwithin := h.within
  unfold Fits at hfits
  rw [resize, if_neg hmax]
  split_ifs with hroom
  · have hwrap : ¬s.offset + size < s.maxSize := fun hlt => hfits ⟨hmax, .inl hlt⟩
    simp only
    omega
  · have hle := length_storeSize_le s.store ((size + s.offset) % 2 ^ 64 % 2 ^ 32) grant
    have hword := Nat.mod_lt ((size + s.offset) % 2 ^ 64) (show 2 ^ 32 > 0 by decide)
    have hcut := Nat.mod_le ((size + s.offset) % 2 ^ 64) (2 ^ 32)
    simp only [reallocation]
    rcases Nat.eq_zero_or_pos s.offset with hoffset | hoffset
    · have hne : size ≠ s.maxSize := fun heq => hfits ⟨hmax, .inr ⟨hoffset, .inl heq⟩⟩
      by_cases hsmall : size < 2 ^ 32
      · have hnone : grant = none := by
          rw [← Option.not_isSome_iff_eq_none]
          exact fun hsome => hfits ⟨hmax, .inr ⟨hoffset, .inr ⟨by omega, hsmall, hsome⟩⟩⟩
        have hsame : storeSize s.store ((size + s.offset) % 2 ^ 64 % 2 ^ 32) none = s.store := by
          unfold storeSize
          split_ifs <;> rfl
        rw [hnone, hsame]
        omega
      · omega
    · omega

theorem resize_max (s : Element) (grant : Grant) :
    s.resize maxUnsigned grant = { s with size := s.maxSize - s.offset } := if_pos rfl

theorem setSize_max (h : s.Inv) (grant : Grant) :
    s.setSize maxUnsigned grant = ({ s with size := s.maxSize - s.offset }, false) := by
  have hlen := h.maxSize
  have hstore := h.store
  have hne : maxUnsigned ≠ s.maxSize - s.offset := by
    unfold maxUnsigned
    omega
  simp [setSize, resize_max, hne]

theorem not_fits_max : ¬s.Fits maxUnsigned grant := fun h => h.1 rfl

/-! ### One operation -/

variable {op : Operation} {done : Bool}

theorem exact_iff_of_perform (hperform : s.perform op = some (s', done)) :
    s.Exact op ↔ s'.Within ∧ if done then CarriedOut s s.content s'.content op
      else s'.content = s.content := by
  unfold Exact
  rw [hperform]
  constructor
  · rintro ⟨_, _, h, hexact⟩
    cases h
    exact hexact
  · exact fun h => ⟨s', done, rfl, h⟩

theorem not_exact_of_none (hperform : s.perform op = none) : ¬s.Exact op := by
  rintro ⟨_, _, h, -⟩
  rw [hperform] at h
  cases h

theorem not_exact_of_not_within (hperform : s.perform op = some (s', done)) (h : ¬s'.Within) :
    ¬s.Exact op :=
  fun hexact => h ((exact_iff_of_perform hperform).mp hexact).1

/-- A request for all that the store has returns false. -/
theorem exact_max_iff (h : s.Inv)
    (hperform : s.perform op = some ({ s with size := s.maxSize - s.offset }, false)) :
    s.Exact op ↔ s.size = s.maxSize - s.offset := by
  have hlen := h.maxSize
  have hwithin := h.within
  have hall : Within { s with size := s.maxSize - s.offset } := by
    unfold Within
    simp only
    omega
  rw [exact_iff_of_perform hperform, and_iff_right hall, if_neg Bool.false_ne_true,
    content_eq_iff h.in_store hall]
  constructor
  · exact fun heq => heq.1.symm
  · exact fun heq => ⟨heq.symm, fun _ _ => rfl⟩

theorem exact_size (h : s.Inv) (hsize : size < 2 ^ 64) :
    s.Exact (.size size grant) ↔ s.Sizes size grant := by
  unfold Sizes
  by_cases hmax : size = maxUnsigned
  · subst hmax
    have hperform : s.perform (.size maxUnsigned grant) =
        some ({ s with size := s.maxSize - s.offset }, false) := by
      rw [perform, setSize_max h]
    rw [exact_max_iff h hperform]
    simp [not_fits_max]
  · rw [or_iff_left fun hall => hmax hall.1]
    by_cases hfits : s.Fits size grant
    · obtain ⟨s', hsize', hresized⟩ := setSize_of_fits h hfits
      have hperform : s.perform (.size size grant) = some (s', true) := congrArg some hsize'
      refine iff_of_true ((exact_iff_of_perform hperform).mpr ⟨hresized.in_store, ?_⟩) hfits
      rw [if_pos rfl]
      refine ⟨by rw [length_content hresized.in_store, hresized.size_eq], fun i hi hi' => ?_⟩
      rw [length_content h.in_store] at hi'
      rw [getElem?_content, getElem?_content, hresized.size_eq, if_pos hi, if_pos hi',
        hresized.bytes h.in_store hi']
    · have hout := (not_within_resize h hsize hmax hfits).1
      have hperform : s.perform (.size size grant) = some (_, _) := rfl
      exact iff_of_false (not_exact_of_not_within hperform (not_le_of_gt hout)) hfits

/-- A move inside of the view, with the bytes behind it. -/
theorem move_spec {dst src count : Nat} (hmove : s.move dst src count = some s') :
    s'.offset = s.offset ∧ s'.size = s.size ∧ s'.maxSize = s.maxSize ∧
    s'.store.length = s.store.length ∧ s.offset + dst + count ≤ s.store.length ∧
    s.offset + src + count ≤ s.store.length ∧
    ∀ i, s'.store[s.offset + i]? = if dst ≤ i ∧ i < dst + count
      then s.store[s.offset + (src + (i - dst))]? else s.store[s.offset + i]? := by
  unfold move at hmove
  obtain ⟨store, hstore, hmove⟩ := Option.bind_eq_some_iff.mp hmove
  cases hmove
  obtain ⟨hdst, hsrc⟩ := Block.within_of_move hstore
  refine ⟨rfl, rfl, rfl, Block.length_move hstore, hdst, hsrc, fun i => ?_⟩
  simp only
  rw [Block.getElem?_move hstore]
  by_cases hi : dst ≤ i ∧ i < dst + count
  · rw [if_pos (by omega), if_pos hi]
    congr 1
    omega
  · rw [if_neg (by omega), if_neg hi]

theorem exists_move (s : Element) (dst src count : Nat)
    (hdst : s.offset + dst + count ≤ s.store.length)
    (hsrc : s.offset + src + count ≤ s.store.length) : ∃ s', s.move dst src count = some s' := by
  obtain ⟨store, hstore⟩ := Block.exists_move (s.offset + dst) (s.offset + src) count hdst hsrc
  exact ⟨_, Option.bind_eq_some_iff.mpr ⟨store, hstore, rfl⟩⟩

theorem exact_shrink (h : s.Inv) (hsize : offset + size ≤ s.size) :
    s.Exact (.shrink offset size) := by
  have hin := h.in_store
  unfold Within at hin
  obtain ⟨s', hmove⟩ := exists_move { s with size := s.size - size } offset (offset + size)
    (s.size - size - offset) (by simp only; omega) (by simp only; omega)
  obtain ⟨hoffset, hsize', -, hlength, -, -, hbytes⟩ := move_spec hmove
  simp only at hoffset hsize' hlength hbytes
  have hperform : s.perform (.shrink offset size) = some (s', true) :=
    Option.bind_eq_some_iff.mpr ⟨s', hmove, rfl⟩
  refine (exact_iff_of_perform hperform).mpr ⟨by unfold Within; omega, ?_⟩
  rw [if_pos rfl]
  refine List.ext_getElem? fun i => ?_
  have hfront : (s.content.take offset).length = offset := by
    rw [List.length_take, length_content h.in_store]
    omega
  rw [getElem?_content, hsize', hoffset, hbytes]
  rcases Nat.lt_or_ge i offset with hi | hi
  · rw [List.getElem?_append_left (by omega), List.getElem?_take_of_lt hi, getElem?_content,
      if_pos (show i < s.size - size by omega), if_pos (show i < s.size by omega),
      if_neg (show ¬(offset ≤ i ∧ _) by omega)]
  · rw [List.getElem?_append_right (by omega), hfront, List.getElem?_drop, getElem?_content]
    by_cases hi' : i < s.size - size
    · rw [if_pos hi', if_pos (show offset ≤ i ∧ _ by omega),
        if_pos (show offset + size + (i - offset) < s.size by omega)]
    · rw [if_neg hi', if_neg (show ¬offset + size + (i - offset) < s.size by omega)]

/-! ### `Expand` -/

theorem not_exact_expand (h : s.Inv) (hsize : size < 2 ^ 32) (hfits : ¬s.Fits size grant) :
    ¬s.Exact (.expand offset size grant) := by
  have hmax : size ≠ maxUnsigned := by
    unfold maxUnsigned
    omega
  have hout := (not_within_resize h (by omega) hmax hfits).1
  by_cases hsized : size = (s.resize size grant).size
  · have hperform : s.perform (.expand offset size grant) =
        ((s.resize size grant).move offset (offset + size)
          (((s.resize size grant).size + 2 ^ 64 - offset) % 2 ^ 64)).bind
          fun m => some ({ m with size := m.size + size }, false) := by
      rw [perform, expand, setSize, decide_eq_true hsized]
      rfl
    rcases hmove : (s.resize size grant).move offset (offset + size)
      (((s.resize size grant).size + 2 ^ 64 - offset) % 2 ^ 64) with _ | m
    · rw [hmove] at hperform
      exact not_exact_of_none hperform
    · rw [hmove] at hperform
      obtain ⟨hoffset, hsize', -, hlength, -⟩ := move_spec hmove
      refine not_exact_of_not_within hperform fun hin => ?_
      unfold Within at hin
      simp only at hin
      omega
  · have hperform : s.perform (.expand offset size grant) =
        some (s.resize size grant, false) := by
      rw [perform, expand, setSize, decide_eq_false hsized]
      rfl
    exact not_exact_of_not_within hperform (not_le_of_gt hout)

theorem exact_expand (h : s.Inv) (hsize : size < 2 ^ 32) :
    s.Exact (.expand offset size grant) ↔ s.Condition (.expand offset size grant) := by
  by_cases hfits : s.Fits size grant
  swap
  · exact iff_of_false (not_exact_expand h hsize hfits) fun hcond => hfits hcond.1
  obtain ⟨r, hset, hr⟩ := setSize_of_fits h hfits
  have hin := h.in_store
  have hmax := h.maxSize
  have hrsize := hr.size_eq
  have hroffset := hr.offset_eq
  have hrin := hr.in_store
  have hrword := hr.inv.store
  have hsame := hr.same
  unfold Within at hin hrin
  have hperform : s.perform (.expand offset size grant) =
      (r.move offset (offset + size) ((r.size + 2 ^ 64 - offset) % 2 ^ 64)).bind
        fun m => some ({ m with size := m.size + size }, false) := by
    rw [perform, expand, hset]
    rfl
  have hcount : offset ≤ size → (r.size + 2 ^ 64 - offset) % 2 ^ 64 = size - offset := by omega
  -- what the move has to bring is in the store, so that it is the content that decides
  rcases hmove : r.move offset (offset + size) ((r.size + 2 ^ 64 - offset) % 2 ^ 64) with _ | m
  · rw [hmove] at hperform
    refine iff_of_false (not_exact_of_none hperform) ?_
    rintro ⟨-, hdouble, hle, -⟩
    rw [hcount hle] at hmove
    obtain ⟨m, hm⟩ := exists_move r offset (offset + size) (size - offset) (by omega) (by omega)
    rw [hmove] at hm
    cases hm
  · rw [hmove] at hperform
    obtain ⟨hoffset', hsize', -, hlength, hdst, -, hbytes⟩ := move_spec hmove
    have hle : offset ≤ size := by
      by_contra hgt
      omega
    rw [hcount hle] at hbytes
    have hmoved : ∀ i, offset ≤ i → i < size → s.size = size + size →
        m.store[m.offset + i]? = s.store[s.offset + (i + size)]? := by
      intro i hi hi' hdouble
      rw [hoffset', hbytes, if_pos (by omega), hroffset, hr.old _ (by omega)]
      congr 1
      omega
    rw [exact_iff_of_perform hperform, if_neg Bool.false_ne_true]
    constructor
    · rintro ⟨hwithin, heq⟩
      obtain ⟨hdouble, hold⟩ := (content_eq_iff h.in_store hwithin).mp heq
      simp only at hdouble hold
      refine ⟨hfits, by omega, hle, fun i hi hi' => ?_⟩
      rw [getElem?_content, getElem?_content, if_pos (by omega), if_pos (by omega),
        ← hold i (by omega), hmoved i hi hi' (by omega)]
    · rintro ⟨-, hdouble, -, hold⟩
      have hwithin : Within { m with size := m.size + size } := by
        unfold Within
        simp only
        omega
      refine ⟨hwithin, (content_eq_iff h.in_store hwithin).mpr ⟨by simp only; omega, ?_⟩⟩
      intro i hi
      simp only
      by_cases hmid : offset ≤ i ∧ i < size
      · have hi' := hold i hmid.1 hmid.2
        rw [getElem?_content, getElem?_content, if_pos hi, if_pos (by omega)] at hi'
        rw [hmoved i hmid.1 hmid.2 hdouble, hi']
      · rw [hoffset', hbytes, if_neg (by omega), hroffset, hr.old _ (by omega)]

/-! ### `Copy` -/

/-- The bytes of the source over an element that has been resized, or has room. -/
theorem carriedOut_copy {source : Source} {store : List UInt8} {t : Element} (hin : s.Within)
    (htin : t.Within) (hoffset : t.offset = s.offset)
    (hsize : t.size = max s.size (offset + (source.bytes s).length))
    (hold : ∀ i, i < s.store.length → store[i]? = s.store[i]?)
    (hwrite : Block.write store (s.offset + offset) (source.bytes s) = some t.store) :
    CarriedOut s s.content t.content (.copy source offset grant) := by
  have hin' := hin
  unfold Within at hin'
  refine ⟨by rw [length_content hin, length_content htin, hsize], fun i hi => ?_,
    fun i hi hout => ?_⟩
  · rw [getElem?_content, if_pos (by omega), hoffset, Block.getElem?_write hwrite,
      if_pos (by omega)]
    congr 1
    omega
  · rw [length_content hin] at hi
    rw [getElem?_content, getElem?_content, if_pos hi, if_pos (by omega), hoffset,
      Block.getElem?_write hwrite, if_neg (by omega), hold _ (by omega)]

/-- A copy that needs no room. -/
theorem copy_inside {source : Source} (grant : Grant)
    (hroom : ¬(offset + (source.bytes s).length) % 2 ^ 64 > s.size) :
    s.perform (.copy source offset grant) =
      (Block.write s.store (s.offset + offset) (source.bytes s)).bind
        fun store => some ({ s with store }, true) := by
  unfold perform copy
  simp only [if_neg hroom]
  rfl

theorem copy_self (grant : Grant) (hroom : (offset + s.content.length) % 2 ^ 64 > s.size) :
    s.perform (.copy .self offset grant) = some (s, false) := by
  rw [perform, copy]
  exact if_pos hroom

theorem copy_unsized {source : Source} (hself : source ≠ .self) {r : Element}
    (hroom : (offset + (source.bytes s).length) % 2 ^ 64 > s.size)
    (hset : s.setSize ((offset + (source.bytes s).length) % 2 ^ 64) grant = (r, false)) :
    s.perform (.copy source offset grant) = some (r, false) := by
  unfold perform copy
  simp only [if_pos hroom]
  cases source with
  | self => exact absurd rfl hself
  | other bytes => simp only [hset, if_neg Bool.false_ne_true]
  | view start size => simp only [hset, if_neg Bool.false_ne_true]

theorem copy_sized {source : Source} (hself : source ≠ .self) {r : Element}
    (hroom : (offset + (source.bytes s).length) % 2 ^ 64 > s.size)
    (hset : s.setSize ((offset + (source.bytes s).length) % 2 ^ 64) grant = (r, true)) :
    s.perform (.copy source offset grant) =
      if s.copyable r offset source then
        (Block.write r.store (r.offset + offset) (source.bytes s)).bind fun store =>
          some ({ r with store, size := (offset + (source.bytes s).length) % 2 ^ 64 }, true)
      else none := by
  unfold perform copy
  simp only [if_pos hroom]
  cases source with
  | self => exact absurd rfl hself
  | other bytes => simp only [hset, if_pos]; rfl
  | view start size => simp only [hset, if_pos]; rfl

/-- A view that has become larger than its store stays so behind the copy. -/
theorem not_exact_copy {source : Source} (h : s.Inv) (hself : source ≠ .self)
    (hroom : (offset + (source.bytes s).length) % 2 ^ 64 > s.size)
    (hmax : (offset + (source.bytes s).length) % 2 ^ 64 ≠ maxUnsigned)
    (hfits : ¬s.Fits ((offset + (source.bytes s).length) % 2 ^ 64) grant) :
    ¬s.Exact (.copy source offset grant) := by
  have hword := Nat.mod_lt (offset + (source.bytes s).length) (show 2 ^ 64 > 0 by decide)
  have hout := (not_within_resize h hword hmax hfits).1
  obtain ⟨r, hr⟩ : ∃ r, r = s.resize ((offset + (source.bytes s).length) % 2 ^ 64) grant := ⟨_, rfl⟩
  rw [← hr] at hout
  by_cases hsized : (offset + (source.bytes s).length) % 2 ^ 64 = r.size
  · have hset : s.setSize ((offset + (source.bytes s).length) % 2 ^ 64) grant = (r, true) := by
      rw [setSize, ← hr, decide_eq_true hsized]
    have hperform := copy_sized hself hroom hset
    split_ifs at hperform with happart
    · rcases hwrite : Block.write r.store (r.offset + offset) (source.bytes s) with _ | store
      · rw [hwrite] at hperform
        exact not_exact_of_none hperform
      · rw [hwrite] at hperform
        have hlength := Block.length_write hwrite
        refine not_exact_of_not_within hperform fun hin => ?_
        unfold Within at hin
        simp only at hin
        omega
    · exact not_exact_of_none hperform
  · have hset : s.setSize ((offset + (source.bytes s).length) % 2 ^ 64) grant = (r, false) := by
      rw [setSize, ← hr, decide_eq_false hsized]
    exact not_exact_of_not_within (copy_unsized hself hroom hset) (not_le_of_gt hout)

theorem copyable_iff {source : Source} {r : Element}
    (hr : Resized s r (offset + (source.bytes s).length))
    (hview : ∀ start size, source = .view start size → start + size ≤ s.store.length) :
    s.copyable r offset source ↔ s.Apart offset source := by
  cases source with
  | other bytes => exact iff_of_true rfl trivial
  | self => exact iff_of_true rfl trivial
  | view start size =>
    have hbytes : (Source.bytes s (.view start size)).length = size := by
      have hle := hview start size rfl
      simp only [Source.bytes, List.length_take, List.length_drop]
      omega
    rw [copyable, decide_eq_true_iff, Apart, ← hr.same, hr.offset_eq, hbytes]

theorem exact_copy_sized {source : Source} {r : Element} (h : s.Inv) (hself : source ≠ .self)
    (hword : offset + (source.bytes s).length < 2 ^ 64)
    (hroom : offset + (source.bytes s).length > s.size)
    (hset : s.setSize (offset + (source.bytes s).length) grant = (r, true))
    (hr : Resized s r (offset + (source.bytes s).length))
    (hview : ∀ start size, source = .view start size → start + size ≤ s.store.length) :
    s.Exact (.copy source offset grant) ↔ s.Apart offset source := by
  have hcut := Nat.mod_eq_of_lt hword
  have hperform := copy_sized hself (hcut.symm ▸ hroom) (hcut.symm ▸ hset)
  rw [hcut] at hperform
  by_cases hcopy : s.copyable r offset source
  · rw [if_pos hcopy] at hperform
    have hin := hr.in_store
    have hoffset := hr.offset_eq
    have hsize := hr.size_eq
    unfold Within at hin
    obtain ⟨store, hwrite⟩ := Block.exists_write (source.bytes s)
      (show r.offset + offset + (source.bytes s).length ≤ r.store.length by omega)
    rw [hwrite] at hperform
    have hlength := Block.length_write hwrite
    refine iff_of_true ((exact_iff_of_perform hperform).mpr ?_) ((copyable_iff hr hview).mp hcopy)
    have htin : Within { r with store, size := offset + (source.bytes s).length } := by
      unfold Within
      simp only
      omega
    refine ⟨htin, ?_⟩
    rw [if_pos rfl]
    refine carriedOut_copy h.in_store htin hoffset ?_ hr.old (hoffset ▸ hwrite)
    simp only
    omega
  · rw [if_neg hcopy] at hperform
    exact iff_of_false (not_exact_of_none hperform) fun happart =>
      hcopy ((copyable_iff hr hview).mpr happart)

/-- A sum beyond 64 bits ends in a write outside of the store. -/
theorem not_exact_copy_of_wrap {source : Source} (h : s.Inv) (hself : source ≠ .self)
    (hbytes : (source.bytes s).length < 2 ^ 64) (hoffset : offset < 2 ^ 64)
    (hwrap : 2 ^ 64 ≤ offset + (source.bytes s).length)
    (hroom : (offset + (source.bytes s).length) % 2 ^ 64 > s.size) :
    ¬s.Exact (.copy source offset grant) := by
  by_cases hfits : s.Fits ((offset + (source.bytes s).length) % 2 ^ 64) grant
  · obtain ⟨r, hset, hr⟩ := setSize_of_fits h hfits
    have hperform := copy_sized hself hroom hset
    have hstore := hr.inv.store
    rw [Block.write_eq_none (by omega)] at hperform
    refine not_exact_of_none (hperform.trans ?_)
    split_ifs <;> rfl
  · refine not_exact_copy h hself hroom ?_ hfits
    unfold maxUnsigned
    omega

theorem exact_copy {source : Source} (h : s.Inv) (hbytes : (source.bytes s).length < 2 ^ 64)
    (hoffset : offset < 2 ^ 64)
    (hview : ∀ start size, source = .view start size → start + size ≤ s.store.length) :
    s.Exact (.copy source offset grant) ↔ s.Condition (.copy source offset grant) := by
  have hin := h.in_store
  have hstore := h.store
  unfold Within at hin
  by_cases hroom : (offset + (source.bytes s).length) % 2 ^ 64 > s.size
  swap
  · have hperform := copy_inside grant hroom
    by_cases hword : offset + (source.bytes s).length < 2 ^ 64
    · rw [Nat.mod_eq_of_lt hword] at hroom
      obtain ⟨store, hwrite⟩ := Block.exists_write (source.bytes s)
        (show s.offset + offset + (source.bytes s).length ≤ s.store.length by omega)
      rw [hwrite] at hperform
      have hlength := Block.length_write hwrite
      refine iff_of_true ((exact_iff_of_perform hperform).mpr ?_) (.inl (by omega))
      have htin : Within { s with store } := by
        unfold Within
        simp only
        omega
      refine ⟨htin, ?_⟩
      rw [if_pos rfl]
      refine carriedOut_copy h.in_store htin rfl ?_ (fun _ _ => rfl) hwrite
      simp only
      omega
    · rw [Block.write_eq_none (by omega)] at hperform
      refine iff_of_false (not_exact_of_none hperform) ?_
      rintro (hle | ⟨hlt, -⟩) <;> omega
  by_cases hself : source = .self
  · subst hself
    have hlength := length_content h.in_store
    change (offset + s.content.length) % 2 ^ 64 > s.size at hroom
    refine iff_of_true ((exact_iff_of_perform (copy_self grant hroom)).mpr ⟨h.in_store, rfl⟩) ?_
    refine .inr ⟨?_, .inl rfl⟩
    change offset + s.content.length < 2 ^ 64
    omega
  by_cases hword : offset + (source.bytes s).length < 2 ^ 64
  swap
  · refine iff_of_false (not_exact_copy_of_wrap h hself hbytes hoffset (by omega) hroom) ?_
    rintro (hle | ⟨hlt, -⟩) <;> omega
  rw [Nat.mod_eq_of_lt hword] at hroom
  unfold Condition
  simp only [hself, false_or, hword, true_and]
  rw [or_iff_right (show ¬offset + (source.bytes s).length ≤ s.size by omega)]
  by_cases hmax : offset + (source.bytes s).length = maxUnsigned
  · have hcut := Nat.mod_eq_of_lt hword
    have hset : s.setSize ((offset + (source.bytes s).length) % 2 ^ 64) grant =
        ({ s with size := s.maxSize - s.offset }, false) := by
      rw [hcut, hmax]
      exact setSize_max h grant
    rw [exact_max_iff h (copy_unsized hself (hcut.symm ▸ hroom) hset), hmax]
    simp [not_fits_max]
  · rw [or_iff_left fun hall => hmax hall.1]
    by_cases hfits : s.Fits (offset + (source.bytes s).length) grant
    · obtain ⟨r, hset, hr⟩ := setSize_of_fits h hfits
      rw [and_iff_right hfits, exact_copy_sized h hself hword hroom hset hr hview]
    · have hcut := Nat.mod_eq_of_lt hword
      refine iff_of_false (not_exact_copy h hself ?_ ?_ ?_) fun hcond => hfits hcond.1
      · rwa [hcut]
      · rwa [hcut]
      · rwa [hcut]

/-! ### Runs -/

theorem exact_iff_condition (h : s.Inv) (hallowed : s.Allowed op) :
    s.Exact op ↔ s.Condition op := by
  cases op with
  | size size grant => exact exact_size h hallowed
  | expand offset size grant => exact exact_expand h hallowed.2
  | shrink offset size => exact iff_of_true (exact_shrink h hallowed) trivial
  | copy source offset grant => exact exact_copy h hallowed.1 hallowed.2.1 hallowed.2.2

/-- The size of the store is the one that the element remembers. -/
def Cached (s : Element) : Prop := s.maxSize = s.store.length ∧ s.store.length < 2 ^ 32

theorem Cached.of_length {store : List UInt8} (h : s.Cached)
    (hlength : store.length = s.store.length) (size : Nat) : Cached { s with store, size } := by
  unfold Cached at h ⊢
  simp only
  omega

theorem Cached.resize (h : s.Cached) (size : Nat) (grant : Grant) :
    (s.resize size grant).Cached := by
  unfold Element.resize
  split_ifs
  · exact h
  · exact h
  · have hle := length_storeSize_le s.store ((size + s.offset) % 2 ^ 64 % 2 ^ 32) grant
    have hword := Nat.mod_lt ((size + s.offset) % 2 ^ 64) (show 2 ^ 32 > 0 by decide)
    have hstore := h.2
    exact ⟨rfl, by simp only [reallocation]; omega⟩

theorem Cached.move {dst src count : Nat} (h : s.Cached) (hmove : s.move dst src count = some s')
    (size : Nat) : Cached { s' with size } := by
  obtain ⟨-, -, hmax, hlength, -⟩ := move_spec hmove
  unfold Cached at h ⊢
  simp only
  omega

theorem Cached.copy {source : Source} (h : s.Cached)
    (hcopy : s.perform (.copy source offset grant) = some (s', done)) : s'.Cached := by
  by_cases hroom : (offset + (source.bytes s).length) % 2 ^ 64 > s.size
  swap
  · obtain ⟨store, hwrite, hs'⟩ :=
      Option.bind_eq_some_iff.mp ((copy_inside grant hroom).symm.trans hcopy)
    cases hs'
    exact h.of_length (Block.length_write hwrite) s.size
  by_cases hself : source = .self
  · subst hself
    cases (copy_self grant hroom).symm.trans hcopy
    exact h
  obtain ⟨⟨r, sized⟩, hset⟩ :
    ∃ r, s.setSize ((offset + (source.bytes s).length) % 2 ^ 64) grant = r := ⟨_, rfl⟩
  have hr : r.Cached := by
    cases hset
    exact h.resize _ grant
  cases sized with
  | false =>
    cases (copy_unsized hself hroom hset).symm.trans hcopy
    exact hr
  | true =>
    have hperform := (copy_sized hself hroom hset).symm.trans hcopy
    split_ifs at hperform
    obtain ⟨store, hwrite, hs'⟩ := Option.bind_eq_some_iff.mp hperform
    cases hs'
    exact hr.of_length (Block.length_write hwrite) _

theorem Cached.perform (h : s.Cached) (hperform : s.perform op = some (s', done)) : s'.Cached := by
  cases op with
  | size size grant =>
    cases hperform
    exact h.resize size grant
  | expand offset size grant =>
    obtain ⟨⟨r, sized⟩, hset⟩ : ∃ r, s.setSize size grant = r := ⟨_, rfl⟩
    have hr : r.Cached := by
      cases hset
      exact h.resize size grant
    rw [Element.perform, expand, hset] at hperform
    cases sized with
    | false =>
      cases hperform
      exact hr
    | true =>
      obtain ⟨m, hmove, hs'⟩ := Option.bind_eq_some_iff.mp hperform
      cases hs'
      exact hr.move hmove _
  | shrink offset size =>
    obtain ⟨m, hmove, hs'⟩ := Option.bind_eq_some_iff.mp hperform
    cases hs'
    have hshrunk : Cached { s with size := s.size - size } := h
    exact hshrunk.move hmove _
  | copy source offset grant => exact h.copy hperform

theorem inv_step (h : s.Inv) (hexact : s.Exact op) : (s.step op).Inv := by
  obtain ⟨s', done, hperform, hin, -⟩ := hexact
  have hcached : s'.Cached := Cached.perform ⟨h.maxSize, h.store⟩ hperform
  rw [step, hperform]
  exact ⟨hcached.1 ▸ hin, hcached.1, hcached.2⟩

/-- In a run, every operation does to the content what it does to a plain list, or returns false and
does nothing, exactly when they all meet the condition. -/
theorem meets_exact_iff {ops : List Operation} (h : s.Inv)
    (hallowed : Run.Meets step Allowed s ops) :
    Run.Meets step Exact s ops ↔ Run.Meets step Condition s ops :=
  Run.meets_iff_within (fun _ _ hs _ hexact => inv_step hs hexact)
    (fun _ _ hs hallowed => exact_iff_condition hs hallowed) h hallowed

theorem meets_exact_sample :
    Run.Meets step Exact ⟨[1, 2, 3, 4], 0, 4, 4⟩ [.shrink 1 1, .size 2 none] ↔
      Run.Meets step Condition ⟨[1, 2, 3, 4], 0, 4, 4⟩ [.shrink 1 1, .size 2 none] :=
  meets_exact_iff ⟨by decide, rfl, by decide⟩
    ⟨show 1 + 1 ≤ 4 by decide, show 2 < 2 ^ 64 by decide, trivial⟩

/-- `Expand` makes no room, changes the content and returns false. -/
theorem not_exact_sample : ¬Exact ⟨[1, 2, 3, 4, 5, 6, 7, 8], 0, 3, 8⟩ (.expand 0 2 none) := by
  have hperform : perform ⟨[1, 2, 3, 4, 5, 6, 7, 8], 0, 3, 8⟩ (.expand 0 2 none) =
      some (⟨[3, 4, 3, 4, 5, 6, 7, 8], 0, 4, 8⟩, false) := by decide
  intro hexact
  have hcontent := ((exact_iff_of_perform hperform).mp hexact).2
  exact absurd (congrArg List.length hcontent) (by decide)

end Element

end Thunder.Core.DataElement
