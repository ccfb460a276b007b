import Thunder.Core.CyclicBuffer

/-! What a `CyclicBuffer` holds.  `Holds b content pending` says that the ring of `b` holds the bytes
`content` that can be read and behind them the bytes `pending` of a reservation that is not complete.
For each operation there is one lemma about what it returns and what the buffer holds after it. -/

namespace Thunder.Core.CyclicBuffer

open Cyclic

variable {b : CyclicBuffer} {policy : Policy}

/-! ### Tail words -/

theorem indexOf_eq_mod (b : CyclicBuffer) (tail : Nat) :
    b.indexOf tail = tail % (1 + b.geometry.tailIndexMask) := by
  obtain ⟨k, hk⟩ := b.geometry.mask_pow
  have hmask : b.geometry.tailIndexMask = 2 ^ k - 1 := by omega
  unfold indexOf
  rw [hmask, Nat.and_two_pow_sub_one_eq_mod]
  congr 1
  have := Nat.two_pow_pos k
  omega

/-- An index and a round make a tail word. -/
theorem indexOf_word (b : CyclicBuffer) {i : Nat} (r : Nat) (h : i < b.size) :
    b.indexOf (i + r * (1 + b.geometry.tailIndexMask)) = i := by
  have hle := b.geometry.size_le
  unfold size at h
  rw [indexOf_eq_mod, Nat.add_mul_mod_self_right, Nat.mod_eq_of_lt (by omega)]

theorem word_lt (b : CyclicBuffer) {i r : Nat} (h : i < b.size)
    (hr : r < b.geometry.roundCountModulo) :
    i + r * (1 + b.geometry.tailIndexMask) < 2 ^ 32 := by
  have hle := b.geometry.size_le
  have hrounds := b.geometry.rounds
  unfold size at h
  calc i + r * (1 + b.geometry.tailIndexMask)
      < (1 + b.geometry.tailIndexMask) + r * (1 + b.geometry.tailIndexMask) := by omega
    _ = (r + 1) * (b.geometry.tailIndexMask + 1) := by ring
    _ ≤ b.geometry.roundCountModulo * (b.geometry.tailIndexMask + 1) :=
        Nat.mul_le_mul_right _ hr
    _ = 2 ^ 32 := hrounds

theorem rounds_pos (g : Geometry) : 0 < g.roundCountModulo := by
  have hrounds := g.rounds
  rcases Nat.eq_zero_or_pos g.roundCountModulo with hzero | hpos
  · rw [hzero, Nat.zero_mul] at hrounds
    exact absurd hrounds (by decide)
  · exact hpos

theorem roundOf_lt (b : CyclicBuffer) {tail : Nat} (h : tail < 2 ^ 32) :
    tail / (1 + b.geometry.tailIndexMask) < b.geometry.roundCountModulo := by
  rw [← b.geometry.rounds, Nat.add_comm b.geometry.tailIndexMask] at h
  exact Nat.div_lt_of_lt_mul (by rwa [Nat.mul_comm])

theorem nextRound_lt (b : CyclicBuffer) (r : Nat) :
    (r + 1) % b.geometry.roundCountModulo < b.geometry.roundCountModulo :=
  Nat.mod_lt _ (rounds_pos _)

/-- The complete tail is a tail word of the advanced index. -/
theorem getCompleteTail_spec (b : CyclicBuffer) (cursor : Cursor) (offset : Nat)
    (h : cursor.tail < 2 ^ 32) :
    b.indexOf (b.getCompleteTail cursor offset) = (b.indexOf cursor.tail + offset) % b.size ∧
      b.getCompleteTail cursor offset < 2 ^ 32 := by
  have hsize : 0 < b.size := b.geometry.pos
  have hindex : (b.indexOf cursor.tail + offset) % b.size < b.size := Nat.mod_lt _ hsize
  have hmask := b.geometry.size_le
  obtain ⟨k, hk⟩ := b.geometry.mask_pow
  obtain ⟨r, hr, heq⟩ : ∃ r, r < b.geometry.roundCountModulo ∧ b.getCompleteTail cursor offset =
      (b.indexOf cursor.tail + offset) % b.size + r * (1 + b.geometry.tailIndexMask) := by
    have hor : ∀ r, (b.indexOf cursor.tail + offset) % b.size |||
        r * (1 + b.geometry.tailIndexMask) =
          (b.indexOf cursor.tail + offset) % b.size + r * (1 + b.geometry.tailIndexMask) := by
      intro r
      have hlt : (b.indexOf cursor.tail + offset) % b.size < 2 ^ k := by
        unfold size at hindex ⊢
        omega
      rw [Nat.add_comm 1, hk, Nat.mul_comm r, Nat.or_comm, ← Nat.two_pow_add_eq_or_of_lt hlt,
        Nat.add_comm (2 ^ k * r)]
    unfold getCompleteTail
    simp only [hor]
    split_ifs
    · exact ⟨_, b.nextRound_lt _, rfl⟩
    · exact ⟨_, b.roundOf_lt h, rfl⟩
  rw [heq]
  exact ⟨b.indexOf_word r hindex, b.word_lt hindex hr⟩

/-! ### Content -/

/-- The bytes of the ring from the tail on. -/
structure Stored (b : CyclicBuffer) (content pending : List UInt8) : Prop where
  index_lt : b.indexOf b.tail < b.size
  tail_lt : b.tail < 2 ^ 32
  head_eq : b.head = (b.indexOf b.tail + content.length) % b.size
  ring : window b.realBuffer b.size (b.indexOf b.tail) (content ++ pending).length =
    content ++ pending
  room : (content ++ pending).length < b.size

/-- The bytes of the ring, and that the reservation is the one that `pending` belongs to. -/
structure Holds (b : CyclicBuffer) (content pending : List UInt8) : Prop
    extends Stored b content pending where
  reservation : if b.reservedPID then
      b.reservedWritten = pending.length ∧ pending.length ≤ b.reserved ∧
        content.length + b.reserved < b.size
    else pending = []

variable {content pending l rest : List UInt8}

theorem holds_new (geometry : Geometry) (overwrite : Bool) (realBuffer : Nat → UInt8) :
    (new geometry overwrite realBuffer).Holds [] [] := by
  have hsize : 0 < geometry.size := geometry.pos
  have hindex : (new geometry overwrite realBuffer).indexOf 0 = 0 := by
    simp [indexOf]
  refine ⟨⟨?_, Nat.two_pow_pos 32, ?_, by simp [window], hsize⟩, rfl⟩
  · exact hindex ▸ hsize
  · change 0 = ((new geometry overwrite realBuffer).indexOf 0 + 0) % geometry.size
    rw [hindex]
    rfl

namespace Stored

theorem content_lt (h : b.Stored content pending) : content.length < b.size := by
  have := h.room
  rw [List.length_append] at this
  omega

theorem head_lt (h : b.Stored content pending) : b.head < b.size := by
  rw [h.head_eq]
  exact Nat.mod_lt _ (by have := h.content_lt; omega)

theorem used_eq (h : b.Stored content pending) :
    b.usedBetween b.head (b.indexOf b.tail) = content.length := by
  have hlt := h.content_lt
  have hindex := h.index_lt
  have hhead := wrap_cases (b.indexOf b.tail + content.length) b.size (by omega)
  rw [← h.head_eq] at hhead
  unfold usedBetween
  split_ifs <;> omega

theorem free_eq (h : b.Stored content pending) :
    b.freeBetween b.head (b.indexOf b.tail) = b.size - content.length := by
  have hlt := h.content_lt
  have hindex := h.index_lt
  have hhead := wrap_cases (b.indexOf b.tail + content.length) b.size (by omega)
  rw [← h.head_eq] at hhead
  unfold freeBetween
  split_ifs <;> omega

/-- A cursor that has moved over `l` sees what follows it. -/
theorem peek {part : List UInt8} (h : b.Stored (l ++ (part ++ rest)) pending) (n : Nat) :
    b.peek ⟨b.tail, n, l.length⟩ part.length = part := by
  have hring := h.ring
  rw [List.append_assoc] at hring
  have hafter := (window_split hring).2
  rw [List.append_assoc] at hafter
  unfold CyclicBuffer.peek
  rw [window_mod]
  exact (window_split hafter).1

/-- Moving the tail over `l` drops `l`. -/
theorem advance (h : b.Stored (l ++ rest) pending) {tail : Nat}
    (hindex : b.indexOf tail = (b.indexOf b.tail + l.length) % b.size) (htail : tail < 2 ^ 32) :
    ({ b with tail := tail } : CyclicBuffer).Stored rest pending := by
  have hroom := h.room
  have hsize : 0 < b.size := by omega
  have hring := h.ring
  rw [List.append_assoc] at hring
  simp only [List.length_append] at hroom
  constructor
  · change b.indexOf tail < b.size
    rw [hindex]
    exact Nat.mod_lt _ hsize
  · exact htail
  · change b.head = (b.indexOf tail + rest.length) % b.size
    rw [hindex, h.head_eq, List.length_append, Nat.mod_add_mod, Nat.add_assoc]
  · change window b.realBuffer b.size (b.indexOf tail) _ = _
    rw [hindex, window_mod]
    exact (window_split hring).2
  · change _ < b.size
    rw [List.length_append]
    omega

end Stored

theorem Holds.advance (h : b.Holds (l ++ rest) pending) {tail : Nat}
    (hindex : b.indexOf tail = (b.indexOf b.tail + l.length) % b.size) (htail : tail < 2 ^ 32) :
    ({ b with tail := tail } : CyclicBuffer).Holds rest pending := by
  have hreservation := h.reservation
  refine ⟨h.toStored.advance hindex htail, ?_⟩
  change if b.reservedPID then _ else _
  split_ifs at hreservation ⊢
  · obtain ⟨hwritten, hle, hfits⟩ := hreservation
    refine ⟨hwritten, hle, ?_⟩
    rw [List.length_append] at hfits
    change rest.length + b.reserved < b.size
    omega
  · exact hreservation

/-! ### Freeing space -/

theorem assureFreeSpace_of_lt {required : Nat} (h : required < b.free) :
    assureFreeSpace policy b required = some b := by
  unfold assureFreeSpace assureFreeSpaceLoop
  rw [if_neg (by omega)]

/-- When the policy drops enough, one pass does. -/
theorem assureFreeSpace_of_le {required : Nat} (h : b.Stored (l ++ rest) pending)
    (hfree : b.free ≤ required) (henough : required + 1 - b.free ≤ l.length)
    (hdrop : policy.getOverwriteSize b ⟨b.tail, required + 1 - b.free, 0⟩ = some l.length) :
    ∃ tail, assureFreeSpace policy b required = some { b with tail := tail } ∧
      b.indexOf tail = (b.indexOf b.tail + l.length) % b.size ∧ tail < 2 ^ 32 := by
  obtain ⟨hindex, htail⟩ := b.getCompleteTail_spec ⟨b.tail, required + 1 - b.free, 0⟩
    l.length h.tail_lt
  have hdropped := h.advance hindex htail
  refine ⟨_, ?_, hindex, htail⟩
  have hlt := h.content_lt
  have hfreed := hdropped.free_eq
  have hold : b.free = b.size - (l ++ rest).length := h.free_eq
  rw [List.length_append] at hold hlt
  unfold assureFreeSpace
  rw [show 2 * b.size + 2 = 2 * b.size + 1 + 1 from rfl, assureFreeSpaceLoop, if_pos hfree]
  simp only [hdrop, if_true]
  unfold assureFreeSpaceLoop
  rw [if_neg]
  intro hle
  have hsize : ({ b with tail := b.getCompleteTail ⟨b.tail, required + 1 - b.free, 0⟩ l.length } :
    CyclicBuffer).size = b.size := rfl
  have heq : b.freeBetween b.head
      (b.indexOf (b.getCompleteTail ⟨b.tail, required + 1 - b.free, 0⟩ l.length)) =
      b.size - rest.length := hfreed
  omega

/-! ### Reading -/

/-- A read that skips `l` and takes `payload`, but for the case of a skip that leaves the ring in
front of a payload that does not fit. -/
theorem read_spec (policy : Policy) (length : Nat) (partialRead : Bool) {payload : List UInt8}
    {cursor : Cursor} (h : b.Holds (l ++ (payload ++ rest)) pending) (hpos : 0 < payload.length)
    (hsize : policy.getReadSize b ⟨b.tail, length, 0⟩ = (payload.length, cursor))
    (hskip : cursor.offset = l.length) (hpart : payload.length ≤ length ∨ partialRead = true)
    (hfits : b.size < b.indexOf b.tail + l.length → payload.length ≤ length) :
    ∃ tail, b.read policy length partialRead =
        some (payload.length, payload.take length, { b with tail := tail }) ∧
      ({ b with tail := tail } : CyclicBuffer).Holds rest pending := by
  have hroom := h.room
  have hindex := h.index_lt
  have hused := h.used_eq
  have hring := h.ring
  simp only [List.length_append] at hroom hused
  have hdrop : ∀ tail, b.indexOf tail =
      (b.indexOf b.tail + l.length + payload.length) % b.size → tail < 2 ^ 32 →
      ({ b with tail := tail } : CyclicBuffer).Holds rest pending := by
    intro tail htail hlt
    have h' : b.Holds ((l ++ payload) ++ rest) pending := by rwa [List.append_assoc]
    refine h'.advance ?_ hlt
    rw [htail, List.length_append, Nat.add_assoc]
  -- the payload is a window behind the skipped bytes, and so is what is copied of it
  have hpayload : window b.realBuffer b.size (b.indexOf b.tail + l.length) payload.length =
      payload := by
    rw [List.append_assoc] at hring
    have hafter := (window_split hring).2
    rw [List.append_assoc] at hafter
    exact (window_split hafter).1
  have hcopy : window b.realBuffer b.size (b.indexOf b.tail + l.length)
      (min length payload.length) = payload.take length := by
    have hsplit : payload.length = min length payload.length +
        (payload.length - min length payload.length) := by omega
    rw [hsplit, window_add] at hpayload
    have htake := congrArg (List.take (min length payload.length)) hpayload
    rw [List.take_left' (length_window _ _ _ _)] at htake
    rw [htake, List.take_eq_take_iff]
    omega
  have hround := b.roundOf_lt h.tail_lt
  have hnext := b.nextRound_lt (b.tail / (1 + b.geometry.tailIndexMask))
  unfold read
  rw [if_neg (by omega)]
  simp only [hsize, hskip]
  rw [if_neg (by omega), if_pos hpart]
  split_ifs with hone hbeyond
  · refine ⟨_, ?_, hdrop _ ?_ (b.word_lt hone hround)⟩
    · rw [readRun_eq_window _ b.size (by omega), hcopy]
    · rw [b.indexOf_word _ hone, Nat.mod_eq_of_lt hone]
  · have hall := hfits hbeyond
    have hlt : b.indexOf b.tail + l.length - b.size + min length payload.length < b.size := by
      omega
    refine ⟨_, ?_, hdrop _ ?_ (b.word_lt hlt hnext)⟩
    · rw [readRun_eq_window _ b.size (by omega), window_sub_size _ (by omega), hcopy]
    · rw [b.indexOf_word _ hlt, Nat.min_eq_right hall]
      have hwrap := wrap_cases (b.indexOf b.tail + l.length + payload.length) b.size (by omega)
      omega
  · have hlt : payload.length - (b.size - (b.indexOf b.tail + l.length)) < b.size := by
      omega
    refine ⟨_, ?_, hdrop _ ?_ (b.word_lt hlt hnext)⟩
    · rw [readRun_two_eq_window _ (by omega) (by omega), hcopy]
    · rw [b.indexOf_word _ hlt]
      have hwrap := wrap_cases (b.indexOf b.tail + l.length + payload.length) b.size (by omega)
      omega

/-- The case that `read_spec` leaves out: the tail moves over the bytes that were copied only. -/
theorem read_beyond {length n : Nat} {cursor : Cursor} (hpos : 0 < n)
    (hused : b.usedBetween b.head (b.indexOf b.tail) ≠ 0)
    (hsize : policy.getReadSize b ⟨b.tail, length, 0⟩ = (n, cursor))
    (hbeyond : b.size < b.indexOf b.tail + cursor.offset)
    (hlt : b.indexOf b.tail + cursor.offset - b.size + min length n < b.size) :
    ∃ bytes tail, b.read policy length true = some (n, bytes, { b with tail := tail }) ∧
      b.indexOf tail = b.indexOf b.tail + cursor.offset - b.size + min length n := by
  refine ⟨readRun b.realBuffer (b.indexOf b.tail + cursor.offset - b.size) (min length n), _, ?_,
    b.indexOf_word ((b.tail / (1 + b.geometry.tailIndexMask) + 1) % b.geometry.roundCountModulo)
      hlt⟩
  unfold read
  rw [if_neg hused]
  simp only [hsize]
  rw [if_neg (Nat.ne_of_gt hpos), if_pos (.inr trivial), if_neg (by omega), if_pos hbeyond]

/-- Nothing is read from an empty buffer. -/
theorem read_empty (policy : Policy) (h : b.Holds [] pending) (length : Nat)
    (partialRead : Bool) :
    b.read policy length partialRead = some (0, [], b) := by
  have hused : b.usedBetween b.head (b.indexOf b.tail) = 0 := h.used_eq
  simp only [read, hused, if_true]

/-! ### Writing -/

/-- The memory after `buffer` has been copied behind the pending bytes. -/
def appended (b : CyclicBuffer) (written : Nat) (buffer : List UInt8) : Nat → UInt8 :=
  copyIn b.realBuffer b.size ((b.head + written) % b.size) buffer

theorem Stored.window_appended (h : b.Stored content pending) {buffer : List UInt8}
    (hroom : (content ++ pending ++ buffer).length < b.size) :
    window (b.appended pending.length buffer) b.size (b.indexOf b.tail)
      (content ++ pending ++ buffer).length = content ++ pending ++ buffer := by
  have hstart : (b.head + pending.length) % b.size =
      (b.indexOf b.tail + (content ++ pending).length) % b.size := by
    rw [h.head_eq, Nat.mod_add_mod, List.length_append, Nat.add_assoc]
  unfold appended
  rw [hstart]
  rw [List.length_append] at hroom
  exact window_copyIn h.index_lt h.ring (by omega) (by omega)

/-- The head moves behind everything that was written. -/
theorem Stored.head_after (h : b.Stored content pending) (buffer : List UInt8) :
    ((b.head + pending.length) % b.size + buffer.length) % b.size =
      (b.indexOf b.tail + (content ++ pending ++ buffer).length) % b.size := by
  rw [h.head_eq, Nat.mod_add_mod, Nat.add_assoc (_ % _), Nat.mod_add_mod, List.length_append,
    List.length_append]
  congr 1
  omega

/-- A write within a reservation that does not complete it. -/
theorem write_reserved_part (policy : Policy) (buffer : List UInt8)
    (h : b.Holds content pending) (hreserved : b.reservedPID = true)
    (hlt : pending.length + buffer.length < b.reserved) :
    ∃ b', b.write policy buffer = some (buffer.length, b') ∧ b'.Holds content (pending ++ buffer) ∧
      b' = { b with
        reservedWritten := pending.length + buffer.length
        realBuffer := b.appended pending.length buffer } := by
  have hreservation := h.reservation
  rw [hreserved, if_pos rfl] at hreservation
  obtain ⟨hwritten, -, hfits⟩ := hreservation
  have hroom : (content ++ pending ++ buffer).length < b.size := by
    simp only [List.length_append]
    omega
  refine ⟨_, ?_, ?_, rfl⟩
  · unfold write
    rw [if_pos hreserved]
    simp only [hwritten, appended]
    rw [if_neg (by omega)]
  · have hring := h.window_appended hroom
    rw [List.append_assoc] at hring hroom
    refine ⟨⟨h.index_lt, h.tail_lt, h.head_eq, hring, hroom⟩, ?_⟩
    change if b.reservedPID then _ else _
    rw [hreserved, if_pos rfl]
    refine ⟨?_, ?_, hfits⟩
    · rw [List.length_append]
    · change (pending ++ buffer).length ≤ b.reserved
      rw [List.length_append]
      omega

/-- The write that completes a reservation. -/
theorem write_reserved_last (policy : Policy) (buffer : List UInt8)
    (h : b.Holds content pending) (hreserved : b.reservedPID = true)
    (heq : pending.length + buffer.length = b.reserved) :
    ∃ b', b.write policy buffer = some (buffer.length, b') ∧
      b'.Holds (content ++ pending ++ buffer) [] ∧
      b' = { b with
        reservedPID := false
        reservedWritten := pending.length + buffer.length
        head := ((b.head + pending.length) % b.size + buffer.length) % b.size
        realBuffer := b.appended pending.length buffer } := by
  have hreservation := h.reservation
  rw [hreserved, if_pos rfl] at hreservation
  obtain ⟨hwritten, -, hfits⟩ := hreservation
  have hroom : (content ++ pending ++ buffer).length < b.size := by
    simp only [List.length_append]
    omega
  refine ⟨_, ?_, ?_, rfl⟩
  · unfold write
    rw [if_pos hreserved]
    simp only [hwritten, appended]
    rw [if_pos heq]
  · have hring := h.window_appended hroom
    refine ⟨⟨h.index_lt, h.tail_lt, h.head_after buffer, ?_, ?_⟩, rfl⟩
    · rw [List.append_nil]
      exact hring
    · rwa [List.append_nil]

/-- A write without a reservation, once there is room. -/
theorem write_assured {buffer : List UInt8} {b' : CyclicBuffer} (hfree : b.reservedPID = false)
    (hlen : buffer.length < b.size) (hmode : b.overwrite = true ∨ buffer.length < b.free)
    (hassure : assureFreeSpace policy b buffer.length = some b')
    (hfree' : b'.reservedPID = false) (h : b'.Stored content [])
    (hroom : content.length + buffer.length < b'.size) :
    b.write policy buffer = some (buffer.length, { b' with
        head := (b'.head + buffer.length) % b'.size
        realBuffer := b'.appended 0 buffer }) ∧
      ({ b' with
        head := (b'.head + buffer.length) % b'.size
        realBuffer := b'.appended 0 buffer } : CyclicBuffer).Holds (content ++ buffer) [] := by
  have hhead : b'.head % b'.size = b'.head := Nat.mod_eq_of_lt h.head_lt
  constructor
  · unfold write
    rw [if_neg (by simp [hfree]), if_neg, hassure]
    · simp only [Option.map_some, appended, Nat.add_zero, hhead]
    · rintro (hle | ⟨hmode', hle⟩)
      · omega
      · rcases hmode with hover | hlt
        · rw [hover] at hmode'
          exact absurd hmode' (by decide)
        · omega
  · have hroom' : (content ++ [] ++ buffer).length < b'.size := by simpa using hroom
    have hring := h.window_appended hroom'
    have hafter := h.head_after buffer
    simp only [List.append_nil, List.length_nil, Nat.add_zero, hhead] at hring hafter hroom'
    refine ⟨⟨h.index_lt, h.tail_lt, hafter, ?_, ?_⟩, ?_⟩
    · rw [List.append_nil]
      exact hring
    · rwa [List.append_nil]
    · change if b'.reservedPID then _ else _
      simp [hfree']

/-- A reservation, once there is room. -/
theorem reserve_assured {length : Nat} {b' : CyclicBuffer} (hfree : b.reservedPID = false)
    (hlen : length < b.size) (hmode : b.overwrite = true ∨ length < b.free)
    (hassure : assureFreeSpace policy { b with reservedPID := true } length = some b')
    (hpid : b'.reservedPID = true) (h : b'.Stored content [])
    (hroom : content.length + length < b'.size) :
    b.reserve policy length =
        some (length, { b' with reserved := length, reservedWritten := 0 }) ∧
      ({ b' with reserved := length, reservedWritten := 0 } : CyclicBuffer).Holds content [] := by
  constructor
  · unfold reserve
    rw [if_neg, if_neg (by simp [hfree]), hassure]
    · rfl
    · rintro (hle | ⟨hmode', hle⟩)
      · omega
      · rcases hmode with hover | hlt
        · rw [hover] at hmode'
          exact absurd hmode' (by decide)
        · omega
  · refine ⟨⟨h.index_lt, h.tail_lt, h.head_eq, h.ring, h.room⟩, ?_⟩
    change if b'.reservedPID then _ else _
    rw [hpid, if_pos rfl]
    exact ⟨rfl, Nat.zero_le _, hroom⟩

/-- Flushing drops the content, and keeps the bytes of a reservation. -/
theorem Holds.flush (h : b.Holds content pending) : b.flush.Holds [] pending := by
  have hhead := h.head_lt
  have hindex : b.indexOf b.head = b.head := by
    have := b.indexOf_word 0 hhead
    simpa using this
  have hall : b.Holds (content ++ []) pending := by
    rwa [List.append_nil]
  refine hall.advance ?_ ?_
  · rw [hindex, h.head_eq]
  · have := b.word_lt (r := 0) hhead (rounds_pos _)
    simpa using this

end Thunder.Core.CyclicBuffer
