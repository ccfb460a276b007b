import Thunder.Library.Bytes
import Thunder.Library.Run
import Thunder.Core.CyclicContent

/-! `MessageDataBuffer`: whole messages in an overwriting `CyclicBuffer`.  A record is a header of two
bytes with the length of the record, in the order of the processor (the least significant byte
first), and the message.  The data lock makes a push and a pop one operation each; the doorbell
carries no data and is left out. -/

namespace Thunder.Messaging

open Bytes Cyclic Run Thunder.Core Thunder.Core.CyclicBuffer

/-! ### The code -/

/-- The loop of `DataBuffer::GetOverwriteSize`; a chunk of no bytes makes it run for ever. -/
def overwriteLoop : Nat → CyclicBuffer → Cursor → Option Nat
  | 0, _, _ => none
  | fuel + 1, b, cursor =>
    if cursor.offset < cursor.size then
      let chunkSize := ofLittleEndian (b.peek cursor 2)
      overwriteLoop fuel b (cursor.forward chunkSize)
    else some cursor.offset

/-- The virtual functions of `DataBuffer`. -/
def dataBuffer : Policy where
  getReadSize b cursor :=
    let entrySize := ofLittleEndian (b.peek cursor 2)
    (if 2 < entrySize then entrySize - 2 else 0, cursor.forward 2)
  getOverwriteSize b cursor := overwriteLoop (cursor.size + 1) b cursor

namespace MessageDataBuffer

/-- The result and the buffer afterwards. -/
def pushData (b : CyclicBuffer) (value : List UInt8) : Option (Nat × CyclicBuffer) :=
  let fullLength := (2 + value.length) % 2 ^ 16
  (b.reserve dataBuffer fullLength).bind fun (reservedLength, b) =>
    if fullLength ≤ reservedLength % 2 ^ 16 then
      (b.write dataBuffer (littleEndian 2 fullLength)).bind fun (_, b) =>
        (b.write dataBuffer value).map fun (_, b) => (errorNone, b)
    else some (errorWriteError, b)

/-- The result, `outLength`, the bytes of `outValue` and the buffer afterwards. -/
def popData (b : CyclicBuffer) (outLength : Nat) : Option (Nat × Nat × List UInt8 × CyclicBuffer) :=
  (b.read dataBuffer outLength true).map fun (length, outValue, b) =>
    (if 0 < length then if outLength < length then errorGeneral else errorNone else errorReadError,
      length, outValue, b)

/-! ### The purpose -/

/-- A message that a buffer of `size` bytes takes. -/
structure Message (size : Nat) where
  bytes : List UInt8
  pos : 0 < bytes.length
  fits : 2 + bytes.length < size
  short : 2 + bytes.length ≤ 65535

variable {size : Nat}

namespace Message

def record (m : Message size) : List UInt8 := littleEndian 2 (2 + m.bytes.length) ++ m.bytes

def records (queue : List (Message size)) : List UInt8 := queue.flatMap record

@[simp] theorem length_record (m : Message size) : m.record.length = 2 + m.bytes.length := by
  simp [record]

@[simp] theorem records_nil : records ([] : List (Message size)) = [] := rfl

@[simp] theorem records_cons (m : Message size) (queue : List (Message size)) :
    records (m :: queue) = m.record ++ records queue := rfl

@[simp] theorem records_append (queue queue' : List (Message size)) :
    records (queue ++ queue') = records queue ++ records queue' := List.flatMap_append ..

theorem header (m : Message size) :
    ofLittleEndian (littleEndian 2 (2 + m.bytes.length)) = 2 + m.bytes.length := by
  have hshort := m.short
  exact ofLittleEndian_littleEndian_of_lt (by omega)

end Message

open Message

/-- Oldest messages go until there is room for `required` bytes and the cell that stays free. -/
def makeRoom (required : Nat) : List (Message size) → List (Message size)
  | [] => []
  | m :: queue =>
    if (records (m :: queue)).length + required < size then m :: queue else makeRoom required queue

/-- A push drops what it must and appends the message. -/
def pushed (queue : List (Message size)) (m : Message size) : List (Message size) :=
  makeRoom m.record.length queue ++ [m]

/-- What a pop delivers: the result, the length of the message and the bytes of it that fit. -/
def delivered (queue : List (Message size)) (capacity : Nat) : Nat × Nat × List UInt8 :=
  match queue with
  | [] => (errorReadError, 0, [])
  | m :: _ => (if capacity < m.bytes.length then errorGeneral else errorNone, m.bytes.length,
      m.bytes.take capacity)

/-- Dropping takes whole messages off the front. -/
theorem makeRoom_suffix (required : Nat) (queue : List (Message size)) :
    makeRoom required queue <:+ queue := by
  induction queue with
  | nil => exact List.suffix_rfl
  | cons m queue ih =>
    unfold makeRoom
    split_ifs
    · exact List.suffix_rfl
    · exact ih.trans (List.suffix_cons _ _)

theorem makeRoom_lt {required : Nat} (hlt : required < size) (queue : List (Message size)) :
    (records (makeRoom required queue)).length + required < size := by
  induction queue with
  | nil => simpa [makeRoom] using hlt
  | cons m queue ih =>
    unfold makeRoom
    split_ifs with hroom
    · exact hroom
    · exact ih

theorem makeRoom_of_lt {required : Nat} {queue : List (Message size)}
    (h : (records queue).length + required < size) : makeRoom required queue = queue := by
  cases queue with
  | nil => rfl
  | cons m queue => rw [makeRoom, if_pos h]

/-! ### The framing -/

/-- The ring holds the records of the queue, and nobody has reserved space. -/
structure Framed (b : CyclicBuffer) (queue : List (Message size)) : Prop
    extends b.Holds (records queue) [] where
  size_eq : b.size = size
  unreserved : b.reservedPID = false
  overwrites : b.overwrite = true

variable {b : CyclicBuffer} {queue before after : List (Message size)} {pending : List UInt8}

theorem peek_header (before : List (Message size)) {m : Message size}
    (h : b.Stored (records (before ++ m :: after)) pending) (n : Nat) :
    ofLittleEndian (b.peek ⟨b.tail, n, (records before).length⟩ 2) = 2 + m.bytes.length := by
  rw [records_append, records_cons, record, List.append_assoc] at h
  have hpeek := h.peek n
  rw [length_littleEndian] at hpeek
  rw [hpeek, m.header]

/-- The loop stops at the first message that may stay. -/
theorem overwriteLoop_spec {required : Nat} (remaining fuel : Nat) (hlt : required < size)
    (h : b.Stored (records (before ++ after)) pending)
    (hremaining : (records (before ++ after)).length + required + 1 = remaining + size)
    (hfuel : remaining - (records before).length < fuel) :
    overwriteLoop fuel b ⟨b.tail, remaining, (records before).length⟩ =
      some ((records (before ++ after)).length - (records (makeRoom required after)).length) := by
  have hlength := hremaining
  rw [records_append, List.length_append] at hlength
  induction after generalizing before fuel with
  | nil =>
    cases fuel with
    | zero =>
      rw [records_nil, List.length_nil] at hlength
      omega
    | succ fuel =>
      rw [records_nil, List.length_nil] at hlength
      rw [overwriteLoop, if_neg (by dsimp only; omega), List.append_nil]
      simp [makeRoom]
  | cons m after ih =>
    have hrecord := m.length_record
    rw [records_cons, List.length_append] at hlength
    cases fuel with
    | zero => omega
    | succ fuel =>
      unfold makeRoom
      split_ifs with hroom
      · rw [records_cons, List.length_append] at hroom
        rw [overwriteLoop, if_neg (by dsimp only; omega), records_append, records_cons]
        simp only [List.length_append, Option.some.injEq]
        omega
      · rw [records_cons, List.length_append] at hroom
        have hsplit : before ++ m :: after = (before ++ [m]) ++ after := by simp
        have hbefore : (records (before ++ [m])).length =
            (records before).length + (2 + m.bytes.length) := by simp
        rw [overwriteLoop, if_pos (by dsimp only; omega), peek_header _ h]
        simp only [Cursor.forward]
        rw [hsplit] at h hremaining ⊢
        rw [← hbefore]
        exact ih _ h hremaining (by omega) (by omega)

/-- Freeing space for a push makes room in the queue. -/
theorem assure_room {required : Nat} (h : b.Stored (records queue) pending) (hsize : b.size = size)
    (hlt : required < size) :
    ∃ tail, assureFreeSpace dataBuffer b required = some { b with tail := tail } ∧
      ({ b with tail := tail } : CyclicBuffer).Stored (records (makeRoom required queue))
        pending := by
  have hfree : b.free = b.size - (records queue).length := h.free_eq
  have hcontent := h.content_lt
  rcases Nat.lt_or_ge required b.free with henough | hfew
  · rw [makeRoom_of_lt (by omega)]
    exact ⟨b.tail, assureFreeSpace_of_lt henough, h⟩
  · obtain ⟨dropped, hdropped⟩ := makeRoom_suffix required queue
    have hlength := congrArg (fun queue => (records queue).length) hdropped
    simp only [records_append, List.length_append] at hlength
    have hroom := makeRoom_lt hlt queue
    have hstored : b.Stored (records dropped ++ records (makeRoom required queue)) pending := by
      rwa [← records_append, hdropped]
    have hsize' : dataBuffer.getOverwriteSize b ⟨b.tail, required + 1 - b.free, 0⟩ =
        some (records dropped).length := by
      have hloop := overwriteLoop_spec (required + 1 - b.free) (required + 1 - b.free + 1) hlt
        (show b.Stored (records ([] ++ queue)) pending from h) (by rw [List.nil_append]; omega)
        (by rw [records_nil, List.length_nil]; omega)
      rw [List.nil_append] at hloop
      refine hloop.trans ?_
      rw [Option.some.injEq]
      omega
    obtain ⟨tail, hassure, hindex, htail⟩ := assureFreeSpace_of_le hstored hfew (by omega) hsize'
    exact ⟨tail, hassure, hstored.advance hindex htail⟩

/-- A push succeeds, drops whole messages only, and keeps the framing. -/
theorem framed_pushData (h : Framed b queue) (m : Message size) :
    ∃ b', pushData b m.bytes = some (errorNone, b') ∧ Framed b' (pushed queue m) := by
  have hpos := m.pos
  have hshort := m.short
  have hfits : m.record.length < size := m.length_record ▸ m.fits
  have hfull : (2 + m.bytes.length) % 2 ^ 16 = m.record.length := by
    rw [m.length_record]
    omega
  have hmarked : ({ b with reservedPID := true } : CyclicBuffer).Stored (records queue) [] :=
    ⟨h.index_lt, h.tail_lt, h.head_eq, h.ring, h.room⟩
  obtain ⟨tail, hassure, hroom⟩ := assure_room hmarked h.size_eq hfits
  have hkept := makeRoom_lt hfits queue
  obtain ⟨hreserve, hreserved⟩ := reserve_assured h.unreserved (h.size_eq ▸ hfits)
    (.inl h.overwrites) hassure rfl hroom (by
      change _ < b.size
      rw [h.size_eq]
      exact hkept)
  obtain ⟨b₁, hheader, hafter, hb₁⟩ := write_reserved_part dataBuffer
    (littleEndian 2 m.record.length) hreserved rfl (by
      change 0 + _ < m.record.length
      rw [length_littleEndian, m.length_record]
      omega)
  obtain ⟨b₂, hvalue, hframe, hb₂⟩ := write_reserved_last dataBuffer m.bytes
    hafter (by rw [hb₁]) (by
      rw [hb₁]
      change ([] ++ _).length + _ = m.record.length
      rw [List.nil_append, length_littleEndian, m.length_record])
  refine ⟨b₂, ?_, ?_, ?_, ?_, ?_⟩
  · unfold pushData
    simp only [hfull, hreserve, Option.bind_some, hheader, hvalue, Option.map_some]
    rw [if_pos (by rw [m.length_record]; omega)]
  · have hrecord : littleEndian 2 m.record.length ++ m.bytes = m.record := by
      rw [m.length_record]
      rfl
    unfold pushed
    rw [records_append, records_cons, records_nil, List.append_nil]
    simpa only [List.nil_append, List.append_assoc, hrecord] using hframe
  · rw [hb₂, hb₁]
    exact h.size_eq
  · rw [hb₂]
  · rw [hb₂, hb₁]
    exact h.overwrites

theorem getReadSize_framed {m : Message size} (h : Framed b (m :: queue)) (n : Nat) :
    dataBuffer.getReadSize b ⟨b.tail, n, 0⟩ = (m.bytes.length, ⟨b.tail, n, 2⟩) := by
  have hpos := m.pos
  have hpeek := peek_header [] h.toStored n
  rw [records_nil, List.length_nil] at hpeek
  simp only [dataBuffer, hpeek, Cursor.forward]
  rw [if_pos (by omega), Nat.add_sub_cancel_left]

/-- A pop whose header does not lie over the end of the ring, or whose message fits, delivers the
oldest message and keeps the framing. -/
theorem framed_popData {m : Message size} {capacity : Nat} (h : Framed b (m :: queue))
    (hwhole : b.indexOf b.tail + 1 = b.size → m.bytes.length ≤ capacity) :
    ∃ b', popData b capacity = some ((delivered (m :: queue) capacity).1,
        (delivered (m :: queue) capacity).2.1, (delivered (m :: queue) capacity).2.2, b') ∧
      Framed b' queue := by
  have hindex := h.index_lt
  have hfirst : b.Holds
      (littleEndian 2 (2 + m.bytes.length) ++ (m.bytes ++ records queue)) [] := by
    rw [← List.append_assoc]
    exact h.toHolds
  obtain ⟨tail, hread, hafter⟩ := read_spec dataBuffer capacity true hfirst m.pos
    (getReadSize_framed h capacity) (length_littleEndian _ _).symm (.inr rfl) (by rw [length_littleEndian]; omega)
  refine ⟨{ b with tail := tail }, ?_, hafter, h.size_eq, h.unreserved, h.overwrites⟩
  unfold popData delivered
  rw [hread]
  simp only [Option.map_some, if_pos m.pos]

/-- A pop of a message that does not fit, from under a header that lies over the end of the ring,
loses the framing: the tail moves over what was copied only. -/
theorem not_framed_popData {m : Message size} {capacity : Nat} (h : Framed b (m :: queue))
    (hsplit : b.indexOf b.tail + 1 = b.size) (hcapacity : capacity < m.bytes.length) :
    ∃ r, popData b capacity = some r ∧ ¬ Framed r.2.2.2 queue := by
  have hroom := h.content_lt
  have hused := h.used_eq
  have hhead := h.head_eq
  simp only [records_cons, List.length_append, length_record] at hroom hused hhead
  obtain ⟨bytes, tail, hread, hindex⟩ := read_beyond m.pos (by omega)
    (getReadSize_framed h capacity) (by dsimp only; omega) (by dsimp only; omega)
  refine ⟨_, by rw [popData, hread, Option.map_some], fun hframed => ?_⟩
  -- both the old and the new tail account for the head
  have hhead' : b.head = (b.indexOf tail + (records queue).length) % b.size := hframed.head_eq
  dsimp only at hindex
  have hwrap := wrap_cases (b.indexOf b.tail + (2 + m.bytes.length + (records queue).length))
    b.size (by omega)
  rw [Nat.mod_eq_of_lt (by omega)] at hhead'
  omega

theorem framed_popData_nil (h : Framed b ([] : List (Message size))) (capacity : Nat) :
    popData b capacity = some (errorReadError, 0, [], b) := by
  unfold popData
  rw [read_empty _ h.toHolds]
  rfl

/-! ### Runs -/

inductive Op (size : Nat)
  | push (m : Message size)
  | pop (capacity : Nat)

/-- The code next to its purpose; the code has no state when an operation did not return. -/
def step (s : Option CyclicBuffer × List (Message size)) :
    Op size → Option CyclicBuffer × List (Message size)
  | .push m => (s.1.bind fun b => (pushData b m.bytes).map Prod.snd, pushed s.2 m)
  | .pop capacity => (s.1.bind fun b => (popData b capacity).map fun r => r.2.2.2, s.2.tail)

/-- The operations have returned, and the ring frames the queue. -/
def Refines (s : Option CyclicBuffer × List (Message size)) : Prop :=
  ∃ b, s.1 = some b ∧ Framed b s.2

/-- The operation returns what the purpose says. -/
def Delivers (s : Option CyclicBuffer × List (Message size)) : Op size → Prop
  | .push m => (s.1.bind fun b => (pushData b m.bytes).map Prod.fst) = some errorNone
  | .pop capacity =>
    (s.1.bind fun b => (popData b capacity).map fun r => (r.1, r.2.1, r.2.2.1)) =
      some (delivered s.2 capacity)

/-- A pop finds a header in one piece, or has room for the message. -/
def PopsWhole (s : Option CyclicBuffer × List (Message size)) : Op size → Prop
  | .push _ => True
  | .pop capacity => ∀ b m queue, s = (some b, m :: queue) → b.indexOf b.tail + 1 = b.size →
      m.bytes.length ≤ capacity

theorem refines_step_iff (s : Option CyclicBuffer × List (Message size)) (op : Op size)
    (h : Refines s) : Refines (step s op) ∧ Delivers s op ↔ PopsWhole s op := by
  obtain ⟨s, queue⟩ := s
  obtain ⟨b, rfl, hframed⟩ := h
  cases op with
  | push m =>
    obtain ⟨b', hpush, hframed'⟩ := framed_pushData hframed m
    refine iff_of_true ⟨⟨b', ?_, hframed'⟩, ?_⟩ trivial
    · simp [step, hpush]
    · simp [Delivers, hpush]
  | pop capacity =>
    cases queue with
    | nil =>
      have hpop := framed_popData_nil hframed capacity
      refine iff_of_true ⟨⟨b, ?_, hframed⟩, ?_⟩ ?_
      · simp [step, hpop]
      · simp [Delivers, hpop, delivered]
      · intro b' m queue heq
        simp at heq
    | cons m queue =>
      constructor
      · rintro ⟨⟨b', hafter, hframed'⟩, -⟩ b₁ m₁ queue₁ heq hsplit
        obtain ⟨rfl, rfl, rfl⟩ : b = b₁ ∧ m = m₁ ∧ queue = queue₁ := by simpa using heq
        by_contra hshort
        obtain ⟨r, hpop, hlost⟩ := not_framed_popData hframed hsplit (Nat.lt_of_not_le hshort)
        have hb' : r.2.2.2 = b' := by simpa [step, hpop] using hafter
        rw [hb'] at hlost
        exact hlost hframed'
      · intro hwhole
        obtain ⟨b', hpop, hframed'⟩ := framed_popData hframed (hwhole b m queue rfl)
        refine ⟨⟨b', ?_, hframed'⟩, ?_⟩
        · simp [step, hpop]
        · simp [Delivers, hpop]

/-- A run of a new buffer delivers the messages as a lossy queue does, and keeps the framing in every
state, exactly when no pop cuts a message short under a header that lies over the end of the ring. -/
theorem refines_iff_popsWhole (pos : 0 < size) (size_lt : size < 2 ^ 31) (realBuffer : Nat → UInt8)
    (ops : List (Op size)) :
    Always step Refines (some (new (Geometry.new size pos size_lt) true realBuffer), []) ops ∧
      Meets step Delivers (some (new (Geometry.new size pos size_lt) true realBuffer), []) ops ↔
      Meets step PopsWhole (some (new (Geometry.new size pos size_lt) true realBuffer), []) ops :=
  always_meets_iff refines_step_iff ⟨_, rfl, holds_new _ _ _, rfl, rfl, rfl⟩

/-- Three messages; the header of the third lies over the end of the ring. -/
def threeMessages (capacity : Nat) : List (Op 8) :=
  [.push ⟨[1], by decide, by decide, by decide⟩, .push ⟨[2, 3], by decide, by decide, by decide⟩,
    .pop 1, .pop 1, .push ⟨[4, 5, 6], by decide, by decide, by decide⟩, .pop capacity]

/-- The second message may be cut short; the third one fits. -/
theorem refines_three :
    Always step Refines (some (new (Geometry.new 8 (by decide) (by decide)) true fun _ => 0), [])
        (threeMessages 3) ∧
      Meets step Delivers (some (new (Geometry.new 8 (by decide) (by decide)) true fun _ => 0), [])
        (threeMessages 3) := by
  refine (refines_iff_popsWhole (by decide) (by decide) (fun _ => 0) _).mpr
    ⟨trivial, trivial, ?_, ?_, trivial, ?_, trivial⟩
  · intro b m queue h hsplit
    have hb := Option.some.inj (Prod.mk.inj h).1
    subst hb
    exact absurd hsplit (by decide)
  · intro b m queue h hsplit
    have hb := Option.some.inj (Prod.mk.inj h).1
    subst hb
    exact absurd hsplit (by decide)
  · intro b m queue h _
    have hm := (List.cons.inj (Prod.mk.inj h).2).1
    subst hm
    decide

/-- When the third one is cut to a byte, the framing is lost. -/
theorem unframed_three : ¬ (
    Always step Refines (some (new (Geometry.new 8 (by decide) (by decide)) true fun _ => 0), [])
        (threeMessages 1) ∧
      Meets step Delivers (some (new (Geometry.new 8 (by decide) (by decide)) true fun _ => 0), [])
        (threeMessages 1)) := by
  rintro ⟨hrefines, -⟩
  obtain ⟨b, hb, hframed⟩ := hrefines.last
  have hcode : (after step (some (new (Geometry.new 8 (by decide) (by decide)) true fun _ => 0), [])
      (threeMessages 1)).1.map used = some 2 := by decide
  have hqueue : records (after step (some (new (Geometry.new 8 (by decide) (by decide)) true
      fun _ => 0), []) (threeMessages 1)).2 = [] := by decide
  have hused : b.used = _ := hframed.used_eq
  rw [hb, Option.map_some, hused, hqueue] at hcode
  exact absurd hcode (by decide)

end MessageDataBuffer

end Thunder.Messaging
