import Thunder.Core.JSONString

/-! `Core::JSON::Buffer`: bytes as base64 text.  `Serialize` has its two branches the wrong way
round, so every buffer is written as the same four bytes, and `Deserialize` never sets the length.
There is always memory for `realloc`. -/

namespace Thunder.Core.JSON

/-- `buffer` is the memory behind the pointer. -/
structure Buffer where
  state : UInt8
  lastStuff : UInt8
  index : Nat
  length : Nat
  maxLength : Nat
  buffer : Nat → UInt8

namespace Buffer

def SET : UInt8 := 0x20

def ERROR : UInt8 := 0x40

def UNDEFINED : UInt8 := 0x80

variable (b : Buffer)

/-- The buffer as constructed, with what the memory held. -/
def new (memory : Nat → UInt8) : Buffer := ⟨0, 0, 0, 0, 255, memory⟩

def null (enabled : Bool) : Buffer :=
  { b with state := if enabled then b.state ||| UNDEFINED else b.state &&& ~~~UNDEFINED }

def isSet : Bool := 0 < b.length ∧ b.state &&& SET ≠ 0

def isNull : Bool := b.state &&& UNDEFINED ≠ 0

def clear : Buffer := { b with state := 0, length := 0 }

/-- The bytes that the buffer holds. -/
def content : List UInt8 := (List.range b.length).map b.buffer

/-! ### `Serialize` -/

def base64Chars : Text :=
  (List.range 26).map (fun i => .ofNat (0x41 + i)) ++
    (List.range 26).map (fun i => .ofNat (0x61 + i)) ++
      (List.range 10).map (fun i => .ofNat (0x30 + i)) ++ [0x2B, 0x2F]

/-- `base64_chars[n]`. -/
def base64Char (n : UInt8) : UInt8 := base64Chars.getD n.toNat 0

/-- A turn of the loop of `Serialize`: the character and the buffer behind it.  All characters but
the first of a group are added to what the stream held (`+=`). -/
def serializeTurn (held : UInt8) : UInt8 × Buffer :=
  let current := b.buffer b.index
  if b.state = 0 then
    (base64Char ((current &&& 0xFC) >>> 2),
      { b with lastStuff := (current &&& 0x03) <<< 4, state := 1, index := b.index + 1 })
  else if b.state = 1 then
    (held + base64Char ((current &&& 0xF0) >>> 4 ||| b.lastStuff),
      { b with lastStuff := (current &&& 0x0F) <<< 2, state := 2, index := b.index + 1 })
  else if b.state = 2 then
    (held + base64Char ((current &&& 0xC0) >>> 6 ||| b.lastStuff), { b with state := 3 })
  else (held + base64Char (current &&& 0x3F), { b with state := 0, index := b.index + 1 })

/-- The loop of `Serialize`, with so much room behind what is loaded. -/
def serializeLoop (held : Nat → UInt8) : Nat → Nat → Buffer → Text × Buffer
  | 0, _, b => ([], b)
  | room + 1, loaded, b =>
    if b.index < b.length then
      let turn := b.serializeTurn (held loaded)
      let rest := serializeLoop held room (loaded + 1) turn.2
      (turn.1 :: rest.1, rest.2)
    else ([], b)

/-- The end of the text, where all bytes are written. -/
def serializeEnd (room offset : Nat) : Text × Buffer × Nat :=
  if 0 < room ∧ b.index = b.length then
    let tail := if b.state ≠ 0 then [base64Char b.lastStuff] else []
    let b := { b with state := 0 }
    if tail.length < room then (tail ++ [0x22], b, 0) else (tail, b, offset)
  else ([], b, offset)

/-- `Serialize` into a stream that held some bytes. -/
def serialize (held : Nat → UInt8) (maxLength offset : Nat) : Text × Buffer × Nat :=
  let b := if offset = 0 then { b with state := 0, index := 0, lastStuff := 0 } else b
  let first : Text :=
    if offset = 0 then [if b.state &&& UNDEFINED = 0 then 0x22 else 0x6E] else []
  let offset := if offset = 0 then 1 else offset
  if b.state &&& UNDEFINED = 0 then
    let tag := (nullTag.drop offset).take (maxLength - first.length)
    (first ++ tag, b, if offset + tag.length = 4 then 0 else offset + tag.length)
  else
    let body := serializeLoop held (maxLength - first.length) first.length b
    let tail := body.2.serializeEnd (maxLength - first.length - body.1.length) offset
    (first ++ body.1 ++ tail.1, tail.2)

/-! ### `Deserialize` -/

/-- The number of a base64 character. -/
def converted (current : UInt8) : Option UInt8 :=
  if 0x41 ≤ current ∧ current ≤ 0x5A then some (current - 0x41)
  else if 0x61 ≤ current ∧ current ≤ 0x7A then some (current - 0x61 + 26)
  else if 0x30 ≤ current ∧ current ≤ 0x39 then some (current - 0x30 + 52)
  else if current = 0x2B then some 62
  else if current = 0x2F then some 63
  else none

/-- `_buffer[_index++] = byte`. -/
def push (byte : UInt8) : Buffer :=
  { b with buffer := Function.update b.buffer b.index byte, index := b.index + 1 }

/-- `_maxLength = maxLength`, a 16 bit number, where the buffer is full. -/
def grow (maxLength : Nat) : Buffer :=
  if b.index = b.maxLength then { b with maxLength := maxLength % 2 ^ 16 } else b

def addCharacter (converted : UInt8) : Buffer :=
  let b := b.grow (2 * b.maxLength)
  if b.maxLength ≤ b.index then b
  else if b.state = 0 then { b with lastStuff := converted <<< 2, state := 1 }
  else if b.state = 1 then
    { b.push ((converted &&& 0x30) >>> 4 ||| b.lastStuff) with
      lastStuff := (converted &&& 0x0F) <<< 4, state := 2 }
  else if b.state = 2 then
    { b.push ((converted &&& 0x3C) >>> 2 ||| b.lastStuff) with
      lastStuff := (converted &&& 0x03) <<< 6, state := 3 }
  else if b.state = 3 then { b.push (converted &&& 0x3F ||| b.lastStuff) with state := 0 }
  else b

def unsupported : Error := "Only base64 characters or null supported."

/-- The loop over base64 characters. -/
def decodeLoop : Text → Buffer → Nat → Option Error → Loaded Buffer
  | [], b, offset, error => ⟨b, 0, offset, error⟩
  | current :: rest, b, offset, error =>
    match converted current with
    | some number => (decodeLoop rest (b.addCharacter number) offset error).after 1
    | none =>
      if isspace current then (decodeLoop rest b offset error).after 1
      else if current = 0x22 then ⟨{ b with state := b.state ||| SET }, 1, offset, error⟩
      else ⟨{ b with state := ERROR }, 1, 0, some unsupported⟩

/-- What is left of a group behind the closing quote. -/
def flush : Buffer :=
  if b.state &&& SET = SET ∧ b.state &&& 0xF ≠ 0 then
    let b := b.grow (b.maxLength + 0xFF)
    if b.index < b.maxLength then b.push b.lastStuff else b
  else b

/-- The loop over the null tag. -/
def nullLoop : Text → Buffer → Nat → Option Error → Loaded Buffer
  | [], b, offset, error => ⟨b, 0, offset, error⟩
  | current :: rest, b, offset, error =>
    if offset ≠ 0 ∧ offset < 4 then
      if current ≠ nullTag.getD offset 0 then ⟨{ b with state := ERROR }, 0, 0, some unsupported⟩
      else (nullLoop rest b (offset + 1) error).after 1
    else ⟨b, 0, offset, error⟩

/-- Up to the quote or the `n`, and the rest of the stream.  What comes next is looked at to tell
which one it was, and this is `beyond` where the stream has ended. -/
def start (stream : Text) (beyond : UInt8) : Buffer × Text :=
  if b.state = 0xFF then
    match stream.dropWhile fun c => c ≠ 0x22 ∧ c ≠ 0x6E with
    | [] => (b, [])
    | _ :: rest => ({ b with state := if rest.headD beyond = 0x6E then UNDEFINED else 0 }, rest)
  else (b, stream)

/-- `Deserialize` of a stream, with the byte that the memory holds behind it. -/
def deserialize (stream : Text) (beyond : UInt8) (offset : Nat) (error : Option Error) :
    Loaded Buffer :=
  let b := if offset = 0 then { b with state := 0xFF, index := 0, lastStuff := 0, length := 0 }
    else b
  let offset := if offset = 0 then 1 else offset
  let begun := b.start stream beyond
  let taken := stream.length - begun.2.length
  if begun.1.state = 0xFF then ⟨begun.1, taken, offset, error⟩
  else if begun.1.state &&& UNDEFINED ≠ 0 then
    (nullLoop begun.2 begun.1 offset error).after taken
  else if begun.1.state &&& SET = 0 then
    ((decodeLoop begun.2 begun.1 offset error).map flush).after taken
  else ⟨begun.1, taken, offset, error⟩

/-! ### From one buffer to another -/

/-- A call of `Serialize` with a stream of this size, on a buffer and its offset. -/
def write (held : Nat → UInt8) (w : Buffer × Nat) (size : Nat) : Text × Buffer × Nat :=
  w.1.serialize held size w.2

/-- A call of `Deserialize` for a chunk with the byte behind it; `none` where it has not taken all
of it. -/
def read (r : Loaded Buffer) (chunk : Text × UInt8) : Option (Loaded Buffer) :=
  let next := r.element.deserialize chunk.1 chunk.2 r.offset r.error
  if next.loaded = chunk.1.length then some next else none

/-- A buffer written through streams of some sizes, until the offset is 0 again, and the text in
chunks, each with the byte that the memory holds behind it. -/
structure Passed (held : Nat → UInt8) (source : Buffer) where
  sizes : List Nat
  chunks : List (Text × UInt8)
  sizes_pos : ∀ size ∈ sizes, 0 < size
  sizes_ne : sizes ≠ []
  finished : (Chunks.writeUntil (write held) (fun w => w.2 = 0) (source, 0) sizes).2.2 = 0
  flatten : chunks.flatMap Prod.fst =
    (Chunks.writeUntil (write held) (fun w => w.2 = 0) (source, 0) sizes).1

/-- The buffer that has read the text has the bytes of the one that has written it, and is null if
that was. -/
def RoundTrips {held : Nat → UInt8} {source : Buffer} (p : Passed held source) (target : Buffer) :
    Prop :=
  ∃ last, p.chunks.foldlM read ⟨target, 0, 0, none⟩ = some last ∧
    last.element.content = source.content ∧ last.element.isNull = source.isNull

/-- The first chunk that is not empty is the quote alone, with an `n` in the memory behind it. -/
def Misread (chunks : List (Text × UInt8)) : Prop :=
  chunks.find? (fun chunk => chunk.1 ≠ []) = some ([0x22], 0x6E)

/-- What every buffer is written as. -/
def text : Text := 0x22 :: nullTag.tail

/-- The rest of the text at an offset. -/
def rest (w : Buffer × Nat) (bytes : Text) : Prop :=
  (w.2 = 0 ∧ bytes = text) ∨
    (0 < w.2 ∧ w.2 < 4 ∧ w.1.state = 0 ∧ bytes = nullTag.drop w.2)

theorem write_zero (held : Nat → UInt8) (b : Buffer) (n : Nat) :
    write held (b, 0) (n + 1) = (0x22 :: nullTag.tail.take n,
      { b with state := 0, index := 0, lastStuff := 0 },
      if 1 + (nullTag.tail.take n).length = 4 then 0 else 1 + (nullTag.tail.take n).length) := by
  have hnull : (0 : UInt8) &&& UNDEFINED = 0 := rfl
  simp only [write, serialize, if_true, hnull, List.length_singleton, Nat.add_sub_cancel]
  rfl

theorem write_next (held : Nat → UInt8) (b : Buffer) {offset : Nat} (hpos : 0 < offset)
    (hstate : b.state = 0) (size : Nat) :
    write held (b, offset) size = ((nullTag.drop offset).take size, b,
      if offset + ((nullTag.drop offset).take size).length = 4 then 0
      else offset + ((nullTag.drop offset).take size).length) := by
  have hne : offset ≠ 0 := by omega
  have hnull : b.state &&& UNDEFINED = 0 := by
    rw [hstate]
    rfl
  simp only [write, serialize, if_neg hne, hnull, if_true, List.nil_append, List.length_nil,
    Nat.sub_zero]

theorem write_finishes (held : Nat → UInt8) :
    Chunks.Finishes (write held) (fun w => w.2 = 0) rest := by
  rintro ⟨b, offset⟩ bytes size hsize h
  rcases h with ⟨hoffset, rfl⟩ | ⟨hpos, hless, hstate, rfl⟩
  · obtain rfl : offset = 0 := hoffset
    obtain ⟨n, rfl⟩ : ∃ n, size = n + 1 := ⟨size - 1, by omega⟩
    have hlength : (nullTag.tail.take n).length = min n 3 := List.length_take
    have htext : text.length = 4 := rfl
    rw [write_zero, hlength, htext]
    refine ⟨rfl, fun h => if_pos (by omega), fun h => ?_, fun h => .inr ?_⟩
    · simp only at h
      split_ifs at h <;> omega
    · simp only at h ⊢
      split_ifs at h ⊢ with hend
      · exact absurd rfl h
      · have hn : 1 + min n 3 = n + 1 := by omega
        exact ⟨by omega, by omega, trivial, by rw [hn]; rfl⟩
  · have hlength : ((nullTag.drop offset).take size).length = min size (4 - offset) := by
      rw [List.length_take, List.length_drop]
      rfl
    have hrest : (nullTag.drop offset).length = 4 - offset := List.length_drop
    simp only at hpos hless hstate
    rw [write_next held b hpos hstate, hlength, hrest]
    refine ⟨rfl, fun h => if_pos (by omega), fun h => ?_, fun h => .inr ?_⟩
    · simp only at h
      split_ifs at h <;> omega
    · simp only at h ⊢
      split_ifs at h ⊢ with hend
      · exact absurd rfl h
      · have hsize' : min size (4 - offset) = size := by omega
        exact ⟨by omega, by omega, hstate, by rw [hsize', List.drop_drop]⟩

/-- Every buffer is written as the same text. -/
theorem written {held : Nat → UInt8} {source : Buffer} (p : Passed held source) :
    p.chunks.flatMap Prod.fst = text := by
  have hstart : rest (source, 0) text := .inl ⟨rfl, rfl⟩
  obtain ⟨hout, -, hall⟩ := (write_finishes held).writeUntil hstart p.sizes_pos
  rw [p.flatten, hout]
  exact List.take_of_length_le ((hall p.finished).resolve_left p.sizes_ne)

/-! ### What is read -/

theorem addCharacter_state {b : Buffer} (number : UInt8) (h : b.state.toNat < 4) :
    (b.addCharacter number).state.toNat < 4 := by
  have hgrow : (b.grow (2 * b.maxLength)).state = b.state := by
    unfold grow
    split <;> rfl
  unfold addCharacter
  simp only
  split_ifs
  · rwa [hgrow]
  · exact (by decide : (1 : UInt8).toNat < 4)
  · exact (by decide : (2 : UInt8).toNat < 4)
  · exact (by decide : (3 : UInt8).toNat < 4)
  · exact (by decide : (0 : UInt8).toNat < 4)
  · rwa [hgrow]

theorem addCharacter_length (b : Buffer) (number : UInt8) :
    (b.addCharacter number).length = b.length := by
  have hgrow : (b.grow (2 * b.maxLength)).length = b.length := by
    unfold grow
    split <;> rfl
  unfold addCharacter push
  simp only
  split_ifs <;> exact hgrow

/-- The state of a buffer that reads base64 characters. -/
structure Decoding (r : Loaded Buffer) : Prop where
  state : r.element.state.toNat < 4
  length : r.element.length = 0
  offset : r.offset = 1

theorem state_lt_iff (state : UInt8) (h : state.toNat < 4) :
    state ≠ 0xFF ∧ state &&& UNDEFINED = 0 ∧ state &&& SET = 0 := by
  revert h
  exact forall_byte (P := fun state => state.toNat < 4 →
    state ≠ 0xFF ∧ state &&& UNDEFINED = 0 ∧ state &&& SET = 0) (by decide +kernel) state

theorem decodeLoop_base64 {chunk : Text} {b : Buffer} (offset : Nat) (error : Option Error)
    (hchunk : ∀ c ∈ chunk, (converted c).isSome) (hstate : b.state.toNat < 4) :
    (decodeLoop chunk b offset error).loaded = chunk.length ∧
      (decodeLoop chunk b offset error).offset = offset ∧
        (decodeLoop chunk b offset error).element.state.toNat < 4 ∧
          (decodeLoop chunk b offset error).element.length = b.length := by
  induction chunk generalizing b with
  | nil => exact ⟨rfl, rfl, hstate, rfl⟩
  | cons c chunk ih =>
    obtain ⟨number, hnumber⟩ := Option.isSome_iff_exists.mp (hchunk c List.mem_cons_self)
    obtain ⟨hloaded, hoffset, hstate', hlength⟩ :=
      ih (fun c hc => hchunk c (List.mem_cons_of_mem _ hc)) (addCharacter_state number hstate)
    rw [decodeLoop, hnumber]
    refine ⟨?_, hoffset, hstate', hlength.trans (addCharacter_length b number)⟩
    show 1 + _ = _
    rw [hloaded, List.length_cons, Nat.add_comm]

theorem read_decoding {r : Loaded Buffer} (h : Decoding r) {chunk : Text} (beyond : UInt8)
    (hchunk : ∀ c ∈ chunk, (converted c).isSome) :
    ∃ next, read r (chunk, beyond) = some next ∧ Decoding next := by
  obtain ⟨hstart, hnull, hset⟩ := state_lt_iff _ h.state
  obtain ⟨hloaded, hoffset, hstate, hlength⟩ :=
    decodeLoop_base64 (b := r.element) 1 r.error hchunk h.state
  obtain ⟨-, -, hset'⟩ := state_lt_iff _ hstate
  have hcall : r.element.deserialize chunk beyond r.offset r.error =
      ((decodeLoop chunk r.element 1 r.error).map flush).after 0 := by
    unfold deserialize start
    simp only [h.offset, Nat.one_ne_zero, if_false, hstart, hnull, hset, ne_eq,
      not_true_eq_false, if_true, Nat.sub_self]
  have hflush : flush (decodeLoop chunk r.element 1 r.error).element =
      (decodeLoop chunk r.element 1 r.error).element := by
    rw [flush, hset']
    exact if_neg (fun h => absurd h.1 (by decide))
  rw [Loaded.after_zero, Loaded.map, hflush] at hcall
  unfold read
  rw [hcall, if_pos hloaded]
  exact ⟨_, rfl, hstate, hlength.trans h.length, hoffset⟩

/-- The state of a buffer that reads the null tag. -/
structure Nulling (r : Loaded Buffer) : Prop where
  state : r.element.state = UNDEFINED
  length : r.element.length = 0
  offset : 0 < r.offset

theorem nullLoop_tag {chunk rest : Text} (b : Buffer) {offset : Nat} (error : Option Error)
    (hpos : 0 < offset) (hchunk : chunk ++ rest = nullTag.drop offset) :
    nullLoop chunk b offset error = ⟨b, chunk.length, offset + chunk.length, error⟩ := by
  induction chunk generalizing offset with
  | nil => rfl
  | cons c chunk ih =>
    have hless : offset < nullTag.length := by
      by_contra hge
      rw [List.drop_of_length_le (by omega)] at hchunk
      exact absurd hchunk (by simp)
    rw [List.drop_eq_getElem_cons hless] at hchunk
    obtain ⟨hc, hrest⟩ := List.cons.inj hchunk
    have htag : nullTag.getD offset 0 = c := by
      rw [List.getD_eq_getElem _ _ hless]
      exact hc.symm
    rw [nullLoop, if_pos ⟨by omega, hless⟩, htag, if_neg (fun h => h rfl),
      ih (Nat.succ_pos _) hrest]
    simp only [Loaded.after, List.length_cons]
    congr 1 <;> omega

theorem read_nulling {r : Loaded Buffer} (h : Nulling r) {chunk rest : Text} (beyond : UInt8)
    (hchunk : chunk ++ rest = nullTag.drop r.offset) :
    ∃ next, read r (chunk, beyond) = some next ∧ Nulling next ∧
      next.offset = r.offset + chunk.length := by
  have hne : r.offset ≠ 0 := Nat.ne_of_gt h.offset
  have hcall : r.element.deserialize chunk beyond r.offset r.error =
      ⟨r.element, chunk.length, r.offset + chunk.length, r.error⟩ := by
    have hstart : UNDEFINED ≠ 0xFF := by decide
    have hnull : UNDEFINED &&& UNDEFINED ≠ 0 := by decide
    unfold deserialize start
    simp only [if_neg hne, h.state, hstart, hnull, if_false, ne_eq, not_false_eq_true, if_true,
      Nat.sub_self]
    rw [nullLoop_tag r.element r.error h.offset hchunk, Loaded.after_zero]
  unfold read
  rw [hcall, if_pos rfl]
  exact ⟨_, rfl, ⟨h.state, h.length, Nat.lt_of_lt_of_le h.offset (Nat.le_add_right ..)⟩, rfl⟩

/-- The state of a buffer that has read nothing. -/
def Waiting (r : Loaded Buffer) : Prop :=
  r.offset = 0 ∨ (r.offset = 1 ∧ r.element.state = 0xFF ∧ r.element.length = 0)

/-- The first byte is looked for in a buffer that is reset. -/
theorem Waiting.deserialize {r : Loaded Buffer} (h : Waiting r) (stream : Text) (beyond : UInt8) :
    ∃ b : Buffer, b.state = 0xFF ∧ b.length = 0 ∧
      r.element.deserialize stream beyond r.offset r.error =
        b.deserialize stream beyond 1 r.error := by
  rcases h with h | ⟨hoffset, hstate, hlength⟩
  · refine ⟨{ r.element with state := 0xFF, index := 0, lastStuff := 0, length := 0 }, rfl, rfl, ?_⟩
    rw [h]
    rfl
  · exact ⟨r.element, hstate, hlength, by rw [hoffset]⟩

theorem read_nothing {r : Loaded Buffer} (h : Waiting r) (beyond : UInt8) :
    ∃ next, read r ([], beyond) = some next ∧ Waiting next := by
  obtain ⟨b, hstate, hlength, hcall⟩ := h.deserialize [] beyond
  have hnone : b.deserialize [] beyond 1 r.error = ⟨b, 0, 1, r.error⟩ := by
    unfold Buffer.deserialize start
    simp only [Nat.one_ne_zero, if_false, hstate, if_true, List.dropWhile_nil, List.length_nil,
      Nat.sub_self]
  unfold read
  rw [hcall, hnone]
  exact ⟨_, rfl, .inr ⟨rfl, hstate, hlength⟩⟩

theorem start_quote {b : Buffer} (hstate : b.state = 0xFF) (chunk : Text) (beyond : UInt8) :
    b.start (0x22 :: chunk) beyond =
      ({ b with state := if chunk.headD beyond = 0x6E then UNDEFINED else 0 }, chunk) := by
  rw [start, if_pos hstate, List.dropWhile_cons_of_neg (by decide)]

/-- The quote, and what is behind it is not taken for the null tag. -/
theorem read_quote {r : Loaded Buffer} (h : Waiting r) {chunk : Text} {beyond : UInt8}
    (hchunk : ∀ c ∈ chunk, (converted c).isSome) (hn : chunk.headD beyond ≠ 0x6E) :
    ∃ next, read r (0x22 :: chunk, beyond) = some next ∧ Decoding next := by
  obtain ⟨b, hstate, hlength, hcall⟩ := h.deserialize (0x22 :: chunk) beyond
  have hquoted : Decoding ⟨{ b with state := 0 }, 0, 1, r.error⟩ :=
    ⟨(by decide : (0 : UInt8).toNat < 4), hlength, rfl⟩
  obtain ⟨next, hnext, hdecoding⟩ := read_decoding hquoted beyond hchunk
  unfold read at hnext ⊢
  have hsame : b.deserialize (0x22 :: chunk) beyond 1 r.error =
      (Buffer.deserialize { b with state := 0 } chunk beyond 1 r.error).after 1 := by
    have hzero : (0 : UInt8) ≠ 0xFF ∧ ¬(0 : UInt8) &&& UNDEFINED ≠ 0 ∧ (0 : UInt8) &&& SET = 0 := by
      decide
    conv => rhs; unfold Buffer.deserialize start
    unfold Buffer.deserialize
    simp only [Nat.one_ne_zero, if_false, start_quote hstate, if_neg hn, if_neg hzero.1,
      if_neg hzero.2.1, if_pos hzero.2.2, List.length_cons, Nat.add_sub_cancel_left, Nat.sub_self,
      Loaded.after_after]
  simp only at hnext
  split at hnext
  case isFalse => nomatch hnext
  case isTrue hloaded =>
    obtain rfl := Option.some.inj hnext
    rw [hcall, hsame]
    refine ⟨_, if_pos ?_, hdecoding.state, hdecoding.length, hdecoding.offset⟩
    show 1 + _ = _
    rw [hloaded, List.length_cons, Nat.add_comm]

/-- The quote, and the byte behind it, which is not of the text, is taken for the null tag. -/
theorem read_misread {r : Loaded Buffer} (h : Waiting r) :
    ∃ next, read r ([0x22], 0x6E) = some next ∧ Nulling next ∧ next.offset = 1 := by
  obtain ⟨b, hstate, hlength, hcall⟩ := h.deserialize [0x22] 0x6E
  have hnull : b.deserialize [0x22] 0x6E 1 r.error =
      ⟨{ b with state := UNDEFINED }, 1, 1, r.error⟩ := by
    have hundefined : UNDEFINED ≠ 0xFF ∧ UNDEFINED &&& UNDEFINED ≠ 0 := by decide
    unfold Buffer.deserialize
    simp only [Nat.one_ne_zero, if_false, start_quote hstate, List.headD_nil, if_true,
      if_neg hundefined.1, if_pos hundefined.2]
    rfl
  unfold read
  rw [hcall, hnull]
  exact ⟨_, rfl, ⟨rfl, hlength, Nat.one_pos⟩, rfl⟩

/-! ### The whole text -/

theorem readAll_decoding {r : Loaded Buffer} (h : Decoding r) {chunks : List (Text × UInt8)}
    (hchunks : ∀ c ∈ chunks.flatMap Prod.fst, (converted c).isSome) :
    ∃ last, chunks.foldlM read r = some last ∧ Decoding last := by
  induction chunks generalizing r with
  | nil => exact ⟨r, rfl, h⟩
  | cons chunk chunks ih =>
    rw [List.flatMap_cons] at hchunks
    obtain ⟨next, hread, hnext⟩ :=
      read_decoding h chunk.2 fun c hc => hchunks c (List.mem_append_left _ hc)
    obtain ⟨last, hrest, hlast⟩ := ih hnext fun c hc => hchunks c (List.mem_append_right _ hc)
    refine ⟨last, ?_, hlast⟩
    rw [List.foldlM_cons, hread]
    exact hrest

theorem readAll_nulling {r : Loaded Buffer} (h : Nulling r) {chunks : List (Text × UInt8)}
    (hchunks : chunks.flatMap Prod.fst = nullTag.drop r.offset) :
    ∃ last, chunks.foldlM read r = some last ∧ Nulling last := by
  induction chunks generalizing r with
  | nil => exact ⟨r, rfl, h⟩
  | cons chunk chunks ih =>
    rw [List.flatMap_cons] at hchunks
    obtain ⟨next, hread, hnext, hoffset⟩ := read_nulling h chunk.2 hchunks
    have hrest : chunks.flatMap Prod.fst = nullTag.drop next.offset := by
      rw [hoffset, ← List.drop_drop, ← hchunks, List.drop_left]
    obtain ⟨last, hrest, hlast⟩ := ih hnext hrest
    refine ⟨last, ?_, hlast⟩
    rw [List.foldlM_cons, hread]
    exact hrest

/-- A buffer that has read the text has no bytes, and is null where the quote was misread. -/
theorem readAll_text {r : Loaded Buffer} (h : Waiting r) {chunks : List (Text × UInt8)}
    (hchunks : chunks.flatMap Prod.fst = text) :
    ∃ last, chunks.foldlM read r = some last ∧ last.element.length = 0 ∧
      (last.element.isNull = true ↔ Misread chunks) := by
  induction chunks generalizing r with
  | nil => exact absurd hchunks (by decide)
  | cons chunk chunks ih =>
    rw [List.flatMap_cons] at hchunks
    obtain ⟨bytes, beyond⟩ := chunk
    unfold Misread
    cases bytes with
    | nil =>
      obtain ⟨next, hread, hnext⟩ := read_nothing h beyond
      obtain ⟨last, hrest, hlast⟩ := ih hnext hchunks
      refine ⟨last, ?_, hlast⟩
      rw [List.foldlM_cons, hread]
      exact hrest
    | cons quote bytes =>
      obtain ⟨rfl, htail⟩ := List.cons.inj hchunks
      rw [List.find?_cons_of_pos (by simp), Option.some.injEq, Prod.mk.injEq, List.cons.injEq]
      by_cases hn : bytes = [] ∧ beyond = 0x6E
      · obtain ⟨rfl, rfl⟩ := hn
        obtain ⟨next, hread, hnext, hoffset⟩ := read_misread h
        have hrest : chunks.flatMap Prod.fst = nullTag.drop next.offset := by
          rw [hoffset]
          exact htail
        obtain ⟨last, hfold, hlast⟩ := readAll_nulling hnext hrest
        refine ⟨last, ?_, hlast.length, ?_⟩
        · rw [List.foldlM_cons, hread]
          exact hfold
        · rw [isNull, hlast.state]
          decide
      · have hbase : ∀ c ∈ nullTag.tail, (converted c).isSome :=
          List.all_eq_true.mp (by decide)
        rw [← htail] at hbase
        have hhead : bytes.headD beyond ≠ 0x6E := by
          cases bytes with
          | nil => exact fun h => hn ⟨rfl, h⟩
          | cons c bytes =>
            obtain ⟨rfl, -⟩ := List.cons.inj htail
            exact (by decide : (0x75 : UInt8) ≠ 0x6E)
        obtain ⟨next, hread, hnext⟩ :=
          read_quote h (fun c hc => hbase c (List.mem_append_left _ hc)) hhead
        obtain ⟨last, hfold, hlast⟩ :=
          readAll_decoding hnext fun c hc => hbase c (List.mem_append_right _ hc)
        refine ⟨last, ?_, hlast.length, ?_⟩
        · rw [List.foldlM_cons, hread]
          exact hfold
        · have hnull : last.element.isNull = false := by
            rw [isNull, (state_lt_iff _ hlast.state).2.1]
            rfl
          rw [hnull]
          exact ⟨nofun, fun h => absurd ⟨h.1.2, h.2⟩ hn⟩

/-- A buffer goes from one to another exactly when it has no bytes, and is null just where the quote
that it is written with is misread. -/
theorem buffer_roundTrips_iff {held : Nat → UInt8} {source : Buffer} (p : Passed held source)
    (target : Buffer) :
    RoundTrips p target ↔ source.length = 0 ∧ (source.isNull = true ↔ Misread p.chunks) := by
  have hwaiting : Waiting ⟨target, 0, 0, none⟩ := .inl rfl
  obtain ⟨last, hfold, hlength, hnull⟩ := readAll_text hwaiting (written p)
  have hcontent : last.element.content = [] := by
    rw [content, hlength]
    rfl
  unfold RoundTrips
  rw [← hnull]
  constructor
  · rintro ⟨last', hfold', hsame, hnull'⟩
    rw [hfold] at hfold'
    obtain rfl := Option.some.inj hfold'
    rw [hcontent] at hsame
    have hnone := congrArg List.length hsame
    rw [content, List.length_map, List.length_range] at hnone
    exact ⟨hnone.symm, by rw [hnull']⟩
  · rintro ⟨hnone, hnull'⟩
    refine ⟨last, hfold, ?_, Bool.eq_iff_iff.mpr hnull'.symm⟩
    rw [hcontent, content, hnone]
    rfl

/-- The byte 7 through one stream and in one chunk. -/
theorem not_roundTrips_seven :
    ∃ p : Passed (fun _ => 0) ⟨0, 0, 1, 1, 255, fun _ => 7⟩, ¬RoundTrips p (new fun _ => 0) := by
  refine ⟨⟨[16], [(text, 0)], by decide, by decide, by decide, by decide⟩, ?_⟩
  rintro ⟨last, hfold, hcontent, -⟩
  have hwaiting : Waiting ⟨new fun _ => 0, 0, 0, none⟩ := .inl rfl
  have htext : [(text, (0 : UInt8))].flatMap Prod.fst = text := by decide
  obtain ⟨last', hfold', hlength, -⟩ := readAll_text hwaiting htext
  rw [hfold] at hfold'
  obtain rfl := Option.some.inj hfold'
  rw [content, hlength, List.range_zero, List.map_nil] at hcontent
  exact absurd hcontent (by decide)

end Buffer

end Thunder.Core.JSON
