import Thunder.Core.CyclicFifo

/-! `CyclicBuffer::Peek`, a second implementation of what `Read` returns.  It is compared with it in
every state that calls with permitted arguments reach, whatever was read in them. -/

namespace Thunder.Core.CyclicBuffer

open Cyclic Run

/-! ### States that are reached -/

/-- What `Read` and `Write` assert about their arguments. -/
def Op.Permitted (size : Nat) : Op → Prop
  | .read length => 0 < length ∧ length ≤ size
  | .write buffer => buffer.length < size
  | _ => True

instance (size : Nat) : DecidablePred (Op.Permitted size)
  | .read _ => inferInstanceAs (Decidable (_ ∧ _))
  | .write _ => inferInstanceAs (Decidable (_ < _))
  | .reserve _ | .flush => inferInstanceAs (Decidable True)

/-- A buffer after some calls. -/
inductive Reached (b : CyclicBuffer) : Prop
  | intro (geometry : Geometry) (overwrite : Bool) (realBuffer : Nat → UInt8) (ops : List Op)
    (log : Log) (hops : ∀ op ∈ ops, op.Permitted geometry.size)
    (hrun : after stepRecorded (some (new geometry overwrite realBuffer, {})) ops = some (b, log))

/-- The head and the tail are in the ring. -/
structure InRange (b : CyclicBuffer) : Prop where
  head_lt : b.head < b.size
  index_lt : b.indexOf b.tail < b.size
  tail_lt : b.tail < 2 ^ 32

variable {b b' : CyclicBuffer} {log log' : Log}

theorem inRange_new (geometry : Geometry) (overwrite : Bool) (realBuffer : Nat → UInt8) :
    (new geometry overwrite realBuffer).InRange := by
  have hholds := holds_new geometry overwrite realBuffer
  exact ⟨hholds.head_lt, hholds.index_lt, hholds.tail_lt⟩

theorem InRange.moved (h : b.InRange) {tail : Nat} (hindex : b.indexOf tail < b.size)
    (htail : tail < 2 ^ 32) : ({ b with tail := tail } : CyclicBuffer).InRange :=
  ⟨h.head_lt, hindex, htail⟩

/-- Space is made by the tail alone. -/
theorem assureFreeSpaceLoop_inRange {required fuel oldTail free : Nat} (h : b.InRange)
    (hold : oldTail < 2 ^ 32)
    (hassure : assureFreeSpaceLoop plain required fuel b oldTail free = some b') :
    ∃ tail, b' = { b with tail := tail } ∧ b'.InRange := by
  induction fuel generalizing b oldTail free with
  | zero => cases hassure
  | succ fuel ih =>
    rw [assureFreeSpaceLoop] at hassure
    by_cases hle : free ≤ required
    · have hdrop : plain.getOverwriteSize b ⟨oldTail, required + 1 - free, 0⟩ =
          some (required + 1 - free) := rfl
      rw [if_pos hle] at hassure
      simp only [hdrop] at hassure
      split_ifs at hassure
      · obtain ⟨hindex, htail⟩ :=
          b.getCompleteTail_spec ⟨oldTail, required + 1 - free, 0⟩ (required + 1 - free) hold
        have hlt := Nat.mod_lt (b.indexOf oldTail + (required + 1 - free)) b.geometry.pos
        obtain ⟨tail, rfl, hrange⟩ := ih (h.moved (hindex ▸ hlt) htail) hold hassure
        exact ⟨tail, rfl, hrange⟩
      · exact ih h h.tail_lt hassure
    · rw [if_neg hle] at hassure
      obtain rfl := Option.some.inj hassure
      exact ⟨b.tail, rfl, h⟩

theorem assureFreeSpace_inRange {required : Nat} (h : b.InRange)
    (hassure : assureFreeSpace plain b required = some b') :
    ∃ tail, b' = { b with tail := tail } ∧ b'.InRange :=
  assureFreeSpaceLoop_inRange h h.tail_lt hassure

/-- Only the tail counts for the range, and the head where it moves. -/
theorem InRange.of_eq (h : b.InRange) (hgeometry : b'.geometry = b.geometry)
    (htail : b'.tail = b.tail) (hhead : b'.head < b.size) : b'.InRange := by
  refine ⟨?_, ?_, ?_⟩
  · rw [size, hgeometry]
    exact hhead
  · rw [size, indexOf, hgeometry, htail]
    exact h.index_lt
  · rw [htail]
    exact h.tail_lt

/-- A write within a reservation moves the head if it is the last one. -/
theorem write_reserved (policy : Policy) (buffer : List UInt8) (hpid : b.reservedPID = true) :
    b.write policy buffer = some (buffer.length, { b with
      reservedPID := b.reservedWritten + buffer.length ≠ b.reserved
      reservedWritten := b.reservedWritten + buffer.length
      realBuffer := copyIn b.realBuffer b.size ((b.head + b.reservedWritten) % b.size) buffer
      head := if b.reservedWritten + buffer.length = b.reserved
        then ((b.head + b.reservedWritten) % b.size + buffer.length) % b.size else b.head }) := by
  rw [CyclicBuffer.write, if_pos hpid]
  by_cases hlast : b.reservedWritten + buffer.length = b.reserved
  · simp [hlast]
  · simp [hlast, hpid]

theorem InRange.write {buffer : List UInt8} {r : Nat × CyclicBuffer} (h : b.InRange)
    (hwrite : b.write plain buffer = some r) : r.2.InRange ∧ r.2.geometry = b.geometry := by
  cases hpid : b.reservedPID with
  | true =>
    rw [write_reserved plain buffer hpid] at hwrite
    obtain rfl := Option.some.inj hwrite
    refine ⟨h.of_eq rfl rfl ?_, rfl⟩
    dsimp only
    split_ifs
    · exact Nat.mod_lt _ b.geometry.pos
    · exact h.head_lt
  | false =>
    rw [CyclicBuffer.write, hpid, if_neg Bool.false_ne_true] at hwrite
    split_ifs at hwrite
    · obtain rfl := Option.some.inj hwrite
      exact ⟨h, rfl⟩
    · obtain ⟨b', hassure, rfl⟩ := Option.map_eq_some_iff.mp hwrite
      obtain ⟨tail, rfl, hrange⟩ := assureFreeSpace_inRange h hassure
      exact ⟨hrange.of_eq rfl rfl (Nat.mod_lt _ b.geometry.pos), rfl⟩

theorem InRange.reserve {length : Nat} {r : Nat × CyclicBuffer} (h : b.InRange)
    (hreserve : b.reserve plain length = some r) : r.2.InRange ∧ r.2.geometry = b.geometry := by
  rw [CyclicBuffer.reserve] at hreserve
  split_ifs at hreserve
  · obtain rfl := Option.some.inj hreserve
    exact ⟨h, rfl⟩
  · obtain rfl := Option.some.inj hreserve
    exact ⟨h, rfl⟩
  · obtain ⟨b', hassure, rfl⟩ := Option.map_eq_some_iff.mp hreserve
    have hpid : ({ b with reservedPID := true } : CyclicBuffer).InRange := h.of_eq rfl rfl h.head_lt
    obtain ⟨tail, rfl, hrange⟩ := assureFreeSpace_inRange hpid hassure
    exact ⟨hrange.of_eq rfl rfl hrange.head_lt, rfl⟩

theorem InRange.flush (h : b.InRange) : b.flush.InRange := by
  have hindex : b.indexOf b.head = b.head := by simpa using b.indexOf_word 0 h.head_lt
  refine ⟨h.head_lt, ?_, ?_⟩
  · change b.indexOf b.head < b.size
    rw [hindex]
    exact h.head_lt
  · have hlt := b.word_lt (r := 0) h.head_lt (rounds_pos _)
    rwa [Nat.zero_mul, Nat.add_zero] at hlt

/-- What the plain buffer reads, and where the tail goes. -/
theorem InRange.read_spec (h : b.InRange) {length : Nat} (hpos : 0 < length)
    (hlength : length ≤ b.size)
    (hused : b.used ≠ 0) :
    ∃ tail, b.read plain length false =
        some (length, window b.realBuffer b.size (b.indexOf b.tail) length,
          { b with tail := tail }) ∧
      ({ b with tail := tail } : CyclicBuffer).InRange := by
  have hindex := h.index_lt
  have hround := b.roundOf_lt h.tail_lt
  have hnext := b.nextRound_lt (b.tail / (1 + b.geometry.tailIndexMask))
  have hread : b.read plain length false =
      if b.indexOf b.tail + length < b.size then
        some (length, readRun b.realBuffer (b.indexOf b.tail) length,
          { b with tail := b.indexOf b.tail + length +
            b.tail / (1 + b.geometry.tailIndexMask) * (1 + b.geometry.tailIndexMask) })
      else
        some (length, readRun b.realBuffer (b.indexOf b.tail)
          (min (b.size - b.indexOf b.tail) length) ++
            readRun b.realBuffer 0 (length - (b.size - b.indexOf b.tail)),
          { b with tail := length - (b.size - b.indexOf b.tail) +
            (b.tail / (1 + b.geometry.tailIndexMask) + 1) % b.geometry.roundCountModulo *
              (1 + b.geometry.tailIndexMask) }) := by
    have hzero : length ≠ 0 := by omega
    rw [CyclicBuffer.read, if_neg (by exact hused)]
    simp only [plain, hzero, if_false, le_refl, true_or, if_true, Nat.add_zero, Nat.min_self,
      hindex.not_gt]
  rw [hread]
  split_ifs with hone
  · refine ⟨_, by rw [readRun_eq_window _ b.size hone.le], h.moved ?_ (b.word_lt hone hround)⟩
    rw [b.indexOf_word _ hone]
    exact hone
  · have hrest : length - (b.size - b.indexOf b.tail) < b.size := by omega
    refine ⟨_, by rw [readRun_two_eq_window _ (by omega) (by omega)],
      h.moved ?_ (b.word_lt hrest hnext)⟩
    rw [b.indexOf_word _ hrest]
    exact hrest

theorem InRange.read {length : Nat} {r : Nat × List UInt8 × CyclicBuffer} (h : b.InRange)
    (hpos : 0 < length) (hlength : length ≤ b.size) (hread : b.read plain length false = some r) :
    r.2.2.InRange ∧ r.2.2.geometry = b.geometry := by
  by_cases hused : b.used = 0
  · rw [CyclicBuffer.read, if_pos (by exact hused)] at hread
    obtain rfl := Option.some.inj hread
    exact ⟨h, rfl⟩
  · obtain ⟨tail, heq, hrange⟩ := h.read_spec hpos hlength hused
    rw [heq] at hread
    obtain rfl := Option.some.inj hread
    exact ⟨hrange, rfl⟩

/-- A permitted call keeps the range. -/
theorem InRange.recorded {op : Op} (h : b.InRange) (hop : op.Permitted b.size)
    (hstep : CyclicBuffer.recorded (b, log) op = some (b', log')) :
    b'.InRange ∧ b'.geometry = b.geometry := by
  cases op with
  | write buffer =>
    obtain ⟨r, hwrite, heq⟩ := Option.map_eq_some_iff.mp hstep
    rw [← (Prod.mk.inj heq).1]
    exact h.write hwrite
  | reserve length =>
    obtain ⟨r, hreserve, heq⟩ := Option.map_eq_some_iff.mp hstep
    rw [← (Prod.mk.inj heq).1]
    exact h.reserve hreserve
  | read length =>
    obtain ⟨r, hread, heq⟩ := Option.map_eq_some_iff.mp hstep
    rw [← (Prod.mk.inj heq).1]
    exact h.read hop.1 hop.2 hread
  | flush =>
    obtain rfl := (Prod.mk.inj (Option.some.inj hstep)).1
    exact ⟨h.flush, rfl⟩

theorem after_none (ops : List Op) : after stepRecorded none ops = none := by
  induction ops with
  | nil => rfl
  | cons op ops ih => exact ih

/-- In every run of permitted calls the head and the tail stay in the ring. -/
theorem Reached.inRange (h : b.Reached) : b.InRange := by
  obtain ⟨geometry, overwrite, realBuffer, ops, log, hops, hrun⟩ := h
  have hkeeps : ∀ (ops : List Op) (b₀ : CyclicBuffer) (log₀ : Log), b₀.InRange →
      b₀.geometry = geometry → (∀ op ∈ ops, op.Permitted geometry.size) →
      after stepRecorded (some (b₀, log₀)) ops = some (b, log) → b.InRange := by
    intro ops
    induction ops with
    | nil =>
      intro b₀ log₀ hrange _ _ hrun
      rw [after_nil] at hrun
      exact (Prod.mk.inj (Option.some.inj hrun)).1 ▸ hrange
    | cons op ops ih =>
      intro b₀ log₀ hrange hgeometry hops hrun
      rw [after_cons] at hrun
      cases hstep : stepRecorded (some (b₀, log₀)) op with
      | none =>
        rw [hstep, after_none] at hrun
        cases hrun
      | some r =>
        rw [hstep] at hrun
        have hop := hops op List.mem_cons_self
        rw [← hgeometry] at hop
        obtain ⟨hrange', hsame⟩ := hrange.recorded hop hstep
        exact ih r.1 r.2 hrange' (hsame.trans hgeometry)
          (fun op hin => hops op (List.mem_cons_of_mem _ hin)) hrun
  exact hkeeps ops _ {} (inRange_new geometry overwrite realBuffer) rfl hops hrun

/-! ### Peek -/

/-- `Used` of a head and a word, in 32 bits. -/
def usedWord (b : CyclicBuffer) (head tail : Nat) : Nat :=
  if tail ≤ head then head - tail else (b.size + 2 ^ 32 - (tail - head)) % 2 ^ 32

/-- `Peek`: the result, and the bytes that are copied to the buffer of the caller.  It takes the
tail with its rounds for the index, and the length for the result, where the source does. -/
def peekBuffer (b : CyclicBuffer) (length : Nat) : Nat × List UInt8 :=
  let oldTail := b.tail
  let tail := b.indexOf oldTail
  let result := b.usedWord b.head oldTail
  if result = 0 then (0, [])
  else
    let result := min result length
    let readEnd := tail + result
    if readEnd < b.size then (result, readRun b.realBuffer tail result)
    else
      let firstLength := b.size - tail
      let secondLength := length - firstLength
      (result, readRun b.realBuffer tail firstLength ++ readRun b.realBuffer 0 secondLength)

/-- A peek says how much there is of what it is asked for, and copies what a read of that much
returns. -/
def PeekAgrees (b : CyclicBuffer) (length : Nat) : Prop :=
  (b.peekBuffer length).1 = min length b.used ∧
    if min length b.used = 0 then (b.peekBuffer length).2 = []
    else ∃ b', b.read plain (min length b.used) false =
      some (min length b.used, (b.peekBuffer length).2, b')

variable {length : Nat}

theorem InRange.used_lt (h : b.InRange) : b.used < b.size := by
  have hhead := h.head_lt
  have hindex := h.index_lt
  rw [used, usedBetween]
  split_ifs <;> omega

/-- The bytes that a peek should copy are a window. -/
theorem InRange.peek_iff (h : b.InRange) (hlength : length ≤ b.size) :
    b.PeekAgrees length ↔ b.peekBuffer length = (min length b.used,
      window b.realBuffer b.size (b.indexOf b.tail) (min length b.used)) := by
  rw [PeekAgrees, Prod.ext_iff]
  refine and_congr_right fun _ => ?_
  by_cases hzero : min length b.used = 0
  · rw [if_pos hzero, hzero]
    exact Iff.rfl
  · obtain ⟨tail, hread, -⟩ := h.read_spec (show 0 < min length b.used by omega) (by omega)
      (by omega)
    rw [if_neg hzero, hread]
    constructor
    · rintro ⟨b', heq⟩
      exact (Prod.mk.inj (Prod.mk.inj (Option.some.inj heq)).2).1.symm
    · intro heq
      exact ⟨_, by rw [heq]⟩

/-- The tail that has gone round, or not. -/
theorem tail_cases (b : CyclicBuffer) :
    b.tail = b.indexOf b.tail ∧ b.tail ≤ b.geometry.tailIndexMask ∨
      b.geometry.tailIndexMask < b.tail ∧ b.indexOf b.tail + b.geometry.tailIndexMask < b.tail := by
  rw [indexOf_eq_mod]
  rcases Nat.lt_or_ge b.geometry.tailIndexMask b.tail with hover | hle
  · right
    refine ⟨hover, ?_⟩
    have hdiv := Nat.div_add_mod b.tail (1 + b.geometry.tailIndexMask)
    have hpos : 1 ≤ b.tail / (1 + b.geometry.tailIndexMask) :=
      (Nat.one_le_div_iff (by omega)).mpr (by omega)
    have hmul := Nat.mul_le_mul_left (1 + b.geometry.tailIndexMask) hpos
    omega
  · exact .inl ⟨(Nat.mod_eq_of_lt (by omega)).symm, hle⟩

/-- A peek agrees with a read exactly if it is asked for no more than there is, also where it looks
at the tail with its rounds, or if the tail has not gone round and the bytes end in front of the
end of the ring. -/
theorem InRange.peekAgrees (h : b.InRange) (hlength : length ≤ b.size) :
    b.PeekAgrees length ↔
      length ≤ b.used ∧ length ≤ b.usedWord b.head b.tail ∨
      b.used < length ∧ b.tail ≤ b.geometry.tailIndexMask ∧ b.indexOf b.tail + b.used < b.size := by
  rw [h.peek_iff hlength]
  have hhead := h.head_lt
  have hindex := h.index_lt
  have htail := h.tail_lt
  have hused := h.used_lt
  have hmask : b.size ≤ b.geometry.tailIndexMask := b.geometry.size_le
  have hword : b.geometry.tailIndexMask + 1 ≤ 2 ^ 32 :=
    Nat.le_of_dvd (Nat.two_pow_pos 32) (Dvd.intro_left _ b.geometry.rounds)
  -- what is copied has the length of what is asked for where the ring ends in between
  have hlong : ∀ n, ¬ b.indexOf b.tail + n < b.size → n ≤ length →
      (readRun b.realBuffer (b.indexOf b.tail) (b.size - b.indexOf b.tail) ++
        readRun b.realBuffer 0 (length - (b.size - b.indexOf b.tail))).length = length := by
    intro n hover hle
    rw [List.length_append, length_readRun, length_readRun]
    omega
  have hwindow : ¬ b.indexOf b.tail + length < b.size →
      readRun b.realBuffer (b.indexOf b.tail) (b.size - b.indexOf b.tail) ++
        readRun b.realBuffer 0 (length - (b.size - b.indexOf b.tail)) =
      window b.realBuffer b.size (b.indexOf b.tail) length := by
    intro hover
    have htwo := readRun_two_eq_window b.realBuffer hindex.le hlength
    rwa [min_eq_left (by omega)] at htwo
  obtain ⟨htail, hfirst⟩ | ⟨hover, hround⟩ := b.tail_cases
  · have hsame : b.usedWord b.head b.tail = b.used := by
      rw [usedWord, used, usedBetween, ← htail]
      split_ifs
      · rfl
      · omega
    simp only [peekBuffer, hsame, min_comm b.used length]
    by_cases hzero : b.used = 0
    · rw [if_pos hzero, hzero, Nat.min_zero]
      exact ⟨fun _ => by omega, fun _ => rfl⟩
    rw [if_neg hzero]
    by_cases hone : b.indexOf b.tail + min length b.used < b.size
    · rw [if_pos hone, readRun_eq_window _ b.size hone.le]
      exact ⟨fun _ => by omega, fun _ => rfl⟩
    rw [if_neg hone]
    by_cases hle : length ≤ b.used
    · rw [min_eq_left hle] at hone ⊢
      rw [hwindow hone]
      exact ⟨fun _ => .inl ⟨hle, hle⟩, fun _ => rfl⟩
    · constructor
      · intro heq
        have hlengths := congrArg List.length (Prod.mk.inj heq).2
        rw [hlong _ hone (Nat.min_le_left ..), length_window] at hlengths
        omega
      · omega
  · -- with its rounds the tail gives another number than without them
    have hne : b.usedWord b.head b.tail ≠ b.used := by
      rw [usedWord, used, usedBetween]
      split_ifs <;> omega
    have hfst : (b.peekBuffer length).1 = min (b.usedWord b.head b.tail) length := by
      rw [peekBuffer]
      dsimp only
      split_ifs with hzero
      · rw [hzero, Nat.zero_min]
      · rfl
      · rfl
    by_cases hboth : length ≤ b.used ∧ length ≤ b.usedWord b.head b.tail
    · simp only [peekBuffer, min_eq_left hboth.1, min_eq_right hboth.2]
      refine ⟨fun _ => .inl hboth, fun _ => ?_⟩
      split_ifs with hzero hone
      · obtain rfl : length = 0 := by omega
        rfl
      · rw [readRun_eq_window _ b.size hone.le]
      · rw [hwindow hone]
    · constructor
      · intro heq
        have hcount := congrArg Prod.fst heq
        rw [hfst] at hcount
        dsimp only at hcount
        omega
      · omega

/-- In every state that is reached. -/
theorem peekAgrees_iff (h : b.Reached) (hlength : length ≤ b.size) :
    b.PeekAgrees length ↔
      length ≤ b.used ∧ length ≤ b.usedWord b.head b.tail ∨
      b.used < length ∧ b.tail ≤ b.geometry.tailIndexMask ∧ b.indexOf b.tail + b.used < b.size :=
  h.inRange.peekAgrees hlength

/-- A peek of all that there is, in a buffer of four bytes. -/
theorem peekAgrees_two :
    (({ new (Geometry.new 4 (by decide) (by decide)) false fun _ => 0 with
      head := 2, realBuffer := copyIn (fun _ => 0) 4 0 [7, 8] } : CyclicBuffer).PeekAgrees 2) :=
  (peekAgrees_iff ⟨Geometry.new 4 (by decide) (by decide), false, fun _ => 0, [.write [7, 8]], _,
    by decide, rfl⟩ (by decide)).mpr (by decide)

/-- Five bytes are written and read of a buffer of four, and one more is written: the tail has gone
round, and a peek finds more than there is. -/
theorem not_peekAgrees_round : ¬ ∀ (b : CyclicBuffer) (length : Nat), b.Reached → length ≤ b.size →
    b.PeekAgrees length := by
  intro h
  have hreached : Reached _ := ⟨Geometry.new 4 (by decide) (by decide), false, fun _ => 0,
    [.write [1, 2, 3], .read 3, .write [4, 5], .read 2, .write [6]], _, by decide, rfl⟩
  have hcount := (h _ 4 hreached (by decide)).1
  exact absurd hcount (by decide)

end Thunder.Core.CyclicBuffer
