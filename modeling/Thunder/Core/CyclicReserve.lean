import Thunder.Core.CyclicPeek

/-! Writes behind `CyclicBuffer::Reserve`: the head waits for the last of them, and then all is as
one write without a reservation would have left it. -/

namespace Thunder.Core.CyclicBuffer

open Cyclic Run

/-- Some writes, one after another. -/
def writes (policy : Policy) : CyclicBuffer → List (List UInt8) → Option CyclicBuffer
  | b, [] => some b
  | b, buffer :: buffers => (b.write policy buffer).bind fun r => writes policy r.2 buffers

/-- A buffer with a reservation of `n` bytes, of which some are written. -/
def progress (b : CyclicBuffer) (n : Nat) (written : List UInt8) : CyclicBuffer :=
  { b with
    reservedPID := written.length ≠ n
    reserved := n
    reservedWritten := written.length
    realBuffer := copyIn b.realBuffer b.size b.head written
    head := if written.length = n then (b.head + n) % b.size else b.head }

variable {b b' : CyclicBuffer} {n : Nat} {written : List UInt8}

/-- Who holds a reservation does not matter to the space. -/
theorem assureFreeSpace_reservedPID (b : CyclicBuffer) (p : Bool) (required : Nat) :
    assureFreeSpace plain { b with reservedPID := p } required =
      (assureFreeSpace plain b required).map fun b => { b with reservedPID := p } := by
  have hloop : ∀ fuel (b : CyclicBuffer) oldTail free,
      assureFreeSpaceLoop plain required fuel { b with reservedPID := p } oldTail free =
        (assureFreeSpaceLoop plain required fuel b oldTail free).map
          fun b => { b with reservedPID := p } := by
    intro fuel
    induction fuel with
    | zero => exact fun _ _ _ => rfl
    | succ fuel ih =>
      intro b oldTail free
      rw [assureFreeSpaceLoop, assureFreeSpaceLoop]
      simp only [plain]
      split_ifs
      · exact ih { b with
          tail := b.getCompleteTail ⟨oldTail, required + 1 - free, 0⟩ (required + 1 - free) } _ _
      · exact ih b _ _
      · rfl
  exact hloop _ b _ _

/-- Nothing is written where nothing is to be written. -/
theorem InRange.write_nil (h : b.InRange) (hpid : b.reservedPID = false) :
    b.write plain [] = some (0, b) := by
  have hhead := h.head_lt
  have hindex := h.index_lt
  have hfree : 0 < b.free := by
    rw [free, freeBetween]
    split_ifs <;> omega
  have hnot : ¬ (b.size ≤ 0 ∨ (b.overwrite = false ∧ b.free ≤ 0)) := by omega
  rw [CyclicBuffer.write, hpid, if_neg Bool.false_ne_true, List.length_nil, if_neg hnot,
    assureFreeSpace_of_lt hfree, Option.map_some, copyIn_nil _ hhead, Nat.add_zero,
    Nat.mod_eq_of_lt hhead]

/-- A write behind others of the reservation. -/
theorem write_progress (h : b.InRange) (hn : n < b.size) (hless : written.length < n)
    (buffer : List UInt8) (hfits : (written ++ buffer).length ≤ n) :
    (b.progress n written).write plain buffer =
      some (buffer.length, b.progress n (written ++ buffer)) := by
  have hpid : (b.progress n written).reservedPID = true := decide_eq_true (Nat.ne_of_lt hless)
  have hhead : (b.progress n written).head = b.head := if_neg (Nat.ne_of_lt hless)
  have hcopy := copyIn_append b.realBuffer h.head_lt (lt_of_le_of_lt hfits hn)
  have hlength : (written ++ buffer).length = written.length + buffer.length := List.length_append
  rw [write_reserved plain buffer hpid, hhead]
  have hmoves : (if written.length + buffer.length = n then
        ((b.head + written.length) % b.size + buffer.length) % b.size else b.head) =
      if written.length + buffer.length = n then (b.head + n) % b.size else b.head := by
    refine ite_congr rfl (fun heq => ?_) fun _ => rfl
    rw [Nat.mod_add_mod, Nat.add_assoc, heq]
  simp only [progress, hlength]
  rw [← hcopy, ← hmoves]
  rfl

/-- Writes behind others of the reservation, the last of which may write nothing. -/
theorem writes_progress (h : b.InRange) (hn : n < b.size) (written : List UInt8)
    (buffers : List (List UInt8))
    (hfits : (written ++ buffers.flatten).length ≤ n) :
    writes plain (b.progress n written) buffers = some
      (b.progress n (written ++ buffers.flatten)) := by
  induction buffers generalizing written with
  | nil => rw [List.flatten_nil, List.append_nil, writes]
  | cons buffer buffers ih =>
    rw [List.flatten_cons, ← List.append_assoc] at hfits ⊢
    have hfirst : (written ++ buffer).length ≤ n := by
      rw [List.length_append] at hfits
      omega
    have hwrite : (b.progress n written).write plain buffer =
        some (buffer.length, b.progress n (written ++ buffer)) := by
      by_cases hless : written.length < n
      · exact write_progress h hn hless buffer hfirst
      · -- the reservation is complete
        have hempty : buffer = [] := by
          rw [List.length_append] at hfirst
          exact List.eq_nil_of_length_eq_zero (by omega)
        have hall : written.length = n := by
          rw [hempty, List.append_nil] at hfirst
          omega
        have hrange : (b.progress n written).InRange := by
          refine h.of_eq rfl rfl ?_
          rw [progress]
          dsimp only
          rw [if_pos hall]
          exact Nat.mod_lt _ b.geometry.pos
        rw [hempty, List.append_nil]
        exact hrange.write_nil (decide_eq_false (not_not.mpr hall))
    rw [writes, hwrite, Option.bind_some, ih _ hfits]

/-- After a reservation the head stays until the last byte is written, in whatever pieces; then the
buffer is as after one write of all the bytes, but for the size of the reservation that it has had.
-/
theorem reserve_writes (h : b.Reached) (hfree : b.reservedPID = false) (hpos : 0 < n)
    (hn : n < b.size) (hmode : b.overwrite = true ∨ n < b.free) {r : Nat × CyclicBuffer}
    (hreserve : b.reserve plain n = some r) {buffers : List (List UInt8)}
    (hlength : buffers.flatten.length = n) :
    r.1 = n ∧
    (∀ first last, first ++ last = buffers → first.flatten.length < n →
      ∃ b', writes plain r.2 first = some b' ∧ b'.head = b.head) ∧
    ∃ b', b.write plain buffers.flatten = some (n, b') ∧
      writes plain r.2 buffers = some { b' with reserved := n, reservedWritten := n } := by
  have hroom : ¬ (b.size ≤ n ∨ (b.overwrite = false ∧ b.free ≤ n)) := by
    rintro (hle | ⟨hmode', hle⟩)
    · omega
    · obtain hover | hlt := hmode
      · rw [hover] at hmode'
        cases hmode'
      · omega
  rw [reserve, if_neg hroom, hfree, if_neg Bool.false_ne_true,
    assureFreeSpace_reservedPID] at hreserve
  obtain ⟨b₁, hreserved, rfl⟩ := Option.map_eq_some_iff.mp hreserve
  obtain ⟨b₀, hassure, rfl⟩ := Option.map_eq_some_iff.mp hreserved
  obtain ⟨tail, rfl, hrange⟩ := assureFreeSpace_inRange h.inRange hassure
  have hstart : ({ b with tail := tail, reservedPID := true, reserved := n, reservedWritten := 0 } :
      CyclicBuffer) = ({ b with tail := tail } : CyclicBuffer).progress n [] := by
    have hne : (0 : Nat) ≠ n := by omega
    simp only [progress, List.length_nil, hne, if_false, ne_eq, not_false_eq_true, decide_true]
    rw [copyIn_nil _ hrange.head_lt]
  refine ⟨rfl, ?_, ?_⟩
  · intro first last _ hless
    have hwrites := writes_progress hrange hn [] first (by simpa using hless.le)
    refine ⟨_, hstart ▸ hwrites, ?_⟩
    rw [progress, List.nil_append]
    exact if_neg (Nat.ne_of_lt hless)
  · have hwrites := writes_progress hrange hn [] buffers (by simpa using hlength.le)
    rw [← hstart, List.nil_append] at hwrites
    rw [write, hfree, if_neg Bool.false_ne_true, hlength, if_neg hroom, hassure, Option.map_some]
    refine ⟨_, rfl, hwrites.trans ?_⟩
    simp only [progress, hlength, hfree, ne_eq, not_true_eq_false, decide_false, if_true]

/-- Three bytes in two pieces, over the end of a ring of four cells that holds two bytes. -/
theorem reserve_writes_pieces : ∃ (b : CyclicBuffer) (r : Nat × CyclicBuffer),
    b.Reached ∧ b.head = 3 ∧ b.used = 2 ∧ b.reserve plain 3 = some r ∧
    (∃ b', writes plain r.2 [[1]] = some b' ∧ b'.head = 3) ∧
    ∃ b', b.write plain [1, 2, 3] = some (3, b') ∧
      writes plain r.2 [[1], [2, 3]] = some { b' with reserved := 3, reservedWritten := 3 } := by
  have hreached : Reached _ := ⟨Geometry.new 4 (by decide) (by decide), true, fun _ => 0,
    [.write [7, 8, 9], .read 1], _, by decide, rfl⟩
  have hwrites := reserve_writes hreached rfl (show 0 < 3 by decide) (by decide) (.inl rfl) rfl
    (show ([[1], [2, 3]] : List (List UInt8)).flatten.length = 3 from rfl)
  exact ⟨_, _, hreached, rfl, by decide, rfl, hwrites.2.1 [[1]] [[2, 3]] rfl (by decide),
    hwrites.2.2⟩

end Thunder.Core.CyclicBuffer
