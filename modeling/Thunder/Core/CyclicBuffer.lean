import Mathlib.Data.Nat.Bitwise
import Mathlib.Tactic.Ring
import Thunder.Library.Cyclic
import Thunder.Core.Errors

/-! `CyclicBuffer`: bytes in a ring of `size` cells.  The head is an index; the tail word holds an
index in its low bits and a count of rounds above them.  One cell always stays free, so that equal
indices mean an empty buffer.  The operations run one after another here, so a compare-and-exchange
of the tail succeeds exactly when the tail is the one that was read.  Notifications carry no data and
are left out. -/

namespace Thunder.Core

open Cyclic

/-- What the constructor fixes: the size and how the tail word is divided.  The number of rounds
times the indices of a round is the range of a 32-bit word. -/
structure Geometry where
  size : Nat
  tailIndexMask : Nat
  roundCountModulo : Nat
  pos : 0 < size
  size_le : size ≤ tailIndexMask
  mask_pow : ∃ k, tailIndexMask + 1 = 2 ^ k
  rounds : roundCountModulo * (tailIndexMask + 1) = 2 ^ 32

/-- The loop of the constructor. -/
def maskLoop : Nat → Nat → Nat → Nat → Nat × Nat
  | 0, _, mask, modulo => (mask, modulo)
  | fuel + 1, size, mask, modulo =>
    if mask < size then maskLoop fuel size ((mask <<< 1) + 1) (modulo >>> 1) else (mask, modulo)

/-- Below 2^31 the loop ends with a mask that covers the size. -/
theorem maskLoop_spec {fuel size mask modulo k : Nat} (hk : mask + 1 = 2 ^ k)
    (hmodulo : modulo * 2 ^ k = 2 ^ 32) (hfuel : k + fuel = 31) (hsize : size < 2 ^ 31) :
    ∃ k', (maskLoop fuel size mask modulo).1 + 1 = 2 ^ k' ∧
      (maskLoop fuel size mask modulo).2 * 2 ^ k' = 2 ^ 32 ∧
      size ≤ (maskLoop fuel size mask modulo).1 := by
  induction fuel generalizing mask modulo k with
  | zero =>
    have hk31 : k = 31 := by omega
    subst hk31
    refine ⟨31, hk, hmodulo, ?_⟩
    simp only [maskLoop]
    omega
  | succ fuel ih =>
    unfold maskLoop
    split_ifs with hlt
    · obtain ⟨d, hd⟩ : ∃ d, modulo = 2 * d := by
        have hpow : modulo * 2 ^ k = 2 ^ (32 - k) * 2 ^ k := by
          rw [hmodulo, ← pow_add]
          congr 1
          omega
        refine ⟨2 ^ (31 - k), ?_⟩
        rw [Nat.eq_of_mul_eq_mul_right (Nat.two_pow_pos k) hpow, ← pow_succ']
        congr 1
        omega
      refine ih (k := k + 1) ?_ ?_ (by omega)
      · rw [Nat.shiftLeft_eq, pow_one, pow_succ]
        omega
      · rw [Nat.shiftRight_eq_div_pow, pow_one, hd, Nat.mul_div_cancel_left _ (by decide),
          pow_succ', ← hmodulo, hd]
        ring
    · exact ⟨k, hk, hmodulo, by omega⟩

theorem maskLoop_new {size : Nat} (h : size < 2 ^ 31) :
    ∃ k, (maskLoop 30 size 1 (1 <<< 31)).1 + 1 = 2 ^ k ∧
      (maskLoop 30 size 1 (1 <<< 31)).2 * 2 ^ k = 2 ^ 32 ∧
      size ≤ (maskLoop 30 size 1 (1 <<< 31)).1 :=
  maskLoop_spec (k := 1) rfl (by decide) (by omega) h

def Geometry.new (size : Nat) (pos : 0 < size) (size_lt : size < 2 ^ 31) : Geometry where
  size := size
  tailIndexMask := (maskLoop 30 size 1 (1 <<< 31)).1
  roundCountModulo := (maskLoop 30 size 1 (1 <<< 31)).2
  pos := pos
  size_le := by
    obtain ⟨k, -, -, h⟩ := maskLoop_new size_lt
    exact h
  mask_pow := by
    obtain ⟨k, h, -, -⟩ := maskLoop_new size_lt
    exact ⟨k, h⟩
  rounds := by
    obtain ⟨k, h, h', -⟩ := maskLoop_new size_lt
    rw [h]
    exact h'

/-- The administration and the bytes; `overwrite` is the `OVERWRITE` bit of the state, and
`reservedPID` tells whether a process holds a reservation. -/
structure CyclicBuffer where
  geometry : Geometry
  overwrite : Bool
  head : Nat
  tail : Nat
  reserved : Nat
  reservedWritten : Nat
  reservedPID : Bool
  realBuffer : Nat → UInt8

/-- `CyclicBuffer::Cursor`. -/
structure Cursor where
  tail : Nat
  size : Nat
  offset : Nat

namespace Cursor

def forward (cursor : Cursor) (byteCount : Nat) : Cursor :=
  { cursor with offset := cursor.offset + byteCount }

end Cursor

/-- The virtual functions of a buffer: how much a read takes, and how much an overwriting write
drops.  `getOverwriteSize` has no result when its loop does not end. -/
structure Policy where
  getReadSize : CyclicBuffer → Cursor → Nat × Cursor
  getOverwriteSize : CyclicBuffer → Cursor → Option Nat

namespace CyclicBuffer

def new (geometry : Geometry) (overwrite : Bool) (realBuffer : Nat → UInt8) : CyclicBuffer :=
  ⟨geometry, overwrite, 0, 0, 0, 0, false, realBuffer⟩

def size (b : CyclicBuffer) : Nat := b.geometry.size

/-- The index in a tail word. -/
def indexOf (b : CyclicBuffer) (tail : Nat) : Nat := tail &&& b.geometry.tailIndexMask

def usedBetween (b : CyclicBuffer) (head tail : Nat) : Nat :=
  if tail ≤ head then head - tail else b.size - (tail - head)

def freeBetween (b : CyclicBuffer) (head tail : Nat) : Nat :=
  if tail ≤ head then b.size - (head - tail) else tail - head

def used (b : CyclicBuffer) : Nat := b.usedBetween b.head (b.indexOf b.tail)

def free (b : CyclicBuffer) : Nat := b.freeBetween b.head (b.indexOf b.tail)

/-- `Cursor::Peek` of `n` bytes. -/
def peek (b : CyclicBuffer) (cursor : Cursor) (n : Nat) : List UInt8 :=
  window b.realBuffer b.size ((b.indexOf cursor.tail + cursor.offset) % b.size) n

/-- `Cursor::GetCompleteTail`. -/
def getCompleteTail (b : CyclicBuffer) (cursor : Cursor) (offset : Nat) : Nat :=
  let round := 1 + b.geometry.tailIndexMask
  let oldTail := b.indexOf cursor.tail
  let completeTail := (oldTail + offset) % b.size
  let roundCount := cursor.tail / round
  let roundCount :=
    if completeTail < oldTail then (roundCount + 1) % b.geometry.roundCountModulo else roundCount
  completeTail ||| roundCount * round

/-- The loop of `AssureFreeSpace`.  After an exchange that succeeds `oldTail` is stale, and the next
pass finds out. -/
def assureFreeSpaceLoop (policy : Policy) (required : Nat) :
    Nat → CyclicBuffer → Nat → Nat → Option CyclicBuffer
  | 0, _, _, _ => none
  | fuel + 1, b, oldTail, free =>
    if free ≤ required then
      let cursor : Cursor := ⟨oldTail, required + 1 - free, 0⟩
      match policy.getOverwriteSize b cursor with
      | none => none
      | some offset =>
        let newTail := b.getCompleteTail cursor offset
        if b.tail = oldTail then
          assureFreeSpaceLoop policy required fuel { b with tail := newTail } oldTail
            (b.freeBetween b.head (b.indexOf newTail))
        else
          assureFreeSpaceLoop policy required fuel b b.tail
            (b.freeBetween b.head (b.indexOf b.tail))
    else some b

/-- A pass frees a byte at least, or reads the tail again. -/
def assureFreeSpace (policy : Policy) (b : CyclicBuffer) (required : Nat) : Option CyclicBuffer :=
  assureFreeSpaceLoop policy required (2 * b.size + 2) b b.tail b.free

/-- The result, the bytes copied out and the buffer afterwards; none when the loop does not end. -/
def read (policy : Policy) (b : CyclicBuffer) (length : Nat) (partialRead : Bool) :
    Option (Nat × List UInt8 × CyclicBuffer) :=
  let offset := b.indexOf b.tail
  if b.usedBetween b.head offset = 0 then some (0, [], b)
  else
    let (result, cursor) := policy.getReadSize b ⟨b.tail, length, 0⟩
    if result = 0 then none
    else if result ≤ length ∨ partialRead = true then
      let bufferLength := min length result
      let offset := offset + cursor.offset
      let round := 1 + b.geometry.tailIndexMask
      let roundCount := b.tail / round
      if offset + result < b.size then
        some (result, readRun b.realBuffer offset bufferLength,
          { b with tail := offset + result + roundCount * round })
      else
        let nextRound := (roundCount + 1) % b.geometry.roundCountModulo
        if b.size < offset then
          let skip := offset - b.size
          some (result, readRun b.realBuffer skip bufferLength,
            { b with tail := skip + bufferLength + nextRound * round })
        else
          let part1 := b.size - offset
          some (result, readRun b.realBuffer offset (min part1 bufferLength) ++
              readRun b.realBuffer 0 (bufferLength - part1),
            { b with tail := result - part1 + nextRound * round })
    else some (result, [], b)

/-- The result and the buffer afterwards. -/
def write (policy : Policy) (b : CyclicBuffer) (buffer : List UInt8) : Option (Nat × CyclicBuffer) :=
  let length := buffer.length
  if b.reservedPID then
    let newReservedWritten := b.reservedWritten + length
    let writeStart := (b.head + b.reservedWritten) % b.size
    let written := { b with
      reservedWritten := newReservedWritten
      realBuffer := copyIn b.realBuffer b.size writeStart buffer }
    -- the head waits for the last write of the reservation
    if newReservedWritten = b.reserved then
      some (length, { written with
        reservedPID := false
        head := (writeStart + length) % b.size })
    else some (length, written)
  else if b.size ≤ length ∨ (b.overwrite = false ∧ b.free ≤ length) then some (0, b)
  else
    (assureFreeSpace policy b length).map fun b =>
      (length, { b with
        realBuffer := copyIn b.realBuffer b.size b.head buffer
        head := (b.head + length) % b.size })

/-- The reserved length, or an error code. -/
def reserve (policy : Policy) (b : CyclicBuffer) (length : Nat) : Option (Nat × CyclicBuffer) :=
  if b.size ≤ length ∨ (b.overwrite = false ∧ b.free ≤ length) then
    some (errorInvalidInputLength, b)
  else if b.reservedPID then some (errorIllegalState, b)
  else
    -- a length of the size or more was refused above, so the code never shortens it here
    (assureFreeSpace policy { b with reservedPID := true } length).map fun b =>
      (length, { b with reserved := length, reservedWritten := 0 })

def flush (b : CyclicBuffer) : CyclicBuffer := { b with tail := b.head }

end CyclicBuffer

end Thunder.Core
