import Thunder.Library.Bytes
import Mathlib.Logic.Function.Basic
import Mathlib.Tactic.SplitIfs

/-! `RecorderType`: measurements kept as steps of value and time in blocks of bytes, the `Writer`
that files the blocks and the `Reader` that steps through them. -/

namespace Thunder.Core

open Bytes

/-- The bytes of STOREVALUE, an unsigned type, and BLOCKSIZE.  `wide` is what the language leaves
open: the shift of an `int` over its width. -/
structure RecorderType where
  valueSize : Nat
  blockSize : Nat
  wide : UInt8 → Nat → Nat
  valueSize_mem : valueSize ∈ [1, 2, 4, 8]
  blockSize_pos : 0 < blockSize

namespace RecorderType

structure Absolute where
  id : Nat
  value : Nat
  time : Nat
  deriving DecidableEq

variable (c : RecorderType)

/-- `n` on the next multiple of `alignment`. -/
def aligned (n alignment : Nat) : Nat := (n + alignment - 1) / alignment * alignment

/-- `sizeof(Absolute)`, with the padding behind the id and the value. -/
def sizeofAbsolute : Nat := aligned (aligned 4 c.valueSize + c.valueSize) 8 + 8

def captureSize : Nat := c.blockSize * 1024 - 2 * c.sizeofAbsolute

/-- `uint32_t` of a number. -/
def word (n : Nat) : Nat := n % 2 ^ 32

/-! ### `BaseRecorder` -/

/-- The recorder: `storage` is the memory behind the pointer. -/
structure BaseRecorder where
  start : Absolute
  currentDelta : Nat
  currentId : Nat
  currentTime : Nat
  currentValue : Nat
  index : Nat
  storage : Nat → UInt8

/-- An element of the storage: a step of the time or of the value. -/
structure Element where
  time : Bool
  negative : Bool
  value : Nat
  deriving DecidableEq

/-- How far two numbers are apart: `negative ? current - next : next - current`. -/
def apart (current next : Nat) : Nat := if next < current then current - next else next - current

/-- The step from `current` to `next` as an element. -/
def Element.stepOf (time : Bool) (current next : Nat) : Element :=
  ⟨time, next < current, apart current next⟩

namespace BaseRecorder

variable (b : BaseRecorder)

/-- The recorder as constructed; its start holds what the memory held, but for the time. -/
def new (start : Absolute) (memory : Nat → UInt8) : BaseRecorder :=
  ⟨{ start with time := 0 }, 0, 0, 0, 0, 0, memory⟩

/-- `Start(id)`. -/
def startAt (id : Nat) : BaseRecorder :=
  { b with start := ⟨id, 0, 0⟩, currentDelta := 0, currentId := id, index := 0 }

def set (value : Absolute) : BaseRecorder :=
  { b with currentId := value.id, currentValue := value.value, currentTime := value.time }

/-- `_storage[_index++] = current`. -/
def put (current : UInt8) : BaseRecorder :=
  { b with storage := Function.update b.storage b.index current, index := b.index + 1 }

/-- The loop of `StoreDelta`: seven bits a byte. -/
def storeRest : Nat → BaseRecorder → Nat → BaseRecorder
  | 0, b, _ => b
  | fuel + 1, b, value =>
    if value = 0 then b
    else storeRest fuel (b.put (.ofNat ((if 127 < value then 0x80 else 0) + value % 0x80)))
      (value / 0x80)

/-- `StoreDelta`.  The value has 64 bits, so nine bytes take what five bits leave of it. -/
def storeDelta (e : Element) : BaseRecorder :=
  storeRest 9
    (b.put (.ofNat ((if e.time then 0x40 else 0) + (if e.negative then 0x20 else 0) +
      (if 32 < e.value then 0x80 else 0) + e.value % 0x20)))
    (e.value / 0x20)

/-- `Store` of the time: its delta, where it is another one. -/
def storeTime (delta : Nat) : BaseRecorder :=
  if b.currentDelta = delta then b
  else { b.storeDelta (.stepOf true b.currentDelta delta) with currentDelta := delta }

def store (time value : Nat) : BaseRecorder :=
  if b.start.time = 0 then
    { b with start := ⟨b.currentId, value, time⟩, currentValue := value, currentTime := time }
  else
    let delta := word ((time + 2 ^ 64 - b.currentTime) % 2 ^ 64 / 1000)
    let b := { b with currentId := word (b.currentId + 1) }.storeTime delta
    { b.storeDelta (.stepOf false b.currentValue value) with
      currentValue := value, currentTime := time }

end BaseRecorder

/-- `(digit & 0x7F) << shift`: an `int`, as the 64 bits it is widened to. -/
def shifted (digit : UInt8) (shift : Nat) : Nat :=
  let bits := digit.toNat % 0x80 * 2 ^ shift
  if shift < 32 ∧ bits < 2 ^ 31 then bits
  else if shift < 32 ∧ bits < 2 ^ 32 then bits + (2 ^ 64 - 2 ^ 32)
  else c.wide digit shift

/-- The loop of `ForwardElement`, behind a digit: the value and where the next element is.  The
fuel is the size of the storage. -/
def forwardRest (storage : Nat → UInt8) : Nat → UInt8 → Nat → Nat → Nat → Nat × Nat
  | 0, _, index, _, value => (value, index)
  | fuel + 1, digit, index, shift, value =>
    if digit.toNat < 0x80 then (value, index)
    else
      forwardRest storage fuel (storage index) (index + 1) ((shift + 7) % 2 ^ 8)
        ((c.shifted (storage index) shift ||| value) % 2 ^ 64)

/-- `ForwardElement`: the element at the index and the index behind it. -/
def forwardElement (storage : Nat → UInt8) (index : Nat) : Element × Nat :=
  let digit := storage index
  let rest := c.forwardRest storage c.captureSize digit (index + 1) 5 (digit.toNat % 0x20)
  (⟨digit.toNat / 0x40 % 2 = 1, digit.toNat / 0x20 % 2 = 1, rest.1⟩, rest.2)

/-- The loop of `BackwardElement`: what was read from the back and the index it came to. -/
def backwardRest (storage : Nat → UInt8) : Nat → Nat → Nat × Nat
  | 0, result => (result, 0)
  | index + 1, result =>
    if (storage index).toNat < 0x80 then (result, index + 1)
    else backwardRest storage index ((result * 0x80 + (storage (index + 1)).toNat % 0x80) % 2 ^ 64)

/-- `BackwardElement`: the element before the index and the index of its first byte. -/
def backwardElement (storage : Nat → UInt8) (index : Nat) : Element × Nat :=
  let rest := backwardRest storage (index - 1) 0
  let digit := storage rest.2
  (⟨digit.toNat / 0x40 % 2 = 1, digit.toNat / 0x20 % 2 = 1,
    (rest.1 * 0x20 + digit.toNat % 0x20) % 2 ^ 64⟩, rest.2)

/-- A number moved by a delta, in an unsigned type with `size` values. -/
def moved (size : Nat) (negative : Bool) (number delta : Nat) : Nat :=
  if negative then (number + size - delta % size) % size else (number + delta) % size

namespace BaseRecorder

variable (b : BaseRecorder)

def stepForward : BaseRecorder :=
  let first := c.forwardElement b.storage b.index
  let currentDelta :=
    if first.1.time then moved (2 ^ 32) first.1.negative b.currentDelta first.1.value
    else b.currentDelta
  let last := if first.1.time then c.forwardElement b.storage first.2 else first
  { b with
    currentId := word (b.currentId + 1), currentDelta, index := last.2
    currentTime := (b.currentTime + word (currentDelta * 1000)) % 2 ^ 64
    currentValue := moved (256 ^ c.valueSize) last.1.negative b.currentValue last.1.value }

/-- `SnapShot`: what the other recorder becomes. -/
def snapShot (copy : BaseRecorder) (id : Nat) : BaseRecorder :=
  let copy :=
    { copy with
      storage := fun i => if i < b.index then b.storage i else copy.storage i, start := b.start }
  if id < b.currentId then
    { copy.set b.start with
      currentId := if id < b.start.id then word (b.start.id + 2 ^ 32 - 1) else b.start.id
      index := 0, currentDelta := 0 }
  else
    { copy with
      currentId := if b.currentId < id then word (b.currentId + 1) else b.currentId
      currentTime := b.currentTime, currentValue := b.currentValue, index := b.index
      currentDelta := b.currentDelta }

def clearData : BaseRecorder := { b with start := ⟨1, 0, 0⟩, index := 0 }

/-- An absolute point as `Save` stores it. -/
def storeAbsolute (point : Absolute) : List UInt8 :=
  bigEndian 4 point.id ++ bigEndian c.valueSize point.value ++ bigEndian 8 point.time

/-- An absolute point as `Load` loads it. -/
def loadAbsolute (file : List UInt8) : Absolute :=
  ⟨ofBigEndian (file.take 4), ofBigEndian ((file.drop 4).take c.valueSize),
    ofBigEndian ((file.drop (4 + c.valueSize)).take 8)⟩

/-- Where the recorder is, as an absolute point. -/
def current : Absolute := ⟨b.currentId, b.currentValue, b.currentTime⟩

/-- The bytes of the points in front of a file. -/
def headerSize : Nat := 2 * (4 + c.valueSize + 8)

/-- `Load`: the recorder and its end, from a file. -/
def load (file : List UInt8) (end_ : Absolute) (id : Nat) : BaseRecorder × Absolute :=
  if file.length ≤ 2 * c.sizeofAbsolute then (b.clearData, end_)
  else
    let start := loadAbsolute c file
    let end_ := loadAbsolute c (file.drop (4 + c.valueSize + 8))
    let data := file.drop (headerSize c)
    let b := { b with start, storage := fun i => data.getD i (b.storage i) }
    if id < end_.id then
      ({ b.set start with
        currentId := if id < start.id then word (start.id + 2 ^ 32 - 1) else start.id
        index := 0, currentDelta := 0 }, end_)
    else
      let back := backwardElement b.storage data.length
      ({ b.set end_ with
        currentId := if end_.id < id then word (end_.id + 1) else end_.id
        index := back.2, currentDelta := word back.1.value }, end_)

/-- `Save`: the file, and the recorder behind it. -/
def save : List UInt8 × BaseRecorder :=
  let stored := b.storeDelta ⟨true, true, b.currentDelta⟩
  (storeAbsolute c b.start ++ storeAbsolute c b.current ++
      (List.range stored.index).map stored.storage,
    { stored with start := ⟨word (b.currentId + 1), 0, 0⟩, index := 0 })

end BaseRecorder

/-! ### `Writer` -/

/-- A measurement for the recorder: a value of the stored type and the ticks at which it is
recorded. -/
structure Measurement where
  value : Nat
  time : Nat
  value_lt : value < 256 ^ c.valueSize
  time_lt : time < 2 ^ 64

/-- The writer, with the files it has filed; `_fileId` is their number. -/
structure Writer where
  base : BaseRecorder
  files : List (List UInt8)

/-- What is called on a writer. -/
inductive Call
  | record (measurement : c.Measurement)
  | save

namespace Writer

variable (w : Writer)

/-- The writer of a storage name that has no files. -/
def new (start : Absolute) (memory : Nat → UInt8) : Writer :=
  ⟨(BaseRecorder.new start memory).startAt 1, []⟩

def save : Writer := ⟨(w.base.save c).2, w.files ++ [(w.base.save c).1]⟩

/-- From this size on a block is filed. -/
def limit : Nat := c.captureSize - 8 * (c.valueSize + 8) / 6

def record (m : c.Measurement) : Writer :=
  let w := { w with base := w.base.store m.time m.value }
  if limit c ≤ w.base.index then w.save c else w

def call : c.Call → Writer
  | .record m => w.record c m
  | .save => w.save c

end Writer

/-! ### `Reader` -/

/-- What a reader reads from: the files of the storage name, and the recorder of the writer it was
constructed with. -/
structure Source where
  files : List (List UInt8)
  currentSet : Option BaseRecorder

structure Reader where
  base : BaseRecorder
  end_ : Absolute
  fileId : Nat

namespace Reader

variable (s : Source) (r : Reader)

def isValid : Bool := r.base.start.id ≤ r.base.currentId ∧ r.base.currentId ≤ r.end_.id

/-- The reader takes the recorder of a writer as it is. -/
def copy (set : BaseRecorder) (id : Nat) : Reader :=
  { r with base := set.snapShot r.base id, end_ := set.current }

def loadFile (file : List UInt8) (id : Nat) : Reader :=
  { r with base := (r.base.load c file r.end_ id).1, end_ := (r.base.load c file r.end_ id).2 }

/-- `Next` at the end of a block: the next file, or the recorder of the writer. -/
def nextBlock : Reader :=
  let id := word (r.end_.id + 1)
  let r := { r with base := r.base.set { r.end_ with id } }
  let fileId := word (r.fileId + 1)
  match s.currentSet with
  | some set =>
    if id < set.start.id then
      (s.files[fileId]?).elim { r with fileId } ({ r with fileId }.loadFile c · id)
    else r.copy set id
  | none => (s.files[fileId]?).elim { r with fileId } ({ r with fileId }.loadFile c · id)

/-- `Next`: what it answers is `isValid` of the reader it leaves. -/
def next : Reader :=
  if r.base.currentId < r.base.start.id then { r with base := r.base.set r.base.start }
  else if r.base.currentId < word (r.end_.id + 2 ^ 32 - 1) then
    { r with base := r.base.stepForward c }
  else if r.base.currentId = word (r.end_.id + 2 ^ 32 - 1) then { r with base := r.base.set r.end_ }
  else if r.base.currentId = r.end_.id then r.nextBlock c s
  else r

/-- The loop of `Reset` over the files, and whether it found the one with the id. -/
def scan (id : Nat) : List (List UInt8) → Reader → Bool × Reader
  | [], r => (false, r)
  | file :: files, r =>
    let r := { r.loadFile c file id with fileId := word (r.fileId + 1) }
    if id ≤ r.end_.id then (true, r) else scan id files r

/-- The loop of `Reset` over the measurements; an id more each time. -/
def seek (id : Nat) : Nat → Reader → Reader
  | 0, r => r
  | fuel + 1, r =>
    let r := r.next c s
    if r.isValid ∧ r.base.currentId < id then seek id fuel r else r

def reset (id : Nat) : Reader :=
  let (correctFile, r) := scan c id s.files { r with fileId := 2 ^ 32 - 1 }
  let r :=
    match s.currentSet with
    | some set => if correctFile then r else { r with fileId := word (r.fileId + 1) }.copy set id
    | none => r
  if r.base.start.id < id ∧ id < r.end_.id then r.seek c s id id else r

/-- The reader as constructed; what its members held before is in `start` and `end_`. -/
def new (start end_ : Absolute) (memory : Nat → UInt8) (id : Nat) : Reader :=
  Reader.reset c s ⟨.new start memory, end_, 0⟩ id

end Reader

/-! ### What is claimed of it -/

/-- The measurements among the calls. -/
def measurements : List c.Call → List c.Measurement
  | [] => []
  | .record m :: calls => m :: measurements calls
  | .save :: calls => measurements calls

/-- Equal to the millisecond. -/
def Near (time time' : Nat) : Prop := time < time' + 1000 ∧ time' < time + 1000

/-- `Next` again and again: each measurement with its value and its time, then the end. -/
def Replays (s : Source) : Reader → List c.Measurement → Prop
  | r, [] => (r.next c s).isValid = false
  | r, m :: rest =>
    (r.next c s).isValid = true ∧ (r.next c s).base.currentValue = m.value ∧
      Near (r.next c s).base.currentTime m.time ∧ Replays s (r.next c s) rest

/-- What a reader reads after the calls: the files and the writer itself, when it is `attached`;
otherwise the files behind the writer's destructor. -/
def source (attached : Bool) (w : Writer) : Source :=
  if attached then ⟨w.files, some w.base⟩ else ⟨(w.save c).files, none⟩

/-- Every measurement of the calls is replayed, whatever the memory held before. -/
def Replayed (attached : Bool) (calls : List c.Call) : Prop :=
  ∀ start start' end_ memory memory',
    c.Replays (c.source attached (calls.foldl (Writer.call c) (.new start memory)))
      (.new c (c.source attached (calls.foldl (Writer.call c)
        (.new start memory))) start' end_ memory' 0)
      (c.measurements calls)

/-! ### When a recording is sound -/

/-- The milliseconds of a step. -/
def elapsed (m next : c.Measurement) : Nat := word ((next.time + 2 ^ 64 - m.time) % 2 ^ 64 / 1000)

/-- The delta behind some steps. -/
def lastDelta : Nat → c.Measurement → List c.Measurement → Nat
  | delta, _, [] => delta
  | _, m, next :: rest => lastDelta (c.elapsed m next) next rest

/-- The bytes of the loop of `StoreDelta`. -/
def elementRest : Nat → Nat → List UInt8
  | 0, _ => []
  | fuel + 1, value =>
    if value = 0 then []
    else .ofNat ((if 127 < value then 0x80 else 0) + value % 0x80) :: elementRest fuel
      (value / 0x80)

/-- The bytes of an element. -/
def element (e : Element) : List UInt8 :=
  .ofNat ((if e.time then 0x40 else 0) + (if e.negative then 0x20 else 0) +
    (if 32 < e.value then 0x80 else 0) + e.value % 0x20) :: elementRest 9 (e.value / 0x20)

/-- The bytes of a step: the time where its delta is another one, and the value. -/
def step (delta : Nat) (m next : c.Measurement) : List UInt8 :=
  (if delta = c.elapsed m next then [] else element (.stepOf true delta (c.elapsed m next))) ++
    element (.stepOf false m.value next.value)

/-- The bytes of all steps of a block. -/
def steps : Nat → c.Measurement → List c.Measurement → List UInt8
  | _, _, [] => []
  | delta, m, next :: rest => c.step delta m next ++ steps (c.elapsed m next) next rest

/-- The bytes of a block. -/
def blockSteps (delta : Nat) : List c.Measurement → List UInt8
  | [] => []
  | m :: rest => c.steps delta m rest

/-- The delta behind a block. -/
def blockDelta (delta : Nat) : List c.Measurement → Nat
  | [] => delta
  | m :: rest => c.lastDelta delta m rest

/-- The measurements of each block, the one that is not filed yet last. -/
def blocks : Nat → List c.Measurement → List c.Call → List (List c.Measurement)
  | _, taken, [] => [taken]
  | delta, taken, .save :: calls => taken :: blocks (c.blockDelta delta taken) [] calls
  | delta, taken, .record m :: calls =>
    if Writer.limit c ≤ (c.blockSteps delta (taken ++ [m])).length then
      (taken ++ [m]) :: blocks (c.blockDelta delta (taken ++ [m])) [] calls
    else blocks delta (taken ++ [m]) calls

/-- The steps that are read, from a delta and behind some time that was dropped: not the last one,
since that point stands in front of the block. -/
def Steady : Nat → Nat → c.Measurement → List c.Measurement → Prop
  | _, _, _, [] => True
  | _, _, _, [_] => True
  | delta, dropped, m, next :: after :: rest =>
    m.time ≤ next.time ∧ (next.time - m.time) / 1000 * 1000 < 2 ^ 32 ∧
      dropped + (next.time - m.time) % 1000 < 1000 ∧
      apart delta (c.elapsed m next) ≠ 32 ∧ apart m.value next.value ≠ 32 ∧
      (c.valueSize = 8 → apart m.value next.value < 2 ^ 31) ∧
      Steady (c.elapsed m next) (dropped + (next.time - m.time) % 1000) next (after :: rest)

/-- A block of measurements that can be read again: the first time is not zero, and where steps are
read they start from a delta of zero. -/
def SoundBlock (delta : Nat) : List c.Measurement → Prop
  | [] => True
  | m :: rest => 0 < m.time ∧ (2 ≤ rest.length → delta = 0 ∧ c.Steady 0 0 m rest)

/-- The file of a block is longer than two points of it in the memory. -/
def Fits (delta : Nat) (block : List c.Measurement) : Prop :=
  2 * c.sizeofAbsolute < BaseRecorder.headerSize c + (c.blockSteps delta block).length +
    (element ⟨true, true, c.blockDelta delta block⟩).length

/-- The blocks behind the first: at least three measurements each, as long as there are any. -/
def SoundBlocks (attached : Bool) : Nat → List (List c.Measurement) → Prop
  | _, [] => True
  | delta, block :: rest =>
    (block = [] ∧ (∀ later ∈ rest, later = []) ∨
      3 ≤ block.length ∧ (rest ≠ [] ∨ attached = false → c.Fits delta block)) ∧
      c.SoundBlock delta block ∧ SoundBlocks attached (c.blockDelta delta block) rest

/-- The id of the last measurement, from the one a block starts with: each block starts with the id
of the last measurement before it. -/
def lastId : Nat → List (List c.Measurement) → Nat
  | id, [] => id
  | id, block :: rest => lastId (id + (block.length - 1)) rest

/-- Measurements in blocks that can be read again, with ids that do not wrap. -/
def Sound (attached : Bool) : List (List c.Measurement) → Prop
  | [] => False
  | block :: rest =>
    block ≠ [] ∧ (rest ≠ [] ∨ attached = false → c.Fits 0 block) ∧ c.SoundBlock 0 block ∧
      c.SoundBlocks attached (c.blockDelta 0 block) rest ∧
      c.lastId 1 (block :: rest) + 1 < 2 ^ 32

/-! ### Bytes in the storage -/

/-- The memory holds the bytes from the index on. -/
def Holds (storage : Nat → UInt8) : Nat → List UInt8 → Prop
  | _, [] => True
  | index, b :: rest => storage index = b ∧ Holds storage (index + 1) rest

theorem holds_append {storage : Nat → UInt8} {index : Nat} {l l' : List UInt8} :
    Holds storage index (l ++ l') ↔
      Holds storage index l ∧ Holds storage (index + l.length) l' := by
  induction l generalizing index with
  | nil => simp [Holds]
  | cons b l ih =>
    rw [List.cons_append, Holds, Holds, ih, List.length_cons, and_assoc,
      show index + 1 + l.length = index + (l.length + 1) by omega]

theorem Holds.congr {storage storage' : Nat → UInt8} {index : Nat} {l : List UInt8}
    (h : Holds storage index l)
    (heq : ∀ j, index ≤ j → j < index + l.length → storage' j = storage j) :
    Holds storage' index l := by
  induction l generalizing index with
  | nil => trivial
  | cons b l ih =>
    rw [List.length_cons] at heq
    exact ⟨(heq index le_rfl (by omega)).trans h.1,
      ih h.2 fun j hj hlt => heq j (by omega) (by omega)⟩

namespace BaseRecorder

/-- The second recorder is the first with the bytes put at its index. -/
structure Appends (l : List UInt8) (b b' : BaseRecorder) : Prop where
  start : b'.start = b.start
  currentDelta : b'.currentDelta = b.currentDelta
  currentId : b'.currentId = b.currentId
  currentTime : b'.currentTime = b.currentTime
  currentValue : b'.currentValue = b.currentValue
  index : b'.index = b.index + l.length
  holds : Holds b'.storage b.index l
  below : ∀ j < b.index, b'.storage j = b.storage j

theorem Appends.refl (b : BaseRecorder) : Appends [] b b :=
  ⟨rfl, rfl, rfl, rfl, rfl, rfl, trivial, fun _ _ => rfl⟩

theorem Appends.trans {l l' : List UInt8} {b b' b'' : BaseRecorder} (h : Appends l b b')
    (h' : Appends l' b' b'') : Appends (l ++ l') b b'' where
  start := h'.start.trans h.start
  currentDelta := h'.currentDelta.trans h.currentDelta
  currentId := h'.currentId.trans h.currentId
  currentTime := h'.currentTime.trans h.currentTime
  currentValue := h'.currentValue.trans h.currentValue
  index := by rw [h'.index, h.index, List.length_append, Nat.add_assoc]
  holds := by
    rw [holds_append]
    refine ⟨h.holds.congr fun j _ hj => h'.below j (by rw [h.index]; exact hj), ?_⟩
    rw [← h.index]
    exact h'.holds
  below j hj := by rw [h'.below j (by rw [h.index]; omega), h.below j hj]

theorem put_appends (b : BaseRecorder) (current : UInt8) : Appends [current] b (b.put current) :=
  ⟨rfl, rfl, rfl, rfl, rfl, rfl, ⟨Function.update_self .., trivial⟩,
    fun _ hj => Function.update_of_ne (Nat.ne_of_lt hj) ..⟩

theorem storeRest_appends (fuel value : Nat) (b : BaseRecorder) :
    Appends (elementRest fuel value) b (storeRest fuel b value) := by
  induction fuel generalizing b value with
  | zero => exact .refl b
  | succ fuel ih =>
    rw [elementRest, storeRest]
    split_ifs
    · exact .refl b
    · exact (put_appends b _).trans (ih _ _)
    · exact (put_appends b _).trans (ih _ _)

theorem storeDelta_appends (b : BaseRecorder) (e : Element) :
    Appends (element e) b (b.storeDelta e) :=
  (put_appends b _).trans (storeRest_appends 9 _ _)

end BaseRecorder

/-! ### An element is read again -/

/-- What the widening of an `int` adds to a value: nothing, or the bits over the lower half. -/
def Widened (value read : Nat) : Prop :=
  read = value ∨ 2 ^ 31 ≤ value ∧ read = value + (2 ^ 64 - 2 ^ 32)

variable {c}

theorem captureSize_large : 11 ≤ c.captureSize := by
  have hmem := c.valueSize_mem
  have hpos := c.blockSize_pos
  simp only [List.mem_cons, List.not_mem_nil, or_false] at hmem
  rw [captureSize, sizeofAbsolute, aligned, aligned]
  rcases hmem with h | h | h | h <;> rw [h] <;> omega

theorem shifted_or {digit : UInt8} {shift value : Nat} (hvalue : value < 2 ^ shift)
    (hfits : digit.toNat % 0x80 * 2 ^ shift < 2 ^ 32) (hshift : shift < 32) :
    ∃ read, (c.shifted digit shift ||| value) % 2 ^ 64 = value + read ∧
      Widened (digit.toNat % 0x80 * 2 ^ shift) read := by
  have hpow : (2 : Nat) ^ shift ≤ 2 ^ 31 := Nat.pow_le_pow_right (by decide) (by omega)
  by_cases hsmall : digit.toNat % 0x80 * 2 ^ shift < 2 ^ 31
  · refine ⟨_, ?_, .inl rfl⟩
    rw [shifted, if_pos ⟨hshift, hsmall⟩, Nat.mul_comm, ← Nat.two_pow_add_eq_or_of_lt hvalue,
      Nat.mul_comm, Nat.mod_eq_of_lt (by omega), Nat.add_comm]
  · refine ⟨_, ?_, .inr ⟨by omega, rfl⟩⟩
    have hmultiple : digit.toNat % 0x80 * 2 ^ shift + (2 ^ 64 - 2 ^ 32) =
        2 ^ shift * (digit.toNat % 0x80 + (2 ^ 32 - 1) * 2 ^ (32 - shift)) := by
      rw [Nat.mul_add, Nat.mul_comm (2 ^ shift) (digit.toNat % 0x80), Nat.mul_left_comm,
        ← Nat.pow_add, show shift + (32 - shift) = 32 by omega]
      omega
    have hpower : 2 ^ (32 - shift) * 2 ^ shift = 2 ^ 32 := by
      rw [← Nat.pow_add, Nat.sub_add_cancel hshift.le]
    have hdigit : digit.toNat % 0x80 < 2 ^ (32 - shift) :=
      Nat.lt_of_mul_lt_mul_right (hpower.symm ▸ hfits)
    have hroom := Nat.mul_le_mul_right (2 ^ shift) (Nat.succ_le_of_lt hdigit)
    rw [hpower, Nat.succ_mul] at hroom
    rw [shifted, if_neg (by omega), if_pos ⟨hshift, hfits⟩, hmultiple,
      ← Nat.two_pow_add_eq_or_of_lt hvalue, ← hmultiple, Nat.mod_eq_of_lt (by omega), Nat.add_comm]

theorem ofNat_piece (value : Nat) :
    (UInt8.ofNat ((if 127 < value then 0x80 else 0) + value % 0x80)).toNat =
      (if 127 < value then 0x80 else 0) + value % 0x80 := by
  rw [UInt8.toNat_ofNat', Nat.mod_eq_of_lt]
  split <;> omega

theorem elementRest_zero (fuel : Nat) : elementRest fuel 0 = [] := by
  cases fuel <;> rfl

/-- The loop of `ForwardElement` takes what the loop of `StoreDelta` left. -/
theorem forwardRest_elementRest {storage : Nat → UInt8} (fuel fuel' value index shift read : Nat)
    (digit : UInt8) (hfuel : fuel < fuel') (hvalue : value < 128 ^ fuel)
    (hfits : value * 2 ^ shift < 2 ^ 32) (hread : read < 2 ^ shift)
    (hdigit : 0x80 ≤ digit.toNat ↔ 0 < value) (h : Holds storage index (elementRest fuel value)) :
    ∃ rest, c.forwardRest storage fuel' digit index shift read =
        (read + rest, index + (elementRest fuel value).length) ∧
      Widened (value * 2 ^ shift) rest := by
  induction fuel generalizing fuel' value index shift read digit with
  | zero =>
    obtain ⟨fuel', rfl⟩ : ∃ n, fuel' = n + 1 := ⟨fuel' - 1, by omega⟩
    have hzero : value = 0 := by simpa using hvalue
    refine ⟨0, ?_, .inl (by rw [hzero, Nat.zero_mul])⟩
    rw [forwardRest, if_pos (by omega)]
    rfl
  | succ fuel ih =>
    obtain ⟨fuel', rfl⟩ : ∃ n, fuel' = n + 1 := ⟨fuel' - 1, by omega⟩
    rw [elementRest] at h ⊢
    by_cases hzero : value = 0
    · rw [if_pos hzero]
      refine ⟨0, ?_, .inl (by rw [hzero, Nat.zero_mul])⟩
      rw [forwardRest, if_pos (by omega)]
      rfl
    · rw [if_neg hzero] at h ⊢
      obtain ⟨hbyte, hrest⟩ := h
      have hpiece : (storage index).toNat = (if 127 < value then 0x80 else 0) + value % 0x80 := by
        rw [hbyte, ofNat_piece]
      have hlow : (storage index).toNat % 0x80 = value % 0x80 := by
        rw [hpiece]
        split <;> omega
      have hshift : shift < 32 := by
        refine Nat.lt_of_not_le fun hge => absurd hfits ?_
        have := Nat.pow_le_pow_right (n := 2) (by decide) hge
        have := Nat.le_mul_of_pos_left (2 ^ shift) (Nat.pos_of_ne_zero hzero)
        omega
      have hsplit : value * 2 ^ shift = value % 0x80 * 2 ^ shift + value / 0x80 * 2 ^
        (shift + 7) := by
        rw [Nat.pow_add, Nat.mul_comm (2 ^ shift), ← Nat.mul_assoc, ← Nat.add_mul]
        congr 1
        omega
      obtain ⟨piece, hor, hpiece'⟩ :=
        shifted_or (c := c) hread (by rw [hlow]; omega) hshift
      rw [hlow] at hpiece'
      rw [forwardRest, if_neg (by omega), hor, Nat.mod_eq_of_lt (by omega)]
      by_cases hlast : value / 0x80 = 0
      · -- The digit of the last piece ends the loop.
        obtain ⟨fuel', rfl⟩ : ∃ n, fuel' = n + 1 := ⟨fuel' - 1, by omega⟩
        rw [hlast, elementRest_zero, forwardRest, if_pos (by rw [hpiece, if_neg] <;> omega)]
        rw [hlast, Nat.zero_mul, Nat.add_zero] at hsplit
        exact ⟨piece, rfl, hsplit ▸ hpiece'⟩
      · have hwide : 2 ^ (shift + 7) ≤ value / 0x80 * 2 ^ (shift + 7) :=
          Nat.le_mul_of_pos_left _ (Nat.pos_of_ne_zero hlast)
        have hsmall : 2 ^ (shift + 7) ≤ 2 ^ 31 :=
          Nat.pow_le_pow_right (by decide)
            (Nat.le_of_lt_succ ((Nat.pow_lt_pow_iff_right (by decide)).mp
              (show 2 ^ (shift + 7) < 2 ^ 32 by omega)))
        have hlow' : value % 0x80 * 2 ^ shift + 2 ^ shift ≤ 2 ^ (shift + 7) := by
          rw [Nat.pow_add, ← Nat.succ_mul, Nat.mul_comm]
          exact Nat.mul_le_mul_left _ (by omega)
        have hpiece'' : piece = value % 0x80 * 2 ^ shift :=
          hpiece'.resolve_right fun h => by have := Nat.two_pow_pos shift; omega
        obtain ⟨rest, hrun, hrest'⟩ :=
          ih fuel' (value / 0x80) (index + 1) (shift + 7) (read + piece) (storage index) (by omega)
            (by rw [Nat.pow_succ] at hvalue; omega) (by omega) (by omega)
            (by rw [hpiece]; split <;> omega) hrest
        refine ⟨piece + rest, ?_, ?_⟩
        · rw [hrun, List.length_cons, Nat.add_assoc, Nat.add_assoc, Nat.add_comm 1]
        · rw [Widened] at hrest' ⊢
          omega

theorem element_length_pos (e : Element) : 0 < (element e).length := Nat.succ_pos _

theorem forwardElement_element {storage : Nat → UInt8} {index : Nat} {e : Element}
    (hvalue : e.value < 2 ^ 32) (hne : e.value ≠ 32) (h : Holds storage index (element e)) :
    ∃ read, c.forwardElement storage index =
        (⟨e.time, e.negative, read⟩, index + (element e).length) ∧ Widened e.value read := by
  obtain ⟨hbyte, hrest⟩ := h
  have hdigit : (storage index).toNat = (if e.time then 0x40 else 0) +
    (if e.negative then 0x20 else 0) +
      (if 32 < e.value then 0x80 else 0) + e.value % 0x20 := by
    rw [hbyte, UInt8.toNat_ofNat', Nat.mod_eq_of_lt]
    split_ifs <;> omega
  have hlow : (storage index).toNat % 0x20 = e.value % 0x20 := by
    rw [hdigit]
    split_ifs <;> omega
  have htime : ((storage index).toNat / 0x40 % 2 = 1) ↔ e.time = true := by
    rw [hdigit]
    split_ifs <;> simp_all <;> omega
  have hnegative : ((storage index).toNat / 0x20 % 2 = 1) ↔ e.negative = true := by
    rw [hdigit]
    split_ifs <;> simp_all <;> omega
  have hmore : 0x80 ≤ (storage index).toNat ↔ 0 < e.value / 0x20 := by
    rw [hdigit]
    split_ifs <;> omega
  obtain ⟨rest, hrun, hwide⟩ :=
    forwardRest_elementRest (c := c) 9 c.captureSize (e.value / 0x20) (index + 1) 5
      ((storage index).toNat % 0x20) (storage index) (by have := c.captureSize_large; omega)
        (by omega) (by omega) (by omega) hmore hrest
  refine ⟨(storage index).toNat % 0x20 + rest, ?_, ?_⟩
  · rw [forwardElement]
    simp only [hrun, htime, hnegative, Bool.decide_eq_true]
    rw [element, List.length_cons, Nat.add_assoc, Nat.add_comm 1]
  · rw [hlow]
    rw [Widened] at hwide ⊢
    omega

theorem moved_apart {size current next read : Nat} (hcurrent : current < size) (hnext : next < size)
    (hread : read % size = apart current next) :
    moved size (next < current) current read = next := by
  rw [moved, apart] at *
  by_cases hlt : next < current
  · rw [if_pos hlt] at hread
    rw [if_pos (by simpa using hlt), hread, show current + size -
      (current - next) = next + size by omega, Nat.add_mod_right, Nat.mod_eq_of_lt hnext]
  · rw [if_neg hlt] at hread
    rw [if_neg (by simpa using hlt), Nat.add_mod, hread, Nat.mod_eq_of_lt hcurrent,
      show current + (next - current) = next by omega, Nat.mod_eq_of_lt hnext]

theorem apart_lt {size current next : Nat} (hcurrent : current < size) (hnext : next < size) :
    apart current next < size := by
  rw [apart]
  split <;> omega

theorem Widened.mod {value read size : Nat} (h : Widened value read) (hsize : size ∣ 2 ^ 32)
    (hvalue : value < size) : read % size = value := by
  obtain rfl | ⟨_, rfl⟩ := h
  · exact Nat.mod_eq_of_lt hvalue
  · have hwide : size ∣ 2 ^ 64 - 2 ^ 32 := hsize.trans (by decide)
    rw [Nat.add_mod, Nat.mod_eq_zero_of_dvd hwide, Nat.add_zero, Nat.mod_mod,
      Nat.mod_eq_of_lt hvalue]

theorem Widened.eq {value read : Nat} (h : Widened value read) (hvalue : value < 2 ^ 31) :
    read = value :=
  h.resolve_right fun h => by omega

theorem size_dvd (h : c.valueSize ≠ 8) : 256 ^ c.valueSize ∣ 2 ^ 32 := by
  have hmem := c.valueSize_mem
  simp only [List.mem_cons, List.not_mem_nil, or_false] at hmem
  rcases hmem with h' | h' | h' | h'
  · rw [h']; decide
  · rw [h']; decide
  · rw [h']; decide
  · exact absurd h' h

/-- A step of the time or of the value is read as it was stored. -/
theorem forwardElement_stepOf {storage : Nat → UInt8} {index size current next : Nat} {time : Bool}
    (hsize : size ∣ 2 ^ 32 ∨ apart current next < 2 ^ 31) (hcurrent : current < size)
    (hnext : next < size) (hne : apart current next ≠ 32)
    (h : Holds storage index (element (.stepOf time current next))) :
    ∃ read, c.forwardElement storage index =
        (⟨time, next < current, read⟩, index + (element (.stepOf time current next)).length) ∧
      moved size (next < current) current read = next := by
  have hlt := apart_lt hcurrent hnext
  have hlong : apart current next < 2 ^ 32 := by
    rcases hsize with hsize | hsize
    · exact Nat.lt_of_lt_of_le hlt (Nat.le_of_dvd (by decide) hsize)
    · omega
  obtain ⟨read, hread, hwide⟩ := forwardElement_element (c := c) hlong hne h
  refine ⟨read, hread, moved_apart hcurrent hnext ?_⟩
  rcases hsize with hsize | hsize
  · exact hwide.mod hsize hlt
  · rw [hwide.eq hsize]
    exact Nat.mod_eq_of_lt hlt

theorem word_lt (n : Nat) : word n < 2 ^ 32 := Nat.mod_lt _ (by decide)

theorem word_of_lt {n : Nat} (h : n < 2 ^ 32) : word n = n := Nat.mod_eq_of_lt h

theorem stepForward_step {b : BaseRecorder} {m next : c.Measurement}
    (hvalue : b.currentValue = m.value) (hdelta : b.currentDelta < 2 ^ 32)
    (h : Holds b.storage b.index (c.step b.currentDelta m next))
    (htime : apart b.currentDelta (c.elapsed m next) ≠ 32)
    (hne : apart m.value next.value ≠ 32)
    (hlong : c.valueSize = 8 → apart m.value next.value < 2 ^ 31) :
    b.stepForward c =
      { b with
        currentId := word (b.currentId + 1), currentDelta := c.elapsed m next
        index := b.index + (c.step b.currentDelta m next).length
        currentTime := (b.currentTime + word (c.elapsed m next * 1000)) % 2 ^ 64
        currentValue := next.value } := by
  have hsize : 256 ^ c.valueSize ∣ 2 ^ 32 ∨ apart m.value next.value < 2 ^ 31 := by
    by_cases h8 : c.valueSize = 8
    · exact .inr (hlong h8)
    · exact .inl (size_dvd h8)
  rw [step, holds_append] at h
  obtain ⟨htimeBytes, hvalueBytes⟩ := h
  obtain ⟨read, hread, hmoved⟩ :=
    forwardElement_stepOf (c := c) hsize m.value_lt next.value_lt hne hvalueBytes
  by_cases hsame : b.currentDelta = c.elapsed m next
  · rw [if_pos hsame, List.length_nil, Nat.add_zero] at hread
    rw [BaseRecorder.stepForward]
    simp only [hread, hvalue, hmoved, step, if_pos hsame, List.nil_append, Bool.false_eq_true,
      if_false]
    rw [hsame]
  · rw [if_neg hsame] at htimeBytes hread
    obtain ⟨read', hread', hmoved'⟩ :=
      forwardElement_stepOf (c := c) (.inl dvd_rfl) hdelta
        (show c.elapsed m next < 2 ^ 32 from word_lt _) htime htimeBytes
    rw [BaseRecorder.stepForward]
    simp only [hread', hread, hvalue, hmoved, hmoved', step, if_neg hsame, if_true,
      List.length_append, Nat.add_assoc]

/-- The fields of a recorder, one by one. -/
theorem BaseRecorder.fields {b : BaseRecorder} {start : Absolute}
    {currentDelta currentId currentTime currentValue index : Nat} {storage : Nat → UInt8}
    (h : b = ⟨start, currentDelta, currentId, currentTime, currentValue, index, storage⟩) :
    b.start = start ∧ b.currentDelta = currentDelta ∧ b.currentId = currentId ∧
      b.currentTime = currentTime ∧ b.currentValue = currentValue ∧ b.index = index ∧
      b.storage = storage := by
  subst h
  exact ⟨rfl, rfl, rfl, rfl, rfl, rfl, rfl⟩

/-! ### The block of a recorder -/

namespace BaseRecorder

theorem storeTime_appends (b : BaseRecorder) (delta : Nat) :
    Appends (if b.currentDelta = delta then [] else element (.stepOf true b.currentDelta delta))
      { b with currentDelta := delta } (b.storeTime delta) := by
  rw [storeTime]
  split_ifs with hsame
  · rw [← hsame]
    exact .refl b
  · have h := storeDelta_appends b (.stepOf true b.currentDelta delta)
    exact ⟨h.start, rfl, h.currentId, h.currentTime, h.currentValue, h.index, h.holds, h.below⟩

/-- `Store` behind the first measurement appends the bytes of the step. -/
theorem store_appends {b : BaseRecorder} {last m : c.Measurement} (hstart : b.start.time ≠ 0)
    (hvalue : b.currentValue = last.value) (htime : b.currentTime = last.time) :
    Appends (c.step b.currentDelta last m)
      { b with
        currentId := word (b.currentId + 1), currentDelta := c.elapsed last m
        currentTime := m.time, currentValue := m.value }
      (b.store m.time m.value) := by
  have htimed := storeTime_appends { b with currentId := word (b.currentId + 1) } (c.elapsed last m)
  have h := htimed.trans (storeDelta_appends _ (.stepOf false last.value m.value))
  have hstore : b.store m.time m.value =
      { ({ b with currentId := word (b.currentId + 1) }.storeTime (c.elapsed last m)).storeDelta
          (.stepOf false last.value m.value) with
        currentValue := m.value, currentTime := m.time } := by
    have helapsed :
        word ((m.time + 2 ^ 64 - b.currentTime) % 2 ^ 64 / 1000) = c.elapsed last m := by
      rw [htime]
      rfl
    rw [store, if_neg hstart]
    simp only [helapsed]
    rw [htimed.currentValue]
    simp only [hvalue]
  rw [hstore]
  exact ⟨h.start, h.currentDelta, h.currentId, rfl, rfl, h.index, h.holds, h.below⟩

/-- The recorder has the measurements of a block, from an id and a delta on. -/
structure Has (c : RecorderType) (id delta : Nat) (block : List c.Measurement) (b : BaseRecorder) :
    Prop where
  currentId : b.currentId = id + (block.length - 1)
  currentDelta : b.currentDelta = c.blockDelta delta block
  index : b.index = (c.blockSteps delta block).length
  holds : Holds b.storage 0 (c.blockSteps delta block)
  start_lt : b.start.value < 256 ^ c.valueSize ∧ b.start.time < 2 ^ 64
  current_lt : b.currentValue < 256 ^ c.valueSize ∧ b.currentTime < 2 ^ 64
  filled : ∀ m rest, block = m :: rest →
    b.start = ⟨id, m.value, m.time⟩ ∧ b.currentValue = (rest.getLastD m).value ∧
      b.currentTime = (rest.getLastD m).time
  empty : block = [] → b.start.time = 0 ∧ id ≤ b.start.id ∧ b.start.id ≤ id + 1

end BaseRecorder

theorem lastDelta_append (delta : Nat) (m last : c.Measurement) (rest : List c.Measurement) :
    c.lastDelta delta m (rest ++ [last]) = c.elapsed (rest.getLastD m) last := by
  induction rest generalizing delta m with
  | nil => rfl
  | cons next rest ih =>
    rw [List.cons_append, lastDelta, ih, List.getLastD_cons]

theorem steps_append (delta : Nat) (m last : c.Measurement) (rest : List c.Measurement) :
    c.steps delta m (rest ++ [last]) =
      c.steps delta m rest ++ c.step (c.lastDelta delta m rest) (rest.getLastD m) last := by
  induction rest generalizing delta m with
  | nil => rw [List.nil_append, steps, steps, steps, List.append_nil]; rfl
  | cons next rest ih =>
    rw [List.cons_append, steps, ih, ← List.append_assoc, steps, lastDelta, List.getLastD_cons]

namespace BaseRecorder

theorem Has.store {id delta : Nat} {block : List c.Measurement} {b : BaseRecorder}
    (h : Has c id delta block b) (hid : id + block.length < 2 ^ 32)
    (hfirst : ∀ m rest, block = m :: rest → 0 < m.time) (m : c.Measurement) :
    Has c id delta (block ++ [m]) (b.store m.time m.value) := by
  rcases block with _ | ⟨first, rest⟩
  · have hstore : b.store m.time m.value =
        { b with
          start := ⟨b.currentId, m.value, m.time⟩, currentValue := m.value,
            currentTime := m.time } := by
      rw [BaseRecorder.store, if_pos (h.empty rfl).1]
    rw [hstore]
    refine ⟨h.currentId, h.currentDelta, h.index, h.holds, ⟨m.value_lt, m.time_lt⟩,
      ⟨m.value_lt, m.time_lt⟩, fun m' rest heq => ?_, fun heq => by simp at heq⟩
    obtain ⟨rfl, rfl⟩ := List.cons.inj heq
    refine ⟨?_, rfl, rfl⟩
    rw [h.currentId]
    rfl
  · obtain ⟨hstart, hvalue, htime⟩ := h.filled first rest rfl
    have happends := store_appends (c := c) (b := b) (m := m)
      (by rw [hstart]; exact Nat.ne_of_gt (hfirst first rest rfl)) hvalue htime
    have hsteps : c.blockSteps delta (first :: rest ++ [m]) =
        c.blockSteps delta (first :: rest) ++ c.step b.currentDelta (rest.getLastD first) m := by
      rw [h.currentDelta]
      exact steps_append ..
    refine ⟨?_, ?_, ?_, ?_, ?_, ?_, fun m' rest' heq => ?_, fun heq => by simp at heq⟩
    · rw [happends.currentId]
      dsimp only
      rw [h.currentId, List.length_cons, Nat.add_sub_cancel, word_of_lt]
      · simp only [List.cons_append, List.length_cons, List.length_append, List.length_nil]
        omega
      · rw [List.length_cons] at hid
        omega
    · rw [happends.currentDelta]
      exact (lastDelta_append ..).symm
    · rw [happends.index, hsteps, List.length_append, ← h.index]
    · rw [hsteps, holds_append, Nat.zero_add, ← h.index]
      exact ⟨h.holds.congr fun j _ hj => happends.below j (by rw [h.index]; omega), happends.holds⟩
    · rw [happends.start]
      exact h.start_lt
    · rw [happends.currentValue, happends.currentTime]
      exact ⟨m.value_lt, m.time_lt⟩
    · obtain ⟨rfl, rfl⟩ := List.cons.inj heq
      rw [happends.start, happends.currentValue, happends.currentTime]
      exact ⟨hstart, by simp, by simp⟩

theorem Has.save {id delta : Nat} {block : List c.Measurement} {b : BaseRecorder}
    (h : Has c id delta block b) (hid : b.currentId + 1 < 2 ^ 32) :
    Has c b.currentId (c.blockDelta delta block) [] (b.save c).2 := by
  have happends := storeDelta_appends b ⟨true, true, b.currentDelta⟩
  refine ⟨happends.currentId, happends.currentDelta.trans h.currentDelta, rfl, trivial,
    ⟨Nat.pow_pos (by decide), Nat.two_pow_pos _⟩, ?_, fun _ _ heq => by simp at heq,
    fun _ => ⟨rfl, ?_, ?_⟩⟩
  · rw [BaseRecorder.save]
    dsimp only
    rw [happends.currentValue, happends.currentTime]
    exact h.current_lt
  · exact Nat.le_trans (Nat.le_succ _) (word_of_lt hid).ge
  · exact (word_of_lt hid).le

theorem length_storeAbsolute (point : Absolute) :
    (storeAbsolute c point).length = 4 + c.valueSize + 8 := by
  rw [storeAbsolute, List.length_append, List.length_append, length_bigEndian, length_bigEndian,
    length_bigEndian]

theorem loadAbsolute_storeAbsolute {point : Absolute} (hid : point.id < 2 ^ 32)
    (hvalue : point.value < 256 ^ c.valueSize) (htime : point.time < 2 ^ 64) (rest : List UInt8) :
    loadAbsolute c (storeAbsolute c point ++ rest) = point := by
  have hvalues : (storeAbsolute c point ++ rest).drop 4 =
      bigEndian c.valueSize point.value ++ (bigEndian 8 point.time ++ rest) := by
    rw [storeAbsolute, List.append_assoc, List.append_assoc]
    exact List.drop_left' (length_bigEndian ..)
  have htimes : (storeAbsolute c point ++ rest).drop (4 + c.valueSize) =
      bigEndian 8 point.time ++ rest := by
    rw [← List.drop_drop, hvalues]
    exact List.drop_left' (length_bigEndian ..)
  have hids : (storeAbsolute c point ++ rest).take 4 = bigEndian 4 point.id := by
    rw [storeAbsolute, List.append_assoc, List.append_assoc]
    exact List.take_left' (length_bigEndian ..)
  rw [loadAbsolute, hids, hvalues, htimes, List.take_left' (length_bigEndian ..),
    List.take_left' (length_bigEndian ..), ofBigEndian_bigEndian_of_lt (by omega),
    ofBigEndian_bigEndian_of_lt hvalue, ofBigEndian_bigEndian_of_lt (by omega)]

end BaseRecorder

namespace BaseRecorder

/-- A recorder and its end stand where a file or another recorder puts them that is looked into for
an id. -/
structure Opens (b : BaseRecorder) (id : Nat) (base : BaseRecorder) (end_ : Absolute) : Prop where
  endId : end_.id = b.currentId
  begun : id < b.currentId →
    end_ = b.current ∧ base.start = b.start ∧
      base.currentId = (if id < b.start.id then b.start.id - 1 else b.start.id) ∧
      base.currentValue = b.start.value ∧ base.currentTime = b.start.time ∧ base.index = 0 ∧
      base.currentDelta = 0 ∧
      ∀ l, Holds b.storage 0 l → l.length ≤ b.index → Holds base.storage 0 l
  beyond : b.currentId < id → base.currentId = b.currentId + 1

theorem before {id start : Nat} (h : start < 2 ^ 32) :
    (if id < start then word (start + 2 ^ 32 - 1) else start) =
      if id < start then start - 1 else start := by
  split_ifs with hlt
  · rw [word, show start + 2 ^ 32 - 1 = start - 1 + 2 ^ 32 by omega, Nat.add_mod_right,
      Nat.mod_eq_of_lt (by omega)]
  · rfl

theorem snapShot_opens {b : BaseRecorder} (copy : BaseRecorder) (id : Nat)
    (hid : b.start.id < 2 ^ 32)
    (hcurrent : b.currentId + 1 < 2 ^ 32) : Opens b id (b.snapShot copy id) b.current := by
  refine ⟨rfl, fun hlt => ?_, fun hlt => ?_⟩
  · rw [snapShot, if_pos hlt]
    refine ⟨rfl, rfl, before hid, rfl, rfl, rfl, rfl, fun l hl hindex => hl.congr fun j _ hj => ?_⟩
    exact if_pos (by omega)
  · rw [snapShot, if_neg (by omega)]
    exact (if_pos hlt).trans (word_of_lt hcurrent)

theorem save_length (b : BaseRecorder) :
    (b.save c).1.length =
      headerSize c + b.index + (element ⟨true, true, b.currentDelta⟩).length := by
  have happends := storeDelta_appends b ⟨true, true, b.currentDelta⟩
  simp only [save, List.length_append, length_storeAbsolute, List.length_map, List.length_range,
    happends.index, headerSize]
  omega

/-- What `Save` filed is loaded again. -/
theorem load_opens {b : BaseRecorder} (base : BaseRecorder) (end_ : Absolute) (id : Nat)
    (hid : b.start.id < 2 ^ 32) (hcurrent : b.currentId + 1 < 2 ^ 32)
    (hstart : b.start.value < 256 ^ c.valueSize ∧ b.start.time < 2 ^ 64)
    (hend : b.currentValue < 256 ^ c.valueSize ∧ b.currentTime < 2 ^ 64)
    (hfits : 2 * c.sizeofAbsolute < (b.save c).1.length) :
    Opens b id (base.load c (b.save c).1 end_ id).1 (base.load c (b.save c).1 end_ id).2 := by
  have happends := storeDelta_appends b ⟨true, true, b.currentDelta⟩
  have hfile : (b.save c).1 = storeAbsolute c b.start ++ (storeAbsolute c b.current ++
      (List.range (b.storeDelta ⟨true, true, b.currentDelta⟩).index).map
        (b.storeDelta ⟨true, true, b.currentDelta⟩).storage) := by
    rw [save, List.append_assoc]
  have hpoint : loadAbsolute c (b.save c).1 = b.start := by
    rw [hfile]
    exact loadAbsolute_storeAbsolute hid hstart.1 hstart.2 _
  have hbehind : (b.save c).1.drop (4 + c.valueSize + 8) = storeAbsolute c b.current ++
      (List.range (b.storeDelta ⟨true, true, b.currentDelta⟩).index).map
        (b.storeDelta ⟨true, true, b.currentDelta⟩).storage := by
    rw [hfile]
    exact List.drop_left' (length_storeAbsolute _)
  have hpoint' : loadAbsolute c ((b.save c).1.drop (4 + c.valueSize + 8)) = b.current := by
    rw [hbehind]
    exact loadAbsolute_storeAbsolute (Nat.lt_of_succ_lt hcurrent) hend.1 hend.2 _
  have hdata : (b.save c).1.drop (headerSize c) =
      (List.range (b.storeDelta ⟨true, true, b.currentDelta⟩).index).map
        (b.storeDelta ⟨true, true, b.currentDelta⟩).storage := by
    rw [headerSize, Nat.two_mul, ← List.drop_drop, hbehind]
    exact List.drop_left' (length_storeAbsolute _)
  have hstorage : ∀ j < b.index, ((b.save c).1.drop (headerSize c)).getD j (base.storage j) =
      b.storage j := by
    intro j hj
    have hlt : j < (b.storeDelta ⟨true, true, b.currentDelta⟩).index := by
      rw [happends.index]
      omega
    rw [hdata, List.getD_eq_getElem?_getD, List.getElem?_map, List.getElem?_range hlt]
    exact happends.below j hj
  rw [load, if_neg (by omega)]
  simp only [hpoint, hpoint']
  by_cases hlt : id < b.current.id
  · rw [if_pos hlt]
    refine ⟨rfl, fun _ => ?_, fun h => ?_⟩
    · refine ⟨rfl, rfl, before hid, rfl, rfl, rfl, rfl, fun l hl hindex => ?_⟩
      exact hl.congr fun j _ hj => hstorage j (by omega)
    · exact absurd hlt (Nat.lt_asymm h)
  · rw [if_neg hlt]
    refine ⟨rfl, fun h => absurd h hlt, fun h => ?_⟩
    exact (if_pos h).trans (word_of_lt hcurrent)

end BaseRecorder

/-! ### Reading a block -/

namespace Reader

/-- The reader is at a measurement of a block that ends with the id; the rest of the block is to
come, read from a delta on and with some time dropped. -/
structure Reads (c : RecorderType) (fileId id delta dropped : Nat) (m : c.Measurement)
    (rest : List c.Measurement) (r : Reader) : Prop where
  atFile : r.fileId = fileId
  fileId_lt : fileId < id
  started : r.base.start.id ≤ r.base.currentId
  endId : r.end_.id = id
  currentId : r.base.currentId + rest.length = id
  id_lt : id + 1 < 2 ^ 32
  value : r.base.currentValue = m.value
  time : r.base.currentTime + dropped = m.time
  dropped_lt : dropped < 1000
  end_ : r.end_.value = (rest.getLastD m).value ∧ r.end_.time = (rest.getLastD m).time
  middle : 2 ≤ rest.length → r.base.currentDelta = delta ∧ delta < 2 ^ 32 ∧
    Holds r.base.storage r.base.index (c.steps delta m rest)

variable {s : Source} {r : Reader} {fileId id delta dropped : Nat} {m m' : c.Measurement}
  {rest : List c.Measurement}

theorem Reads.isValid (h : Reads c fileId id delta dropped m rest r) : r.isValid = true := by
  have hid := h.currentId
  rw [Reader.isValid, decide_eq_true_eq, h.endId]
  exact ⟨h.started, by omega⟩

theorem Reads.near (h : Reads c fileId id delta dropped m rest r) :
    Near r.base.currentTime m.time := by
  have htime := h.time
  have hlt := h.dropped_lt
  rw [Near]
  omega

theorem Reads.before (h : Reads c fileId id delta dropped m rest r) :
    word (r.end_.id + 2 ^ 32 - 1) = id - 1 := by
  have hlt := h.fileId_lt
  have hid := h.id_lt
  rw [h.endId, word, show id + 2 ^ 32 - 1 = id - 1 + 2 ^ 32 by omega, Nat.add_mod_right,
    Nat.mod_eq_of_lt (by omega)]

theorem elapsed_of_le (hle : m.time ≤ m'.time) (hlt : (m'.time - m.time) / 1000 * 1000 < 2 ^ 32) :
    c.elapsed m m' = (m'.time - m.time) / 1000 := by
  have hnext := m'.time_lt
  rw [elapsed, show m'.time + 2 ^ 64 - m.time = m'.time - m.time + 2 ^ 64 by omega,
    Nat.add_mod_right, Nat.mod_eq_of_lt (by omega), word_of_lt (by omega)]

/-- The last measurement is the end that stands in front of the block. -/
theorem Reads.next_last (h : Reads c fileId id delta dropped m [m'] r) :
    Reads c fileId id 0 0 m' [] (r.next c s) := by
  have hid := h.currentId
  have hstarted := h.started
  have hlt := h.id_lt
  rw [List.length_singleton] at hid
  have hnext : r.next c s = { r with base := r.base.set r.end_ } := by
    rw [Reader.next, if_neg (by omega), h.before, if_neg (by omega), if_pos (by omega)]
  have hstart : r.base.start.id ≤ r.end_.id := by
    rw [h.endId]
    omega
  rw [hnext]
  exact ⟨h.atFile, h.fileId_lt, hstart, h.endId, h.endId, hlt, h.end_.1, h.end_.2, by decide,
    h.end_, fun hlen => by simp at hlen⟩

theorem elapsed_lt (m m' : c.Measurement) : c.elapsed m m' < 2 ^ 32 := by
  rw [elapsed]
  exact word_lt _

theorem holds_steps {storage : Nat → UInt8} {index : Nat} :
    Holds storage index (c.steps delta m (m' :: rest)) ↔
      Holds storage index (c.step delta m m') ∧
        Holds storage (index + (c.step delta m m').length) (c.steps (c.elapsed m m') m' rest) := by
  rw [steps, holds_append]

/-- A step is read: the recorder of the reader behind it. -/
theorem Reads.next_step {after : c.Measurement}
    (h : Reads c fileId id delta dropped m (m' :: after :: rest) r)
    (hs : c.Steady delta dropped m (m' :: after :: rest)) :
    ∃ b, r.next c s = { r with base := b } ∧ b.start = r.base.start ∧
      b.currentDelta = c.elapsed m m' ∧ b.currentId = r.base.currentId + 1 ∧
      b.currentTime = r.base.currentTime + (m'.time - m.time) / 1000 * 1000 ∧
      b.currentValue = m'.value ∧
      Holds b.storage b.index (c.steps (c.elapsed m m') m' (after :: rest)) := by
  obtain ⟨hle, hwide, hdrop, hdelta, hvalue, hlong, -⟩ := hs
  obtain ⟨rfl, hdelta_lt, hholds⟩ := h.middle (by rw [List.length_cons, List.length_cons]; omega)
  have hid := h.currentId
  have hstarted := h.started
  have hlt := h.id_lt
  have htime := h.time
  have hnextTime := m'.time_lt
  rw [List.length_cons, List.length_cons] at hid
  obtain ⟨hfirst, hleft⟩ := holds_steps.mp hholds
  obtain ⟨hstart', hdelta', hid', htime', hvalue', hindex', hstorage'⟩ :=
    BaseRecorder.fields (stepForward_step h.value hdelta_lt hfirst hdelta hvalue hlong)
  refine ⟨r.base.stepForward c, ?_, hstart', hdelta', ?_, ?_, hvalue', ?_⟩
  · rw [Reader.next, if_neg (by omega), h.before, if_pos (by omega)]
  · rw [hid', word_of_lt (by omega)]
  · rw [htime', elapsed_of_le hle hwide, word_of_lt hwide, Nat.mod_eq_of_lt (by omega)]
  · rw [hstorage', hindex']
    exact hleft

theorem Reads.next (h : Reads c fileId id delta dropped m (m' :: rest) r)
    (hs : c.Steady delta dropped m (m' :: rest)) :
    ∃ delta' dropped', Reads c fileId id delta' dropped' m' rest (r.next c s) ∧
      c.Steady delta' dropped' m' rest := by
  rcases rest with _ | ⟨after, rest⟩
  · exact ⟨0, 0, h.next_last, trivial⟩
  · obtain ⟨b, hnext, hstart', hdelta', hid', htime', hvalue', hleft⟩ := h.next_step (s := s) hs
    have hid := h.currentId
    have htime := h.time
    have hstarted := h.started
    have hend := h.end_
    rw [List.length_cons] at hid
    rw [List.getLastD_cons] at hend
    obtain ⟨hle, -, hdrop, -, -, -, hrest⟩ := hs
    refine ⟨c.elapsed m m', dropped + (m'.time - m.time) % 1000, ?_, hrest⟩
    rw [hnext]
    refine ⟨h.atFile, h.fileId_lt, ?_, h.endId, ?_, h.id_lt, hvalue', ?_, hdrop, hend,
      fun _ => ⟨hdelta', elapsed_lt m m', hleft⟩⟩
    · show b.start.id ≤ b.currentId
      rw [hstart', hid']
      omega
    · show b.currentId + _ = id
      rw [hid']
      omega
    · show b.currentTime + _ = m'.time
      rw [htime']
      omega

/-- The rest of a block is replayed, and then what comes behind its end. -/
theorem Reads.replays {tail : List c.Measurement} (h : Reads c fileId id delta dropped m rest r)
    (hs : c.Steady delta dropped m rest)
    (hend : ∀ r delta dropped m, Reads c fileId id delta dropped m [] r → c.Replays s r tail) :
    c.Replays s r (rest ++ tail) := by
  induction rest generalizing r delta dropped m with
  | nil => exact hend r delta dropped m h
  | cons m' rest ih =>
    obtain ⟨delta', dropped', hnext, hs'⟩ := h.next (s := s) hs
    exact ⟨hnext.isValid, hnext.value, hnext.near, ih hnext hs'⟩

theorem Reads.next_end (h : Reads c fileId id delta dropped m [] r) :
    r.next c s = r.nextBlock c s := by
  have hid := h.currentId
  have hstarted := h.started
  have hlt := h.fileId_lt
  rw [List.length_nil] at hid
  rw [Reader.next, if_neg (by omega), h.before, if_neg (by omega), if_neg (by omega),
    if_pos (by rw [h.endId]; omega)]

end Reader

/-! ### From block to block -/

/-- What a reader finds behind a block: the files of the blocks, and the recorder with the last one
of them where there is one. -/
def Follows (c : RecorderType) (set : Option BaseRecorder) :
    List (List UInt8) → Nat → Nat → List (List c.Measurement) → Prop
  | files, _, _, [] => files = [] ∧ set = none
  | file :: files, id, delta, block :: rest =>
    (∃ b : BaseRecorder, b.Has c id delta block ∧ file = (b.save c).1) ∧
      Follows c set files (id + (block.length - 1)) (c.blockDelta delta block) rest
  | [], id, delta, [block] => ∃ b : BaseRecorder, set = some b ∧ b.Has c id delta block
  | [], _, _, _ :: _ :: _ => False

theorem follows_nil {set : Option BaseRecorder} {files : List (List UInt8)} {id delta : Nat} :
    Follows c set files id delta [] ↔ files = [] ∧ set = none := by
  cases files <;> rfl

section

variable {s : Source} {r : Reader} {set : Option BaseRecorder} {files : List (List UInt8)}
  {fileId id delta : Nat} {block : List c.Measurement} {blocks : List (List c.Measurement)}

theorem Follows.start_le {b : BaseRecorder} (h : Follows c (some b) files id delta blocks) :
    id ≤ b.start.id := by
  induction blocks generalizing files id delta with
  | nil => exact absurd (follows_nil.mp h).2 (Option.some_ne_none b)
  | cons block rest ih =>
    rcases files with _ | ⟨file, files⟩
    · rcases rest with _ | ⟨_, _⟩
      · obtain ⟨b', hb, hhas⟩ := h
        cases hb
        rcases block with _ | ⟨m, rest⟩
        · exact (hhas.empty rfl).2.1
        · exact (hhas.filled m rest rfl).1 ▸ le_rfl
      · exact h.elim
    · exact Nat.le_trans (Nat.le_add_right _ (block.length - 1)) (ih h.2)

/-- Where no block has a measurement, the recorder stands where the reader does. -/
theorem Follows.empty {b : BaseRecorder} (h : Follows c (some b) files id delta blocks)
    (hempty : ∀ block ∈ blocks, block = []) : b.currentId = id ∧ b.start.id ≤ id + 1 := by
  induction blocks generalizing files id delta with
  | nil => exact absurd (follows_nil.mp h).2 (Option.some_ne_none b)
  | cons block rest ih =>
    obtain rfl := hempty block List.mem_cons_self
    rcases files with _ | ⟨file, files⟩
    · rcases rest with _ | ⟨_, _⟩
      · obtain ⟨b', hb, hhas⟩ := h
        cases hb
        exact ⟨hhas.currentId, (hhas.empty rfl).2.2⟩
      · exact h.elim
    · exact ih h.2 fun block hblock => hempty block (List.mem_cons_of_mem _ hblock)

theorem BaseRecorder.Has.start_id_le {b : BaseRecorder} (h : b.Has c id delta block) :
    b.start.id ≤ id + 1 := by
  rcases block with _ | ⟨m, rest⟩
  · exact (h.empty rfl).2.2
  · rw [(h.filled m rest rfl).1]
    exact Nat.le_succ _

/-- A reader at the first measurement of a block. -/
theorem BaseRecorder.Has.reads {b : BaseRecorder} {m : c.Measurement} {rest : List c.Measurement}
    (h : b.Has c id delta (m :: rest)) (hs : c.SoundBlock delta (m :: rest))
    (hfile : r.fileId = fileId) (hlt : fileId < id + rest.length)
    (hid : id + rest.length + 1 < 2 ^ 32) (hend : r.end_ = b.current)
    (hstart : r.base.start = b.start) (hcurrent : r.base.currentId = b.start.id)
    (hvalue : r.base.currentValue = b.start.value) (htime : r.base.currentTime = b.start.time)
    (hindex : r.base.index = 0) (hdelta : r.base.currentDelta = 0)
    (hholds : ∀ l, Holds b.storage 0 l → l.length ≤ b.index → Holds r.base.storage 0 l) :
    r.Reads c fileId (id + rest.length) 0 0 m rest ∧ c.Steady 0 0 m rest := by
  obtain ⟨hfilled, hlastValue, hlastTime⟩ := h.filled m rest rfl
  have hlast : b.currentId = id + rest.length := h.currentId
  rw [hfilled] at hcurrent hvalue htime hstart
  refine ⟨⟨hfile, hlt, ?_, ?_, ?_, hid, hvalue, htime, by decide, ?_,
    fun hlen => ⟨hdelta, by decide, ?_⟩⟩, ?_⟩
  · rw [hstart, hcurrent]
  · rw [hend]
    exact hlast
  · rw [hcurrent]
  · rw [hend]
    exact ⟨hlastValue, hlastTime⟩
  · obtain ⟨rfl, -⟩ := hs.2 hlen
    rw [hindex]
    exact hholds _ h.holds h.index.ge
  · rcases rest with _ | ⟨_, _ | ⟨_, _⟩⟩
    · trivial
    · trivial
    · exact (hs.2 (by rw [List.length_cons, List.length_cons]; omega)).2

end

section

variable {s : Source} {r : Reader} {set : Option BaseRecorder} {files : List (List UInt8)}
  {fileId id delta delta' dropped : Nat} {m : c.Measurement} {blocks : List (List c.Measurement)}

namespace Reader

theorem not_isValid (h : r.end_.id < r.base.currentId) : r.isValid = false := by
  rw [isValid, decide_eq_false_iff_not]
  omega

/-- The reader behind the end of its block. -/
def behind (r : Reader) : Reader :=
  { r with base := r.base.set { r.end_ with id := r.end_.id + 1 }, fileId := r.fileId + 1 }

theorem Reads.nextBlock_file (h : Reads c fileId id delta dropped m [] r)
    (hset : ∀ b, s.currentSet = some b → id + 1 < b.start.id) :
    r.nextBlock c s =
      (s.files[fileId + 1]?).elim r.behind (r.behind.loadFile c · (id + 1)) := by
  have hid := h.id_lt
  have hlt := h.fileId_lt
  have hword : word (id + 1) = id + 1 := word_of_lt hid
  have hfile : word (fileId + 1) = fileId + 1 := word_of_lt (by omega)
  rw [nextBlock, behind]
  simp only [hword, hfile, h.endId, h.atFile]
  cases hcurrent : s.currentSet with
  | none => rfl
  | some b => exact if_pos (hset b hcurrent)

theorem Reads.nextBlock_copy {b : BaseRecorder} (h : Reads c fileId id delta dropped m [] r)
    (hset : s.currentSet = some b) (hle : b.start.id ≤ id + 1) :
    r.nextBlock c s = { r.behind with fileId }.copy b (id + 1) := by
  have hword : word (id + 1) = id + 1 := word_of_lt h.id_lt
  rw [nextBlock, behind]
  simp only [hword, hset, h.endId, h.atFile]
  exact if_neg (by omega)

/-- At its end the recorder is copied once more, and the reader is behind it. -/
theorem Reads.ends_copied {b : BaseRecorder} (h : Reads c fileId id delta dropped m [] r)
    (hset : s.currentSet = some b) (hcurrent : b.currentId = id) (hstart : b.start.id ≤ id + 1) :
    c.Replays s r [] := by
  have hlt := h.id_lt
  rw [Replays, h.next_end, h.nextBlock_copy hset hstart]
  have hopens := BaseRecorder.snapShot_opens (b := b) ({ r.behind with fileId } : Reader).base
    (id + 1)
    (by omega) (by omega)
  refine not_isValid ?_
  show b.currentId < (b.snapShot _ (id + 1)).currentId
  rw [hopens.beyond (by omega)]
  exact Nat.lt_succ_self _

/-- Where no measurement follows, `Next` answers that there is none. -/
theorem Reads.ends (h : Reads c fileId id delta' dropped m [] r)
    (hf : Follows c set files id delta blocks) (hempty : ∀ block ∈ blocks, block = [])
    (hfiles : s.files.drop (fileId + 1) = files) (hset : s.currentSet = set) :
    c.Replays s r [] := by
  cases set with
  | some b =>
    obtain ⟨hid, hstart⟩ := hf.empty hempty
    exact h.ends_copied hset hid hstart
  | none =>
    have hnone : ∀ b, s.currentSet = some b → id + 1 < b.start.id := fun b hb => by
      rw [hset] at hb
      cases hb
    rw [Replays, h.next_end, h.nextBlock_file hnone, ← Nat.add_zero (fileId + 1),
      ← List.getElem?_drop, hfiles]
    rcases files with _ | ⟨file, files⟩
    · exact not_isValid (Nat.lt_succ_self _)
    · rcases blocks with _ | ⟨block, rest⟩
      · exact absurd (follows_nil.mp hf).1 (List.cons_ne_nil _ _)
      · obtain rfl := hempty block List.mem_cons_self
        obtain ⟨b, hhas, rfl⟩ := hf.1
        have hcurrent : b.currentId = id := hhas.currentId
        have hlt := h.id_lt
        have hstart := hhas.start_id_le
        by_cases hfits : (b.save c).1.length ≤ 2 * c.sizeofAbsolute
        · refine not_isValid ?_
          show (r.behind.base.load c _ _ _).2.id < (r.behind.base.load c _ _ _).1.currentId
          rw [BaseRecorder.load, if_pos hfits]
          exact Nat.lt_succ_self _
        · have hopens := BaseRecorder.load_opens (c := c) (b := b) r.behind.base r.behind.end_
            (id + 1)
            (by omega) (by omega) hhas.start_lt hhas.current_lt (by omega)
          refine not_isValid ?_
          show (r.behind.base.load c _ _ _).2.id < (r.behind.base.load c _ _ _).1.currentId
          rw [hopens.endId, hopens.beyond (by omega)]
          exact Nat.lt_succ_self _

end Reader

end

section

variable {s : Source} {r : Reader} {set : Option BaseRecorder} {files : List (List UInt8)}
  {fileId id delta delta' dropped : Nat} {m : c.Measurement} {blocks : List (List c.Measurement)}
  {attached : Bool}

namespace Reader

theorem le_lastId (id : Nat) (blocks : List (List c.Measurement)) : id ≤ c.lastId id blocks := by
  induction blocks generalizing id with
  | nil => exact le_rfl
  | cons block rest ih => exact Nat.le_trans (Nat.le_add_right ..) (ih _)

/-- A reader that was put to a block by a file or a recorder reads it. -/
theorem opened_reads {b base : BaseRecorder} {end_ : Absolute} {rest : List c.Measurement}
    {later : Nat} (hhas : b.Has c id delta (m :: rest)) (hs : c.SoundBlock delta (m :: rest))
    (hopens : b.Opens later base end_) (hlater : later < b.currentId) (hid : id ≤ later)
    (hlt : fileId < id + rest.length) (hbound : id + rest.length + 1 < 2 ^ 32) :
    Reads c fileId (id + rest.length) 0 0 m rest ⟨base, end_, fileId⟩ ∧ c.Steady 0 0 m rest := by
  obtain ⟨hend, hstart, hcurrent, hvalue, htime, hindex, hdelta, hholds⟩ := hopens.begun hlater
  have hid' : b.start.id = id := congrArg Absolute.id (hhas.filled m rest rfl).1
  rw [if_neg (by omega)] at hcurrent
  exact hhas.reads hs rfl hlt hbound hend hstart hcurrent hvalue htime hindex hdelta hholds

/-- Behind the end of a block, the blocks that follow are replayed. -/
theorem Reads.replays_blocks (h : Reads c fileId id delta' dropped m [] r)
    (hf : Follows c set files id delta blocks) (hs : c.SoundBlocks attached delta blocks)
    (hattached : attached = set.isSome) (hfiles : s.files.drop (fileId + 1) = files)
    (hset : s.currentSet = set) (hlt : c.lastId id blocks + 1 < 2 ^ 32) :
    c.Replays s r blocks.flatten := by
  induction blocks generalizing fileId id delta delta' dropped m r files with
  | nil => exact h.ends hf (by simp) hfiles hset
  | cons block rest ih =>
    obtain ⟨hkind, hblock, hrest⟩ := hs
    rcases hkind with ⟨rfl, hempty⟩ | ⟨hlen, hfits⟩
    · have hall : ∀ later ∈ [] :: rest, later = [] := by
        intro later hlater
        rcases List.mem_cons.mp hlater with rfl | hlater
        · rfl
        · exact hempty later hlater
      rw [List.flatten_eq_nil_iff.mpr hall]
      exact h.ends hf hall hfiles hset
    · rcases block with _ | ⟨first, more⟩
      · simp at hlen
      rw [lastId, List.length_cons, Nat.add_sub_cancel] at hlt
      have hlast := le_lastId (id + more.length) rest
      rw [List.length_cons] at hlen
      rw [List.flatten_cons, List.cons_append]
      have hfileId := h.fileId_lt
      -- Where the reader is put, and how it goes on at the end of the block.
      suffices hput : ∃ fileId', fileId' < id + more.length ∧
          (Reads c fileId' (id + more.length) 0 0 first more
            (r.next c s) ∧ c.Steady 0 0 first more) ∧
          ∀ r delta dropped m, Reads c fileId' (id + more.length) delta dropped m [] r →
            c.Replays s r rest.flatten by
        obtain ⟨fileId', -, ⟨hreads, hsteady⟩, hend⟩ := hput
        exact ⟨hreads.isValid, hreads.value, hreads.near, hreads.replays hsteady hend⟩
      rw [h.next_end]
      rcases files with _ | ⟨file, files⟩
      · rcases rest with _ | ⟨_, _⟩
        · obtain ⟨b, rfl, hhas⟩ := hf
          have hcurrent : b.currentId = id + more.length := hhas.currentId
          have hstart : b.start.id = id := congrArg Absolute.id (hhas.filled first more rfl).1
          refine ⟨fileId, by omega, ?_, fun r delta dropped m hend => ?_⟩
          · rw [h.nextBlock_copy hset (by omega)]
            exact opened_reads hhas hblock
              (BaseRecorder.snapShot_opens r.behind.base (id + 1) (by omega) (by omega)) (by omega)
              (Nat.le_succ id) (by omega) (by omega)
          · exact hend.ends_copied hset hcurrent (by omega)
        · exact hf.elim
      · obtain ⟨⟨b, hhas, rfl⟩, hf⟩ := hf
        have hcurrent : b.currentId = id + more.length := hhas.currentId
        have hstart : b.start.id = id := congrArg Absolute.id (hhas.filled first more rfl).1
        have hlookup : s.files[fileId + 1]? = some (b.save c).1 := by
          rw [← Nat.add_zero (fileId + 1), ← List.getElem?_drop, hfiles]
          rfl
        have hlater : ∀ b', s.currentSet = some b' → id + 1 < b'.start.id := fun b' hb' => by
          rw [hset] at hb'
          subst hb'
          have := hf.start_le
          rw [List.length_cons] at this
          omega
        have hsize : 2 * c.sizeofAbsolute < (b.save c).1.length := by
          rw [BaseRecorder.save_length, hhas.index, hhas.currentDelta]
          refine hfits ?_
          rw [hattached]
          rcases rest with _ | ⟨_, _⟩
          · obtain ⟨-, rfl⟩ := follows_nil.mp hf
            exact .inr rfl
          · exact .inl (List.cons_ne_nil _ _)
        refine ⟨fileId + 1, by omega, ?_, fun r delta dropped m hend => ?_⟩
        · rw [h.nextBlock_file hlater, hlookup]
          have hopens := BaseRecorder.load_opens r.behind.base r.behind.end_ (id + 1)
            (by omega) (by omega) hhas.start_lt hhas.current_lt hsize
          have hbehind : r.behind.fileId = fileId + 1 := congrArg (· + 1) h.atFile
          have hreads := opened_reads hhas hblock hopens (by omega) (Nat.le_succ id)
            (show fileId + 1 < id + more.length by omega) (by omega)
          rw [← hbehind] at hreads ⊢
          exact hreads
        · refine ih hend hf hrest ?_ (by omega)
          rw [← List.drop_drop, hfiles]
          rfl

end Reader

end

/-! ### What the writer files -/

theorem blocks_flatten (delta : Nat) (taken : List c.Measurement) (calls : List c.Call) :
    (c.blocks delta taken calls).flatten = taken ++ c.measurements calls := by
  induction calls generalizing delta taken with
  | nil => rw [blocks, measurements, List.flatten_singleton, List.append_nil]
  | cons call calls ih =>
    cases call with
    | save => rw [blocks, measurements, List.flatten_cons, ih, List.nil_append]
    | record m =>
      rw [blocks, measurements]
      split_ifs
      · rw [List.flatten_cons, ih, List.nil_append, List.append_assoc, List.singleton_append]
      · rw [ih, List.append_assoc, List.singleton_append]

/-- The first block starts with the measurements that were taken before. -/
theorem blocks_head (delta : Nat) (taken : List c.Measurement) (calls : List c.Call) :
    ∃ more rest, c.blocks delta taken calls = (taken ++ more) :: rest := by
  induction calls generalizing taken with
  | nil => exact ⟨[], [], by rw [blocks, List.append_nil]⟩
  | cons call calls ih =>
    cases call with
    | save => exact ⟨[], _, by rw [blocks, List.append_nil]⟩
    | record m =>
      rw [blocks]
      split_ifs
      · exact ⟨[m], _, rfl⟩
      · obtain ⟨more, rest, hblocks⟩ := ih (taken ++ [m])
        exact ⟨m :: more, rest, by rw [hblocks, List.append_assoc, List.singleton_append]⟩

/-- The first measurement of a block is at a time that is not zero. -/
def Started (block : List c.Measurement) : Prop := ∀ m rest, block = m :: rest → 0 < m.time

/-- Between two states a writer filed the blocks; it has the last one in its recorder. -/
def Filed (c : RecorderType) (w w' : Writer) (id delta : Nat) (blocks : List (List c.Measurement)) :
    Prop :=
  ∃ files, w'.files = w.files ++ files ∧ Follows c (some w'.base) files id delta blocks ∧
    Follows c none (files ++ [(w'.base.save c).1]) id delta blocks

theorem Filed.save {w w' : Writer} {id delta : Nat} {taken : List c.Measurement}
    {blocks : List (List c.Measurement)} (h : w.base.Has c id delta taken)
    (hfiled : Filed c (w.save c) w' (id + (taken.length - 1)) (c.blockDelta delta taken) blocks) :
    Filed c w w' id delta (taken :: blocks) := by
  obtain ⟨files, hfiles, hset, hnone⟩ := hfiled
  refine ⟨(w.base.save c).1 :: files, ?_, ⟨⟨w.base, h, rfl⟩, hset⟩, ⟨⟨w.base, h, rfl⟩, hnone⟩⟩
  rw [hfiles]
  exact List.append_assoc ..

/-- Each call keeps the block of the writer, or files it. -/
theorem BaseRecorder.Has.filed {w : Writer} {id delta : Nat} {taken : List c.Measurement}
    (calls : List c.Call) (h : w.base.Has c id delta taken)
    (hstarted : ∀ block ∈ c.blocks delta taken calls, Started block)
    (hlt : c.lastId id (c.blocks delta taken calls) + 1 < 2 ^ 32) :
    Filed c w (calls.foldl (Writer.call c) w) id delta (c.blocks delta taken calls) := by
  induction calls generalizing w id delta taken with
  | nil => exact ⟨[], (List.append_nil _).symm, ⟨w.base, rfl, h⟩, ⟨w.base, h, rfl⟩, rfl, rfl⟩
  | cons call calls ih =>
    cases call with
    | save =>
      rw [blocks] at hstarted hlt ⊢
      have hid := h.currentId
      have hlast := Reader.le_lastId (id + (taken.length - 1))
        (c.blocks (c.blockDelta delta taken) [] calls)
      rw [lastId] at hlt
      have hsave := h.save (by omega)
      rw [hid] at hsave
      exact .save h (ih (w := w.save c) hsave
        (fun block hblock => hstarted block (List.mem_cons_of_mem _ hblock)) hlt)
    | record m =>
      have htaken : Started taken := by
        intro m' rest htaken
        obtain ⟨more, later, hblocks⟩ := blocks_head delta taken (.record m :: calls)
        refine hstarted _ (hblocks ▸ List.mem_cons_self) m' (rest ++ more) ?_
        rw [htaken]
        rfl
      have hroom : id + taken.length < 2 ^ 32 := by
        obtain ⟨more, later, hblocks⟩ := blocks_head delta (taken ++ [m]) calls
        have hlast := Reader.le_lastId (id + ((taken ++ [m] ++ more).length - 1)) later
        have hlast' := Reader.le_lastId (id + ((taken ++ [m]).length - 1))
          (c.blocks (c.blockDelta delta (taken ++ [m])) [] calls)
        rw [List.length_append, List.length_append, List.length_singleton] at hlast
        rw [List.length_append, List.length_singleton] at hlast'
        rw [blocks] at hlt
        split_ifs at hlt
        · rw [lastId, List.length_append, List.length_singleton] at hlt
          omega
        · rw [hblocks, lastId, List.length_append, List.length_append, List.length_singleton] at hlt
          omega
      have hstore := h.store hroom htaken m
      rw [List.foldl_cons, Writer.call, Writer.record]
      rw [blocks] at hstarted hlt ⊢
      rw [← hstore.index] at hstarted hlt ⊢
      split_ifs at hstarted hlt ⊢ with hfull
      · have hid := hstore.currentId
        have hlast := Reader.le_lastId (id + ((taken ++ [m]).length - 1))
          (c.blocks (c.blockDelta delta (taken ++ [m])) [] calls)
        rw [lastId] at hlt
        have hsave := hstore.save (by omega)
        rw [hid] at hsave
        exact Filed.save (w := { w with base := w.base.store m.time m.value }) hstore
          (ih hsave (fun block hblock => hstarted block (List.mem_cons_of_mem _ hblock)) hlt)
      · exact ih (w := { w with base := w.base.store m.time m.value }) hstore hstarted hlt

theorem SoundBlocks.started {attached : Bool} {delta : Nat} {blocks : List (List c.Measurement)}
    (h : c.SoundBlocks attached delta blocks) : ∀ block ∈ blocks, Started block := by
  induction blocks generalizing delta with
  | nil => simp
  | cons block rest ih =>
    intro block' hblock'
    rcases List.mem_cons.mp hblock' with rfl | hblock'
    · intro m more heq
      subst heq
      exact h.2.1.1
    · exact ih h.2.2 block' hblock'

/-- The reader that starts before the first measurement of its first block. -/
theorem BaseRecorder.Opens.replays {s : Source} {b base : BaseRecorder} {end_ : Absolute}
    {m : c.Measurement} {rest tail : List c.Measurement} (hopens : b.Opens 0 base end_)
    (hhas : b.Has c 1 0 (m :: rest)) (hs : c.SoundBlock 0 (m :: rest))
    (hbound : 1 + rest.length + 1 < 2 ^ 32)
    (hend : ∀ r delta dropped m, Reader.Reads c 0 (1 + rest.length) delta dropped m [] r →
      c.Replays s r tail) :
    c.Replays s ⟨base, end_, 0⟩ (m :: rest ++ tail) := by
  have hcurrent : b.currentId = 1 + rest.length := hhas.currentId
  have hid : b.start.id = 1 := congrArg Absolute.id (hhas.filled m rest rfl).1
  obtain ⟨hend', hstart, hbase, -, -, hindex, hdelta, hholds⟩ := hopens.begun (by omega)
  rw [hid, if_pos (by decide)] at hbase
  have hnext : Reader.next c s ⟨base, end_, 0⟩ = ⟨base.set base.start, end_, 0⟩ := by
    rw [Reader.next, if_pos (by rw [hbase, hstart, hid]; decide)]
  have hreads := hhas.reads (r := ⟨base.set base.start, end_, 0⟩) hs rfl
    (show 0 < 1 + rest.length by omega) hbound hend' hstart
    (congrArg Absolute.id hstart) (congrArg Absolute.value hstart) (congrArg Absolute.time hstart)
    hindex hdelta hholds
  rw [List.cons_append, Replays, hnext]
  exact ⟨hreads.1.isValid, hreads.1.value, hreads.1.near, hreads.1.replays hreads.2 hend⟩

theorem Reader.new_file {s : Source} {file : List UInt8} {files : List (List UInt8)}
    (hfiles : s.files = file :: files) (start end_ : Absolute) (memory : Nat → UInt8) :
    Reader.new c s start end_ memory 0 =
      ⟨((BaseRecorder.new start memory).load c file end_ 0).1,
        ((BaseRecorder.new start memory).load c file end_ 0).2, 0⟩ := by
  rw [Reader.new, Reader.reset, hfiles, Reader.scan]
  simp only [Reader.loadFile, Nat.zero_le, if_true, Nat.not_lt_zero, false_and, if_false]
  cases s.currentSet <;> rfl

theorem Reader.new_copy {s : Source} {b : BaseRecorder} (hfiles : s.files = [])
    (hset : s.currentSet = some b) (start end_ : Absolute) (memory : Nat → UInt8) :
    Reader.new c s start end_ memory 0 =
      ⟨b.snapShot (BaseRecorder.new start memory) 0, b.current, 0⟩ := by
  rw [Reader.new, Reader.reset, hfiles, Reader.scan, hset]
  simp only [Nat.not_lt_zero, false_and, if_false]
  rfl

/-- A recording whose blocks are sound is replayed. -/
theorem replayed_of_sound (c : RecorderType) (attached : Bool) (calls : List c.Call)
    (h : c.Sound attached (c.blocks 0 [] calls)) : c.Replayed attached calls := by
  intro start start' end_ memory memory'
  have hnew : (Writer.new start memory).base.Has c 1 0 ([] : List c.Measurement) :=
    ⟨rfl, rfl, rfl, trivial, ⟨Nat.pow_pos (by decide), Nat.two_pow_pos _⟩,
      ⟨Nat.pow_pos (by decide), Nat.two_pow_pos _⟩, fun _ _ heq => by simp at heq,
      fun _ => ⟨rfl, le_rfl, Nat.le_succ 1⟩⟩
  have hflatten := blocks_flatten 0 [] calls
  rw [List.nil_append] at hflatten
  rw [← hflatten]
  obtain ⟨m, rest, blocks, hblocks⟩ : ∃ m rest blocks, c.blocks 0 [] calls =
    (m :: rest) :: blocks := by
    rcases hcalls : c.blocks 0 [] calls with _ | ⟨_ | ⟨m, rest⟩, blocks⟩
    · rw [hcalls] at h
      exact h.elim
    · rw [hcalls] at h
      exact absurd rfl h.1
    · exact ⟨m, rest, blocks, rfl⟩
  rw [hblocks] at h
  obtain ⟨-, hfits, hblock, hlater, hbound⟩ := h
  have hstarted : ∀ block ∈ c.blocks 0 [] calls, Started block := by
    intro block hmem
    rw [hblocks] at hmem
    rcases List.mem_cons.mp hmem with rfl | hmem
    · intro m' rest' heq
      obtain ⟨rfl, rfl⟩ := List.cons.inj heq
      exact hblock.1
    · exact hlater.started block hmem
  obtain ⟨files, hfiles, hset, hnone⟩ := hnew.filed calls hstarted (by rw [hblocks]; exact hbound)
  generalize calls.foldl (Writer.call c) (.new start memory) = w at *
  rw [hblocks] at hset hnone ⊢
  rw [lastId, List.length_cons, Nat.add_sub_cancel] at hbound
  have hlast := Reader.le_lastId (1 + rest.length) blocks
  replace hfiles : w.files = files := hfiles
  -- What is read first is a file, or the recorder of the writer where there is none.
  suffices hfollows : ∀ (s : Source), Follows c s.currentSet s.files 1 0 ((m :: rest) :: blocks) →
      attached = s.currentSet.isSome →
      c.Replays s (.new c s start' end_ memory' 0) ((m :: rest) :: blocks).flatten by
    cases attached with
    | true =>
      refine hfollows (c.source true w) ?_ rfl
      show Follows c (some w.base) w.files 1 0 ((m :: rest) :: blocks)
      rw [hfiles]
      exact hset
    | false =>
      refine hfollows (c.source false w) ?_ rfl
      show Follows c none (w.files ++ [(w.base.save c).1]) 1 0 ((m :: rest) :: blocks)
      rw [hfiles]
      exact hnone
  intro s hf hattached
  rw [List.flatten_cons]
  rcases hs : s.files with _ | ⟨file, files⟩
  · rw [hs] at hf
    rcases blocks with _ | ⟨_, _⟩
    · obtain ⟨b, hb, hhas⟩ := hf
      have hcurrent : b.currentId = 1 + rest.length := hhas.currentId
      have hstart := hhas.start_id_le
      rw [Reader.new_copy hs hb]
      exact (BaseRecorder.snapShot_opens _ 0 (by omega) (by omega)).replays hhas hblock (by omega)
        fun r delta dropped m hend => hend.ends_copied hb hcurrent (by omega)
    · exact hf.elim
  · rw [hs] at hf
    obtain ⟨⟨b, hhas, rfl⟩, hf⟩ := hf
    have hcurrent : b.currentId = 1 + rest.length := hhas.currentId
    have hstart := hhas.start_id_le
    have hsize : 2 * c.sizeofAbsolute < (b.save c).1.length := by
      rw [BaseRecorder.save_length, hhas.index, hhas.currentDelta]
      refine hfits ?_
      rw [hattached]
      rcases blocks with _ | ⟨_, _⟩
      · rw [(follows_nil.mp hf).2]
        exact .inr rfl
      · exact .inl (List.cons_ne_nil _ _)
    rw [Reader.new_file hs]
    refine (BaseRecorder.load_opens _ _ 0 (by omega) (by omega) hhas.start_lt hhas.current_lt
      hsize).replays hhas hblock (by omega) fun r delta dropped m hend => ?_
    exact hend.replays_blocks hf hlater hattached (by rw [hs]; rfl) rfl hbound

/-- Three measurements a millisecond apart, in one file. -/
theorem replayed_three :
    Replayed ⟨4, 1, fun _ _ => 0, by decide, by decide⟩ false
      [.record ⟨10, 1000000, by decide, by decide⟩, .record ⟨20, 1001000, by decide, by decide⟩,
        .record ⟨15, 1002000, by decide, by decide⟩] :=
  replayed_of_sound _ _ _
    ⟨by decide, fun _ => Nat.le_of_ble_eq_true rfl, ⟨by decide,
      fun _ => ⟨rfl, by decide, by decide, by decide, by decide, by decide, by decide, trivial⟩⟩,
        trivial, by decide⟩

/-- A value that goes up by 32: the flag says that one byte is all, and the byte behind it is taken
for the next element. -/
theorem not_replayed_thirtyTwo :
    ¬ Replayed ⟨4, 1, fun _ _ => 0, by decide, by decide⟩ false
      [.record ⟨10, 1000000, by decide, by decide⟩, .record ⟨42, 1001000, by decide, by decide⟩,
        .record ⟨50, 1002000, by decide, by decide⟩] := by
  intro h
  obtain ⟨-, -, -, -, hvalue, -⟩ := h ⟨0, 0, 0⟩ ⟨0, 0, 0⟩ ⟨0, 0, 0⟩ (fun _ => 0) (fun _ => 0)
  exact absurd hvalue (by decide)

end RecorderType

end Thunder.Core
