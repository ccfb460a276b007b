import Thunder.Library.Run
import Thunder.Core.CyclicContent

/-! The plain `CyclicBuffer` as a first-in first-out store of bytes.  A log records the bytes that
were written and, in the order in which the tail passed them, the bytes that left; the log and the
ring together always hold exactly what was written. -/

namespace Thunder.Core.CyclicBuffer

open Cyclic Run

/-- The default virtual functions: exactly what is asked for. -/
def plain : Policy where
  getReadSize _ cursor := (cursor.size, cursor)
  getOverwriteSize _ cursor := some cursor.size

/-- How a byte left the buffer. -/
inductive Fate
  | read
  | overwritten
  | flushed
  deriving DecidableEq, Repr

structure Log where
  written : List UInt8 := []
  gone : List (Fate × UInt8) := []

namespace Log

def write (log : Log) (bytes : List UInt8) : Log := { log with written := log.written ++ bytes }

def leave (log : Log) (fate : Fate) (bytes : List UInt8) : Log :=
  { log with gone := log.gone ++ bytes.map fun byte => (fate, byte) }

/-- The bytes that the reads returned, in their order. -/
def returned (log : Log) : List UInt8 :=
  (log.gone.filter fun x => x.1 = .read).map Prod.snd

end Log

/-- The bytes that lie between the tail and another one. -/
def passed (b : CyclicBuffer) (tail : Nat) : List UInt8 :=
  window b.realBuffer b.size (b.indexOf b.tail)
    ((b.indexOf tail + b.size - b.indexOf b.tail) % b.size)

inductive Op
  | write (buffer : List UInt8)
  | reserve (length : Nat)
  | read (length : Nat)
  | flush
  deriving DecidableEq, Repr

/-- An operation and its record; none when the operation does not return. -/
def recorded (s : CyclicBuffer × Log) : Op → Option (CyclicBuffer × Log)
  | .write buffer => (s.1.write plain buffer).map fun (length, b) =>
      (b, (s.2.leave .overwritten (s.1.passed b.tail)).write (buffer.take length))
  | .reserve length => (s.1.reserve plain length).map fun (_, b) =>
      (b, s.2.leave .overwritten (s.1.passed b.tail))
  | .read length => (s.1.read plain length false).map fun (_, bytes, b) =>
      (b, s.2.leave .read bytes)
  | .flush => some (s.1.flush, s.2.leave .flushed (s.1.passed s.1.head))

def stepRecorded (s : Option (CyclicBuffer × Log)) (op : Op) : Option (CyclicBuffer × Log) :=
  s.bind fun s => recorded s op

/-- The administration is in range, and the bytes that left, those in the ring and those of an
incomplete reservation are what was written, in its order. -/
structure Fifo (b : CyclicBuffer) (log : Log) : Prop where
  head_lt : b.head < b.size
  index_lt : b.indexOf b.tail < b.size
  balance : b.used + b.free = b.size
  used_le : b.used ≤ b.size - 1
  order : ∃ content pending, b.Holds content pending ∧ content.length = b.used ∧
    log.written = log.gone.map Prod.snd ++ (content ++ pending)
  keeps : b.overwrite = false → ∀ x ∈ log.gone, x.1 ≠ .overwritten

/-- The operations have returned, and left a first-in first-out store. -/
def IsFifo (s : Option (CyclicBuffer × Log)) : Prop := ∃ b log, s = some (b, log) ∧ Fifo b log

/-- A read returns at most what was there. -/
def ReadsUsed (s : Option (CyclicBuffer × Log)) : Op → Prop
  | .read length => ∀ b log, s = some (b, log) → ∀ r, b.read plain length false = some r →
      r.1 ≤ b.used ∧ r.2.1.length = r.1
  | _ => True

/-- A read of a buffer that is not empty asks for at least one and at most all of its bytes, and a
write stays in its reservation. -/
def StaysInside (s : Option (CyclicBuffer × Log)) : Op → Prop
  | .read length => ∀ b log, s = some (b, log) → b.used ≠ 0 → 0 < length ∧ length ≤ b.used
  | .write buffer => ∀ b log, s = some (b, log) → b.reservedPID = true →
      b.reservedWritten + buffer.length ≤ b.reserved
  | _ => True

variable {b : CyclicBuffer} {log : Log} {content pending l rest : List UInt8}

theorem passed_eq (h : b.Stored (l ++ rest) pending) {tail : Nat}
    (hindex : b.indexOf tail = (b.indexOf b.tail + l.length) % b.size) : b.passed tail = l := by
  have hlt := h.content_lt
  have hring := h.ring
  have hold := h.index_lt
  rw [List.append_assoc] at hring
  rw [List.length_append] at hlt
  have hmoved : (b.indexOf tail + b.size - b.indexOf b.tail) % b.size = l.length := by
    rcases wrap_cases (b.indexOf b.tail + l.length) b.size (by omega) with ⟨hin, heq⟩ | ⟨hout, heq⟩
    · rw [hindex, heq]
      rw [show b.indexOf b.tail + l.length + b.size - b.indexOf b.tail = l.length + b.size by omega,
        Nat.add_mod_right, Nat.mod_eq_of_lt (by omega)]
    · rw [hindex, heq]
      rw [show b.indexOf b.tail + l.length - b.size + b.size - b.indexOf b.tail = l.length by omega,
        Nat.mod_eq_of_lt (by omega)]
  unfold passed
  rw [hmoved]
  exact (window_split hring).1

theorem passed_self (h : b.Stored content pending) : b.passed b.tail = [] := by
  have hold : b.Stored ([] ++ content) pending := h
  refine passed_eq hold ?_
  rw [List.length_nil, Nat.add_zero, Nat.mod_eq_of_lt h.index_lt]

/-- Freeing space drops the oldest bytes, and none when there is enough. -/
theorem plain_assure (h : b.Stored content pending) {required : Nat} (hlt : required < b.size) :
    ∃ l rest tail, content = l ++ rest ∧
      assureFreeSpace plain b required = some { b with tail := tail } ∧
      b.indexOf tail = (b.indexOf b.tail + l.length) % b.size ∧ tail < 2 ^ 32 ∧
      rest.length + required < b.size ∧ (required < b.free → l = []) := by
  have hfree : b.free = b.size - content.length := h.free_eq
  have hcontent := h.content_lt
  by_cases henough : required < b.free
  · refine ⟨[], content, b.tail, rfl, assureFreeSpace_of_lt henough, ?_, h.tail_lt, by omega,
      fun _ => rfl⟩
    rw [List.length_nil, Nat.add_zero, Nat.mod_eq_of_lt h.index_lt]
  · have hlen : (content.take (required + 1 - b.free)).length = required + 1 - b.free := by
      rw [List.length_take]
      omega
    have hsplit : b.Stored (content.take (required + 1 - b.free) ++
        content.drop (required + 1 - b.free)) pending := by
      rwa [List.take_append_drop]
    have hdrop : plain.getOverwriteSize b ⟨b.tail, required + 1 - b.free, 0⟩ =
        some (content.take (required + 1 - b.free)).length := by
      rw [hlen]
      rfl
    obtain ⟨tail, hassure, hindex, htail⟩ :=
      assureFreeSpace_of_le hsplit (Nat.le_of_not_lt henough) (Nat.le_of_eq hlen.symm) hdrop
    refine ⟨_, _, tail, (List.take_append_drop _ _).symm, hassure, hindex, htail, ?_,
      fun hlt => absurd hlt henough⟩
    rw [List.length_drop]
    omega

/-! ### One operation -/

@[simp] theorem leave_nil (log : Log) (fate : Fate) : log.leave fate [] = log := by
  simp [Log.leave]

@[simp] theorem write_nil (log : Log) : log.write [] = log := by
  simp [Log.write]

theorem Holds.fifo (h : b.Holds content pending)
    (hwritten : log.written = log.gone.map Prod.snd ++ (content ++ pending))
    (hkeeps : b.overwrite = false → ∀ x ∈ log.gone, x.1 ≠ .overwritten) : Fifo b log := by
  have hused : b.used = content.length := h.used_eq
  have hfree : b.free = b.size - content.length := h.free_eq
  have hlt := h.content_lt
  exact ⟨h.head_lt, h.index_lt, by omega, by omega, ⟨content, pending, h, hused.symm, hwritten⟩,
    hkeeps⟩

/-- Bytes leave the log where they leave the buffer. -/
theorem written_leave (fate : Fate)
    (hwritten : log.written = log.gone.map Prod.snd ++ ((l ++ rest) ++ pending)) :
    (log.leave fate l).written =
      (log.leave fate l).gone.map Prod.snd ++ (rest ++ pending) := by
  simp only [Log.leave, List.map_append, List.map_map, Function.comp_def, List.map_id']
  rw [hwritten]
  simp only [List.append_assoc]

theorem keeps_leave {fate : Fate} (h : ∀ x ∈ log.gone, x.1 ≠ Fate.overwritten)
    (hfate : fate = .overwritten → l = []) :
    ∀ x ∈ (log.leave fate l).gone, x.1 ≠ Fate.overwritten := by
  intro x hx
  simp only [Log.leave, List.mem_append, List.mem_map] at hx
  rcases hx with hx | ⟨byte, hbyte, rfl⟩
  · exact h x hx
  · intro heq
    rw [hfate heq] at hbyte
    exact absurd hbyte List.not_mem_nil

theorem fifo_new (geometry : Geometry) (overwrite : Bool) (realBuffer : Nat → UInt8) :
    Fifo (new geometry overwrite realBuffer) {} :=
  (holds_new geometry overwrite realBuffer).fifo rfl fun _ _ hx => absurd hx List.not_mem_nil

theorem fifo_write {buffer : List UInt8} (h : Fifo b log)
    (hinside : b.reservedPID = true → b.reservedWritten + buffer.length ≤ b.reserved) :
    IsFifo (recorded (b, log) (.write buffer)) := by
  obtain ⟨content, pending, hholds, -, hwritten⟩ := h.order
  have hreservation := hholds.reservation
  have hself := passed_self hholds.toStored
  cases hpid : b.reservedPID with
  | true =>
    have hwithin := hinside hpid
    rw [hpid, if_pos rfl] at hreservation
    have hwritten' : (log.write buffer).written =
        log.gone.map Prod.snd ++ (content ++ pending ++ buffer) := by
      simp only [Log.write, hwritten, List.append_assoc]
    rcases Nat.lt_or_eq_of_le hwithin with hlt | heq
    · rw [hreservation.1] at hlt
      obtain ⟨b', hwrite, hafter, hb'⟩ := write_reserved_part plain _ hholds hpid hlt
      refine ⟨b', log.write buffer, ?_, hafter.fifo ?_ ?_⟩
      · simp [recorded, hwrite, hb', hself]
      · rw [hwritten', List.append_assoc content]
        rfl
      · rw [hb']
        exact h.keeps
    · rw [hreservation.1] at heq
      obtain ⟨b', hwrite, hafter, hb'⟩ := write_reserved_last plain _ hholds hpid heq
      refine ⟨b', log.write buffer, ?_, hafter.fifo ?_ ?_⟩
      · simp [recorded, hwrite, hb', hself]
      · rw [hwritten', List.append_nil]
        rfl
      · rw [hb']
        exact h.keeps
  | false =>
    rw [hpid, if_neg (by decide)] at hreservation
    subst hreservation
    by_cases hrefused : b.size ≤ buffer.length ∨ (b.overwrite = false ∧ b.free ≤ buffer.length)
    · refine ⟨b, log, ?_, h⟩
      simp [recorded, write, hpid, hrefused, hself]
    · obtain ⟨hlt, hmode⟩ := not_or.mp hrefused
      rw [Nat.not_le] at hlt
      obtain ⟨l, rest, tail, rfl, hassure, hindex, htail, hroom, hnone⟩ :=
        plain_assure hholds.toStored hlt
      have hdropped := hholds.advance hindex htail
      have hmode' : b.overwrite = true ∨ buffer.length < b.free := by
        cases hover : b.overwrite with
        | true => exact .inl rfl
        | false => exact .inr (Nat.lt_of_not_le fun hle => hmode ⟨hover, hle⟩)
      obtain ⟨hwrite, hafter⟩ :=
        write_assured hpid hlt hmode' hassure hpid hdropped.toStored hroom
      refine ⟨_, (log.leave .overwritten l).write buffer, ?_, hafter.fifo ?_ ?_⟩
      · simp only [recorded, hwrite, Option.map_some, passed_eq hholds.toStored hindex,
          List.take_length]
      · simp only [Log.write]
        rw [written_leave .overwritten hwritten]
        simp only [List.append_nil, List.append_assoc]
      · intro hover
        refine keeps_leave (h.keeps hover) fun _ => hnone ?_
        exact Nat.lt_of_not_le fun hle => hmode ⟨hover, hle⟩

theorem fifo_reserve {length : Nat} (h : Fifo b log) :
    IsFifo (recorded (b, log) (.reserve length)) := by
  obtain ⟨content, pending, hholds, -, hwritten⟩ := h.order
  have hreservation := hholds.reservation
  have hself := passed_self hholds.toStored
  by_cases hrefused : b.size ≤ length ∨ (b.overwrite = false ∧ b.free ≤ length)
  · refine ⟨b, log, ?_, h⟩
    simp [recorded, reserve, hrefused, hself]
  · cases hpid : b.reservedPID with
    | true =>
      refine ⟨b, log, ?_, h⟩
      simp [recorded, reserve, hrefused, hpid, hself]
    | false =>
      rw [hpid, if_neg (by decide)] at hreservation
      subst hreservation
      obtain ⟨hlt, hmode⟩ := not_or.mp hrefused
      rw [Nat.not_le] at hlt
      have hmarked : ({ b with reservedPID := true } : CyclicBuffer).Stored content [] :=
        ⟨hholds.index_lt, hholds.tail_lt, hholds.head_eq, hholds.ring, hholds.room⟩
      obtain ⟨l, rest, tail, rfl, hassure, hindex, htail, hroom, hnone⟩ :=
        plain_assure hmarked hlt
      have hmode' : b.overwrite = true ∨ length < b.free := by
        cases hover : b.overwrite with
        | true => exact .inl rfl
        | false => exact .inr (Nat.lt_of_not_le fun hle => hmode ⟨hover, hle⟩)
      obtain ⟨hreserve, hafter⟩ :=
        reserve_assured hpid hlt hmode' hassure rfl (hmarked.advance hindex htail) hroom
      refine ⟨_, log.leave .overwritten l, ?_, hafter.fifo (written_leave _ hwritten) ?_⟩
      · simp only [recorded, hreserve, Option.map_some, passed_eq hholds.toStored hindex]
      · intro hover
        refine keeps_leave (h.keeps hover) fun _ => hnone ?_
        exact Nat.lt_of_not_le fun hle => hmode ⟨hover, hle⟩

/-- A read inside the buffer takes exactly the oldest bytes. -/
theorem read_inside {length : Nat} (h : b.Holds content pending) (hpos : 0 < length)
    (hle : length ≤ content.length) :
    ∃ tail, b.read plain length false =
        some (length, content.take length, { b with tail := tail }) ∧
      ({ b with tail := tail } : CyclicBuffer).Holds (content.drop length) pending := by
  have hlen : (content.take length).length = length := by
    rw [List.length_take]
    omega
  have hsplit : b.Holds ([] ++ (content.take length ++ content.drop length)) pending := by
    rwa [List.take_append_drop, List.nil_append]
  obtain ⟨tail, hread, hafter⟩ := read_spec plain length false hsplit
    (by omega) (show _ = (_, ⟨b.tail, length, 0⟩) by rw [hlen]; rfl) rfl
    (.inl (Nat.le_of_eq hlen)) fun _ => Nat.le_of_eq hlen
  refine ⟨tail, ?_, hafter⟩
  rw [hread, hlen, List.take_take, Nat.min_self]

theorem fifo_flush (h : Fifo b log) : IsFifo (recorded (b, log) .flush) := by
  obtain ⟨content, pending, hholds, -, hwritten⟩ := h.order
  have hall : b.Stored (content ++ []) pending := by
    rw [List.append_nil]
    exact hholds.toStored
  have hpassed : b.passed b.head = content := by
    refine passed_eq hall ?_
    have hindex : b.indexOf b.head = b.head := by
      simpa using b.indexOf_word 0 hholds.head_lt
    rw [hindex, hholds.head_eq]
  refine ⟨b.flush, log.leave .flushed content, ?_, hholds.flush.fifo ?_ ?_⟩
  · simp only [recorded, hpassed]
  · have hrest : log.written = log.gone.map Prod.snd ++ ((content ++ []) ++ pending) := by
      rwa [List.append_nil]
    exact written_leave .flushed hrest
  · exact fun hover => keeps_leave (h.keeps hover) nofun

theorem fifo_read {length : Nat} (h : Fifo b log)
    (hinside : b.used ≠ 0 → 0 < length ∧ length ≤ b.used) :
    IsFifo (recorded (b, log) (.read length)) ∧
      ∀ r, b.read plain length false = some r → r.1 ≤ b.used ∧ r.2.1.length = r.1 := by
  obtain ⟨content, pending, hholds, hlen, hwritten⟩ := h.order
  by_cases hempty : b.used = 0
  · obtain rfl : content = [] := List.length_eq_zero_iff.mp (by omega)
    have hread := read_empty plain hholds length false
    refine ⟨⟨b, log, by simp [recorded, hread], h⟩, fun r hr => ?_⟩
    rw [hread, Option.some.injEq] at hr
    subst hr
    exact ⟨Nat.zero_le _, rfl⟩
  · obtain ⟨hpos, hle⟩ := hinside hempty
    obtain ⟨tail, hread, hafter⟩ := read_inside hholds hpos (by omega)
    constructor
    · refine ⟨_, log.leave .read (content.take length), ?_, hafter.fifo ?_ ?_⟩
      · simp only [recorded, hread, Option.map_some]
      · exact written_leave .read (by rwa [List.take_append_drop])
      · exact fun hover => keeps_leave (h.keeps hover) nofun
    · intro r hr
      rw [hread, Option.some.injEq] at hr
      subst hr
      refine ⟨hle, ?_⟩
      rw [List.length_take]
      omega

/-- A read that asks for something of a buffer that is not empty returns what it asks for. -/
theorem read_plain {length : Nat} (hused : b.used ≠ 0) (hpos : 0 < length) :
    (b.read plain length false).map Prod.fst = some length := by
  have hused' : b.usedBetween b.head (b.indexOf b.tail) ≠ 0 := hused
  have hsize : plain.getReadSize b ⟨b.tail, length, 0⟩ = (length, ⟨b.tail, length, 0⟩) := rfl
  unfold read
  rw [if_neg hused']
  simp only [hsize]
  rw [if_neg (Nat.ne_of_gt hpos), if_pos (.inl (Nat.le_refl _))]
  split_ifs <;> rfl

/-- An operation leaves a first-in first-out store, and reads what was there, exactly when it stays
inside. -/
theorem fifo_step_iff (s : Option (CyclicBuffer × Log)) (op : Op) (h : IsFifo s) :
    IsFifo (stepRecorded s op) ∧ ReadsUsed s op ↔ StaysInside s op := by
  obtain ⟨b, log, rfl, hfifo⟩ := h
  change IsFifo (recorded (b, log) op) ∧ _ ↔ _
  cases op with
  | write buffer =>
    constructor
    · rintro ⟨⟨b', log', hafter, hfifo'⟩, -⟩ b₁ log₁ heq hpid
      obtain ⟨rfl, rfl⟩ : b = b₁ ∧ log = log₁ := by simpa using heq
      by_contra hout
      -- the reservation stays open, with more written than was reserved
      obtain ⟨content, pending, hholds, -, -⟩ := hfifo'.order
      have hreservation := hholds.reservation
      simp only [recorded, write, hpid, if_true, if_neg (show
        b.reservedWritten + buffer.length ≠ b.reserved by omega), Option.map_some,
        Option.some.injEq, Prod.mk.injEq] at hafter
      rw [← hafter.1] at hreservation
      simp only [if_true] at hreservation
      omega
    · intro hinside
      exact ⟨fifo_write hfifo (hinside b log rfl), trivial⟩
  | reserve length => exact ⟨fun _ => trivial, fun _ => ⟨fifo_reserve hfifo, trivial⟩⟩
  | read length =>
    constructor
    · rintro ⟨⟨b', log', hafter, -⟩, hreads⟩ b₁ log₁ heq hused
      obtain ⟨rfl, rfl⟩ : b = b₁ ∧ log = log₁ := by simpa using heq
      rcases Nat.eq_zero_or_pos length with rfl | hpos
      · have hused' : b.usedBetween b.head (b.indexOf b.tail) ≠ 0 := hused
        simp [recorded, read, plain, hused'] at hafter
      · obtain ⟨r, hread, hlength⟩ := Option.map_eq_some_iff.mp (read_plain hused hpos)
        have hle := (hreads b log rfl r hread).1
        exact ⟨hpos, by omega⟩
    · intro hinside
      obtain ⟨hafter, hreads⟩ := fifo_read hfifo (hinside b log rfl)
      refine ⟨hafter, fun b₁ log₁ heq => ?_⟩
      obtain ⟨rfl, rfl⟩ : b = b₁ ∧ log = log₁ := by simpa using heq
      exact hreads
  | flush => exact ⟨fun _ => trivial, fun _ => ⟨fifo_flush hfifo, trivial⟩⟩

/-! ### Runs -/

/-- When nothing is dropped, the reads return the bytes from the first one on. -/
theorem Fifo.returned_prefix (h : Fifo b log) (hover : b.overwrite = false)
    (hflush : ∀ x ∈ log.gone, x.1 ≠ .flushed) : log.returned <+: log.written := by
  obtain ⟨content, pending, -, -, hwritten⟩ := h.order
  have hall : log.gone.filter (fun x => x.1 = .read) = log.gone := by
    rw [List.filter_eq_self]
    intro x hx
    have hkept := h.keeps hover x hx
    have hleft := hflush x hx
    cases hfate : x.1 <;> simp_all
  rw [hwritten]
  unfold Log.returned
  rw [hall]
  exact List.prefix_append _ _

/-- A run of a new buffer keeps a first-in first-out store, and no read returns more than was there,
exactly when every operation of it stays inside. -/
theorem fifo_iff_staysInside {size : Nat} (pos : 0 < size) (size_lt : size < 2 ^ 31)
    (overwrite : Bool) (realBuffer : Nat → UInt8) (ops : List Op) :
    Always stepRecorded IsFifo
        (some (new (Geometry.new size pos size_lt) overwrite realBuffer, {})) ops ∧
      Meets stepRecorded ReadsUsed
        (some (new (Geometry.new size pos size_lt) overwrite realBuffer, {})) ops ↔
      Meets stepRecorded StaysInside
        (some (new (Geometry.new size pos size_lt) overwrite realBuffer, {})) ops :=
  always_meets_iff fifo_step_iff ⟨_, _, rfl, fifo_new _ overwrite realBuffer⟩

/-- Two reads, one of them over the end of the ring. -/
theorem fifo_two_reads :
    Always stepRecorded IsFifo
        (some (new (Geometry.new 4 (by decide) (by decide)) true fun _ => 0, {}))
        [.write [1, 2], .read 1, .write [3, 4, 5], .read 3] ∧
      Meets stepRecorded ReadsUsed
        (some (new (Geometry.new 4 (by decide) (by decide)) true fun _ => 0, {}))
        [.write [1, 2], .read 1, .write [3, 4, 5], .read 3] := by
  refine (fifo_iff_staysInside (by decide) (by decide) true (fun _ => 0) _).mpr
    ⟨?_, ?_, ?_, ?_, trivial⟩
  · intro b log h hpid
    obtain ⟨rfl, rfl⟩ := Prod.mk.inj (Option.some.inj h)
    exact absurd hpid (by decide)
  · intro b log h _
    obtain ⟨rfl, rfl⟩ := Prod.mk.inj (Option.some.inj h)
    decide
  · intro b log h hpid
    obtain ⟨rfl, rfl⟩ := Prod.mk.inj (Option.some.inj h)
    exact absurd hpid (by decide)
  · intro b log h _
    obtain ⟨rfl, rfl⟩ := Prod.mk.inj (Option.some.inj h)
    decide

/-- A read of five bytes of a buffer that holds two returns five. -/
theorem overread_two : ¬ (
    Always stepRecorded IsFifo
        (some (new (Geometry.new 8 (by decide) (by decide)) false fun _ => 0, {}))
        [.write [1, 2], .read 5] ∧
      Meets stepRecorded ReadsUsed
        (some (new (Geometry.new 8 (by decide) (by decide)) false fun _ => 0, {}))
        [.write [1, 2], .read 5]) := by
  rintro ⟨-, -, hreads, -⟩
  have hle := (hreads _ _ rfl _ rfl).1
  exact absurd hle (by decide)

end Thunder.Core.CyclicBuffer
