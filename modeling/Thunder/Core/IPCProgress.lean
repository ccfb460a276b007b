import Thunder.Core.IPCFraming

/-! Progress of the receiver of an IPC stream.  A payload that takes no byte of what its frame still
has to bring holds `Deserialize` in its loop for ever; where the package of each frame has room,
every chunk is worked through. -/

namespace Thunder.Core

open Chunks

/-- A number of one to four bytes, the lowest seven bits first, and the stream behind it; `none`
where the stream ends before it does. -/
def readNumber : Nat → Nat → List UInt8 → Option (Nat × List UInt8)
  | _, _, [] => none
  | number, position, b :: stream =>
    let piece := readPiece number position b
    if piece.2 = 4 then some (piece.1, stream) else readNumber piece.1 piece.2 stream

/-- The header of a frame: the bytes of its payload, its label and the stream behind it.  The bytes
of the label are counted in its length, which wraps where it has not as many. -/
def frameHeader (stream : List UInt8) : Option (Nat × Nat × List UInt8) :=
  match readNumber 0 0 stream with
  | none => none
  | some (length, stream) =>
    (readNumber 0 0 stream).map fun label =>
      (Deserializer.shrink length (stream.length - label.2.length), label.1, label.2)

/-- The package of the message that the receiver has for a label takes so many bytes. -/
def IPCFactory.Holds (factory : IPCFactory) (label bytes : Nat) : Prop :=
  ∀ element ∈ factory.element label, ∀ capacity ∈ element.package.capacity, bytes ≤ capacity

/-- The stream has frames for whose payloads, as far as they are there, the packages have room, with
fewer bytes than would make the offset wrap. -/
inductive Roomy (factory : IPCFactory) : List UInt8 → Prop
  | unread {stream : List UInt8} : frameHeader stream = none → Roomy factory stream
  | unended {stream payload : List UInt8} {length label : Nat} :
      frameHeader stream = some (length, label, payload) → payload.length < length →
      factory.Holds label payload.length → payload.length < 2 ^ 32 - 8 → Roomy factory stream
  | ended {stream payload rest : List UInt8} {label : Nat} :
      frameHeader stream = some (payload.length, label, payload ++ rest) →
      factory.Holds label payload.length → payload.length < 2 ^ 32 - 8 → Roomy factory rest →
      Roomy factory stream

namespace Deserializer

/-- The number of bytes that `Deserialize` returns. -/
def result (factory : IPCFactory) (s : Deserializer) (stream : List UInt8) : Nat :=
  if stream = [] then 0
  else
    let next := s.round factory stream
    if next.2.length < stream.length then
      stream.length - next.2.length + result factory next.1 next.2
    else 0
termination_by stream.length

/-- `Deserialize` ends, has consumed what it was offered, and no payload takes more of a chunk than
is there. -/
def Progresses (factory : IPCFactory) (s : Deserializer) (chunk : List UInt8) : Prop :=
  (s.deserialize factory chunk).isSome ∧ s.result factory chunk = chunk.length ∧
    ∀ (t : Deserializer) (offered : Nat), t.handled offered ≤ offered

variable {factory : IPCFactory} {s s' : Deserializer}

/-- A call that ends has consumed its chunk. -/
theorem result_eq (factory : IPCFactory) (s : Deserializer) (stream : List UInt8)
    (h : (s.deserialize factory stream).isSome) : s.result factory stream = stream.length := by
  induction s, stream using deserialize.induct factory with
  | case1 s =>
    unfold result
    rfl
  | case2 s stream hne next hless ih =>
    unfold deserialize at h
    unfold result
    rw [if_neg hne] at h ⊢
    rw [if_pos hless] at h ⊢
    rw [ih h]
    exact Nat.sub_add_cancel (Nat.le_of_lt hless)
  | case3 s stream hne next hstuck =>
    unfold deserialize at h
    rw [if_neg hne, if_neg hstuck] at h
    exact absurd h (by simp)

/-! ### The header -/

/-- Reading a number, for the length and the label alike, as in `run_field` but for any bytes. -/
theorem run_number {place : Nat → Nat → Nat → Deserializer}
    (hplace : ∀ number position b, position < 4 →
      step factory (place number position position) b = some
        (place (readPiece number position b).1 (readPiece number position b).2 (position + 1)))
    (number position : Nat) (stream : List UInt8) (hposition : position < 4) :
    (readNumber number position stream = none →
        (stream.foldlM (step factory) (place number position position)).isSome) ∧
      ∀ value rest, readNumber number position stream = some (value, rest) →
        rest.length < stream.length ∧
        stream.foldlM (step factory) (place number position position) =
          rest.foldlM (step factory)
            (place value 4 (position + (stream.length - rest.length))) := by
  induction stream generalizing number position with
  | nil => exact ⟨fun _ => rfl, nofun⟩
  | cons b stream ih =>
    have hstep := hplace number position b hposition
    have hle := readPiece_le number position b hposition
    simp only [readNumber]
    by_cases hstop : (readPiece number position b).2 = 4
    · rw [if_pos hstop]
      refine ⟨nofun, ?_⟩
      rintro value rest h
      obtain ⟨rfl, rfl⟩ := Prod.mk.inj (Option.some.inj h)
      rw [List.foldlM_cons, hstep, hstop, List.length_cons, Nat.add_sub_cancel_left]
      exact ⟨Nat.lt_succ_self _, rfl⟩
    · rw [if_neg hstop]
      have hnext : (readPiece number position b).2 = position + 1 := by
        unfold readPiece at hstop ⊢
        simp only at hstop ⊢
        split_ifs at hstop ⊢ <;> first | rfl | contradiction
      have hrun := ih (readPiece number position b).1 (readPiece number position b).2 (by omega)
      rw [List.foldlM_cons, hstep]
      simp only [hnext] at hrun ⊢
      refine ⟨hrun.1, fun value rest h => ?_⟩
      obtain ⟨hless, hfold⟩ := hrun.2 value rest h
      refine ⟨by rw [List.length_cons]; omega, hfold.trans ?_⟩
      rw [List.length_cons]
      congr 2
      omega

/-- Reading the header of a frame: the receiver ends up behind its label. -/
theorem run_frameHeader (log : List Received) (stream : List UInt8) :
    (frameHeader stream = none →
        (stream.foldlM (step factory) { initial with log := log }).isSome) ∧
      ∀ length label payload, frameHeader stream = some (length, label, payload) →
        payload.length < stream.length ∧
        stream.foldlM (step factory) { initial with log := log } =
          payload.foldlM (step factory) (settle ⟨length, 8, 0, factory.element label, log⟩) := by
  obtain ⟨hnone, hlength⟩ := run_number (step_inLength factory log) 0 0 stream (by decide)
  unfold frameHeader
  cases hread : readNumber 0 0 stream with
  | none => exact ⟨fun _ => hnone hread, nofun⟩
  | some number =>
    obtain ⟨length, rest⟩ := number
    obtain ⟨hless, hfold⟩ := hlength length rest hread
    change stream.foldlM (step factory) { initial with log := log } =
      rest.foldlM (step factory) (inLabel factory length log 0 0 0) at hfold
    obtain ⟨hnone', hlabel⟩ := run_number (step_inLabel factory length log) 0 0 rest (by decide)
    rw [hfold]
    constructor
    · intro h
      exact hnone' (Option.map_eq_none_iff.mp h)
    · intro _ _ _ h
      obtain ⟨number, hread', heq⟩ := Option.map_eq_some_iff.mp h
      obtain ⟨rfl, rfl, rfl⟩ := heq
      obtain ⟨hless', hfold'⟩ := hlabel number.1 number.2 hread'
      rw [Nat.zero_add] at hfold'
      exact ⟨by omega, hfold'⟩

/-! ### The payload -/

/-- A payload goes on as long as its package has room. -/
theorem run_room (bytes : List UInt8) (h8 : 8 ≤ s.offset)
    (hlength : s.offset - 8 + bytes.length < s.length)
    (hroom : ∀ element ∈ s.current, ∀ capacity ∈ element.package.capacity,
      s.offset - 8 + bytes.length ≤ capacity) :
    (bytes.foldlM (step factory) s.settle).isSome := by
  induction bytes generalizing s with
  | nil => rfl
  | cons b bytes ih =>
    rw [List.length_cons] at hlength hroom
    have hone : s.handled 1 = 1 := by
      apply handled_one
      intro element helement capacity hcapacity
      have hle := hroom element helement capacity hcapacity
      omega
    rw [List.foldlM_cons, step_payload h8 (by omega), if_pos hone]
    apply ih
    · simp only [handle]
      omega
    · simp only [handle, List.length_singleton]
      omega
    · intro element helement capacity hcapacity
      obtain ⟨element', helement', rfl⟩ := Option.map_eq_some_iff.mp helement
      have hle := hroom element' helement' capacity hcapacity
      simp only [handle, List.length_singleton]
      omega

/-- Every frame with room for its payload brings the receiver back to the start. -/
theorem run_roomy {stream : List UInt8} (h : Roomy factory stream) (log : List Received) :
    (stream.foldlM (step factory) { initial with log := log }).isSome := by
  induction h generalizing log with
  | @unread stream hheader => exact (run_frameHeader log stream).1 hheader
  | @unended stream payload length label hheader hless hholds hshort =>
    rw [((run_frameHeader log stream).2 _ _ _ hheader).2]
    apply run_room
    · exact le_refl 8
    · exact (Nat.zero_add _).trans_lt hless
    · intro element helement capacity hcapacity
      exact (Nat.zero_add _).trans_le (hholds element helement capacity hcapacity)
  | @ended stream payload rest label hheader hholds hshort hrest ih =>
    rw [((run_frameHeader log stream).2 _ _ _ hheader).2, List.foldlM_append, run_payload payload]
    · exact ih _
    · exact le_refl 8
    · exact Nat.zero_add _
    · exact hholds

/-- Where the packages have room, every call for a chunk ends with all of it consumed. -/
theorem always_progresses_of_roomy (factory : IPCFactory) (chunks : List (List UInt8))
    (h : Roomy factory chunks.flatten) :
    ∀ before chunk after, chunks = before ++ chunk :: after →
      ∃ s, readAll (deserialize factory) initial before = some s ∧ s.Progresses factory chunk := by
  rintro before chunk after rfl
  have hrun : (readAll (deserialize factory) initial (before ++ chunk :: after)).isSome := by
    rw [readAll_deserialize initial_between]
    exact run_roomy h []
  rw [readAll, List.foldlM_append] at hrun
  obtain ⟨last, hlast⟩ := Option.isSome_iff_exists.mp hrun
  obtain ⟨s, hbefore, hafter⟩ := Option.bind_eq_some_iff.mp hlast
  rw [List.foldlM_cons] at hafter
  obtain ⟨s', hchunk, -⟩ := Option.bind_eq_some_iff.mp hafter
  have hends : (s.deserialize factory chunk).isSome := Option.isSome_iff_exists.mpr ⟨s', hchunk⟩
  exact ⟨s, hbefore, hends, result_eq factory s chunk hends, handled_le⟩

/-- Five characters in two chunks for a text that takes seven. -/
theorem always_progresses_text :
    ∃ s, readAll (deserialize fun _ _ => some (.text 8)) initial [[6, 2, 1]] = some s ∧
      s.Progresses (fun _ _ => some (.text 8)) [2, 3, 4, 5] := by
  refine always_progresses_of_roomy _ [[6, 2, 1], [2, 3, 4, 5]] ?_ [[6, 2, 1]] _ [] rfl
  have hheader : frameHeader [[6, 2, 1], [2, 3, 4, 5]].flatten =
      some (([1, 2, 3, 4, 5] : List UInt8).length, 2, [1, 2, 3, 4, 5] ++ []) := rfl
  apply Roomy.ended hheader
  · intro element helement capacity hcapacity
    obtain rfl := Option.some.inj helement
    obtain rfl := Option.some.inj hcapacity
    decide
  · decide
  · exact Roomy.unread rfl

/-- Five characters for a text that takes three: the call never ends. -/
theorem not_progresses_text :
    ¬initial.Progresses (fun _ _ => some (.text 4)) [6, 2, 1, 2, 3, 4, 5] := by
  intro h
  have hends := h.1
  rw [deserialize_eq_foldlM initial_between] at hends
  exact absurd hends (by decide)

end Deserializer

end Thunder.Core
