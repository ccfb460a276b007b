import Thunder.Core.JSONBytewise
import Thunder.Core.Words
import Mathlib.Data.List.GetD

/-! `IElement::FromString` and `IElement::FromFile`: an element read from a text, and from an open
file of that text, through a buffer of 1024 bytes. -/

namespace Thunder.Core.JSON

def malformedJSON : Error := "Malformed JSON. Missing closing quotes or brackets"

/-- The size of the buffer. -/
abbrev bufferSize : Nat := 1024

namespace IElement

variable {α : Type} [IElement α]

/-! ### `FromString` -/

/-- The loop over the text, of which `stream` holds the zero behind it too.  A call that takes
something takes a byte at least. -/
def fromStringLoop (stream : Text) (size : Nat) : Nat → α → Nat → Nat → Loaded α
  | 0, x, handled, offset => ⟨x, handled, offset, none⟩
  | turns + 1, x, handled, offset =>
    if handled < size then
      let payload := min (u32 (size - handled + 1)) 0xFFFF
      let call := deserialize x ((stream.drop handled).take payload) offset none
      if call.loaded = 0 then { call with loaded := handled }
      else if call.error.isSome then { call with loaded := u32 (handled + call.loaded) }
      else fromStringLoop stream size turns call.element (u32 (handled + call.loaded)) call.offset
    else ⟨x, handled, offset, none⟩

/-- The element and the error. -/
def fromString (x : α) (text : Text) : α × Option Error :=
  let size := u32 text.length
  let last := fromStringLoop (text ++ [0]) size (size + 1) (clear x) 0 0
  if (last.offset ≠ 0 ∨ last.loaded < size) ∧ last.error = none then
    (clear (clear last.element), some malformedJSON)
  else if last.error.isSome then (clear last.element, last.error)
  else (last.element, none)

/-! ### `FromFile` -/

/-- What the reads of a file bring: the buffer full, and the rest. -/
def reads : Nat → Text → List Text
  | 0, _ => []
  | turns + 1, text =>
    if text = [] then [] else text.take bufferSize :: reads turns (text.drop bufferSize)

/-- `within` is whether no call has taken more bytes than the read before it has brought. -/
structure FileRun (α : Type) where
  element : α
  offset : Nat
  error : Option Error
  within : Bool

/-- The loop over the reads.  A read leaves what it does not bring in the buffer as it was, and the
call gets the whole buffer; a read that brings nothing is the last. -/
def fromFileLoop : Text → α → Nat → Option Error → List Text → FileRun α
  | _, x, offset, error, [] => ⟨x, offset, error, true⟩
  | buffer, x, offset, error, block :: blocks =>
    let buffer := block ++ buffer.drop block.length
    let call := deserialize x buffer offset error
    if call.loaded = block.length ∧ call.offset ≠ 0 then
      fromFileLoop buffer call.element call.offset call.error blocks
    else ⟨call.element, call.offset, call.error, call.loaded ≤ block.length⟩

def fromFile (buffer : Text) (x : α) (text : Text) : FileRun α :=
  let last := fromFileLoop buffer (clear x) 0 none (reads text.length text)
  if last.offset ≠ 0 ∧ last.error = none then
    { last with element := clear last.element, error := some malformedJSON }
  else last

/-- The file gives the element and the status that the text gives, with any bytes in the buffer
before, and no byte is taken that was not read. -/
def Agrees (x : α) (text : Text) : Prop :=
  ∀ buffer, buffer.length = bufferSize →
    (fromFile buffer x text).element = (fromString x text).1 ∧
    (fromFile buffer x text).error.isSome = (fromString x text).2.isSome ∧
    (fromFile buffer x text).within = true

end IElement

/-- A bytewise element that an error spoils for good: it is not what `Clear` leaves and every call
reports the error on.  Clearing forgets what was read, and no element between two calls ends at
whatever byte is next. -/
structure Lawful {α : Type} [IElement α] (step : α → Nat → UInt8 → Step α)
    (live : α → Nat → Prop) (spoilt : α → Nat → Prop) : Prop extends Bytewise step live where
  spoils : ∀ {x offset c}, live x offset → step x offset c = .failed → ∀ rest,
    spoilt (IElement.deserialize x (c :: rest) offset none).element
      (IElement.deserialize x (c :: rest) offset none).offset
  stays : ∀ {x offset error}, spoilt x offset → offset ≠ 0 → error.isSome → ∀ text,
    (IElement.deserialize x text offset error).error.isSome ∧
      spoilt (IElement.deserialize x text offset error).element
        (IElement.deserialize x text offset error).offset
  clean : ∀ (x : α) offset, ¬spoilt (IElement.clear x) offset
  clear_deserialize : ∀ (x : α) text offset error,
    IElement.clear (IElement.deserialize x text offset error).element = IElement.clear x
  clear_clear : ∀ x : α, IElement.clear (IElement.clear x) = IElement.clear x
  goes_on : ∀ {x offset}, live x offset → offset ≠ 0 → ∃ c, ∀ y, step x offset c ≠ .finished y 0

namespace IElement

variable {α : Type} [IElement α]

/-! ### Reads -/

theorem reads_nil (turns : Nat) : reads turns [] = [] := by
  cases turns <;> rfl

theorem reads_cons {turns : Nat} {text : Text} (htext : text ≠ []) (hturns : text.length ≤ turns) :
    ∃ turns', reads turns text = text.take bufferSize :: reads turns' (text.drop bufferSize) ∧
      (text.drop bufferSize).length ≤ turns' := by
  have hpos := List.length_pos_iff.mpr htext
  cases turns with
  | zero => omega
  | succ turns =>
    refine ⟨turns, by rw [reads, if_neg htext], ?_⟩
    rw [List.length_drop]
    show text.length - 1024 ≤ turns
    omega

section Lawful

variable {step : α → Nat → UInt8 → Step α} {live spoilt : α → Nat → Prop}

/-- A call for a chunk and bytes behind it, as far as the chunk decides it. -/
theorem deserialize_append (h : Lawful step live spoilt) {x : α} {offset : Nat}
    (hlive : live x offset) (block stale : Text) :
    match run step block x offset with
    | .unfinished x' offset' => live x' offset' ∧ (block ≠ [] → offset' ≠ 0) ∧
        deserialize x (block ++ stale) offset none =
          (deserialize x' stale offset' none).after block.length
    | .finished x' loaded => loaded ≤ block.length ∧
        deserialize x (block ++ stale) offset none = ⟨x', loaded, 0, none⟩
    | .failed => (deserialize x (block ++ stale) offset none).error.isSome ∧
        spoilt (deserialize x (block ++ stale) offset none).element
          (deserialize x (block ++ stale) offset none).offset := by
  induction block generalizing x offset with
  | nil => exact ⟨hlive, fun hne => absurd rfl hne, (Loaded.after_zero _).symm⟩
  | cons c block ih =>
    rw [run, List.cons_append]
    cases hstep : step x offset c with
    | failed => exact ⟨h.failed hlive hstep _, h.spoils hlive hstep _⟩
    | finished x' loaded =>
      obtain ⟨hle, hcall⟩ := h.finished hlive hstep
      exact ⟨Nat.le_trans hle (Nat.succ_pos _), hcall _⟩
    | next x' offset' =>
      obtain ⟨hlive', hne, hcall⟩ := h.next hlive hstep
      have hrest := ih hlive'
      simp only [hcall (block ++ stale)]
      cases hrun : run step block x' offset' with
      | failed =>
        rw [hrun] at hrest
        exact hrest
      | finished x'' loaded =>
        rw [hrun] at hrest
        obtain ⟨hle, hrest⟩ := hrest
        refine ⟨Nat.succ_le_succ hle, ?_⟩
        rw [hrest, Loaded.after, Nat.add_comm]
      | unfinished x'' offset'' =>
        rw [hrun] at hrest
        obtain ⟨hlive'', hne', hrest⟩ := hrest
        refine ⟨hlive'', fun _ => ?_, ?_⟩
        · cases block with
          | nil =>
            rw [run] at hrun
            obtain ⟨-, rfl⟩ := Run.unfinished.inj hrun
            exact hne
          | cons _ _ => exact hne' (by simp)
        · rw [hrest, Loaded.after_after, List.length_cons, Nat.add_comm]

/-- A spoilt element stays so, whatever is read. -/
theorem fromFileLoop_spoilt (h : Lawful step live spoilt) {x : α} {offset : Nat}
    {error : Option Error} (hspoilt : spoilt x offset) (hoffset : offset ≠ 0)
    (herror : error.isSome) (blocks : List Text) (buffer : Text) :
    (fromFileLoop buffer x offset error blocks).error.isSome ∧
      spoilt (fromFileLoop buffer x offset error blocks).element
        (fromFileLoop buffer x offset error blocks).offset := by
  induction blocks generalizing x offset error buffer with
  | nil => exact ⟨herror, hspoilt⟩
  | cons block blocks ih =>
    have hcall := h.stays hspoilt hoffset herror (block ++ buffer.drop block.length)
    rw [fromFileLoop]
    split
    · next hgo => exact ih hcall.2 hgo.2 hcall.1 _
    · exact hcall

/-- The loop over the file, for a value that ends in it, an error in it, and a file that ends with
a full buffer. -/
theorem fromFileLoop_eq (h : Lawful step live spoilt) {turns : Nat} (text : Text) {x : α}
    {offset : Nat} (hturns : text.length ≤ turns) (hlive : live x offset) (buffer : Text)
    (hbuffer : buffer.length = bufferSize) :
    match run step text x offset with
    | .unfinished y offset' => bufferSize ∣ text.length →
        fromFileLoop buffer x offset none (reads turns text) = ⟨y, offset', none, true⟩
    | .finished y _ => fromFileLoop buffer x offset none (reads turns text) = ⟨y, 0, none, true⟩
    | .failed => (fromFileLoop buffer x offset none (reads turns text)).error.isSome ∧
        spoilt (fromFileLoop buffer x offset none (reads turns text)).element
          (fromFileLoop buffer x offset none (reads turns text)).offset := by
  induction turns generalizing text x offset buffer with
  | zero =>
    obtain rfl := List.eq_nil_of_length_eq_zero (Nat.le_zero.mp hturns)
    exact fun _ => rfl
  | succ turns ih =>
    by_cases htext : text = []
    · subst htext
      exact fun _ => rfl
    have hpos := List.length_pos_iff.mpr htext
    rw [reads, if_neg htext, fromFileLoop]
    have hsplit : text = text.take bufferSize ++ text.drop bufferSize :=
      (List.take_append_drop _ _).symm
    have hlength : (text.take bufferSize).length = Nat.min bufferSize text.length :=
      List.length_take
    have hne : text.take bufferSize ≠ [] := by
      rw [← List.length_pos_iff, hlength]
      exact Nat.lt_min.mpr ⟨by decide, hpos⟩
    have hcall := deserialize_append h hlive (text.take bufferSize)
      (buffer.drop (text.take bufferSize).length)
    have hrun := run_append step (text.take bufferSize) (text.drop bufferSize) x offset
    rw [← hsplit] at hrun
    rw [hrun]
    cases hblock : run step (text.take bufferSize) x offset with
    | failed =>
      rw [hblock] at hcall
      obtain ⟨herror, hspoilt⟩ := hcall
      simp only
      split
      · next hgo => exact fromFileLoop_spoilt h hspoilt hgo.2 herror _ _
      · exact ⟨herror, hspoilt⟩
    | finished y loaded =>
      rw [hblock] at hcall
      obtain ⟨hle, hcall⟩ := hcall
      simp only [hcall, ne_eq, not_true, and_false, if_false]
      rw [decide_eq_true hle]
    | unfinished y offset' =>
      rw [hblock] at hcall
      obtain ⟨hlive', hoffset', hcall⟩ := hcall
      have hoffset := hoffset' hne
      by_cases hshort : text.length < bufferSize
      · -- nothing is left, and the buffer is not full
        have hdrop : text.drop bufferSize = [] := List.drop_of_length_le (Nat.le_of_lt hshort)
        rw [hdrop]
        intro hdvd
        exact absurd (Nat.le_of_dvd hpos hdvd) (Nat.not_le.mpr hshort)
      · have hfull : (text.take bufferSize).length = bufferSize := by
          rw [hlength]
          exact Nat.min_eq_left (Nat.not_lt.mp hshort)
        have hstale : buffer.drop (text.take bufferSize).length = [] :=
          List.drop_of_length_le (by rw [hfull, hbuffer])
        rw [hstale, h.nil hlive'] at hcall
        have hgo : (text.take bufferSize).length + 0 = (text.take bufferSize).length ∧
          offset' ≠ 0 := ⟨Nat.add_zero _, hoffset⟩
        simp only [hstale, hcall, Loaded.after, if_pos hgo]
        have hlength' : (text.drop bufferSize).length = text.length - bufferSize :=
          List.length_drop
        have hturns' : (text.drop bufferSize).length ≤ turns := by
          rw [hlength']
          show text.length - 1024 ≤ turns
          omega
        have hrest := ih (text.drop bufferSize) hturns' hlive' (text.take bufferSize ++ [])
          (by rw [List.append_nil, hfull])
        cases hrun' : run step (text.drop bufferSize) y offset' with
        | failed =>
          rw [hrun'] at hrest
          exact hrest
        | finished z loaded =>
          rw [hrun'] at hrest
          exact hrest
        | unfinished z offset'' =>
          rw [hrun'] at hrest
          intro hdvd
          apply hrest
          rw [hlength']
          exact Nat.dvd_sub hdvd (Nat.dvd_refl _)

/-- A call that goes on with a byte that was not read. -/
theorem deserialize_behind (h : Lawful step live spoilt) {y : α} {offset : Nat}
    (hlive : live y offset) (c : UInt8) (rest : Text) :
    let call := deserialize y (c :: rest) offset none
    match step y offset c with
    | .next _ _ => 0 < call.loaded ∨ call.error.isSome ∧ spoilt call.element call.offset
    | .finished z loaded => call = ⟨z, loaded, 0, none⟩
    | .failed => call.error.isSome ∧ spoilt call.element call.offset := by
  cases hstep : step y offset c with
  | failed => exact ⟨h.failed hlive hstep rest, h.spoils hlive hstep rest⟩
  | finished z loaded => exact (h.finished hlive hstep).2 rest
  | next z offset' =>
    obtain ⟨hlive', -, hcall⟩ := h.next hlive hstep
    left
    simp only [hcall rest, Loaded.after]
    omega

/-- The loop over a file that ends within an element and with a part of the buffer: the next byte
is the one that the buffer holds behind, which is the one a buffer's size before if there is one. -/
theorem fromFileLoop_stale (h : Lawful step live spoilt) {turns : Nat} (text : Text) {x : α}
    {offset : Nat} (hturns : text.length ≤ turns) (hlive : live x offset) (buffer : Text)
    (hbuffer : buffer.length = bufferSize) (hpart : ¬bufferSize ∣ text.length) {y : α}
    {offset' : Nat} (hrun : run step text x offset = .unfinished y offset') :
    let last := fromFileLoop buffer x offset none (reads turns text)
    match step y offset' ((buffer ++ text).getD text.length 0) with
    | .next _ _ => last.within = false ∨ last.error.isSome ∧ spoilt last.element last.offset
    | .finished z loaded => last = ⟨z, 0, none, loaded = 0⟩
    | .failed => last.error.isSome ∧ spoilt last.element last.offset := by
  induction turns generalizing text x offset buffer with
  | zero =>
    obtain rfl := List.eq_nil_of_length_eq_zero (Nat.le_zero.mp hturns)
    exact absurd (Nat.dvd_zero _) hpart
  | succ turns ih =>
    have htext : text ≠ [] := by
      rintro rfl
      exact hpart (Nat.dvd_zero _)
    rw [reads, if_neg htext, fromFileLoop]
    by_cases hshort : text.length < bufferSize
    · have htake : text.take bufferSize = text := List.take_of_length_le (Nat.le_of_lt hshort)
      have hdrop : text.drop bufferSize = [] := List.drop_of_length_le (Nat.le_of_lt hshort)
      have hbehind : text.length < buffer.length := by rw [hbuffer]; exact hshort
      have hstale : buffer.drop text.length = buffer.getD text.length 0 ::
          buffer.drop (text.length + 1) := by
        rw [List.drop_eq_getElem_cons hbehind, List.getD_eq_getElem _ _ hbehind]
      have hbyte : (buffer ++ text).getD text.length 0 = buffer.getD text.length 0 := by
        rw [List.getD_append _ _ _ _ hbehind]
      rw [hbyte, htake, hdrop, reads_nil, hstale]
      generalize buffer.getD text.length 0 = b
      have hcall := deserialize_append h hlive text (b :: buffer.drop (text.length + 1))
      rw [hrun] at hcall
      obtain ⟨hlive', -, hcall⟩ := hcall
      have hbehind' := deserialize_behind h hlive' b (buffer.drop (text.length + 1))
      simp only [hcall, Loaded.after]
      cases hstep : step y offset' b with
      | next z offset'' =>
        rw [hstep] at hbehind'
        obtain hpos | ⟨herror, hspoilt⟩ := hbehind'
        · left
          rw [if_neg (by omega)]
          simp only [decide_eq_false_iff_not]
          omega
        · right
          split <;> exact ⟨herror, hspoilt⟩
      | finished z loaded =>
        rw [hstep] at hbehind'
        simp only at hbehind'
        simp only [hbehind', ne_eq, not_true, and_false, if_false, FileRun.mk.injEq, true_and]
        rw [decide_eq_decide]
        omega
      | failed =>
        rw [hstep] at hbehind'
        obtain ⟨herror, hspoilt⟩ := hbehind'
        simp only
        split <;> exact ⟨herror, hspoilt⟩
    · have hfull : (text.take bufferSize).length = bufferSize := by
        rw [List.length_take]
        exact Nat.min_eq_left (Nat.not_lt.mp hshort)
      have hlength : (text.drop bufferSize).length = text.length - bufferSize := List.length_drop
      have hturns' : (text.drop bufferSize).length ≤ turns := by
        rw [hlength]
        show text.length - 1024 ≤ turns
        have := List.length_pos_iff.mpr htext
        omega
      have hstale : buffer.drop (text.take bufferSize).length = [] :=
        List.drop_of_length_le (by rw [hfull, hbuffer])
      have hne : text.take bufferSize ≠ [] := by
        rw [← List.length_pos_iff, hfull]
        decide
      obtain ⟨z, offset'', hblock, hrest⟩ : ∃ z offset'',
          run step (text.take bufferSize) x offset = .unfinished z offset'' ∧
          run step (text.drop bufferSize) z offset'' = .unfinished y offset' := by
        apply run_unfinished
        rw [List.take_append_drop]
        exact hrun
      have hcall := deserialize_append h hlive (text.take bufferSize) []
      rw [hblock] at hcall
      obtain ⟨hlive', hoffset', hcall⟩ := hcall
      have hoffset := hoffset' hne
      have hpart' : ¬bufferSize ∣ (text.drop bufferSize).length := by
        rw [hlength]
        intro hdvd
        apply hpart
        exact (Nat.dvd_sub_iff_left (Nat.not_lt.mp hshort) (Nat.dvd_refl _)).mp hdvd
      have hnext := ih (text.drop bufferSize) hturns' hlive' (text.take bufferSize ++ [])
        (by rw [List.append_nil, hfull]) hpart' hrest
      have hbyte : (text.take bufferSize ++ [] ++ text.drop bufferSize).getD
          (text.drop bufferSize).length 0 = (buffer ++ text).getD text.length 0 := by
        rw [List.append_nil, List.take_append_drop, List.getD_append_right _ _ _ _
          (by rw [hbuffer]; exact Nat.not_lt.mp hshort), hlength, hbuffer]
      rw [hbyte] at hnext
      rw [h.nil hlive'] at hcall
      have hgo : (text.take bufferSize).length + 0 = (text.take bufferSize).length ∧
        offset'' ≠ 0 := ⟨Nat.add_zero _, hoffset⟩
      simp only [hstale, hcall, Loaded.after, if_pos hgo]
      exact hnext

/-! ### What the text gives -/

theorem clear_fromStringLoop (h : Lawful step live spoilt) (stream : Text) (size turns : Nat)
    (x : α) (handled offset : Nat) :
    clear (fromStringLoop stream size turns x handled offset).element = clear x := by
  induction turns generalizing x handled offset with
  | zero => rfl
  | succ turns ih =>
    rw [fromStringLoop]
    split
    · simp only
      split
      · exact h.clear_deserialize _ _ _ _
      split
      · exact h.clear_deserialize _ _ _ _
      · rw [ih]
        exact h.clear_deserialize _ _ _ _
    · rfl

/-- An error clears the element. -/
theorem fromString_error (h : Lawful step live spoilt) {x : α} {text : Text}
    (herror : (fromString x text).2.isSome) : (fromString x text).1 = clear x := by
  have hclear (turns size : Nat) :
      clear (fromStringLoop (text ++ [0]) size turns (clear x) 0 0).element = clear x := by
    rw [clear_fromStringLoop h, h.clear_clear]
  unfold fromString at herror ⊢
  simp only at herror ⊢
  split
  · rw [hclear, h.clear_clear]
  · split
    · exact hclear _ _
    · next hnone hnot =>
      rw [if_neg hnone, if_neg hnot] at herror
      exact Bool.noConfusion herror

theorem fromStringLoop_end (stream : Text) (turns size : Nat) (x : α) :
    fromStringLoop stream size turns x size 0 = ⟨x, size, 0, none⟩ := by
  cases turns with
  | zero => rfl
  | succ turns => rw [fromStringLoop, if_neg (Nat.lt_irrefl _)]

/-- The loop over the text, for a value that ends with it. -/
theorem fromStringLoop_finished (h : Lawful step live spoilt) {text : Text}
    (htext : text.length + 1 < 2 ^ 32) (turns handled : Nat) {x y : α} {offset : Nat}
    (hlive : live x offset) (hhandled : handled < text.length)
    (hturns : text.length - handled < turns)
    (hrun : run step (text.drop handled) x offset = .finished y (text.length - handled)) :
    fromStringLoop (text ++ [0]) text.length turns x handled offset =
      ⟨y, text.length, 0, none⟩ := by
  induction turns generalizing x handled offset with
  | zero => omega
  | succ turns ih =>
    have hrest : (text.drop handled).length = text.length - handled := List.length_drop
    have hdrop : (text ++ [0]).drop handled = text.drop handled ++ [0] :=
      List.drop_append_of_le_length (Nat.le_of_lt hhandled)
    have hpayload : u32 (text.length - handled + 1) = text.length - handled + 1 :=
      u32_of_lt (by omega)
    rw [fromStringLoop, if_pos hhandled, hpayload, hdrop]
    simp only
    by_cases hshort : text.length - handled + 1 ≤ 0xFFFF
    · have htake : (text.drop handled ++ [0]).take (min (text.length - handled + 1) 0xFFFF) =
          text.drop handled ++ [0] := by
        rw [Nat.min_eq_left hshort, List.take_of_length_le]
        rw [List.length_append, hrest]
        exact Nat.le_refl _
      have hcall := deserialize_append h hlive (text.drop handled) [0]
      rw [hrun] at hcall
      rw [htake, hcall.2]
      simp only
      rw [if_neg (by omega), if_neg (by simp), Nat.add_sub_cancel' (Nat.le_of_lt hhandled),
        u32_of_lt (by omega)]
      exact fromStringLoop_end _ _ _ _
    · have hle : 0xFFFF ≤ text.length - handled := by omega
      have htake : (text.drop handled ++ [0]).take (min (text.length - handled + 1) 0xFFFF) =
          (text.drop handled).take 0xFFFF := by
        rw [Nat.min_eq_right (by omega), List.take_append_of_le_length (by rw [hrest]; exact hle)]
      have hlength : ((text.drop handled).take 0xFFFF).length = 0xFFFF := by
        rw [List.length_take, hrest]
        exact Nat.min_eq_left hle
      have hcall := deserialize_append h hlive ((text.drop handled).take 0xFFFF) []
      have hsplit := run_append step ((text.drop handled).take 0xFFFF)
        ((text.drop handled).drop 0xFFFF) x offset
      rw [List.take_append_drop, hrun] at hsplit
      rw [htake]
      rw [List.append_nil] at hcall
      cases hblock : run step ((text.drop handled).take 0xFFFF) x offset with
      | failed =>
        rw [hblock] at hsplit
        exact absurd hsplit (by simp)
      | finished z loaded =>
        rw [hblock] at hsplit hcall
        obtain ⟨rfl, hloaded⟩ := Run.finished.inj hsplit
        rw [hcall.2]
        simp only
        rw [if_neg (by omega), if_neg (by simp), ← hloaded,
          Nat.add_sub_cancel' (Nat.le_of_lt hhandled), u32_of_lt (by omega)]
        exact fromStringLoop_end _ _ _ _
      | unfinished z offset' =>
        rw [hblock] at hsplit hcall
        obtain ⟨hlive', -, hcall⟩ := hcall
        rw [h.nil hlive', hlength] at hcall
        simp only [List.drop_drop] at hsplit
        have hcall' : deserialize x ((text.drop handled).take 0xFFFF) offset none =
            ⟨z, 0xFFFF, offset', none⟩ := hcall
        rw [hcall']
        simp only
        have hne : text.length - handled - 0xFFFF ≠ 0 := by
          intro hzero
          have hnone : (text.drop (handled + 0xFFFF)) = [] :=
            List.drop_of_length_le (by omega)
          rw [hnone] at hsplit
          exact absurd hsplit (by simp [run, Run.add])
        rw [if_neg (by decide), if_neg (by simp), u32_of_lt (by omega)]
        apply ih _ hlive' (by omega) (by omega)
        cases hrun' : run step (text.drop (handled + 0xFFFF)) z offset' with
        | failed =>
          rw [hrun'] at hsplit
          exact absurd hsplit (by simp [Run.add])
        | unfinished _ _ =>
          rw [hrun'] at hsplit
          exact absurd hsplit (by simp [Run.add])
        | finished w loaded =>
          rw [hrun'] at hsplit
          obtain ⟨rfl, hloaded⟩ := Run.finished.inj hsplit
          rw [hlength] at hloaded
          rw [show loaded = text.length - (handled + 0xFFFF) by omega]

/-- A value that ends with the text is what the text gives. -/
theorem fromString_finished (h : Lawful step live spoilt) {x y : α} {text : Text}
    (htext : text.length + 1 < 2 ^ 32)
    (hrun : run step text (clear x) 0 = .finished y text.length) :
    fromString x text = (y, none) := by
  have hsize : u32 text.length = text.length := u32_of_lt (by omega)
  have hpos : 0 < text.length := by
    apply List.length_pos_iff.mpr
    rintro rfl
    exact absurd hrun (by simp [run])
  have hloop := fromStringLoop_finished h htext (text.length + 1) 0 (h.start (clear x)) hpos
    (by omega) hrun
  rw [fromString]
  simp only [hsize, hloop]
  simp

/-! ### Agreement -/

/-- What the text does to the element, byte after byte, is the same for the file: the value ends in
it, and the text gives that value too; or the file ends with a full buffer before the value does,
which is an error of the text too; or the byte a buffer's size before the end of the file ends the
value as the text does. -/
def Settled (step : α → Nat → UInt8 → Step α) (x : α) (text : Text) : Prop :=
  match run step text (clear x) 0 with
  | .failed => False
  | .finished y _ => fromString x text = (y, none)
  | .unfinished y offset =>
    if bufferSize ∣ text.length then text = [] ∨ (fromString x text).2.isSome = true
    else bufferSize < text.length ∧ ∃ z,
      step y offset (text.getD (text.length - bufferSize) 0) = .finished z 0 ∧
        fromString x text = (z, none)

theorem fromFile_of_error {buffer : Text} {x : α} {text : Text}
    (h : (fromFileLoop buffer (clear x) 0 none (reads text.length text)).error.isSome) :
    fromFile buffer x text = fromFileLoop buffer (clear x) 0 none (reads text.length text) := by
  rw [fromFile]
  exact if_neg fun hnone => by rw [hnone.2] at h; exact Bool.noConfusion h

theorem fromFile_of_offset {buffer : Text} {x : α} {text : Text}
    (h : (fromFileLoop buffer (clear x) 0 none (reads text.length text)).offset = 0) :
    fromFile buffer x text = fromFileLoop buffer (clear x) 0 none (reads text.length text) := by
  rw [fromFile]
  exact if_neg fun hnone => hnone.1 h

/-- No element that an error has spoiled is what the text gives. -/
theorem not_agrees_spoilt (h : Lawful step live spoilt) {x : α} {text buffer : Text}
    (hbuffer : buffer.length = bufferSize)
    (herror : (fromFileLoop buffer (clear x) 0 none (reads text.length text)).error.isSome)
    (hspoilt : spoilt (fromFileLoop buffer (clear x) 0 none (reads text.length text)).element
      (fromFileLoop buffer (clear x) 0 none (reads text.length text)).offset) :
    ¬Agrees x text := by
  intro hagrees
  obtain ⟨helement, hstatus, -⟩ := hagrees buffer hbuffer
  rw [fromFile_of_error herror] at helement hstatus
  rw [herror] at hstatus
  rw [helement, fromString_error h hstatus.symm] at hspoilt
  exact h.clean _ _ hspoilt

/-- What a loop that ends with the offset 0 and no error leaves is what the text gives. -/
theorem agrees_at {x z : α} {text buffer : Text} {within : Bool}
    (hloop : fromFileLoop buffer (clear x) 0 none (reads text.length text) =
      ⟨z, 0, none, within⟩) :
    ((fromFile buffer x text).element = (fromString x text).1 ∧
      (fromFile buffer x text).error.isSome = (fromString x text).2.isSome ∧
      (fromFile buffer x text).within = true) ↔
    fromString x text = (z, none) ∧ within = true := by
  rw [fromFile_of_offset (by rw [hloop]), hloop]
  constructor
  · rintro ⟨helement, hstatus, hwithin⟩
    refine ⟨Prod.ext helement.symm ?_, hwithin⟩
    exact Option.isSome_eq_false_iff.mp hstatus.symm |> Option.isNone_iff_eq_none.mp
  · rintro ⟨hstring, hwithin⟩
    rw [hstring]
    exact ⟨rfl, rfl, hwithin⟩

/-- A file that ends with a full buffer before the value does. -/
theorem agrees_full (h : Lawful step live spoilt) {x y : α} {text : Text} {offset : Nat}
    (hrun : run step text (clear x) 0 = .unfinished y offset)
    (hdvd : bufferSize ∣ text.length) :
    Agrees x text ↔ text = [] ∨ (fromString x text).2.isSome = true := by
  have hloop (buffer : Text) (hbuffer : buffer.length = bufferSize) :=
    fromFileLoop_eq h text (Nat.le_refl _) (h.start (clear x)) buffer hbuffer
  simp only [hrun] at hloop
  by_cases htext : text = []
  · subst htext
    obtain ⟨rfl, rfl⟩ := Run.unfinished.inj hrun
    refine iff_of_true (fun buffer hbuffer => ?_) (.inl rfl)
    exact (agrees_at (hloop buffer hbuffer hdvd)).mpr ⟨rfl, rfl⟩
  · have hcall := h.deserialize_eq (h.start (clear x)) text
    rw [hrun] at hcall
    obtain ⟨-, hoffset, hcall⟩ := hcall
    have hclear : clear y = clear x := by
      have hkeep := h.clear_deserialize (clear x) text 0 none
      rw [hcall, h.clear_clear] at hkeep
      exact hkeep
    have hfile (buffer : Text) (hbuffer : buffer.length = bufferSize) :
        fromFile buffer x text = ⟨clear x, offset, some malformedJSON, true⟩ := by
      rw [fromFile, hloop buffer hbuffer hdvd]
      simp only [hclear]
      exact if_pos ⟨hoffset htext, trivial⟩
    constructor
    · intro hagrees
      have hstatus := (hagrees (List.replicate bufferSize 0) List.length_replicate).2.1
      rw [hfile _ List.length_replicate] at hstatus
      exact .inr hstatus.symm
    · rintro (hnil | herror) buffer hbuffer
      · exact absurd hnil htext
      · rw [hfile buffer hbuffer, herror, fromString_error h herror]
        exact ⟨rfl, rfl, rfl⟩

/-- A file that ends within the buffer before the value does. -/
theorem agrees_part (h : Lawful step live spoilt) {x y : α} {text : Text} {offset : Nat}
    (hrun : run step text (clear x) 0 = .unfinished y offset)
    (hpart : ¬bufferSize ∣ text.length) :
    Agrees x text ↔ bufferSize < text.length ∧ ∃ z,
      step y offset (text.getD (text.length - bufferSize) 0) = .finished z 0 ∧
        fromString x text = (z, none) := by
  have hstart := h.start (clear x)
  have hloop (buffer : Text) (hbuffer : buffer.length = bufferSize) :=
    fromFileLoop_stale h text (Nat.le_refl _) hstart buffer hbuffer hpart hrun
  have hbyte (buffer : Text) (hbuffer : buffer.length = bufferSize)
      (hlong : bufferSize < text.length) :
      (buffer ++ text).getD text.length 0 = text.getD (text.length - bufferSize) 0 := by
    rw [List.getD_append_right _ _ _ _ (by rw [hbuffer]; exact Nat.le_of_lt hlong), hbuffer]
  constructor
  · intro hagrees
    have hends (buffer : Text) (hbuffer : buffer.length = bufferSize) : ∃ z,
        step y offset ((buffer ++ text).getD text.length 0) = .finished z 0 ∧
          fromString x text = (z, none) := by
      have hlast := hloop buffer hbuffer
      cases hstep : step y offset ((buffer ++ text).getD text.length 0) with
      | failed =>
        rw [hstep] at hlast
        exact absurd hagrees (not_agrees_spoilt h hbuffer hlast.1 hlast.2)
      | finished z loaded =>
        rw [hstep] at hlast
        obtain ⟨hstring, hnone⟩ := (agrees_at hlast).mp (hagrees buffer hbuffer)
        obtain rfl : loaded = 0 := of_decide_eq_true hnone
        exact ⟨z, rfl, hstring⟩
      | next z offset' =>
        rw [hstep] at hlast
        obtain hwithin | ⟨herror, hspoilt⟩ := hlast
        · have hnot := (hagrees buffer hbuffer).2.2
          rw [fromFile] at hnot
          split at hnot
          · rw [hwithin] at hnot
            exact Bool.noConfusion hnot
          · rw [hwithin] at hnot
            exact Bool.noConfusion hnot
        · exact absurd hagrees (not_agrees_spoilt h hbuffer herror hspoilt)
    have hlong : bufferSize < text.length := by
      by_contra hshort
      have hne : text.length ≠ bufferSize := fun he => hpart (he ▸ Nat.dvd_refl _)
      have hcall := h.deserialize_eq hstart text
      rw [hrun] at hcall
      have htext : text ≠ [] := by
        rintro rfl
        exact hpart (Nat.dvd_zero _)
      obtain ⟨c, hc⟩ := h.goes_on hcall.1 (hcall.2.1 htext)
      have hinside : text.length < (List.replicate bufferSize c).length := by
        rw [List.length_replicate]
        omega
      obtain ⟨z, hz, -⟩ := hends (List.replicate bufferSize c) List.length_replicate
      rw [List.getD_append _ _ _ _ hinside, List.getD_eq_getElem _ _ hinside,
        List.getElem_replicate] at hz
      exact hc z hz
    refine ⟨hlong, ?_⟩
    have hend := hends (List.replicate bufferSize 0) List.length_replicate
    rwa [hbyte _ List.length_replicate hlong] at hend
  · rintro ⟨hlong, z, hstep, hstring⟩ buffer hbuffer
    have hlast := hloop buffer hbuffer
    rw [hbyte buffer hbuffer hlong, hstep] at hlast
    exact (agrees_at hlast).mpr ⟨hstring, rfl⟩

theorem agrees_iff (h : Lawful step live spoilt) (x : α) (text : Text) :
    Agrees x text ↔ Settled step x text := by
  have hloop (buffer : Text) (hbuffer : buffer.length = bufferSize) :=
    fromFileLoop_eq h text (Nat.le_refl _) (h.start (clear x)) buffer hbuffer
  rw [Settled]
  cases hrun : run step text (clear x) 0 with
  | failed =>
    simp only [hrun] at hloop
    have hbuffer : (List.replicate bufferSize (0 : UInt8)).length = bufferSize :=
      List.length_replicate
    obtain ⟨herror, hspoilt⟩ := hloop _ hbuffer
    exact iff_of_false (not_agrees_spoilt h hbuffer herror hspoilt) id
  | finished y n =>
    simp only [hrun] at hloop
    constructor
    · intro hagrees
      have hbuffer : (List.replicate bufferSize (0 : UInt8)).length = bufferSize :=
        List.length_replicate
      exact ((agrees_at (hloop _ hbuffer)).mp (hagrees _ hbuffer)).1
    · intro hstring buffer hbuffer
      exact (agrees_at (hloop buffer hbuffer)).mpr ⟨hstring, rfl⟩
  | unfinished y offset =>
    simp only
    split
    · next hdvd => exact agrees_full h hrun hdvd
    · next hpart => exact agrees_part h hrun hpart

end Lawful

/-! ### Every element -/

/-- An element that refuses every text, and remembers it until it is cleared. -/
structure Refusing where
  refused : Bool

instance : IElement Refusing where
  clear _ := ⟨false⟩
  isSet x := x.refused
  isNull _ := false
  serialize x _ _ := ([], x, 0)
  deserialize _ text _ _ := ⟨⟨true⟩, text.length, 0, some malformedJSON⟩

/-- No text but the empty one is the same for every element. -/
theorem agrees_always_iff (text : Text) :
    (∀ (α : Type) [IElement α] (x : α), Agrees x text) ↔ text = [] := by
  constructor
  · intro h
    by_contra htext
    have hbuffer : (List.replicate bufferSize (0 : UInt8)).length = bufferSize :=
      List.length_replicate
    obtain ⟨helement, hstatus, -⟩ := h Refusing ⟨false⟩ _ hbuffer
    obtain ⟨turns, hreads, -⟩ := reads_cons htext (Nat.le_refl _)
    obtain ⟨within, hloop⟩ : ∃ within, fromFileLoop (List.replicate bufferSize 0)
        (clear (⟨false⟩ : Refusing)) 0 none (reads text.length text) =
          ⟨⟨true⟩, 0, some malformedJSON, within⟩ := by
      rw [hreads, fromFileLoop]
      exact ⟨_, if_neg fun hgo => hgo.2 rfl⟩
    have herror : (fromFile (List.replicate bufferSize 0) (⟨false⟩ : Refusing) text).error.isSome =
        true := by
      rw [fromFile_of_offset (by rw [hloop]), hloop]
      rfl
    rw [fromFile_of_offset (by rw [hloop]), hloop] at helement
    rw [herror] at hstatus
    have hclear : (fromString (⟨false⟩ : Refusing) text).1 = ⟨false⟩ := by
      unfold fromString at hstatus ⊢
      simp only at hstatus ⊢
      split_ifs at hstatus ⊢
      · rfl
      · rfl
      · exact Bool.noConfusion hstatus
    rw [hclear] at helement
    exact absurd helement (by simp)
  · rintro rfl α _ x buffer _
    exact ⟨rfl, rfl, rfl⟩

/-- A file and its text agree for every element only if they are empty; for an element that takes
its text byte after byte, exactly if the text is settled, as it is if the value ends with it. -/
theorem fromFile_agrees_iff (text : Text) :
    ((∀ (α : Type) [IElement α] (x : α), Agrees x text) ↔ text = []) ∧
    ∀ {α : Type} [IElement α] {step : α → Nat → UInt8 → Step α} {live spoilt : α → Nat → Prop},
      Lawful step live spoilt → ∀ x : α,
        (Agrees x text ↔ Settled step x text) ∧
        ∀ y, text.length + 1 < 2 ^ 32 → run step text (clear x) 0 = .finished y text.length →
          Agrees x text := by
  refine ⟨agrees_always_iff text, fun h x => ⟨agrees_iff h x text, fun y htext hrun => ?_⟩⟩
  rw [agrees_iff h, Settled, hrun]
  exact fromString_finished h htext hrun

end IElement

end Thunder.Core.JSON
