import Thunder.Core.JSONElement

/-! Elements that take their text byte after byte: what a byte does depends on the element and the
offset alone, and a chunk is worked through until one of its bytes finishes the element or is
refused. -/

namespace Thunder.Core.JSON

/-- What a byte does: the element goes on with it, is finished (and has taken it or not), or reports
an error. -/
inductive Step (α : Type)
  | next (element : α) (offset : Nat)
  | finished (element : α) (loaded : Nat)
  | failed

/-- What a text does. -/
inductive Run (α : Type)
  | unfinished (element : α) (offset : Nat)
  | finished (element : α) (loaded : Nat)
  | failed

/-- The same, behind one more byte. -/
def Run.succ {α : Type} : Run α → Run α
  | unfinished element offset => unfinished element offset
  | finished element loaded => finished element (loaded + 1)
  | failed => failed

/-- The same, behind so many more bytes. -/
def Run.add {α : Type} (n : Nat) : Run α → Run α
  | unfinished element offset => unfinished element offset
  | finished element loaded => finished element (n + loaded)
  | failed => failed

variable {α : Type}

theorem Run.add_succ (n : Nat) (r : Run α) : (r.add n).succ = r.add (n + 1) := by
  cases r with
  | finished x loaded => rw [add, succ, add, Nat.succ_add]
  | unfinished => rfl
  | failed => rfl

theorem Run.add_zero (r : Run α) : r.add 0 = r := by
  cases r with
  | finished x loaded => rw [add, Nat.zero_add]
  | unfinished => rfl
  | failed => rfl

/-- The bytes of a text, one after another. -/
def run (step : α → Nat → UInt8 → Step α) : Text → α → Nat → Run α
  | [], x, offset => .unfinished x offset
  | c :: rest, x, offset =>
    match step x offset c with
    | .next x' offset' => (run step rest x' offset').succ
    | .finished x' loaded => .finished x' loaded
    | .failed => .failed

theorem run_append (step : α → Nat → UInt8 → Step α) (text rest : Text) (x : α) (offset : Nat) :
    run step (text ++ rest) x offset =
      match run step text x offset with
      | .unfinished x' offset' => (run step rest x' offset').add text.length
      | r => r := by
  induction text generalizing x offset with
  | nil => exact (Run.add_zero _).symm
  | cons c text ih =>
    rw [List.cons_append, run, run]
    cases step x offset c with
    | failed => rfl
    | finished x' loaded => rfl
    | next x' offset' =>
      simp only [ih]
      cases run step text x' offset' with
      | failed => rfl
      | finished x'' loaded => rfl
      | unfinished x'' offset'' => exact Run.add_succ _ _

/-- A text that leaves an element unfinished does so with each of its parts. -/
theorem run_unfinished {step : α → Nat → UInt8 → Step α} {text rest : Text} {x y : α}
    {offset offset' : Nat} (h : run step (text ++ rest) x offset = .unfinished y offset') :
    ∃ z offset'', run step text x offset = .unfinished z offset'' ∧
      run step rest z offset'' = .unfinished y offset' := by
  rw [run_append] at h
  cases htext : run step text x offset with
  | failed =>
    rw [htext] at h
    exact absurd h (by simp)
  | finished z loaded =>
    rw [htext] at h
    exact absurd h (by simp)
  | unfinished z offset'' =>
    rw [htext] at h
    simp only at h
    refine ⟨z, offset'', rfl, ?_⟩
    cases hrest : run step rest z offset'' with
    | failed =>
      rw [hrest] at h
      exact absurd h (by simp [Run.add])
    | finished w loaded =>
      rw [hrest] at h
      exact absurd h (by simp [Run.add])
    | unfinished w offset3 =>
      rw [hrest] at h
      exact h

/-- `Deserialize` works through its stream as the step says, for every element and offset that are
`live`. -/
structure Bytewise [IElement α] (step : α → Nat → UInt8 → Step α) (live : α → Nat → Prop) :
    Prop where
  start : ∀ x, live x 0
  nil : ∀ {x offset}, live x offset → IElement.deserialize x [] offset none = ⟨x, 0, offset, none⟩
  next : ∀ {x offset c x' offset'}, live x offset → step x offset c = .next x' offset' →
    live x' offset' ∧ offset' ≠ 0 ∧ ∀ rest, IElement.deserialize x (c :: rest) offset none =
      (IElement.deserialize x' rest offset' none).after 1
  finished : ∀ {x offset c x' loaded}, live x offset → step x offset c = .finished x' loaded →
    loaded ≤ 1 ∧ ∀ rest, IElement.deserialize x (c :: rest) offset none = ⟨x', loaded, 0, none⟩
  failed : ∀ {x offset c}, live x offset → step x offset c = .failed →
    ∀ rest, (IElement.deserialize x (c :: rest) offset none).error.isSome

namespace Bytewise

variable [IElement α] {step : α → Nat → UInt8 → Step α} {live : α → Nat → Prop}

/-- A call has the outcome of its stream. -/
theorem deserialize_eq (h : Bytewise step live) {x : α} {offset : Nat} (hlive : live x offset)
    (text : Text) :
    match run step text x offset with
    | .unfinished x' offset' =>
      live x' offset' ∧ (text ≠ [] → offset' ≠ 0) ∧
        IElement.deserialize x text offset none = ⟨x', text.length, offset', none⟩
    | .finished x' loaded =>
      loaded ≤ text.length ∧ IElement.deserialize x text offset none = ⟨x', loaded, 0, none⟩
    | .failed => (IElement.deserialize x text offset none).error.isSome := by
  induction text generalizing x offset with
  | nil => exact ⟨hlive, fun h => absurd rfl h, h.nil hlive⟩
  | cons c rest ih =>
    rw [run]
    cases hstep : step x offset c with
    | failed => exact h.failed hlive hstep rest
    | finished x' loaded =>
      obtain ⟨hle, hcall⟩ := h.finished hlive hstep
      exact ⟨Nat.le_trans hle (Nat.succ_pos _), hcall rest⟩
    | next x' offset' =>
      obtain ⟨hlive', hne, hcall⟩ := h.next hlive hstep
      have hrest := ih hlive'
      simp only [hcall rest]
      cases hrun : run step rest x' offset' with
      | failed =>
        rw [hrun] at hrest
        exact hrest
      | finished x'' loaded =>
        rw [hrun] at hrest
        obtain ⟨hle, hrest⟩ := hrest
        refine ⟨Nat.succ_le_succ hle, ?_⟩
        rw [hrest, Loaded.after, Nat.add_comm]
      | unfinished x'' offset'' =>
        rw [hrun] at hrest
        obtain ⟨hlive'', hne', hrest⟩ := hrest
        refine ⟨hlive'', fun _ => ?_, ?_⟩
        · cases rest with
          | nil =>
            rw [run] at hrun
            obtain ⟨-, rfl⟩ := Run.unfinished.inj hrun
            exact hne
          | cons _ _ => exact hne' (by simp)
        · rw [hrest, Loaded.after, List.length_cons, Nat.add_comm]

/-- So have calls for the chunks of a text, wherever it is cut. -/
theorem deserializeFrom_eq (h : Bytewise step live) {x : α} {offset : Nat} (hlive : live x offset)
    {chunks : List Text} (hchunks : ∀ chunk ∈ chunks, chunk ≠ []) :
    match run step chunks.flatten x offset with
    | .unfinished x' offset' =>
      IElement.deserializeFrom x offset none chunks = ⟨x', chunks.flatten.length, offset', none⟩
    | .finished x' loaded =>
      IElement.deserializeFrom x offset none chunks = ⟨x', loaded, 0, none⟩
    | .failed => (IElement.deserializeFrom x offset none chunks).error.isSome := by
  induction chunks generalizing x offset with
  | nil => rfl
  | cons chunk chunks ih =>
    have hcall := h.deserialize_eq hlive chunk
    rw [List.flatten_cons, run_append]
    cases hrun : run step chunk x offset with
    | failed =>
      rw [hrun] at hcall
      simp only
      rw [IElement.deserializeFrom_stop (.inr hcall)]
      exact hcall
    | finished x' loaded =>
      rw [hrun] at hcall
      obtain ⟨-, hcall⟩ := hcall
      simp only
      rw [IElement.deserializeFrom_stop (.inl (by rw [hcall])), hcall]
    | unfinished x' offset' =>
      rw [hrun] at hcall
      obtain ⟨hlive', hne, hcall⟩ := hcall
      have hne' := hne (hchunks chunk List.mem_cons_self)
      have hrest := ih hlive' fun chunk hmem => hchunks chunk (List.mem_cons_of_mem _ hmem)
      have hfrom : IElement.deserializeFrom x offset none (chunk :: chunks) =
          (IElement.deserializeFrom (IElement.deserialize x chunk offset none).element
            (IElement.deserialize x chunk offset none).offset none chunks).after chunk.length := by
        apply IElement.deserializeFrom_next
        · rw [hcall]
          exact hne'
        · rw [hcall]
        · rw [hcall]
      rw [hcall] at hfrom
      simp only [hfrom]
      cases hrun' : run step chunks.flatten x' offset' with
      | failed =>
        rw [hrun'] at hrest
        exact hrest
      | finished x'' loaded =>
        rw [hrun'] at hrest
        simp only [Run.add]
        rw [hrest, Loaded.after]
      | unfinished x'' offset'' =>
        rw [hrun'] at hrest
        simp only [Run.add]
        rw [hrest, Loaded.after, List.length_append]

end Bytewise

end Thunder.Core.JSON
