import Mathlib.Data.List.Basic
import Mathlib.Algebra.GroupWithZero.Nat

/-! Streams in pieces.  A writer fills output buffers of given sizes one after another, a reader
takes input chunks one after another; both carry their place in the stream from call to call. -/

namespace Thunder.Chunks

variable {σ β : Type*}

theorem take_append_of_ge {l l' : List β} {n : Nat} (h : l.length ≤ n) :
    (l ++ l').take n = l ++ l'.take (n - l.length) := by
  rw [List.take_append, List.take_of_length_le h]

theorem drop_append_of_ge {l l' : List β} {n : Nat} (h : l.length ≤ n) :
    (l ++ l').drop n = l'.drop (n - l.length) := by
  rw [List.drop_append, List.drop_of_length_le h, List.nil_append]

/-! ### Writers -/

/-- Calls of a writer with buffers of the given sizes: what they put out together, and the state
after them. -/
def writeAll (write : σ → Nat → List β × σ) (s : σ) : List Nat → List β × σ
  | [] => ([], s)
  | size :: sizes =>
    let (bytes, s') := write s size
    let (more, s'') := writeAll write s' sizes
    (bytes ++ more, s'')

/-- From a state that meets `inv`, a call of `write` puts out the next bytes of what is `pending`,
as many as the buffer takes. -/
def Resumes (write : σ → Nat → List β × σ) (inv : σ → Prop) (pending : σ → List β) : Prop :=
  ∀ s size, inv s → inv (write s size).2 ∧ (write s size).1 = (pending s).take size ∧
    pending (write s size).2 = (pending s).drop size

section Writers

variable {write : σ → Nat → List β × σ} {inv : σ → Prop} {pending : σ → List β} {s : σ}

theorem Resumes.writeAll (h : Resumes write inv pending) (hs : inv s) (sizes : List Nat) :
    inv (writeAll write s sizes).2 ∧
      (Chunks.writeAll write s sizes).1 = (pending s).take sizes.sum ∧
      pending (Chunks.writeAll write s sizes).2 = (pending s).drop sizes.sum := by
  induction sizes generalizing s with
  | nil => exact ⟨hs, rfl, rfl⟩
  | cons size sizes ih =>
    obtain ⟨hinv, hout, hrest⟩ := h s size hs
    obtain ⟨hinv', hmore, hlast⟩ := ih hinv
    rw [hrest] at hmore hlast
    refine ⟨hinv', ?_, ?_⟩
    · show (write s size).1 ++ _ = _
      rw [hout, hmore, List.sum_cons, List.take_add]
    · show pending (Chunks.writeAll write (write s size).2 sizes).2 = _
      rw [hlast, List.drop_drop, List.sum_cons]

/-- Buffers with room for everything put out exactly what was pending. -/
theorem Resumes.complete (h : Resumes write inv pending) (hs : inv s) {sizes : List Nat}
    (hroom : (pending s).length ≤ sizes.sum) : (Chunks.writeAll write s sizes).1 = pending s := by
  rw [(h.writeAll hs sizes).2.1, List.take_of_length_le hroom]

end Writers

/-! ### Writers that say when they have finished -/

/-- Calls of a writer with buffers of the given sizes, up to the call after which it has
finished. -/
def writeUntil (write : σ → Nat → List β × σ) (finished : σ → Prop) [DecidablePred finished]
    (s : σ) : List Nat → List β × σ
  | [] => ([], s)
  | size :: sizes =>
    let (bytes, s') := write s size
    if finished s' then (bytes, s')
    else
      let (more, s'') := writeUntil write finished s' sizes
      (bytes ++ more, s'')

/-- `rest s bytes` says that a writer in the state `s` has `bytes` to put out.  A call puts out the
next of them, as many as the buffer takes, and has finished only if that was all; a call with more
room than bytes finishes. -/
def Finishes (write : σ → Nat → List β × σ) (finished : σ → Prop) (rest : σ → List β → Prop) :
    Prop :=
  ∀ s bytes size, 0 < size → rest s bytes → (write s size).1 = bytes.take size ∧
    (bytes.length < size → finished (write s size).2) ∧
    (finished (write s size).2 → bytes.length ≤ size) ∧
    (¬finished (write s size).2 → rest (write s size).2 (bytes.drop size))

section Finishing

variable {write : σ → Nat → List β × σ} {finished : σ → Prop} [DecidablePred finished]
  {rest : σ → List β → Prop} {s : σ} {bytes : List β}

theorem writeUntil_of_finished {size : Nat} (sizes : List Nat) (h : finished (write s size).2) :
    writeUntil write finished s (size :: sizes) = write s size :=
  if_pos h

theorem writeUntil_of_not_finished {size : Nat} (sizes : List Nat)
    (h : ¬finished (write s size).2) : writeUntil write finished s (size :: sizes) =
      ((write s size).1 ++ (writeUntil write finished (write s size).2 sizes).1,
        (writeUntil write finished (write s size).2 sizes).2) :=
  if_neg h

theorem Finishes.writeUntil (h : Finishes write finished rest) (hs : rest s bytes)
    {sizes : List Nat} (hsizes : ∀ size ∈ sizes, 0 < size) :
    (writeUntil write finished s sizes).1 = bytes.take sizes.sum ∧
      (bytes.length < sizes.sum → finished (Chunks.writeUntil write finished s sizes).2) ∧
      (finished (Chunks.writeUntil write finished s sizes).2 →
        sizes = [] ∨ bytes.length ≤ sizes.sum) := by
  induction sizes generalizing s bytes with
  | nil => exact ⟨rfl, fun hlt => absurd hlt (by simp), fun _ => Or.inl rfl⟩
  | cons size sizes ih =>
    obtain ⟨hout, henough, hall, hrest⟩ := h s bytes size (hsizes size (by simp)) hs
    have hmore : ∀ size ∈ sizes, 0 < size := fun n hn => hsizes n (by simp [hn])
    by_cases hf : finished (write s size).2
    · have hlen := hall hf
      rw [writeUntil_of_finished sizes hf]
      refine ⟨?_, fun _ => hf, fun _ => Or.inr ?_⟩
      · rw [hout, List.take_of_length_le hlen, List.take_of_length_le]
        rw [List.sum_cons]
        omega
      · rw [List.sum_cons]
        omega
    · obtain ⟨hout', henough', hall'⟩ := ih (hrest hf) hmore
      rw [writeUntil_of_not_finished sizes hf]
      have hlen : ¬bytes.length < size := fun hl => hf (henough hl)
      rw [List.length_drop] at henough' hall'
      refine ⟨?_, fun hlt => ?_, fun hend => Or.inr ?_⟩
      · rw [hout, hout', List.sum_cons, List.take_add]
      · apply henough'
        rw [List.sum_cons] at hlt
        omega
      · rw [List.sum_cons]
        rcases hall' hend with rfl | hle
        · exact absurd hend hf
        · omega

end Finishing

/-! ### Writers that work byte after byte -/

/-- At most so many steps of a machine that puts out one byte in a step. -/
def generate (step : σ → Option (β × σ)) : Nat → σ → List β × σ
  | 0, s => ([], s)
  | n + 1, s =>
    match step s with
    | none => ([], s)
    | some (b, s') =>
      let (bytes, t) := generate step n s'
      (b :: bytes, t)

/-- Steps that put out `bytes`, each from a state that meets `inv`. -/
inductive Yields (step : σ → Option (β × σ)) (inv : σ → Prop) : σ → List β → σ → Prop
  | nil {s : σ} : Yields step inv s [] s
  | cons {s s' t : σ} {b : β} {bytes : List β} : inv s → step s = some (b, s') →
      Yields step inv s' bytes t → Yields step inv s (b :: bytes) t

section Steps

variable {step : σ → Option (β × σ)} {inv : σ → Prop} {s t u : σ} {bytes bytes' : List β}

theorem Yields.append (h : Yields step inv s bytes t) (h' : Yields step inv t bytes' u) :
    Yields step inv s (bytes ++ bytes') u := by
  induction h with
  | nil => exact h'
  | cons hinv hstep _ ih => exact Yields.cons hinv hstep (ih h')

theorem Yields.inv_start (h : Yields step inv s bytes t) (ht : inv t) : inv s := by
  cases h with
  | nil => exact ht
  | cons hinv _ _ => exact hinv

/-- The machine stopped after `n` steps has put out `n` bytes, and goes on with the others. -/
theorem Yields.generate (h : Yields step inv s bytes t) {n : Nat} (hn : n ≤ bytes.length) :
    ∃ m, generate step n s = (bytes.take n, m) ∧ Yields step inv m (bytes.drop n) t := by
  induction h generalizing n with
  | nil =>
    obtain rfl : n = 0 := by simpa using hn
    exact ⟨_, rfl, Yields.nil⟩
  | cons hinv hstep hrest ih =>
    cases n with
    | zero => exact ⟨_, rfl, Yields.cons hinv hstep hrest⟩
    | succ n =>
      obtain ⟨m, hm, hyields⟩ := ih (by simpa using hn)
      refine ⟨m, ?_, hyields⟩
      rw [Chunks.generate, hstep]
      simp only [hm, List.take_succ_cons]

/-- At the end of the steps the machine goes on from there. -/
theorem Yields.generate_add (h : Yields step inv s bytes t) (n : Nat) :
    Chunks.generate step (bytes.length + n) s =
      (bytes ++ (Chunks.generate step n t).1, (Chunks.generate step n t).2) := by
  induction h with
  | nil => simp
  | cons hinv hstep _ ih =>
    rw [List.length_cons, Nat.add_right_comm, Chunks.generate, hstep]
    simp only [ih, List.cons_append]

end Steps

/-! ### Readers -/

/-- A reader fed one chunk after another. -/
def readAll (read : σ → List β → Option σ) (s : σ) (chunks : List (List β)) : Option σ :=
  chunks.foldlM read s

variable {read : σ → List β → Option σ} {step : σ → β → Option σ} {inv : σ → Prop}

theorem foldlM_inv (hstep : ∀ s b s', inv s → step s b = some s' → inv s') {s s' : σ}
    {bytes : List β} (hs : inv s) (h : bytes.foldlM step s = some s') : inv s' := by
  induction bytes generalizing s with
  | nil =>
    obtain rfl : s = s' := by simpa using h
    exact hs
  | cons b bytes ih =>
    rw [List.foldlM_cons] at h
    obtain ⟨t, hb, hrest⟩ := Option.bind_eq_some_iff.mp h
    exact ih (hstep s b t hs hb) hrest

/-- A reader that works through each chunk as a machine that takes one byte at a time does not see
where the chunks were cut. -/
theorem readAll_eq_foldlM (hread : ∀ s bytes, inv s → read s bytes = bytes.foldlM step s)
    (hstep : ∀ s b s', inv s → step s b = some s' → inv s') {s : σ} (hs : inv s)
    (chunks : List (List β)) : readAll read s chunks = chunks.flatten.foldlM step s := by
  induction chunks generalizing s with
  | nil => rfl
  | cons chunk chunks ih =>
    rw [readAll, List.foldlM_cons, List.flatten_cons, List.foldlM_append, hread s chunk hs]
    cases h : chunk.foldlM step s with
    | none => rfl
    | some t => exact ih (foldlM_inv hstep hs h)

end Thunder.Chunks
