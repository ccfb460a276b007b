import Thunder.Core.MessagePackTree

/-! When `IMessagePack::FromBuffer` ends within its vector: for every vector, if no array in the
tree has elements other than Booleans and the tree itself is neither an array nor a buffer. -/

namespace Thunder.Core.MessagePack

open JSON

namespace Element

mutual

/-- Every array of the tree has Booleans as elements. -/
def Bounded : Element → Bool
  | array _ fresh _ => fresh.isBoolean
  | container _ fields => boundedFields fields
  | _ => true

def boundedFields : List (Text × Element) → Bool
  | [] => true
  | (_, element) :: fields => Bounded element && boundedFields fields

end

mutual

/-- The field that a container reads is one of its fields. -/
def Fitting : Element → Prop
  | container c fields =>
    (∀ index, c.current = .field index → index < fields.length) ∧ fittingFields fields
  | _ => True

def fittingFields : List (Text × Element) → Prop
  | [] => True
  | (_, element) :: fields => Fitting element ∧ fittingFields fields

end

mutual

def height : Element → Nat
  | container _ fields => heightFields fields + 1
  | _ => 1

def heightFields : List (Text × Element) → Nat
  | [] => 0
  | (_, element) :: fields => max (height element) (heightFields fields)

end

theorem length_clearFields (fields : List (Text × Element)) :
    (clearFields fields).length = fields.length := by
  induction fields with
  | nil => rfl
  | cons field fields ih => exact congrArg (· + 1) ih

mutual

/-- A tree that is cleared can be read from its first byte. -/
theorem clear_live : ∀ (e : Element) (n : Nat), e.Bounded → e.Fitting → e.height ≤ n →
    Live n e.clear 0
  | number _ _, _ + 1, _, _, _ => .inl rfl
  | float _, _ + 1, _, _, _ => rfl
  | boolean _, _ + 1, _, _, _ => rfl
  | string _, _ + 1, _, _, _ => .inl rfl
  | buffer _, _ + 1, _, _, _ => .inl rfl
  | enum _, _ + 1, _, _, _ => .inl rfl
  | array _ _ _, _ + 1, hbounded, _, _ =>
    ⟨hbounded, fun _ h => absurd h List.not_mem_nil, .inl (Nat.zero_le _)⟩
  | container _ fields, n + 1, hbounded, hfitting, hheight =>
    ⟨clearFields_live fields n hbounded hfitting.2 (Nat.le_of_succ_le_succ hheight),
      fun index h => (length_clearFields fields).symm ▸ hfitting.1 index h,
      .inl (Nat.zero_le _)⟩

theorem clearFields_live : ∀ (fields : List (Text × Element)) (n : Nat), boundedFields fields →
    fittingFields fields → heightFields fields ≤ n → ∀ field ∈ clearFields fields, Live n field.2 0
  | [], _, _, _, _ => fun _ h => absurd h List.not_mem_nil
  | (_, e) :: fields, n, hbounded, hfitting, hheight => by
    intro field hmem
    rw [boundedFields, Bool.and_eq_true] at hbounded
    rw [heightFields, Nat.max_le] at hheight
    obtain rfl | hmem := List.mem_cons.mp hmem
    · exact clear_live e n hbounded.1 hfitting.1 hheight.1
    · exact clearFields_live fields n hbounded.2 hfitting.2 hheight.2 field hmem

end

theorem clear_eager (e : Element) : e.clear.Eager = e.Eager := by
  cases e <;> rfl

end Element

open Element

/-! ### It ends -/

/-- `FromBuffer` ends: a call takes a byte, or the next one does. -/
theorem fromBufferLoop_ends {call : Call Element} {height : Nat} (size : Nat) {stream : Text}
    (hcall : Container.Fields height call) (hsize : size ≤ stream.length) (hlow : size < 2 ^ 32)
    (turns : Nat) {e : Element} {handled offset : Nat}
    (hturns : 2 * (size - handled) + (if offset = 0 then 0 else 1) < turns)
    (hhandled : handled ≤ size) (h : Live height e offset) (heager : e.Eager) :
    ∃ last success,
      fromBufferLoop call stream size turns e handled offset = some (.ended last success) := by
  induction turns generalizing e handled offset with
  | zero => exact absurd hturns (Nat.not_lt_zero _)
  | succ turns ih =>
    rw [fromBufferLoop]
    by_cases hend : handled = size
    · rw [if_pos hend]
      split
      · exact ⟨_, _, rfl⟩
      · exact ⟨_, _, rfl⟩
    · rw [if_neg hend, if_neg (Nat.not_lt.mpr hhandled)]
      set part := (stream.drop handled).take (min (size - handled) 0xFFFF) with hpart
      have hlength : part.length = min (size - handled) 0xFFFF := by
        rw [hpart, List.length_take, List.length_drop]
        omega
      have hne : part ≠ [] := by
        apply List.ne_nil_of_length_pos
        omega
      obtain ⟨read, hread, hinside, hmoves, hlive, heagerly⟩ :=
        hcall e part offset hne (by omega) h
      obtain ⟨hstill, hpos⟩ := heagerly heager
      simp only [hread]
      rw [u32, Nat.mod_eq_of_lt (by omega)]
      refine ih ?_ (by omega) hlive hstill
      -- A call that takes no byte has finished, and it did not start.
      obtain htaken | hzero := hmoves
      · split at hturns <;> split <;> omega
      · rw [if_pos hzero]
        by_cases hstart : offset = 0
        · have := hpos hstart
          omega
        · rw [if_neg hstart] at hturns
          omega

theorem ends_of_bounded {e : Element} (hfitting : e.Fitting) (heager : e.Eager)
    (hbounded : e.Bounded) (stream : Text) : Ends e stream := by
  set turns := e.height + loopTurns + 2 * u32 stream.length + 1 with hturns
  refine ⟨turns, ?_⟩
  apply fromBufferLoop_ends (u32 stream.length) (deserialize_reads e.height turns (by omega))
    (Nat.mod_le _ _) (Nat.mod_lt _ (by decide)) turns
  · rw [if_pos rfl]
    omega
  · exact Nat.zero_le _
  · exact clear_live e _ hbounded hfitting (Nat.le_refl _)
  · rw [clear_eager]
    exact heager

end Thunder.Core.MessagePack
