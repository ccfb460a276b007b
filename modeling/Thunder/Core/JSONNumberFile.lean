import Thunder.Core.JSONFile
import Thunder.Core.JSONNumberRead

/-! Numbers read from a file: an error spoils them until they are cleared. -/

namespace Thunder.Core.JSON

namespace NumberType

variable {f : NumberFormat}

/-- A number with an error, behind a call. -/
def Spoilt (x : NumberType f) (offset : Nat) : Prop := x.error = true ∧ (offset = 0 ∨ offset = 4)

theorem finish_spoilt {stream : Text} {lead : Loaded (NumberType f)} (hoffset : lead.offset = 4)
    (h : (if lead.element.error ∨ lead.element.undefined then lead.element
      else (digitLoop (stream.drop lead.loaded) lead.element lead.error).element).error = true) :
    Spoilt (finish stream lead).element (finish stream lead).offset := by
  unfold finish
  dsimp only
  split_ifs at h ⊢ <;> first | exact ⟨h, .inl rfl⟩ | exact ⟨h, .inr hoffset⟩

theorem default_leadTurn (x : NumberType f) (offset : Nat) (c : UInt8) (error : Option Error) :
    (x.leadTurn offset c error).element.default = x.default := by
  unfold leadTurn
  split <;> simp only <;> split_ifs <;> rfl

theorem default_leadLoop (text : Text) (x : NumberType f) (offset : Nat) (error : Option Error) :
    (leadLoop text x offset error).element.default = x.default := by
  induction text generalizing x offset error with
  | nil => rfl
  | cons c text ih =>
    rw [leadLoop]
    split
    · simp only
      split
      · rw [Loaded.after, ih, default_leadTurn]
      · exact default_leadTurn _ _ _ _
    · rfl

theorem default_digitLoop (text : Text) (x : NumberType f) (error : Option Error) :
    (digitLoop text x error).element.default = x.default := by
  induction text generalizing x with
  | nil => rfl
  | cons c text ih =>
    rw [digitLoop]
    simp only
    split_ifs <;> first | rfl | exact ih _

theorem default_finish (stream : Text) (lead : Loaded (NumberType f)) :
    (finish stream lead).element.default = lead.element.default := by
  unfold finish
  simp only
  split_ifs <;> first | rfl | exact default_digitLoop _ _ _

theorem clear_deserialize (x : NumberType f) (text : Text) (offset : Nat) (error : Option Error) :
    (x.deserialize text offset error).element.clear = x.clear := by
  rw [clear, clear, deserialize, default_finish, default_leadLoop]

theorem spoilt_lead {x : NumberType f} {offset : Nat} (hlive : x.Live offset) (hoffset : offset < 4)
    {c : UInt8} (hstep : x.step offset c = .failed) (rest : Text) :
    Spoilt (x.deserialize (c :: rest) offset none).element
      (x.deserialize (c :: rest) offset none).offset := by
  rw [step, if_pos hoffset] at hstep
  cases leadTurn_cases hlive hoffset c with
  | refused htwo hfour _ hmarked =>
    rw [deserialize_leadStop hoffset (by rw [htwo]; decide)]
    exact finish_spoilt hfour (by rw [if_pos (.inl hmarked)]; exact hmarked)
  | empty hturn _ _ _ _ =>
    simp [hturn] at hstep
  | taken y offset' hturn _ _ _ =>
    simp only [hturn, OfNat.one_ne_ofNat, one_ne_zero, if_false] at hstep
    split at hstep <;> exact absurd hstep (by simp)

theorem spoilt_digits {x : NumberType f} (herror : x.error = false)
    (hundefined : x.undefined = false) {c : UInt8} (hstep : x.step 4 c = .failed) (rest : Text) :
    Spoilt (x.deserialize (c :: rest) 4 none).element
      (x.deserialize (c :: rest) 4 none).offset := by
  have hmarked : (digitLoop (c :: rest) x none).element.error = true := by
    rw [step, if_neg (by decide)] at hstep
    split at hstep
    · next hdigit =>
      rw [digitLoop_digit hdigit]
      change (ite ((x.digitSum c).2 = true) _ _ : Step (NumberType f)) = .failed at hstep
      by_cases hsum : (x.digitSum c).2 = true
      · rw [if_pos hsum]
      · rw [if_neg hsum] at hstep
        exact absurd hstep (by simp)
    · next hdigit =>
      rw [digitLoop_other (by simpa using hdigit)]
      split at hstep
      · exact absurd hstep (by simp)
      · next hopen =>
        rw [if_neg hopen]
        split at hstep
        · exact absurd hstep (by simp)
        · next hnone => rw [if_neg hnone]
  rw [deserialize, leadLoop_four]
  apply finish_spoilt rfl
  rw [if_neg (by simp [herror, hundefined])]
  exact hmarked

/-- Numbers are lawful. -/
theorem lawful : Lawful (step (f := f)) Live Spoilt where
  toBytewise := bytewise
  spoils {x offset c} hlive hstep rest := by
    by_cases hoffset : offset < 4
    · exact spoilt_lead hlive hoffset hstep rest
    · obtain rfl | ⟨hle, herror, hundefined⟩ := hlive
      · exact absurd (by decide) hoffset
      · obtain rfl : offset = 4 := Nat.le_antisymm hle (Nat.not_lt.mp hoffset)
        have hdefined : x.undefined = false := by
          by_contra h
          exact absurd (hundefined (by simpa using h)).1 (by decide)
        exact spoilt_digits herror hdefined hstep rest
  stays {x offset error} hspoilt hoffset herror text := by
    obtain ⟨hmarked, hzero | rfl⟩ := hspoilt
    · exact absurd hzero hoffset
    · have hcall : IElement.deserialize x text 4 error = finish text ⟨x, 0, 4, error⟩ := by
        show finish text (leadLoop text x 4 error) = _
        rw [leadLoop_four]
      rw [hcall]
      refine ⟨?_, finish_spoilt rfl (by rw [if_pos (.inl hmarked)]; exact hmarked)⟩
      rw [finish_error, if_pos (.inl hmarked)]
      exact herror
  clean x offset hspoilt := Bool.noConfusion hspoilt.1
  clear_deserialize := clear_deserialize
  clear_clear _ := rfl
  goes_on {x offset} _ _ := by
    refine ⟨0x30, fun y hstep => ?_⟩
    rw [step] at hstep
    simp only [show isxdigit 0x30 = true by decide, if_true] at hstep
    split_ifs at hstep <;> exact absurd hstep (by simp)

end NumberType

/-- A number that ends with its quote. -/
theorem fromFile_agrees_quoted : IElement.Agrees (NumberType.new ⟨8, false, .decimal, by decide⟩)
    [0x22, 0x37, 0x22] :=
  ((IElement.fromFile_agrees_iff [0x22, 0x37, 0x22]).2 NumberType.lawful _).2 _ (by decide) rfl

/-- The file of the digit 5, with a digit 7 in the buffer. -/
theorem not_fromFile_agrees : ¬IElement.Agrees (NumberType.new ⟨8, false, .decimal, by decide⟩)
    [0x35] := by
  intro h
  have hbuffer : (0x30 :: 0x37 :: List.replicate 1022 (0x2C : UInt8)).length = bufferSize := by
    rw [List.length_cons, List.length_cons, List.length_replicate]
  have hwithin := (h (0x30 :: 0x37 :: List.replicate 1022 0x2C) hbuffer).2.2
  exact absurd hwithin (by decide)

end Thunder.Core.JSON
