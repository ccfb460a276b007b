import Thunder.Core.JSONBytewise
import Thunder.Core.JSONNumber

/-! `NumberType::Deserialize` works byte after byte. -/

namespace Thunder.Core.JSON.NumberType

variable {f : NumberFormat}

/-- What a byte does to a number. -/
def step (x : NumberType f) (offset : Nat) (c : UInt8) : Step (NumberType f) :=
  if offset < 4 then
    let turn := x.leadTurn offset c none
    if turn.taken = 2 then .failed
    else if turn.taken = 0 then .finished turn.element.complete 1
    else if turn.element.undefined ∧ turn.offset = 4 then .finished turn.element.complete 1
    else .next turn.element turn.offset
  else if isxdigit c then
    let sum := accumulate f x.value.1 (if isdigit c then x.base else 16) (hexValue c)
    if sum.2 then .failed else .next { x with value := sum.1 } offset
  else if x.quoted ∧ c = 0x22 then .finished x.complete 1
  else if x.quoted = false ∧ isEnd c then .finished x.complete 0
  else .failed

/-- A number between two calls. -/
def Live (x : NumberType f) (offset : Nat) : Prop :=
  offset = 0 ∨ (offset ≤ 4 ∧ x.error = false ∧ (x.undefined = true → offset < 4 ∧ x.quoted = false))

theorem finish_cons (c : UInt8) (rest : Text) (lead : Loaded (NumberType f)) :
    finish (c :: rest) (lead.after 1) = (finish rest lead).after 1 := by
  have hdrop (n : Nat) : (c :: rest).drop (1 + n) = rest.drop n := by
    rw [Nat.add_comm, List.drop_succ_cons]
  unfold finish
  simp only [Loaded.after, hdrop, Nat.add_assoc, List.length_cons]
  split_ifs <;> simp only [Loaded.mk.injEq, true_and, and_true] <;> omega

/-- Behind a byte of the first loop the call goes on as a new one for the rest. -/
theorem deserialize_lead {x : NumberType f} {offset : Nat} {c : UInt8} (hoffset : offset < 4)
    (hturn : (x.leadTurn offset c none).taken = 1) (rest : Text) :
    x.deserialize (c :: rest) offset none =
      ((x.leadTurn offset c none).element.deserialize rest (x.leadTurn offset c none).offset
        (x.leadTurn offset c none).error).after 1 := by
  rw [deserialize, leadLoop, if_pos hoffset]
  simp only [hturn, if_true]
  exact finish_cons c rest _

theorem deserialize_leadStop {x : NumberType f} {offset : Nat} {c : UInt8} (hoffset : offset < 4)
    (hturn : (x.leadTurn offset c none).taken ≠ 1) (rest : Text) :
    x.deserialize (c :: rest) offset none =
      finish (c :: rest) ⟨(x.leadTurn offset c none).element, (x.leadTurn offset c none).taken,
        (x.leadTurn offset c none).offset, (x.leadTurn offset c none).error⟩ := by
  rw [deserialize, leadLoop, if_pos hoffset]
  simp only [hturn, if_false]

theorem leadLoop_four (text : Text) (x : NumberType f) (error : Option Error) :
    leadLoop text x 4 error = ⟨x, 0, 4, error⟩ := by
  cases text <;> rfl

/-- The error of a call is the one of its loops. -/
theorem finish_error (stream : Text) (lead : Loaded (NumberType f)) :
    (finish stream lead).error =
      if lead.element.error ∨ lead.element.undefined then lead.error
      else (digitLoop (stream.drop lead.loaded) lead.element lead.error).error := by
  unfold finish
  dsimp only
  split_ifs <;> rfl

/-- What a turn of the first loop does: it refuses the byte, or reads the quote behind nothing, or
takes the byte. -/
inductive LeadTurn.Cases (x : NumberType f) (c : UInt8) (turn : LeadTurn f) : Prop
  | refused : turn.taken = 2 → turn.offset = 4 → turn.error.isSome → turn.element.error = true →
    Cases x c turn
  | empty : turn = ⟨x, 4, 0, none⟩ → c = 0x22 → x.quoted = true → x.error = false →
    x.undefined = false → Cases x c turn
  | taken (y : NumberType f) (offset : Nat) : turn = ⟨y, offset, 1, none⟩ →
    (offset ≠ 0 ∧ offset ≤ 4) → y.error = false → (y.undefined = true → y.quoted = false) →
    Cases x c turn

theorem leadTurn_cases {x : NumberType f} {offset : Nat} (hlive : x.Live offset)
    (hoffset : offset < 4) (c : UInt8) : LeadTurn.Cases x c (x.leadTurn offset c none) := by
  have hrefuse (y : NumberType f) : LeadTurn.Cases x c (y.refuse c) := .refused rfl rfl rfl rfl
  obtain rfl | hpos := Nat.eq_zero_or_pos offset
  · unfold leadTurn
    simp only
    split_ifs
    · exact .taken _ _ rfl (by decide) rfl (by simp [clear])
    · exact .taken _ _ rfl (by decide) rfl (by simp [clear])
    · exact .taken _ _ rfl (by decide) rfl (by simp [clear, firstDigit])
    · exact .taken _ _ rfl (by decide) rfl (by simp [clear])
    · exact hrefuse _
  · obtain rfl | ⟨-, herror, hundefined⟩ := hlive
    · exact absurd hpos (Nat.lt_irrefl 0)
    have hquoted (h : x.undefined = true) : x.quoted = false := (hundefined h).2
    have hdefined (h : x.quoted = true) : x.undefined = false := by
      by_contra hx
      rw [hquoted (by simpa using hx)] at h
      exact Bool.noConfusion h
    match offset, hoffset with
    | 1, _ =>
      unfold leadTurn
      simp only
      split_ifs with h1 h2 h3 h4 h5
      · exact .taken _ _ rfl (by decide) herror hquoted
      · exact .taken _ _ rfl (by decide) herror hquoted
      · exact .taken _ _ rfl (by decide) herror hquoted
      · exact .taken _ _ rfl (by decide) herror hquoted
      · exact .empty rfl h5.1 h5.2 herror (hdefined h5.2)
      · exact hrefuse _
    | 2, _ =>
      unfold leadTurn
      simp only
      split_ifs with h1 h2 h3 h4 h5 h6
      · exact .taken _ _ rfl (by decide) herror hquoted
      · exact .taken _ _ rfl (by decide) herror hquoted
      · exact .taken _ _ rfl (by decide) herror hquoted
      · exact .taken _ _ rfl (by decide) herror hquoted
      · exact .taken _ _ rfl (by decide) herror hquoted
      · exact .empty rfl h6.1 h6.2 herror (hdefined h6.2)
      · exact hrefuse _
    | 3, _ =>
      unfold leadTurn
      simp only
      split_ifs with h1 h2 h3 h4
      · exact .taken _ _ rfl (by decide) herror hquoted
      · exact .taken _ _ rfl (by decide) herror hquoted
      · exact .taken _ _ rfl (by decide) herror hquoted
      · exact .empty rfl h4.1 h4.2 herror (hdefined h4.2)
      · exact hrefuse _

theorem digitLoop_nil (x : NumberType f) (error : Option Error) :
    digitLoop [] x error = ⟨x, 0, false, error⟩ := rfl

theorem deserialize_nil {x : NumberType f} {offset : Nat} (hlive : x.Live offset) :
    x.deserialize [] offset none = ⟨x, 0, offset, none⟩ := by
  unfold deserialize leadLoop finish
  obtain rfl | ⟨-, herror, hundefined⟩ := hlive
  · simp only
    split_ifs <;> first | rfl | omega
  · simp only [herror, Bool.false_eq_true, false_or, digitLoop_nil, List.drop_nil]
    cases h : x.undefined with
    | false => simp [herror]
    | true => simp [herror, Nat.not_le.mpr (hundefined h).1]

/-- The second loop alone. -/
theorem deserialize_four {x : NumberType f} (herror : x.error = false)
    (hundefined : x.undefined = false) (text : Text) : x.deserialize text 4 none =
      (let digits := digitLoop text x none
       if digits.element.error ∧ digits.element.quoted then
        let skipped := (text.drop digits.loaded).takeWhile (· ≠ 0x22)
        if digits.loaded + skipped.length < text.length then
          ⟨digits.element, digits.loaded + skipped.length + 1, 0, digits.error⟩
        else ⟨digits.element, max digits.loaded text.length, 4, digits.error⟩
       else if digits.completed then ⟨digits.element.complete, digits.loaded, 0, digits.error⟩
       else ⟨digits.element, digits.loaded, 4, digits.error⟩) := by
  rw [deserialize, leadLoop_four, finish]
  simp [herror, hundefined]

/-- What a number does at the byte behind its lead. -/
def digitSum (x : NumberType f) (c : UInt8) : f.Value × Bool :=
  accumulate f x.value.1 (if isdigit c then x.base else 16) (hexValue c)

theorem digitLoop_digit {c : UInt8} (hdigit : isxdigit c = true) (rest : Text) (x : NumberType f)
    (error : Option Error) : digitLoop (c :: rest) x error =
      if (x.digitSum c).2 then
        ⟨{ x with value := (x.digitSum c).1, error := true }, 1, true, some overflowed⟩
      else
        let digits := digitLoop rest { x with value := (x.digitSum c).1 } error
        { digits with loaded := digits.loaded + 1 } := by
  rw [digitLoop, if_pos hdigit]
  rfl

theorem digitLoop_other {c : UInt8} (hdigit : isxdigit c = false) (rest : Text) (x : NumberType f)
    (error : Option Error) : digitLoop (c :: rest) x error =
      if x.quoted ∧ c = 0x22 then ⟨x, 1, true, error⟩
      else if x.quoted = false ∧ isEnd c then ⟨x, 0, true, error⟩
      else ⟨{ x with error := true }, 1, true, some (unsupported c)⟩ := by
  rw [digitLoop, if_neg (by rw [hdigit]; decide)]

theorem deserialize_digit {x : NumberType f} {c : UInt8} (herror : x.error = false)
    (hundefined : x.undefined = false) (hdigit : isxdigit c = true)
    (hsum : (x.digitSum c).2 = false) (rest : Text) : x.deserialize (c :: rest) 4 none =
      ({ x with value := (x.digitSum c).1 }.deserialize rest 4 none).after 1 := by
  have hkept : ¬ (x.digitSum c).2 = true := by rw [hsum]; decide
  rw [deserialize_four herror hundefined, digitLoop_digit hdigit, if_neg hkept,
    deserialize_four (x := { x with value := (x.digitSum c).1 }) herror hundefined]
  simp only [List.drop_succ_cons, List.length_cons, Loaded.after]
  split_ifs <;> simp only [Loaded.mk.injEq, true_and, and_true] <;> omega

theorem deserialize_closed {x : NumberType f} (herror : x.error = false)
    (hundefined : x.undefined = false) (hquoted : x.quoted = true) (rest : Text) :
    x.deserialize (0x22 :: rest) 4 none = ⟨x.complete, 1, 0, none⟩ := by
  have hdigit : isxdigit 0x22 = false := by decide
  rw [deserialize_four herror hundefined, digitLoop_other hdigit]
  simp [hquoted, herror]

theorem deserialize_ended {x : NumberType f} {c : UInt8} (herror : x.error = false)
    (hundefined : x.undefined = false) (hdigit : isxdigit c = false) (hquoted : x.quoted = false)
    (hc : isEnd c = true) (rest : Text) :
    x.deserialize (c :: rest) 4 none = ⟨x.complete, 0, 0, none⟩ := by
  rw [deserialize_four herror hundefined, digitLoop_other hdigit]
  simp [hquoted, hc, herror]

theorem digitLoop_error {text : Text} {x : NumberType f} (herror : x.error = false)
    (hundefined : x.undefined = false) (h : (digitLoop text x none).error.isSome) :
    (x.deserialize text 4 none).error.isSome := by
  rw [deserialize, leadLoop_four, finish_error]
  rw [if_neg (by simp [herror, hundefined])]
  exact h

/-- A call does with its first byte what the step says. -/
def Stepwise (x : NumberType f) (offset : Nat) (c : UInt8) : Step (NumberType f) → Prop
  | .next x' offset' => Live x' offset' ∧ offset' ≠ 0 ∧ ∀ rest,
      x.deserialize (c :: rest) offset none = (x'.deserialize rest offset' none).after 1
  | .finished x' loaded => loaded ≤ 1 ∧ ∀ rest,
      x.deserialize (c :: rest) offset none = ⟨x', loaded, 0, none⟩
  | .failed => ∀ rest, (x.deserialize (c :: rest) offset none).error.isSome

theorem stepwise_lead {x : NumberType f} {offset : Nat} (hlive : x.Live offset)
    (hoffset : offset < 4) (c : UInt8) : x.Stepwise offset c (x.step offset c) := by
  rw [step, if_pos hoffset]
  cases leadTurn_cases hlive hoffset c with
  | refused htwo _ herror hmarked =>
    simp only [htwo, if_true]
    intro rest
    rw [deserialize_leadStop hoffset (by rw [htwo]; decide), finish_error]
    rw [if_pos (.inl hmarked)]
    exact herror
  | empty hturn hc hquoted herror hundefined =>
    subst hc
    have hcall := deserialize_leadStop hoffset (by rw [hturn]; exact Nat.zero_ne_one)
    simp only [hturn] at hcall ⊢
    refine ⟨Nat.le_refl 1, fun rest => ?_⟩
    rw [hcall, ← leadLoop_four (0x22 :: rest) x none]
    exact deserialize_closed herror hundefined hquoted rest
  | taken y offset' hturn hbounds herror hquoted =>
    have hcall := deserialize_lead hoffset (by rw [hturn])
    simp only [hturn] at hcall
    simp only [hturn, OfNat.one_ne_ofNat, one_ne_zero, if_false]
    split
    · next hnull =>
      obtain ⟨hy, rfl⟩ := hnull
      refine ⟨Nat.le_refl 1, fun rest => ?_⟩
      rw [hcall, deserialize, leadLoop_four, finish]
      simp [hy, herror, Loaded.after]
    · next hnull =>
      refine ⟨.inr ⟨hbounds.2, herror, fun hy => ⟨?_, hquoted hy⟩⟩, hbounds.1, hcall⟩
      have hne : offset' ≠ 4 := fun h4 => hnull ⟨hy, h4⟩
      exact Nat.lt_of_le_of_ne hbounds.2 hne

theorem stepwise_digits {x : NumberType f} (herror : x.error = false)
    (hundefined : x.undefined = false) (c : UInt8) : x.Stepwise 4 c (x.step 4 c) := by
  rw [step, if_neg (by decide)]
  by_cases hdigit : isxdigit c = true
  · rw [if_pos hdigit]
    change Stepwise x 4 c (if (x.digitSum c).2 then _ else _)
    split
    · next hsum =>
      intro rest
      apply digitLoop_error herror hundefined
      rw [digitLoop_digit hdigit, if_pos hsum]
      rfl
    · next hsum =>
      have hkeep : x.undefined = true → 4 < 4 ∧ x.quoted = false := fun h => by
        rw [hundefined] at h
        exact Bool.noConfusion h
      exact ⟨.inr ⟨Nat.le_refl 4, herror, hkeep⟩, by decide,
        deserialize_digit herror hundefined hdigit (by simpa using hsum)⟩
  · rw [if_neg hdigit]
    split
    · next hclosed =>
      obtain ⟨hquoted, rfl⟩ := hclosed
      exact ⟨Nat.le_refl 1, deserialize_closed herror hundefined hquoted⟩
    · next hopen =>
      split
      · next hended =>
        exact ⟨Nat.zero_le 1,
          deserialize_ended herror hundefined (by simpa using hdigit) hended.1 hended.2⟩
      · next hnone =>
        intro rest
        apply digitLoop_error herror hundefined
        rw [digitLoop_other (by simpa using hdigit), if_neg hopen, if_neg hnone]
        rfl

theorem stepwise {x : NumberType f} {offset : Nat} (hlive : x.Live offset) (c : UInt8) :
    x.Stepwise offset c (x.step offset c) := by
  by_cases hoffset : offset < 4
  · exact stepwise_lead hlive hoffset c
  · obtain rfl | ⟨hle, herror, hundefined⟩ := hlive
    · exact absurd (by decide) hoffset
    · obtain rfl : offset = 4 := Nat.le_antisymm hle (Nat.not_lt.mp hoffset)
      have hdefined : x.undefined = false := by
        by_contra h
        exact absurd (hundefined (by simpa using h)).1 (by decide)
      exact stepwise_digits herror hdefined c

/-- `NumberType` works byte after byte. -/
theorem bytewise : Bytewise (step (f := f)) Live where
  start _ := .inl rfl
  nil := deserialize_nil
  next {_ _ c _ _} hlive hstep := by
    have h := stepwise hlive c
    rw [hstep] at h
    exact h
  finished {_ _ c _ _} hlive hstep := by
    have h := stepwise hlive c
    rw [hstep] at h
    exact h
  failed {_ _ c} hlive hstep := by
    have h := stepwise hlive c
    rw [hstep] at h
    exact h

end Thunder.Core.JSON.NumberType
