import Thunder.Core.JSONNumberWrite

/-! Where numbers are exact: which values are read again from what they are written as, and which
texts are read as a number that they do not say. -/

namespace Thunder.Core.JSON.NumberType

variable {f : NumberFormat}

/-- A number read from what it was written as, with a byte behind that ends numbers. -/
def RoundTrips (v : f.Value) : Prop :=
  ∀ (x y : NumberType f) (sizes : List Nat) (cut : Cut) (c : UInt8) (rest : Text),
    (∀ size ∈ sizes, 0 < size) → sizes ≠ [] → (IElement.serializeAll (x.assign v) sizes).2.2 = 0 →
    isEnd c = true →
    let text := (IElement.serializeAll (x.assign v) sizes).1
    let read := IElement.deserializeAll y (cut.chunks (text ++ c :: rest))
    read.error = none ∧ read.offset = 0 ∧ read.loaded = text.length ∧
      read.element.set = true ∧ read.element.undefined = false ∧ read.element.value = v

/-- A text that is read without an error is null or a token of the value. -/
def Sound (x : NumberType f) (text : Text) (cut : Cut) : Prop :=
  let read := IElement.deserializeAll x (cut.chunks text)
  text ≠ [] → read.error = none → read.offset = 0 →
    read.element.set = true ∧
    ((read.element.undefined = true ∧ text.take read.loaded = nullTag) ∨
      (read.element.undefined = false ∧
        ∃ t : Token, t.text = text.take read.loaded ∧ t.value = read.element.value.1))

/-- The text ends as a number in the range does, and is no token: it has no digits, a digit that is
not one of its base, an `x` behind more or less than a zero, or a minus before a number other than 0
of an unsigned type; or it is taken for null and is not. -/
def Malformed (f : NumberFormat) (text : Text) : Prop :=
  (∃ m, mark text = some m ∧ Ends f m text ∧ ¬Proper f m text) ∨
    ∃ n, nullMark text = some n ∧ text.take n ≠ nullTag

theorem step_finished {x y : NumberType f} {offset n : Nat} {c : UInt8}
    (h : step x offset c = .finished y n) : y.set = true := by
  rw [step] at h
  by_cases hoffset : offset < 4
  · rw [if_pos hoffset] at h
    simp only at h
    split_ifs at h
    · obtain ⟨rfl, -⟩ := Step.finished.inj h
      rfl
    · obtain ⟨rfl, -⟩ := Step.finished.inj h
      rfl
  · rw [if_neg hoffset] at h
    simp only at h
    split_ifs at h
    · obtain ⟨rfl, -⟩ := Step.finished.inj h
      rfl
    · obtain ⟨rfl, -⟩ := Step.finished.inj h
      rfl

theorem run_finished {text : Text} {x y : NumberType f} {offset n : Nat}
    (h : run step text x offset = .finished y n) : y.set = true := by
  induction text generalizing x offset n with
  | nil => exact absurd h (by simp [run])
  | cons c rest ih =>
    rw [run] at h
    cases hstep : step x offset c with
    | failed =>
      rw [hstep] at h
      exact absurd h (by simp)
    | finished x' n' =>
      rw [hstep] at h
      obtain ⟨rfl, -⟩ := Run.finished.inj h
      exact step_finished hstep
    | next x' offset' =>
      rw [hstep] at h
      simp only at h
      cases hrun : run step rest x' offset' with
      | unfinished _ _ => rw [hrun] at h; exact absurd h (by simp [Run.succ])
      | failed => rw [hrun] at h; exact absurd h (by simp [Run.succ])
      | finished y' n' =>
        rw [hrun] at h
        obtain ⟨rfl, -⟩ := Run.finished.inj h
        exact ih hrun

/-- What the calls for the chunks of a text leave is its reading. -/
def Leaves (read : Loaded (NumberType f)) : Option (Reading f) → Prop
  | none => ¬(read.error = none ∧ read.offset = 0)
  | some (.null n) => read.error = none ∧ read.offset = 0 ∧ read.loaded = n ∧
      read.element.set = true ∧ read.element.undefined = true
  | some (.number v n) => read.error = none ∧ read.offset = 0 ∧ read.loaded = n ∧
      read.element.set = true ∧ read.element.undefined = false ∧ read.element.value = v

theorem deserializeAll_leaves (x : NumberType f) (text : Text) (htext : text ≠ []) (cut : Cut) :
    Leaves (IElement.deserializeAll x (cut.chunks text)) (reading (run step text x 0)) := by
  have hlive : x.Live 0 := .inl rfl
  have hcalls := bytewise.deserializeFrom_eq hlive (cut.nonempty text)
  have hwhole := bytewise.deserialize_eq hlive text
  rw [cut.flatten] at hcalls
  rw [IElement.deserializeAll]
  cases hrun : run step text x 0 with
  | unfinished y offset =>
    rw [hrun] at hcalls hwhole
    rw [hcalls]
    exact fun h => hwhole.2.1 htext h.2
  | failed =>
    rw [hrun] at hcalls
    intro h
    rw [h.1] at hcalls
    exact Bool.noConfusion hcalls
  | finished y n =>
    rw [hrun] at hcalls
    have hset := run_finished hrun
    rw [hcalls, reading]
    cases hy : y.undefined with
    | true => exact ⟨rfl, rfl, rfl, hset, hy⟩
    | false => exact ⟨rfl, rfl, rfl, hset, hy, rfl⟩

/-- A number that is read is the one behind the mark. -/
theorem reading_number {x : NumberType f} {text : Text} {v : f.Value} {n : Nat}
    (h : reading (run step text x 0) = some (.number v n)) : ∃ m, mark text = some m ∧
      Ends f m text ∧ v = m.number f text ∧ n = m.size + ((m.digits text).length + m.closed) := by
  rw [reading_text] at h
  cases hmark : mark text with
  | none =>
    rw [hmark, Option.bind_none, Option.none_or] at h
    obtain ⟨_, -, h⟩ := Option.map_eq_some_iff.mp h
    exact absurd h (by simp)
  | some m =>
    rw [hmark, Option.bind_some] at h
    by_cases hends : Ends f m text
    · rw [Mark.read_of_ends hends] at h
      obtain ⟨rfl, rfl⟩ := Reading.number.inj (Option.some.inj h)
      exact ⟨m, rfl, hends, rfl, rfl⟩
    · rw [Mark.read_of_not_ends hends, Option.none_or] at h
      obtain ⟨_, -, h⟩ := Option.map_eq_some_iff.mp h
      exact absurd h (by simp)

theorem reading_isNull {x : NumberType f} {text : Text} {n : Nat}
    (h : reading (run step text x 0) = some (.null n)) : nullMark text = some n := by
  rw [reading_text] at h
  cases hmark : (mark text).bind (Mark.read f · text) with
  | none =>
    rw [hmark, Option.none_or] at h
    obtain ⟨_, hn, h⟩ := Option.map_eq_some_iff.mp h
    obtain rfl := Reading.null.inj h
    exact hn
  | some r =>
    rw [hmark, Option.some_or] at h
    obtain ⟨m, -, hread⟩ := Option.bind_eq_some_iff.mp hmark
    obtain rfl := Option.some.inj h
    by_cases hends : Ends f m text
    · rw [Mark.read_of_ends hends] at hread
      exact absurd hread (by simp)
    · rw [Mark.read_of_not_ends hends] at hread
      exact absurd hread (by simp)

theorem mark_of_null {text : Text} {n : Nat} (h : nullMark text = some n) : mark text = none := by
  cases text with
  | nil => rfl
  | cons c rest =>
    rw [nullMark] at h
    split at h
    · next hc =>
      rw [hc]
      rfl
    · exact absurd h (by simp)

/-- A number is read again, but for the lowest one of a signed type. -/
theorem number_roundTrips_iff (v : f.Value) : RoundTrips v ↔ ¬(f.signed = true ∧ v.1 = f.min) := by
  constructor
  · rintro h ⟨hsigned, hmin⟩
    have hsizes : ∀ size ∈ [71], 0 < size := by decide
    have hfinished := (serializeAll_eq (x := (new f).assign v) rfl hsizes).2.1
      (Nat.lt_of_le_of_lt (length_text _) (by decide))
    obtain ⟨herror, hoffset, -, -, hdefined, hvalue⟩ :=
      h (new f) (new f) [71] .whole 0x2C [] hsizes (by simp) hfinished (by decide)
    have hleaves := deserializeAll_leaves (new f)
      ((IElement.serializeAll ((new f).assign v) [71]).1 ++ [0x2C]) (by simp) .whole
    cases hread : reading (run step ((IElement.serializeAll ((new f).assign v) [71]).1 ++ [0x2C])
        (new f) 0) with
    | none =>
      rw [hread] at hleaves
      exact hleaves ⟨herror, hoffset⟩
    | some r =>
      rw [hread] at hleaves
      cases r with
      | null n =>
        rw [hleaves.2.2.2.2] at hdefined
        exact Bool.noConfusion hdefined
      | number w n =>
        obtain ⟨m, -, hends, hw, -⟩ := reading_number hread
        have hne := number_ne_min hends hsigned
        rw [← hw, ← hleaves.2.2.2.2.2, hvalue] at hne
        exact hne hmin
  · intro h x y sizes cut c rest hsizes hne hfinished hend
    obtain ⟨t, ht, hvalue, hmax⟩ := text_token (x := x.assign v) h
    obtain ⟨htext, -, hall⟩ := serializeAll_eq (x := x.assign v) rfl hsizes
    obtain hnil | hroom := hall hfinished
    · exact absurd hnil hne
    rw [List.take_of_length_le hroom, ← ht] at htext
    have hread := t.reading hmax (c :: rest) (fun _ => ⟨c, rest, rfl, hend⟩) y
    have hcast : f.cast t.value = v := by
      rw [hvalue]
      exact cast_value v
    have hleaves := deserializeAll_leaves y (t.text ++ c :: rest) (by simp) cut
    rw [hread, hcast] at hleaves
    simp only [htext]
    exact hleaves

theorem number_sound_iff (text : Text) :
    (∀ (x : NumberType f) (cut : Cut), Sound x text cut) ↔ ¬Malformed f text := by
  constructor
  · rintro h (⟨m, hmark, hends, hnot⟩ | ⟨n, hnull, hnot⟩)
    · have htext : text ≠ [] := by
        rintro rfl
        exact absurd hmark (by simp [mark])
      have hleaves := deserializeAll_leaves (new f) text htext .whole
      rw [reading_text, hmark, Option.bind_some, Mark.read_of_ends hends] at hleaves
      obtain ⟨herror, hoffset, hloaded, -, hdefined, hvalue⟩ := hleaves
      obtain ⟨-, ⟨hundefined, -⟩ | ⟨-, t, ht, hv⟩⟩ := h (new f) .whole htext herror hoffset
      · rw [hdefined] at hundefined
        exact Bool.noConfusion hundefined
      · rw [hloaded] at ht
        rw [hvalue] at hv
        exact hnot (t.proper hmark hends ht hv)
    · have htext : text ≠ [] := by
        rintro rfl
        exact absurd hnull (by simp [nullMark])
      have hleaves := deserializeAll_leaves (new f) text htext .whole
      rw [reading_text, mark_of_null hnull, hnull] at hleaves
      obtain ⟨herror, hoffset, hloaded, -, hundefined⟩ := hleaves
      obtain ⟨-, ⟨-, htake⟩ | ⟨hdefined, -⟩⟩ := h (new f) .whole htext herror hoffset
      · rw [hloaded] at htake
        exact hnot htake
      · rw [hundefined] at hdefined
        exact Bool.noConfusion hdefined
  · intro h x cut htext herror hoffset
    have hleaves := deserializeAll_leaves x text htext cut
    cases hread : reading (run step text x 0) with
    | none =>
      rw [hread] at hleaves
      exact absurd ⟨herror, hoffset⟩ hleaves
    | some r =>
      rw [hread] at hleaves
      cases r with
      | null n =>
        obtain ⟨-, -, hloaded, hset, hundefined⟩ := hleaves
        refine ⟨hset, .inl ⟨hundefined, ?_⟩⟩
        rw [hloaded]
        by_contra hnot
        exact h (.inr ⟨n, reading_isNull hread, hnot⟩)
      | number v n =>
        obtain ⟨-, -, hloaded, hset, hdefined, hvalue⟩ := hleaves
        obtain ⟨m, hmark, hends, rfl, rfl⟩ := reading_number hread
        refine ⟨hset, .inr ⟨hdefined, ?_⟩⟩
        rw [hloaded, hvalue]
        by_cases hproper : Proper f m text
        · exact hproper.sound hmark hends
        · exact absurd (.inl ⟨m, hmark, hends, hproper⟩) h

/-- Numbers are exact but for the lowest ones of the signed types and the malformed texts. -/
theorem number_exact_iff (f : NumberFormat) :
    (∀ v : f.Value, RoundTrips v ↔ ¬(f.signed = true ∧ v.1 = f.min)) ∧
      ∀ text, (∀ (x : NumberType f) (cut : Cut), Sound x text cut) ↔ ¬Malformed f text :=
  ⟨number_roundTrips_iff, number_sound_iff⟩

/-- The number -128 of eight bits is written as a minus and the byte 0xB0. -/
theorem not_number_exact : ¬∀ f : NumberFormat, (∀ v : f.Value, RoundTrips v) ∧
    ∀ (text : Text) (x : NumberType f) (cut : Cut), Sound x text cut := by
  intro h
  have hlow := (h ⟨8, true, .decimal, by decide⟩).1 ⟨-128, by decide⟩
  have hread := hlow (new _) (new _) [8] .whole 0x2C [] (by decide) (by decide) (by decide)
    (by decide)
  exact absurd hread.1 (by decide)

end Thunder.Core.JSON.NumberType
