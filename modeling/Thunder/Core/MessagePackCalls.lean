import Thunder.Core.MessagePack

/-! What one call of `Deserialize` takes, element by element: never more than it gets, and a byte at
least unless it has finished. -/

namespace Thunder.Core.MessagePack

open JSON

/-- The call takes a byte at least and no more than its stream, and leaves the element between two
calls. -/
structure Takes {α : Type} (live : α → Nat → Prop) (stream : Text) (read : Unpacked α) : Prop where
  inside : read.loaded ≤ stream.length
  moves : 0 < read.loaded
  live : live read.element read.offset

variable {α : Type} {rest : Text} {read : Unpacked α}

/-- A header before what is read. -/
theorem Takes.header (live : α → Nat → Prop) (header : UInt8) (hinside : read.loaded ≤ rest.length)
    (hlive : live read.element read.offset) : Takes live (header :: rest) (read.after 1) := by
  refine ⟨?_, ?_, hlive⟩
  · show 1 + read.loaded ≤ rest.length + 1
    omega
  · show 0 < 1 + read.loaded
    omega

/-! ### Numbers -/

namespace Number

variable {f : NumberFormat}

/-- A number between two calls: the bytes that are read are no more than its size. -/
def Live (x : Number f) (offset : Nat) : Prop := offset = 0 ∨ (0 < offset ∧ offset ≤ x.size)

theorem start_live (x : Number f) (header : UInt8) :
    (x.start header).1.Live (x.start header).2 := by
  unfold start
  split_ifs
  · exact .inl rfl
  · exact .inr ⟨Nat.one_pos, Nat.one_le_two_pow⟩
  · exact .inr ⟨Nat.one_pos, Nat.one_le_two_pow⟩
  · exact .inl rfl
  · exact .inl rfl
  · exact .inl rfl

theorem valueLoop_live {x : Number f} {offset : Nat} (h : x.Live offset) (stream : Text) :
    (valueLoop stream x offset).element.Live (valueLoop stream x offset).offset ∧
      (valueLoop stream x offset).loaded ≤ stream.length ∧
      (offset ≠ 0 → stream ≠ [] → 0 < (valueLoop stream x offset).loaded) := by
  induction stream generalizing x offset with
  | nil => exact ⟨h, Nat.le_refl _, fun _ hne => absurd rfl hne⟩
  | cons c rest ih =>
    rw [valueLoop]
    by_cases hzero : offset = 0
    · rw [if_neg (not_not.mpr hzero)]
      exact ⟨h, Nat.zero_le _, fun hne => absurd hzero hne⟩
    · rw [if_pos hzero]
      obtain h | ⟨-, hle⟩ := h
      · exact absurd h hzero
      have hnext : ({ x with
          value := f.cast ((f.cast (x.value.1 * 2 ^ 8)).1 + c.toNat) } : Number f).Live
          (if offset = x.size then 0 else offset + 1) := by
        split
        · exact .inl rfl
        · exact .inr ⟨Nat.succ_pos _, by show offset + 1 ≤ x.size; omega⟩
      obtain ⟨hlive, hinside, -⟩ := ih hnext
      have htaken := Takes.header Live c hinside hlive
      exact ⟨htaken.live, htaken.inside, fun _ _ => htaken.moves⟩

theorem deserialize_takes {x : Number f} {stream : Text} {offset : Nat} (h : x.Live offset)
    (hstream : stream ≠ []) : Takes Live stream (x.deserialize stream offset) := by
  obtain ⟨header, rest, rfl⟩ := List.exists_cons_of_ne_nil hstream
  cases offset with
  | zero =>
    obtain ⟨hlive, hinside, -⟩ := valueLoop_live (x.start_live header) rest
    have htaken := Takes.header Live header hinside hlive
    exact ⟨htaken.inside, htaken.moves, htaken.live⟩
  | succ offset =>
    obtain ⟨hlive, hinside, hpos⟩ := valueLoop_live h (header :: rest)
    exact ⟨hinside, hpos (Nat.succ_ne_zero _) hstream, hlive⟩

end Number

namespace Float

theorem valueLoop_loaded (stream : Text) (x : Float) (bytes : Nat) :
    (valueLoop stream x bytes).loaded ≤ stream.length := by
  induction stream generalizing x bytes with
  | nil => exact Nat.le_refl _
  | cons c rest ih =>
    cases bytes with
    | zero => exact Nat.zero_le _
    | succ bytes =>
      have := ih { x with memory := x.memory.set bytes c } bytes
      show 1 + _ ≤ rest.length + 1
      omega

theorem deserialize_takes (x : Float) {stream : Text} (hstream : stream ≠ []) :
    Takes (fun _ offset => offset = 0) stream (x.deserialize stream 0) := by
  obtain ⟨header, rest, rfl⟩ := List.exists_cons_of_ne_nil hstream
  have hinside := valueLoop_loaded rest (x.start header).1 (x.start header).2
  have htaken := Takes.header (fun _ _ => True) header hinside trivial
  exact ⟨htaken.inside, htaken.moves, rfl⟩

end Float

theorem Boolean.deserialize_takes (x : Boolean) {stream : Text} (hstream : stream ≠ []) :
    Takes (fun _ offset => offset = 0) stream (x.deserialize stream 0) :=
  ⟨List.length_pos_iff.mpr hstream, Nat.one_pos, rfl⟩

/-! ### Enumerations -/

namespace Enum

def Live (x : Enum) (offset : Nat) : Prop := x.package.Live offset

theorem complete_package (x : Enum) : x.complete.package = x.package := by
  unfold complete
  split_ifs <;> rfl

theorem deserialize_takes {x : Enum} {stream : Text} {offset : Nat} (h : x.Live offset)
    (hstream : stream ≠ []) : Takes Live stream (x.deserialize stream offset) := by
  rw [deserialize]
  split
  · exact ⟨List.length_pos_iff.mpr hstream, Nat.one_pos, .inl rfl⟩
  · obtain ⟨hinside, hmoves, hlive⟩ := Number.deserialize_takes h hstream
    refine ⟨hinside, hmoves, ?_⟩
    show (ite (_ = 0) (complete _) _ : Enum).package.Live _
    split
    · rw [complete_package]
      exact hlive
    · exact hlive

end Enum

/-! ### Strings -/

namespace String

/-- A string between two calls: at a byte of the length, or with bytes to come. -/
def Live (s : JSON.String) (offset : Nat) : Prop :=
  offset = 0 ∨ (offset = 1 ∧ s.storage = 0) ∨ (offset = 2 ∧ s.storage < 256) ∨
    (3 ≤ offset ∧ s.storage < 65536 ∧ offset - 3 < s.storage)

/-- Behind the header there may also be no byte to come. -/
def Behind (s : JSON.String) (offset : Nat) : Prop :=
  (offset = 1 ∧ s.storage = 0) ∨ (offset = 2 ∧ s.storage < 256) ∨
    (3 ≤ offset ∧ s.storage < 65536 ∧ offset - 3 ≤ s.storage)

theorem start_behind (s : JSON.String) (header : UInt8) (maxLength : Nat) :
    ((start s header maxLength).2.2 = 0 ∧
      ((start s header maxLength).2.1 = 1 ∨ (start s header maxLength).2.1 = maxLength)) ∨
    ((start s header maxLength).2.2 ≠ 0 ∧
      Behind (start s header maxLength).1 (start s header maxLength).2.2) := by
  unfold start
  split_ifs
  · exact .inl ⟨rfl, .inl rfl⟩
  · have hstorage : (header &&& 0x1F).toNat < 65536 :=
      Nat.lt_trans (header &&& 0x1F).toNat_lt (by decide)
    exact .inr ⟨Nat.succ_ne_zero _, .inr (.inr ⟨Nat.le_refl 3, hstorage, Nat.zero_le _⟩)⟩
  · exact .inr ⟨Nat.succ_ne_zero _, .inr (.inl ⟨rfl, Nat.zero_lt_succ _⟩)⟩
  · exact .inr ⟨Nat.succ_ne_zero _, .inl ⟨rfl, rfl⟩⟩
  · exact .inl ⟨rfl, .inr rfl⟩

/-- The length is read to its end, or to the end of the stream. -/
theorem lengthLoop_behind {s : JSON.String} {offset : Nat} (h : Behind s offset) (stream : Text) :
    Behind (lengthLoop stream s offset).element (lengthLoop stream s offset).offset ∧
      (lengthLoop stream s offset).loaded ≤ stream.length ∧
      (offset < 3 → stream ≠ [] → 0 < (lengthLoop stream s offset).loaded) ∧
      (3 ≤ offset → lengthLoop stream s offset = ⟨s, 0, offset⟩) ∧
      (3 ≤ (lengthLoop stream s offset).offset ∨
        (lengthLoop stream s offset).loaded = stream.length) := by
  induction stream generalizing s offset with
  | nil => exact ⟨h, Nat.le_refl _, fun _ hne => absurd rfl hne, fun _ => rfl, .inr rfl⟩
  | cons c rest ih =>
    rw [lengthLoop]
    by_cases hlength : offset < 3
    · rw [if_pos hlength]
      have hnext : Behind { s with storage := u32 (u32 (s.storage <<< 8) + c.toNat) }
          (offset + 1) := by
        have hc := c.toNat_lt
        unfold Behind u32
        simp only [Nat.shiftLeft_eq]
        unfold Behind at h
        omega
      obtain ⟨hlive, hinside, -, -, hend⟩ := ih hnext
      have htaken := Takes.header Behind c hinside hlive
      refine ⟨htaken.live, htaken.inside, fun _ _ => htaken.moves,
        fun hle => absurd hlength (by omega), ?_⟩
      apply hend.imp_right
      intro hend
      show 1 + _ = rest.length + 1
      omega
    · rw [if_neg hlength]
      exact ⟨h, Nat.zero_le _, fun hlt => absurd hlt hlength, fun _ => rfl,
        .inl (Nat.le_of_not_lt hlength)⟩

/-- The bytes are read to their end, or to the end of the stream. -/
theorem valueLoop_behind {s : JSON.String} {offset : Nat} (hoffset : 3 ≤ offset)
    (hstorage : s.storage < 65536) (hle : offset - 3 ≤ s.storage) (stream : Text) :
    (valueLoop stream s offset).element.storage = s.storage ∧
      3 ≤ (valueLoop stream s offset).offset ∧
      (valueLoop stream s offset).offset - 3 ≤ s.storage ∧
      (valueLoop stream s offset).loaded ≤ stream.length ∧
      (offset - 3 < s.storage → stream ≠ [] → 0 < (valueLoop stream s offset).loaded) := by
  induction stream generalizing s offset with
  | nil => exact ⟨rfl, hoffset, hle, Nat.le_refl _, fun _ hne => absurd rfl hne⟩
  | cons c rest ih =>
    rw [valueLoop, u16, Nat.mod_eq_of_lt hstorage]
    by_cases hbyte : offset - 3 < s.storage
    · rw [if_pos hbyte]
      obtain ⟨hsame, hthree, hend, hinside, -⟩ :=
        ih (s := { s with value := s.value ++ [c] }) (show 3 ≤ offset + 1 by omega) hstorage
          (show offset + 1 - 3 ≤ s.storage by omega)
      have htaken := Takes.header (fun _ _ => True) c hinside trivial
      exact ⟨hsame, hthree, hend, htaken.inside, fun _ _ => htaken.moves⟩
    · rw [if_neg hbyte]
      exact ⟨rfl, hoffset, hle, Nat.zero_le _, fun hlt => absurd hlt hbyte⟩

/-- A string of which the bytes are read, or not all of them. -/
theorem finish_live (value : Unpacked JSON.String)
    (hlength : value.offset < 3 → Live value.element value.offset)
    (hbytes : 3 ≤ value.offset →
      value.element.storage < 65536 ∧ value.offset - 3 ≤ value.element.storage) :
    let last := if 3 ≤ value.offset ∧ u16 (value.offset - 3) = value.element.storage then
      ⟨complete value.element, value.loaded, 0⟩ else value
    Live last.element last.offset ∧ last.loaded = value.loaded := by
  simp only
  split
  · exact ⟨.inl rfl, rfl⟩
  · rename_i hopen
    refine ⟨?_, rfl⟩
    by_cases hthree : 3 ≤ value.offset
    · obtain ⟨hstorage, hle⟩ := hbytes hthree
      rw [u16, Nat.mod_eq_of_lt (by omega)] at hopen
      exact .inr (.inr (.inr ⟨hthree, hstorage, by omega⟩))
    · exact hlength (Nat.lt_of_not_le hthree)

/-- Behind the header no more than the stream is taken, and something unless the string is
complete. -/
theorem behind_live {s : JSON.String} {offset : Nat} (h : Behind s offset) (stream : Text) :
    Live (behind s stream offset).element (behind s stream offset).offset ∧
      (behind s stream offset).loaded ≤ stream.length ∧
      (Live s offset → stream ≠ [] → 0 < (behind s stream offset).loaded) := by
  obtain ⟨hbehind, hinside, hmoves, hdone, hend⟩ := lengthLoop_behind h stream
  rw [behind]
  set length := lengthLoop stream s offset with hset
  by_cases hthree : 3 ≤ length.offset
  · have hbytes : length.element.storage < 65536 ∧ length.offset - 3 ≤ length.element.storage := by
      unfold Behind at hbehind
      omega
    obtain ⟨hsame, hoffset, hle, hloaded, hpos⟩ :=
      valueLoop_behind hthree hbytes.1 hbytes.2 (stream.drop length.loaded)
    set value := valueLoop (stream.drop length.loaded) length.element length.offset
    obtain ⟨hlive, hsum⟩ := finish_live (value.after length.loaded)
      (fun hlt => absurd hlt (Nat.not_lt.mpr hoffset))
      (fun _ => by
        show value.element.storage < 65536 ∧ value.offset - 3 ≤ value.element.storage
        omega)
    refine ⟨hlive, ?_, fun hopen hne => ?_⟩
    · rw [hsum]
      rw [List.length_drop] at hloaded
      show length.loaded + value.loaded ≤ _
      omega
    · rw [hsum]
      show 0 < length.loaded + value.loaded
      by_cases hlt : offset < 3
      · exact Nat.add_pos_left (hmoves hlt hne) _
      · have hsome := hdone (Nat.le_of_not_lt hlt)
        apply Nat.add_pos_right
        apply hpos
        · rw [hsome]
          unfold Live at hopen
          show offset - 3 < s.storage
          omega
        · rw [hsome]
          exact hne
  · have hall := hend.resolve_left hthree
    have hnil : stream.drop length.loaded = [] := List.drop_eq_nil_of_le (Nat.le_of_eq hall.symm)
    rw [hnil]
    obtain ⟨hlive, hsum⟩ := finish_live
      ((valueLoop [] length.element length.offset).after length.loaded)
      (fun _ => by
        show Live length.element length.offset
        unfold Live
        unfold Behind at hbehind
        omega)
      (fun hle => absurd hle hthree)
    refine ⟨hlive, ?_, fun _ hne => ?_⟩
    · rw [hsum]
      exact hinside
    · rw [hsum]
      show 0 < length.loaded + 0
      rw [Nat.add_zero, hall]
      exact List.length_pos_iff.mpr hne

theorem Live.behind {s : JSON.String} {offset : Nat} (h : Live s offset) (hne : offset ≠ 0) :
    Behind s offset := by
  unfold Behind
  unfold Live at h
  omega

theorem deserialize_takes {s : JSON.String} {stream : Text} {offset : Nat} (h : Live s offset)
    (hstream : stream ≠ []) : Takes Live stream (deserialize s stream offset) := by
  obtain ⟨header, rest, rfl⟩ := List.exists_cons_of_ne_nil hstream
  cases offset with
  | zero =>
    rw [deserialize]
    obtain ⟨hzero, htaken⟩ | ⟨hne, hbehind⟩ := start_behind s header (rest.length + 1)
    · rw [if_pos hzero]
      have hloaded : 0 < (start s header (rest.length + 1)).2.1 ∧
          (start s header (rest.length + 1)).2.1 ≤ rest.length + 1 := by
        omega
      exact ⟨hloaded.2, hloaded.1, .inl rfl⟩
    · rw [if_neg hne]
      obtain ⟨hlive, hinside, -⟩ := behind_live hbehind rest
      exact Takes.header Live header hinside hlive
  | succ offset =>
    obtain ⟨hlive, hinside, hpos⟩ := behind_live (h.behind (Nat.succ_ne_zero _)) (header :: rest)
    exact ⟨hinside, hpos h hstream, hlive⟩

theorem lengthLoop_set (stream : Text) (s : JSON.String) (offset : Nat) :
    (lengthLoop stream s offset).element.set = s.set := by
  induction stream generalizing s offset with
  | nil => rfl
  | cons c rest ih =>
    rw [lengthLoop]
    split
    · exact ih _ _
    · rfl

theorem valueLoop_set (stream : Text) (s : JSON.String) (offset : Nat) :
    (valueLoop stream s offset).element.set = s.set := by
  induction stream generalizing s offset with
  | nil => rfl
  | cons c rest ih =>
    rw [valueLoop]
    split
    · exact ih _ _
    · rfl

theorem behind_set {s : JSON.String} {stream : Text} {offset : Nat}
    (h : (behind s stream offset).offset ≠ 0) : (behind s stream offset).element.set = s.set := by
  rw [behind] at h ⊢
  split
  · rename_i hall
    rw [if_pos hall] at h
    exact absurd rfl h
  · exact (valueLoop_set _ _ _).trans (lengthLoop_set _ _ _)

theorem start_set (s : JSON.String) (header : UInt8) (maxLength : Nat) :
    (start s header maxLength).1.set = s.set := by
  unfold start
  split_ifs <;> rfl

/-- Only a string that is read to its end becomes set. -/
theorem deserialize_set {s : JSON.String} {stream : Text} {offset : Nat}
    (h : (deserialize s stream offset).offset ≠ 0) :
    (deserialize s stream offset).element.set = s.set := by
  cases offset with
  | succ offset =>
    cases stream with
    | nil => exact behind_set h
    | cons header rest => exact behind_set h
  | zero =>
    cases stream with
    | nil => exact absurd rfl h
    | cons header rest =>
      rw [deserialize] at h ⊢
      by_cases hzero : (start s header (rest.length + 1)).2.2 = 0
      · rw [if_pos hzero] at h
        exact absurd rfl h
      · rw [if_neg hzero] at h ⊢
        exact (behind_set h).trans (start_set s header _)

end String

/-! ### Buffers -/

namespace Buffer

/-- A buffer between two calls: at a byte of the length, or with bytes to come. -/
def Live (b : JSON.Buffer) (offset : Nat) : Prop :=
  offset = 0 ∨ ((offset = 1 ∨ offset = 2) ∧ b.index = 0) ∨ (offset = 4 ∧ b.index < b.length)

theorem start_live (b : JSON.Buffer) (header : UInt8) :
    ((start b header).2.2 = 0 ∧ (start b header).2.1 ≤ 1) ∨
    ((start b header).2.2 ≠ 0 ∧ Live (start b header).1 (start b header).2.2) := by
  unfold start
  split_ifs
  · exact .inl ⟨rfl, Nat.le_refl _⟩
  · exact .inr ⟨Nat.succ_ne_zero _, .inr (.inl ⟨.inr rfl, rfl⟩)⟩
  · exact .inr ⟨Nat.succ_ne_zero _, .inr (.inl ⟨.inl rfl, rfl⟩)⟩
  · exact .inl ⟨rfl, Nat.zero_le _⟩

theorem lengthLoop_index (stream : Text) (b : JSON.Buffer) (offset : Nat) :
    (lengthLoop stream b offset).element.index = b.index ∧
      (lengthLoop stream b offset).loaded ≤ stream.length ∧
      (offset < 3 → stream ≠ [] → 0 < (lengthLoop stream b offset).loaded) ∧
      (3 ≤ offset → lengthLoop stream b offset = ⟨b, 0, offset⟩) ∧
      (offset ≤ 3 → (lengthLoop stream b offset).offset ≤ 3) ∧
      offset ≤ (lengthLoop stream b offset).offset ∧
      (3 ≤ (lengthLoop stream b offset).offset ∨
        (lengthLoop stream b offset).loaded = stream.length) := by
  induction stream generalizing b offset with
  | nil =>
    exact ⟨rfl, Nat.le_refl _, fun _ hne => absurd rfl hne, fun _ => rfl, id, Nat.le_refl _,
      .inr rfl⟩
  | cons c rest ih =>
    rw [lengthLoop]
    by_cases hlength : offset < 3
    · rw [if_pos hlength]
      obtain ⟨hindex, hinside, -, -, hle, hge, hend⟩ :=
        ih { b with length := u16 ((b.length <<< 8) + c.toNat) } (offset + 1)
      have htaken := Takes.header (fun _ _ => True) c hinside trivial
      refine ⟨hindex, htaken.inside, fun _ _ => htaken.moves,
        fun hthree => absurd hlength (Nat.not_lt.mpr hthree), fun _ => hle hlength,
        Nat.le_of_succ_le hge, ?_⟩
      apply hend.imp_right
      intro hend
      show 1 + _ = rest.length + 1
      omega
    · rw [if_neg hlength]
      exact ⟨rfl, Nat.zero_le _, fun hlt => absurd hlt hlength, fun _ => rfl, id, Nat.le_refl _,
        .inl (Nat.le_of_not_lt hlength)⟩

theorem valueLoop_index {b : JSON.Buffer} (h : b.index ≤ b.length) (stream : Text) :
    (valueLoop stream b).element.index ≤ (valueLoop stream b).element.length ∧
      (valueLoop stream b).loaded ≤ stream.length ∧
      (b.index < b.length → stream ≠ [] → 0 < (valueLoop stream b).loaded) := by
  induction stream generalizing b with
  | nil => exact ⟨h, Nat.le_refl _, fun _ hne => absurd rfl hne⟩
  | cons c rest ih =>
    rw [valueLoop]
    by_cases hbyte : b.index < b.length
    · rw [if_pos hbyte]
      obtain ⟨hle, hinside, -⟩ := ih (b := b.push c) hbyte
      have htaken := Takes.header (fun _ _ => True) c hinside trivial
      exact ⟨hle, htaken.inside, fun _ _ => htaken.moves⟩
    · rw [if_neg hbyte]
      exact ⟨h, Nat.zero_le _, fun hlt => absurd hlt hbyte⟩

/-- The memory is made as long as the buffer. -/
theorem grown_index (b : JSON.Buffer) (c : Prop) [Decidable c] :
    (if c then { b with maxLength := b.length } else b).index = b.index ∧
      (if c then { b with maxLength := b.length } else b).length = b.length := by
  split <;> exact ⟨rfl, rfl⟩

/-- Behind the header no more than the stream is taken, and something. -/
theorem behind_takes {b : JSON.Buffer} {offset : Nat} (h : Live b offset) (hne : offset ≠ 0)
    (stream : Text) :
    Live (behind b stream offset).element (behind b stream offset).offset ∧
      (behind b stream offset).loaded ≤ stream.length ∧
      (stream ≠ [] → 0 < (behind b stream offset).loaded) := by
  obtain ⟨hindex, hinside, hmoves, hdone, hthree, hge, hend⟩ := lengthLoop_index stream b offset
  rw [behind]
  set length := lengthLoop stream b offset
  set grown := if length.offset = 3 ∧ length.element.maxLength < length.element.length then
    { length.element with maxLength := length.element.length } else length.element with hgrown
  obtain ⟨hsame, hbytes⟩ : grown.index = length.element.index ∧
      grown.length = length.element.length := by
    rw [hgrown]
    exact grown_index _ _
  have hle : grown.index ≤ grown.length := by
    rw [hsame, hbytes]
    obtain h | ⟨-, h⟩ | ⟨hfour, h⟩ := h
    · exact absurd h hne
    · rw [hindex, h]
      exact Nat.zero_le _
    · rw [hdone (by omega)]
      exact Nat.le_of_lt h
  obtain ⟨hindexed, hloaded, hpos⟩ := valueLoop_index hle (stream.drop length.loaded)
  rw [List.length_drop] at hloaded
  refine ⟨?_, ?_, fun hstream => ?_⟩
  · show Live (valueLoop (stream.drop length.loaded) grown).element (ite _ _ _)
    split
    · exact .inl rfl
    · rename_i hopen
      have hlt := Nat.lt_of_le_of_ne hindexed hopen
      split
      · exact .inr (.inr ⟨rfl, hlt⟩)
      · rename_i hshort
        obtain h | ⟨hlength, h⟩ | ⟨hfour, h⟩ := h
        · exact absurd h hne
        · -- The stream ends within the length.
          have hall := hend.resolve_left (by omega)
          rw [List.drop_eq_nil_of_le (Nat.le_of_eq hall.symm)]
          exact .inr (.inl ⟨by omega, hsame.trans (hindex.trans h)⟩)
        · refine .inr (.inr ⟨?_, hlt⟩)
          rw [hdone (by omega)]
          exact hfour
  · show length.loaded + _ ≤ _
    omega
  · show 0 < length.loaded + _
    obtain h | ⟨hlength, h⟩ | ⟨hfour, h⟩ := h
    · exact absurd h hne
    · exact Nat.add_pos_left (hmoves (by omega) hstream) _
    · have hsome := hdone (by omega)
      apply Nat.add_pos_right
      apply hpos
      · rw [hsame, hbytes, hsome]
        exact h
      · rw [hsome]
        exact hstream

theorem deserialize_live {b : JSON.Buffer} {stream : Text} {offset : Nat} (h : Live b offset)
    (hstream : stream ≠ []) :
    Live (deserialize b stream offset).element (deserialize b stream offset).offset ∧
      (deserialize b stream offset).loaded ≤ stream.length ∧
      (0 < (deserialize b stream offset).loaded ∨ (deserialize b stream offset).offset = 0) := by
  obtain ⟨header, rest, rfl⟩ := List.exists_cons_of_ne_nil hstream
  cases offset with
  | zero =>
    rw [deserialize]
    obtain ⟨hzero, htaken⟩ | ⟨hne, hlive⟩ := start_live b header
    · rw [if_pos hzero]
      exact ⟨.inl rfl, Nat.le_trans htaken (Nat.succ_pos _), .inr rfl⟩
    · rw [if_neg hne]
      obtain ⟨hlive, hinside, -⟩ := behind_takes hlive hne rest
      have htaken := Takes.header Live header hinside hlive
      exact ⟨htaken.live, htaken.inside, .inl htaken.moves⟩
  | succ offset =>
    obtain ⟨hlive, hinside, hpos⟩ := behind_takes h (Nat.succ_ne_zero _) (header :: rest)
    exact ⟨hlive, hinside, .inl (hpos hstream)⟩

end Buffer

end Thunder.Core.MessagePack
