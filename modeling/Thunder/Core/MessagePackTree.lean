import Thunder.Core.MessagePackCalls

/-! `Deserialize` of a tree of elements of which every array is one of Booleans: it returns, takes
what it gets at most, and has finished if it takes nothing. -/

namespace Thunder.Core.MessagePack

open JSON

/-- The field that a container reads, between two calls: its name, a value to skip or a field. -/
def CurrentLive (live : Element → Nat → Prop) (c : ContainerState)
    (fields : List (Text × Element)) (offset : Nat) : Prop :=
  if c.fieldName.set then
    match c.current with
    | .none => offset = 0
    | .fieldName => String.Live c.fieldName offset
    | .field index => ∃ field, fields[index]? = some field ∧ live field.2 offset
  else String.Live c.fieldName offset

namespace Element

def isBoolean : Element → Bool
  | boolean _ => true
  | _ => false

/-- An element that takes a byte at least, whatever it gets. -/
def Eager : Element → Bool
  | array _ _ _ => false
  | buffer _ => false
  | _ => true

/-- An element between two calls, with the height of the tree. -/
def Live : Nat → Element → Nat → Prop
  | 0, _, _ => False
  | height + 1, element, offset =>
    match element with
    | number _ x => x.Live offset
    | float _ => offset = 0
    | boolean _ => offset = 0
    | string s => String.Live s offset
    | buffer b => Buffer.Live b offset
    | enum x => x.Live offset
    | array _ fresh data =>
      fresh.isBoolean ∧ (∀ x ∈ data, x.isBoolean) ∧ (offset ≤ 2 ∨ offset = Array.PARSE)
    | container c fields =>
      (∀ field ∈ fields, Live height field.2 0) ∧
      (∀ index, c.current = .field index → index < fields.length) ∧
      (offset ≤ 2 ∨ (Container.PARSE ≤ offset ∧
        CurrentLive (Live height) c fields (offset - Container.PARSE)))

theorem Live.zero {height : Nat} {e : Element} {offset : Nat} (h : Live height e offset) :
    Live height e 0 := by
  cases height with
  | zero => exact h
  | succ height =>
    cases e with
    | number f x => exact .inl rfl
    | float x => rfl
    | boolean x => rfl
    | string s => exact .inl rfl
    | buffer b => exact .inl rfl
    | enum x => exact .inl rfl
    | array a fresh data => exact ⟨h.1, h.2.1, .inl (Nat.zero_le _)⟩
    | container c fields => exact ⟨h.1, h.2.1, .inl (Nat.zero_le _)⟩

/-- What a call of `Deserialize` does. -/
structure Reads (height : Nat) (e : Element) (stream : Text) (offset : Nat)
    (read : Unpacked Element) : Prop where
  inside : read.loaded ≤ stream.length
  moves : 0 < read.loaded ∨ read.offset = 0
  live : Live height read.element read.offset
  eager : e.Eager → read.element.Eager ∧ (offset = 0 → 0 < read.loaded)

end Element

open Element

/-- The bytes of a count are taken, one after the other. -/
theorem countLoop_live (behind : Nat → Nat) (hbehind : ∀ n, behind n ≠ 1 ∧ behind n ≠ 2)
    (stream : Text) (count offset : Nat) :
    (countLoop behind stream count offset).loaded ≤ stream.length ∧
      (offset = 1 ∨ offset = 2 →
        (stream ≠ [] → 0 < (countLoop behind stream count offset).loaded) ∧
        ((countLoop behind stream count offset).offset ≤ 2 ∨
          ∃ n, (countLoop behind stream count offset).offset = behind n)) ∧
      (offset ≠ 1 → offset ≠ 2 → countLoop behind stream count offset = ⟨count, 0, offset⟩) := by
  induction stream generalizing count offset with
  | nil =>
    refine ⟨Nat.le_refl _, fun h => ⟨fun hne => absurd rfl hne, .inl ?_⟩, fun _ _ => rfl⟩
    show offset ≤ 2
    omega
  | cons c rest ih =>
    rw [countLoop]
    set next := u16 (count <<< 8 ||| c.toNat)
    by_cases hone : offset = 1
    · rw [if_pos hone]
      obtain ⟨hinside, hlive, -⟩ := ih next 2
      have htaken := Takes.header (fun _ _ => True) c hinside trivial
      exact ⟨htaken.inside, fun _ => ⟨fun _ => htaken.moves, (hlive (.inr rfl)).2⟩,
        fun hne => absurd hone hne⟩
    · rw [if_neg hone]
      by_cases htwo : offset = 2
      · rw [if_pos htwo]
        obtain ⟨hinside, -, hdone⟩ := ih next (behind next)
        have htaken := Takes.header (fun _ _ => True) c hinside trivial
        refine ⟨htaken.inside, fun _ => ⟨fun _ => htaken.moves, .inr ⟨next, ?_⟩⟩,
          fun _ hne => absurd htwo hne⟩
        show (countLoop behind rest next (behind next)).offset = _
        rw [hdone (hbehind next).1 (hbehind next).2]
      · rw [if_neg htwo]
        refine ⟨Nat.zero_le _, fun h => ?_, fun _ _ => rfl⟩
        omega

/-! ### Arrays of Booleans -/

namespace Array

variable {call : Call Element} {stream : Text} {fresh : Element}

/-- A call of an element that is a Boolean. -/
def Booleans (call : Call Element) (stream : Text) : Prop :=
  ∀ x : Element, x.isBoolean → ∃ y : Element, y.isBoolean ∧ call x stream 0 = some ⟨y, 1, 0⟩

theorem elementLoop_live (hcall : Booleans call stream) (hfresh : fresh.isBoolean)
    (hlength : stream.length < 65536) (turns count : Nat) (data : List Element)
    (loaded offset : Nat) (hturns : stream.length - loaded < turns)
    (hdata : ∀ x ∈ data, x.isBoolean) (hoffset : offset ≤ 2 ∨ offset = PARSE)
    (hloaded : loaded ≤ stream.length) :
    ∃ last, elementLoop call fresh stream turns count data loaded offset = some last ∧
      (∀ x ∈ last.2.1, x.isBoolean) ∧ last.2.2.1 ≤ stream.length ∧ loaded ≤ last.2.2.1 ∧
      (last.2.2.2 ≤ 2 ∨ last.2.2.2 = PARSE) ∧
      (offset ≤ 2 → last.2.2.2 = offset) ∧
      (loaded < stream.length → offset = PARSE → loaded < last.2.2.1 ∨ last.2.2.2 = 0) := by
  induction turns generalizing count data loaded offset with
  | zero => exact absurd hturns (Nat.not_lt_zero _)
  | succ turns ih =>
    rw [elementLoop]
    by_cases hmore : loaded < stream.length ∧ PARSE ≤ offset
    · have hparse : offset = PARSE := by
        apply hoffset.resolve_left
        have : 5 ≤ offset := hmore.2
        omega
      subst hparse
      rw [if_pos hmore]
      by_cases hcount : count = 0
      · rw [if_pos ⟨rfl, hcount⟩]
        exact ⟨_, rfl, hdata, hloaded, Nat.le_refl _, .inl (Nat.zero_le _),
          fun hle => absurd hle (by decide), fun _ _ => .inr rfl⟩
      · rw [if_neg (fun h => hcount h.2)]
        simp only [if_pos, List.getLast?_concat, List.dropLast_concat, Nat.sub_self]
        obtain ⟨y, hy, hread⟩ := hcall fresh hfresh
        rw [hread]
        simp only [Nat.zero_add]
        rw [u16, Nat.mod_eq_of_lt (by omega)]
        obtain ⟨last, hlast, hbooleans, hinside, hle, hend, -, -⟩ :=
          ih (count - 1) (data ++ [y]) (loaded + 1) PARSE (by omega) (by
              intro x hx
              obtain hx | hx := List.mem_append.mp hx
              · exact hdata x hx
              · rw [List.mem_singleton.mp hx]
                exact hy) (.inr rfl) (by omega)
        exact ⟨last, hlast, hbooleans, hinside, by omega, hend, fun hle => absurd hle (by decide),
          fun _ _ => .inl (by omega)⟩
    · rw [if_neg hmore]
      refine ⟨_, rfl, hdata, hloaded, Nat.le_refl _, hoffset, fun _ => rfl, fun hlt hparse => ?_⟩
      exact absurd ⟨hlt, Nat.le_of_eq hparse.symm⟩ hmore

theorem start_live (a : ArrayState) (header : UInt8) :
    ((start a header).2 = (1, 0)) ∨ (start a header).2 = (0, PARSE) ∨
      (start a header).2 = (0, 1) ∨ (start a header).2 = (0, 0) := by
  unfold start
  split_ifs
  · exact .inl rfl
  · exact .inr (.inl rfl)
  · exact .inr (.inr (.inl rfl))
  · exact .inr (.inr (.inr rfl))

/-- An array of Booleans takes what it gets at most, and has finished if it takes nothing. -/
theorem deserialize_reads {height turns : Nat} {a : ArrayState} {data : List Element}
    {offset : Nat} (hcall : Booleans call stream) (hturns : stream.length < turns)
    (hlength : stream.length < 65536) (hstream : stream ≠ [])
    (h : Live (height + 1) (.array a fresh data) offset) :
    ∃ read, deserialize call turns a fresh data stream offset = some read ∧
      Reads (height + 1) (.array a fresh data) stream offset read := by
  obtain ⟨hfresh, hdata, hoffset⟩ := h
  rw [deserialize]
  simp only
  have hpos := List.length_pos_iff.mpr hstream
  -- What the header leaves: one of four offsets.
  set first := if offset = 0 then start a (stream.getD 0 0) else (a, 0, offset) with hfirst
  have hcases : (first.2 = (1, 0)) ∨ (first.2 = (0, PARSE)) ∨
      (first.2.1 = 0 ∧ (first.2.2 = 1 ∨ first.2.2 = 2)) ∨ (first.2 = (0, 0)) := by
    by_cases hzero : offset = 0
    · rw [hfirst, if_pos hzero]
      obtain h | h | h | h := start_live a (stream.getD 0 0)
      · exact .inl h
      · exact .inr (.inl h)
      · exact .inr (.inr (.inl ⟨congrArg Prod.fst h, .inl (congrArg Prod.snd h)⟩))
      · exact .inr (.inr (.inr h))
    · rw [hfirst, if_neg hzero]
      obtain hoffset | hoffset := hoffset
      · exact .inr (.inr (.inl ⟨rfl, by show offset = 1 ∨ offset = 2; omega⟩))
      · exact .inr (.inl (by rw [hoffset]))
  obtain ⟨hinside, hahead, hdone⟩ := countLoop_live (fun _ => PARSE)
    (fun _ => ⟨by decide, by decide⟩) (stream.drop first.2.1) first.1.count first.2.2
  set count := countLoop (fun _ => PARSE) (stream.drop first.2.1) first.1.count first.2.2
  rw [List.length_drop] at hinside
  have hcount : first.2.1 + count.loaded ≤ stream.length := by
    have : first.2.1 ≤ 1 := by
      obtain h | h | h | h := hcases <;> simp [h]
    omega
  have hend : (0 < first.2.1 + count.loaded ∧ (count.offset ≤ 2 ∨ count.offset = PARSE)) ∨
      count.offset = 0 ∨ count.offset = PARSE := by
    obtain h | h | ⟨hnone, h⟩ | h := hcases
    · rw [hdone (by rw [h]; decide) (by rw [h]; decide), h]
      exact .inr (.inl rfl)
    · rw [hdone (by rw [h]; decide) (by rw [h]; decide), h]
      exact .inr (.inr rfl)
    · obtain ⟨hmoves, hlast⟩ := hahead h
      refine .inl ⟨Nat.add_pos_right _ (hmoves ?_), hlast.imp_right fun h => h.elim fun _ => id⟩
      rw [hnone]
      exact hstream
    · rw [hdone (by rw [h]; decide) (by rw [h]; decide), h]
      exact .inr (.inl rfl)
  obtain ⟨last, hlast, hbooleans, hlastInside, hle, hlastOffset, hsame, hmoves⟩ :=
    elementLoop_live hcall hfresh hlength turns count.element data (first.2.1 + count.loaded)
      count.offset (by omega) hdata (by omega) hcount
  rw [hlast]
  refine ⟨_, rfl, hlastInside, ?_, ⟨hfresh, hbooleans, hlastOffset⟩,
    fun h => absurd h Bool.false_ne_true⟩
  show 0 < last.2.2.1 ∨ last.2.2.2 = 0
  obtain ⟨htaken, -⟩ | hzero | hparse := hend
  · exact .inl (Nat.lt_of_lt_of_le htaken hle)
  · exact .inr ((hsame (by omega)).trans hzero)
  · by_cases hnone : first.2.1 + count.loaded = 0
    · obtain hmore | hmore := hmoves (by omega) hparse
      · exact .inl (Nat.lt_of_le_of_lt (Nat.zero_le _) hmore)
      · exact .inr hmore
    · exact .inl (Nat.lt_of_lt_of_le (Nat.pos_of_ne_zero hnone) hle)

end Array

/-! ### Containers -/

namespace Container

variable {height : Nat} {call : Call Element} {stream : Text}

/-- What a call of a field does. -/
def Fields (height : Nat) (call : Call Element) : Prop :=
  ∀ x rest offset, rest ≠ [] → rest.length < 65536 → Live height x offset →
    ∃ read, call x rest offset = some read ∧ Reads height x rest offset read

/-- The turns that take no byte: a name that is read is looked up, and then its field gets one
call. -/
def rank (c : ContainerState) : Nat :=
  if c.fieldName.set then (if c.current = .none then 2 else 1) else 0

theorem rank_le (c : ContainerState) : rank c ≤ 2 := by
  unfold rank
  split_ifs <;> omega

theorem find_lt {fields : List (Text × Element)} {label : Text} {index : Nat}
    (h : find fields label = some index) : index < fields.length := by
  rw [find, List.findIdx?_eq_some_iff_getElem] at h
  exact h.1

/-- How the loop over the fields is left. -/
structure Ran (height : Nat) (stream : Text) (loaded offset : Nat)
    (last : ContainerState × List (Text × Element) × Nat × Nat) : Prop where
  inside : last.2.2.1 ≤ stream.length
  grows : loaded ≤ last.2.2.1
  live : Live (height + 1) (.container last.1 last.2.1) last.2.2.2
  stays : offset < PARSE → last.2.2.2 = offset
  moves : loaded < stream.length → PARSE ≤ offset → loaded < last.2.2.1 ∨ last.2.2.2 = 0

/-- A turn before the rest of the loop. -/
theorem Ran.turn {loaded loaded' offset offset' : Nat}
    {last : ContainerState × List (Text × Element) × Nat × Nat}
    (h : Ran height stream loaded' offset' last) (hoffset : PARSE ≤ offset)
    (hmoves : loaded < loaded' ∨ (loaded = loaded' ∧ (offset' = 0 ∨ PARSE ≤ offset'))) :
    Ran height stream loaded offset last := by
  obtain ⟨hinside, hgrows, hlive, hstays, hends⟩ := h
  refine ⟨hinside, by omega, hlive,
    fun hlt => absurd hoffset (Nat.not_le.mpr hlt), fun hlt _ => ?_⟩
  obtain hless | ⟨rfl, hzero | hparse⟩ := hmoves
  · exact .inl (Nat.lt_of_lt_of_le hless hgrows)
  · exact .inr ((hstays (by rw [hzero]; decide)).trans hzero)
  · exact hends hlt hparse

theorem fieldRead_zero (c : ContainerState) :
    (fieldRead c 0).1.fieldName.set = false ∧ (fieldRead c 0).1.current = c.current ∧
      ((fieldRead c 0).2 = 0 ∨ (fieldRead c 0).2 = PARSE) := by
  rw [fieldRead, if_pos rfl]
  generalize (if c.count = 0 then 0xFFFF else c.count - 1) = count
  refine ⟨rfl, rfl, ?_⟩
  show (if count = 0 then 0 else PARSE) = 0 ∨ (if count = 0 then 0 else PARSE) = PARSE
  split
  · exact .inl rfl
  · exact .inr rfl

/-- A field that is read to its end is left; else it stays the current one. -/
theorem fieldRead_live {c : ContainerState} {fields : List (Text × Element)} (offset : Nat)
    (hfields : ∀ field ∈ fields, Live height field.2 0)
    (hindex : ∀ index, c.current = .field index → index < fields.length)
    (hcurrent : offset ≠ 0 → CurrentLive (Live height) c fields offset) :
    Live (height + 1) (.container (fieldRead c offset).1 fields) (fieldRead c offset).2 ∧
      ((fieldRead c offset).2 = 0 ∨ PARSE ≤ (fieldRead c offset).2) ∧
      (offset = 0 → rank (fieldRead c offset).1 = 0) := by
  by_cases hzero : offset = 0
  · subst hzero
    obtain ⟨hset, hcurrent, hoffset⟩ := fieldRead_zero c
    have hunset : (fieldRead c 0).1.fieldName.set ≠ true := Bool.eq_false_iff.mp hset
    refine ⟨⟨hfields, fun index h => hindex index (hcurrent ▸ h), ?_⟩,
      hoffset.imp_right fun h => Nat.le_of_eq h.symm, fun _ => if_neg hunset⟩
    obtain h | h := hoffset
    · rw [h]
      exact .inl (Nat.zero_le _)
    · rw [h]
      refine .inr ⟨Nat.le_refl _, ?_⟩
      rw [CurrentLive, if_neg hunset]
      exact .inl rfl
  · rw [fieldRead, if_neg hzero]
    refine ⟨⟨hfields, hindex, .inr ⟨Nat.le_add_left _ _, ?_⟩⟩, .inr (Nat.le_add_left _ _),
      fun h => absurd h hzero⟩
    rw [Nat.add_sub_cancel]
    exact hcurrent hzero

/-- The field that is looked up has its first byte to come. -/
theorem found_live {c : ContainerState} {fields : List (Text × Element)} (label : Text)
    (hfields : ∀ field ∈ fields, Live height field.2 0) (hset : c.fieldName.set) :
    (∀ index, (find fields label).elim .fieldName .field = Current.field index →
      index < fields.length) ∧
    CurrentLive (Live height)
      { c with current := (find fields label).elim .fieldName .field } fields 0 := by
  rw [CurrentLive, if_pos hset]
  cases hfound : find fields label with
  | none => exact ⟨fun index h => Current.noConfusion h, .inl rfl⟩
  | some index =>
    have hlt := find_lt hfound
    exact ⟨fun i h => Current.field.inj h ▸ hlt,
      _, List.getElem?_eq_getElem hlt, hfields _ (List.getElem_mem hlt)⟩

theorem drop_ne_nil {loaded : Nat} (h : loaded < stream.length) : stream.drop loaded ≠ [] := by
  rw [Ne, List.drop_eq_nil_iff]
  omega

theorem fieldLoop_ran (hcall : Fields height call) (hlength : stream.length < 65536) (turns : Nat)
    {c : ContainerState} {fields : List (Text × Element)} {loaded offset : Nat}
    (hturns : 3 * (stream.length - loaded) + rank c < turns) (hloaded : loaded ≤ stream.length)
    (h : Live (height + 1) (.container c fields) offset) :
    ∃ last, fieldLoop call stream turns c fields loaded offset = some last ∧
      Ran height stream loaded offset last := by
  induction turns generalizing c fields loaded offset with
  | zero => exact absurd hturns (Nat.not_lt_zero _)
  | succ turns ih =>
    rw [fieldLoop]
    by_cases hmore : loaded < stream.length ∧ PARSE ≤ offset
    swap
    · rw [if_neg hmore]
      exact ⟨_, rfl, hloaded, Nat.le_refl _, h, fun _ => rfl,
        fun hlt hparse => absurd ⟨hlt, hparse⟩ hmore⟩
    rw [if_pos hmore]
    obtain ⟨hlt, hparse⟩ := hmore
    obtain ⟨hfields, hindex, hcurrent⟩ := h
    have hcurrent : CurrentLive (Live height) c fields (offset - PARSE) := by
      obtain h | h := hcurrent
      · exact absurd (show 7 ≤ offset from hparse) (by omega)
      · exact h.2
    have hrest := drop_ne_nil hlt
    have hdropped : (stream.drop loaded).length = stream.length - loaded := List.length_drop
    -- Bytes that are taken from what is left.
    have htake {n : Nat} (hn : n ≤ (stream.drop loaded).length) :
        u16 (loaded + n) = loaded + n ∧ loaded + n ≤ stream.length := by
      rw [u16, Nat.mod_eq_of_lt (by omega)]
      exact ⟨rfl, by omega⟩
    simp only
    by_cases hset : c.fieldName.set
    · rw [if_pos hset]
      rw [CurrentLive, if_pos hset] at hcurrent
      have hrank : rank c = if c.current = .none then 2 else 1 := if_pos hset
      cases hpack : c.current with
      | none =>
        rw [hpack] at hcurrent hrank
        obtain ⟨hrange, hfirst⟩ := found_live (String.cString c.fieldName.getValue) hfields hset
        rw [if_pos rfl] at hrank
        simp only
        set found := (find fields (String.cString c.fieldName.getValue)).elim Current.fieldName
          Current.field with hfound
        have hless : rank { c with current := found } ≤ 1 := by
          rw [rank, if_pos hset, hfound]
          cases find fields (String.cString c.fieldName.getValue) <;> exact Nat.le_refl 1
        obtain ⟨last, hlast, hran⟩ := ih (c := { c with current := found }) (by omega) hloaded
          ⟨hfields, hrange, .inr ⟨hparse, by rwa [show offset - PARSE = 0 from hcurrent]⟩⟩
        exact ⟨last, hlast, hran.turn hparse (.inr ⟨rfl, .inr hparse⟩)⟩
      | fieldName =>
        rw [hpack] at hcurrent hrank
        obtain ⟨hinside, hmoves, hlive⟩ := String.deserialize_takes hcurrent hrest
        simp only
        set read := String.deserialize c.fieldName (stream.drop loaded) (offset - PARSE)
        set skipped := { c with current := .fieldName, fieldName := read.element } with hskipped
        obtain ⟨hnext, hoffset, -⟩ := fieldRead_live (c := skipped) read.offset hfields
          (fun _ h => Current.noConfusion h) (fun hne => by
            have hstill : read.element.set := (String.deserialize_set hne).trans hset
            rw [CurrentLive, if_pos hstill]
            exact hlive)
        obtain ⟨hbytes, hle⟩ := htake hinside
        rw [hbytes]
        have hlow := rank_le (fieldRead skipped read.offset).1
        obtain ⟨last, hlast, hran⟩ := ih (by omega) hle hnext
        exact ⟨last, hlast, hran.turn hparse (.inl (by omega))⟩
      | field index =>
        rw [hpack] at hcurrent hrank
        obtain ⟨field, hfield, hlive⟩ := hcurrent
        obtain ⟨read, hread, hinside, hmoves, hafter, -⟩ := hcall _ _ _ hrest (by omega) hlive
        simp only [hfield, hread]
        rw [if_neg Current.noConfusion] at hrank
        have hset' : ∀ field' ∈ fields.set index (field.1, read.element),
            Live height field'.2 0 := by
          intro field' hmem
          obtain hmem | rfl := List.mem_or_eq_of_mem_set hmem
          · exact hfields field' hmem
          · exact hafter.zero
        obtain ⟨hnext, hoffset, hdone⟩ := fieldRead_live (c := c) read.offset hset'
          (by rwa [List.length_set]) (fun hne => by
            rw [CurrentLive, if_pos hset, hpack]
            exact ⟨_, List.getElem?_set_self (hindex index hpack), hafter⟩)
        obtain ⟨hbytes, hle⟩ := htake hinside
        rw [hbytes]
        have hlow := rank_le (fieldRead c read.offset).1
        obtain ⟨last, hlast, hran⟩ := ih (by omega) hle hnext
        exact ⟨last, hlast, hran.turn hparse (by omega)⟩
    · rw [if_neg hset]
      rw [CurrentLive, if_neg hset] at hcurrent
      obtain ⟨hinside, hmoves, hlive⟩ := String.deserialize_takes hcurrent hrest
      set read := String.deserialize c.fieldName (stream.drop loaded) (offset - PARSE)
      obtain ⟨hbytes, hle⟩ := htake hinside
      rw [hbytes]
      have hlow := rank_le { c with fieldName := read.element, current := .none }
      have hnext : Live (height + 1) (.container { c with
          fieldName := read.element, current := .none } fields) (read.offset + PARSE) := by
        refine ⟨hfields, fun index h => Current.noConfusion h, .inr ⟨Nat.le_add_left _ _, ?_⟩⟩
        rw [Nat.add_sub_cancel, CurrentLive]
        split
        · rename_i hnow
          by_contra hne
          exact hset ((String.deserialize_set hne).symm.trans hnow)
        · exact hlive
      obtain ⟨last, hlast, hran⟩ := ih (by omega) hle hnext
      exact ⟨last, hlast, hran.turn hparse (.inl (by omega))⟩

theorem start_live (c : ContainerState) (header : UInt8) :
    (start c header).1.current = c.current ∧ (start c header).1.fieldName = c.fieldName ∧
      ((start c header).2 = 0 ∨ (start c header).2 = 1 ∨ (start c header).2 = PARSE) := by
  unfold start
  split_ifs
  · exact ⟨rfl, rfl, .inl rfl⟩
  · refine ⟨rfl, rfl, ?_⟩
    show ite _ PARSE 0 = 0 ∨ ite _ PARSE 0 = 1 ∨ ite _ PARSE 0 = PARSE
    split
    · exact .inr (.inr rfl)
    · exact .inl rfl
  · exact ⟨rfl, rfl, .inr (.inl rfl)⟩
  · exact ⟨rfl, rfl, .inl rfl⟩

/-- Whatever a container reads, it can start with its first byte. -/
theorem currentLive_zero {c : ContainerState} {fields : List (Text × Element)}
    (hfields : ∀ field ∈ fields, Live height field.2 0)
    (hindex : ∀ index, c.current = .field index → index < fields.length) :
    CurrentLive (Live height) c fields 0 := by
  rw [CurrentLive]
  split
  · split
    · rfl
    · exact .inl rfl
    · rename_i index hcurrent
      have hlt := hindex index hcurrent
      exact ⟨_, List.getElem?_eq_getElem hlt, hfields _ (List.getElem_mem hlt)⟩
  · exact .inl rfl

/-- Behind the header and the count, a container is at its fields or between two calls. -/
theorem count_live {c c' : ContainerState} {fields : List (Text × Element)} {offset offset' : Nat}
    (h : Live (height + 1) (.container c fields) offset) (hcurrent : c'.current = c.current)
    (hname : c'.fieldName = c.fieldName)
    (hoffset : offset' ≤ 2 ∨ offset' = PARSE ∨ (PARSE ≤ offset ∧ offset' = offset)) :
    Live (height + 1) (.container c' fields) offset' := by
  obtain ⟨hfields, hindex, hlive⟩ := h
  have hindex' : ∀ index, c'.current = .field index → index < fields.length := by
    rw [hcurrent]
    exact hindex
  refine ⟨hfields, hindex', ?_⟩
  obtain hlow | rfl | ⟨hparse, rfl⟩ := hoffset
  · exact .inl hlow
  · exact .inr ⟨Nat.le_refl _, currentLive_zero hfields hindex'⟩
  · refine .inr ⟨hparse, ?_⟩
    obtain hlow | hlive := hlive
    · exact absurd (show 7 ≤ _ from hparse) (by omega)
    · rw [CurrentLive, hname, hcurrent]
      exact hlive.2

theorem countAhead_live (stream : Text) (count offset : Nat) :
    let ahead := countLoop (fun count => if 0 < count then PARSE else 0) stream count offset
    ahead.loaded ≤ stream.length ∧
      (offset = 1 ∨ offset = 2 →
        (stream ≠ [] → 0 < ahead.loaded) ∧ (ahead.offset ≤ 2 ∨ ahead.offset = PARSE)) ∧
      (offset ≠ 1 → offset ≠ 2 → ahead = ⟨count, 0, offset⟩) := by
  have hbehind : ∀ n, (if 0 < n then PARSE else 0) ≠ 1 ∧ (if 0 < n then PARSE else 0) ≠ 2 := by
    intro n
    split <;> decide
  obtain ⟨hinside, hahead, hdone⟩ := countLoop_live _ hbehind stream count offset
  refine ⟨hinside, fun h => ⟨(hahead h).1, ?_⟩, hdone⟩
  obtain hlow | ⟨n, hn⟩ := (hahead h).2
  · exact .inl hlow
  · rw [hn]
    split
    · exact .inr rfl
    · exact .inl (Nat.zero_le _)

/-- A container takes what it gets at most, and its header at least. -/
theorem deserialize_reads {turns : Nat} {c : ContainerState} {fields : List (Text × Element)}
    {offset : Nat} (hcall : Fields height call) (hturns : 3 * stream.length + 2 < turns)
    (hlength : stream.length < 65536) (hstream : stream ≠ [])
    (h : Live (height + 1) (.container c fields) offset) :
    ∃ read, deserialize call turns c fields stream offset = some read ∧
      Reads (height + 1) (.container c fields) stream offset read := by
  rw [deserialize]
  simp only
  have hpos := List.length_pos_iff.mpr hstream
  set first := if offset = 0 then start c (stream.getD 0 0) else (c, offset) with hfirst
  set loaded := if offset = 0 then 1 else 0 with hloaded
  obtain ⟨hinside, hahead, hdone⟩ := countAhead_live (stream.drop loaded) first.1.count first.2
  set count := countLoop (fun count => if 0 < count then PARSE else 0) (stream.drop loaded)
    first.1.count first.2
  rw [List.length_drop] at hinside
  have hkeeps : first.1.current = c.current ∧ first.1.fieldName = c.fieldName ∧
      (offset = 0 → first.2 = 0 ∨ first.2 = 1 ∨ first.2 = PARSE) ∧
      (offset ≠ 0 → first.2 = offset) := by
    by_cases hzero : offset = 0
    · rw [hfirst, if_pos hzero]
      obtain ⟨hcurrent, hname, hoffset⟩ := start_live c (stream.getD 0 0)
      exact ⟨hcurrent, hname, fun _ => hoffset, fun hne => absurd hzero hne⟩
    · rw [hfirst, if_neg hzero]
      exact ⟨rfl, rfl, fun h => absurd h hzero, fun _ => rfl⟩
  obtain ⟨hcurrent, hname, hstart, hagain⟩ := hkeeps
  have hlow : offset ≤ 2 ∨ 7 ≤ offset := h.2.2.imp_right And.left
  have htaken : loaded + count.loaded ≤ stream.length := by
    have : loaded ≤ 1 := by
      rw [hloaded]
      split <;> omega
    omega
  -- Only a container that is at its fields comes here without a byte.
  have hcount : (count.offset ≤ 2 ∨ count.offset = PARSE ∨
      (PARSE ≤ offset ∧ count.offset = offset)) ∧
      (loaded + count.loaded = 0 → PARSE ≤ count.offset) := by
    by_cases hzero : offset = 0
    · have hone : loaded = 1 := by rw [hloaded, if_pos hzero]
      refine ⟨?_, fun h => by omega⟩
      obtain h | h | h := hstart hzero
      · rw [hdone (by omega) (by omega)]
        exact .inl (by rw [h]; exact Nat.zero_le _)
      · exact (hahead (.inl h)).2.imp_right .inl
      · rw [hdone (by rw [h]; decide) (by rw [h]; decide), h]
        exact .inr (.inl rfl)
    · have hnone : loaded = 0 := by rw [hloaded, if_neg hzero]
      have hsame := hagain hzero
      obtain hlow | hhigh := hlow
      · obtain ⟨hmoves, hcount⟩ := hahead (by omega)
        rw [hnone, List.drop_zero] at hmoves
        exact ⟨hcount.imp_right .inl, fun h => absurd (hmoves hstream) (by omega)⟩
      · rw [hdone (by omega) (by omega), hsame]
        exact ⟨.inr (.inr ⟨hhigh, rfl⟩), fun _ => hhigh⟩
  set ahead : ContainerState := { first.1 with count := count.element }
  have hrank := rank_le ahead
  obtain ⟨last, hlast, hran⟩ := fieldLoop_ran (c := ahead) hcall hlength turns (by omega) htaken
    (count_live h hcurrent hname hcount.1)
  rw [hlast]
  refine ⟨_, rfl, hran.inside, ?_, hran.live, fun _ => ⟨rfl, fun hzero => ?_⟩⟩
  · show 0 < last.2.2.1 ∨ last.2.2.2 = 0
    by_cases hnone : loaded + count.loaded = 0
    · exact (hran.moves (by omega) (hcount.2 hnone)).imp_left (Nat.lt_of_le_of_lt (Nat.zero_le _))
    · exact .inl (Nat.lt_of_lt_of_le (Nat.pos_of_ne_zero hnone) hran.grows)
  · have hone : loaded = 1 := by rw [hloaded, if_pos hzero]
    exact Nat.lt_of_lt_of_le (by omega) hran.grows

end Container

/-! ### The tree -/

namespace Element

theorem takes_reads {α : Type} {live : α → Nat → Prop} {stream : Text} {read : Unpacked α}
    (h : Takes live stream read) (build : α → Element) {height offset : Nat} {e : Element}
    (hlive : live read.element read.offset → Live height (build read.element) read.offset)
    (heager : (build read.element).Eager) : Reads height e stream offset (read.map build) :=
  ⟨h.inside, .inl h.moves, hlive h.live, fun _ => ⟨heager, fun _ => h.moves⟩⟩

/-- Turns that are enough for every loop over a stream that one call can get. -/
def loopTurns : Nat := 3 * 65536

/-- Every call of `Deserialize` returns, by induction on the height of the tree. -/
theorem deserialize_reads (height : Nat) :
    ∀ turns, height + loopTurns ≤ turns → Container.Fields height (deserialize turns) := by
  induction height with
  | zero => exact fun _ _ _ _ _ _ _ h => h.elim
  | succ height ih =>
    intro turns hturns e stream offset hstream hlength h
    obtain ⟨turns, rfl⟩ : ∃ n, turns = n + 1 := ⟨turns - 1, by omega⟩
    have hloop : 3 * 65536 ≤ turns - height := by
      unfold loopTurns at hturns
      omega
    cases e with
    | number f x =>
      exact ⟨_, rfl, takes_reads (Number.deserialize_takes h hstream) (number f) id rfl⟩
    | float x =>
      obtain rfl := h
      exact ⟨_, rfl, takes_reads (Float.deserialize_takes x hstream) float id rfl⟩
    | boolean x =>
      obtain rfl := h
      exact ⟨_, rfl, takes_reads (Boolean.deserialize_takes x hstream) boolean id rfl⟩
    | string s => exact ⟨_, rfl, takes_reads (String.deserialize_takes h hstream) string id rfl⟩
    | buffer b =>
      obtain ⟨hlive, hinside, hmoves⟩ := Buffer.deserialize_live h hstream
      exact ⟨_, rfl, hinside, hmoves, hlive, fun h => absurd h Bool.false_ne_true⟩
    | enum x => exact ⟨_, rfl, takes_reads (Enum.deserialize_takes h hstream) enum id rfl⟩
    | array a fresh data =>
      refine Array.deserialize_reads ?_ (by omega) hlength hstream h
      intro x hx
      cases x with
      | boolean x =>
        obtain ⟨n, rfl⟩ : ∃ n, turns = n + 1 := ⟨turns - 1, by omega⟩
        exact ⟨boolean (x.deserialize stream 0).element, rfl, rfl⟩
      | _ => exact absurd hx Bool.false_ne_true
    | container c fields =>
      exact Container.deserialize_reads (ih turns (by unfold loopTurns; omega)) (by omega) hlength
        hstream h

end Element

end Thunder.Core.MessagePack
