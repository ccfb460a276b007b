import Thunder.Core.JSONLiteral
import Thunder.Core.MessagePackEnds
import Mathlib.Data.List.Nodup

/-! Bytes with which a tree that has an array of something other than Booleans takes more than it
gets: each element of an array is read from the start of the stream again. -/

namespace Thunder.Core.MessagePack

open JSON

namespace Element

/-! ### Elements of an array -/

/-- The first two of three bytes of which an element takes more than one. -/
def sample : Element → UInt8 × UInt8
  | number _ _ => (0xCD, 0)
  | float _ => (0xCA, 0)
  | buffer _ => (0xC4, 1)
  | enum _ => (0xCD, 0)
  | array _ fresh _ => sample fresh
  | _ => (0x04, 0)

/-- The bytes of these that it takes. -/
def taken : Element → Nat
  | boolean _ => 1
  | array _ fresh _ => 2 + taken fresh
  | _ => 3

def sampleStream (e : Element) : Text := [e.sample.1, e.sample.2, 0]

theorem sample_header (e : Element) :
    e.sample.1 = 0xCD ∨ e.sample.1 = 0xCA ∨ e.sample.1 = 0xC4 ∨ e.sample.1 = 0x04 := by
  induction e using Element.taken.induct with
  | case2 a fresh data ih => exact ih
  | case1 x => exact .inr (.inr (.inr rfl))
  | case3 e hboolean harray =>
    cases e with
    | number f x => exact .inl rfl
    | float x => exact .inr (.inl rfl)
    | boolean x => exact .inr (.inr (.inr rfl))
    | string s => exact .inr (.inr (.inr rfl))
    | buffer b => exact .inr (.inr (.inl rfl))
    | enum x => exact .inl rfl
    | array a fresh data => exact absurd rfl (harray a fresh data)
    | container c fields => exact .inr (.inr (.inr rfl))

theorem taken_pos (e : Element) : 0 < e.taken := by
  cases e with
  | array a fresh data => exact Nat.lt_of_lt_of_le Nat.zero_lt_two (Nat.le_add_right _ _)
  | _ => exact Nat.succ_pos _

/-- Only a Boolean takes one byte. -/
theorem two_le_taken {e : Element} (h : e.isBoolean = false) : 2 ≤ e.taken := by
  cases e with
  | boolean x => exact absurd h (by simp [isBoolean])
  | array a fresh data => exact Nat.le_add_right _ _
  | _ => exact Nat.le_succ 2

end Element

open Element

/-- The two bytes of a count are all of it. -/
theorem count_bytes (count : Nat) (high low : UInt8) :
    u16 (u16 (count <<< 8 ||| high.toNat) <<< 8 ||| low.toNat) =
      high.toNat * 256 + low.toNat := by
  have hhigh := high.toNat_lt
  have hlow := low.toNat_lt
  rw [← Nat.shiftLeft_add_eq_or_of_lt (by omega), ← Nat.shiftLeft_add_eq_or_of_lt (by omega)]
  simp only [u16, Nat.shiftLeft_eq]
  omega

theorem countLoop_bytes (behind : Nat → Nat) (hbehind : ∀ n, behind n ≠ 1 ∧ behind n ≠ 2)
    (high low : UInt8) (rest : Text) (count : Nat) :
    countLoop behind (high :: low :: rest) count 1 =
      ⟨high.toNat * 256 + low.toNat, 2, behind (high.toNat * 256 + low.toNat)⟩ := by
  obtain ⟨-, -, hdone⟩ := countLoop_live behind hbehind rest
    (u16 (u16 (count <<< 8 ||| high.toNat) <<< 8 ||| low.toNat))
    (behind (u16 (u16 (count <<< 8 ||| high.toNat) <<< 8 ||| low.toNat)))
  rw [countLoop, if_pos rfl, countLoop, if_neg (by decide), if_pos rfl]
  rw [hdone (hbehind _).1 (hbehind _).2, count_bytes]
  rfl

/-- An element that takes all that is left of the stream, and more. -/
theorem Array.elementLoop_over {call : Call Element} {fresh : Element} {stream : Text}
    {count loaded taken turns : Nat} {data : List Element} {last : Nat × List Element × Nat × Nat}
    (hcount : count ≠ 0) (hmore : loaded < stream.length) (hover : stream.length ≤ loaded + taken)
    (hroom : loaded + taken < 65536)
    (hcall : ∀ read, call fresh stream 0 = some read → read.loaded = taken)
    (h : elementLoop call fresh stream turns count data loaded PARSE = some last) :
    last.2.2.1 = loaded + taken := by
  cases turns with
  | zero => exact absurd h.symm (Option.some_ne_none last)
  | succ turns =>
    rw [elementLoop, if_pos ⟨hmore, Nat.le_refl _⟩, if_neg fun h => hcount h.2] at h
    simp only [if_pos, List.getLast?_concat, List.dropLast_concat, Nat.sub_self] at h
    cases hread : call fresh stream 0 with
    | none =>
      rw [hread] at h
      exact absurd h.symm (Option.some_ne_none last)
    | some read =>
      rw [hread] at h
      simp only [hcall read hread, u16, Nat.mod_eq_of_lt hroom] at h
      cases turns with
      | zero => exact absurd h.symm (Option.some_ne_none last)
      | succ turns =>
        rw [elementLoop, if_neg fun h => absurd h.1 (Nat.not_lt.mpr hover)] at h
        rw [← Option.some.inj h]

/-- An array whose count is what it reads first. -/
theorem Array.deserialize_sample {call : Call Element} {fresh : Element} {high low : UInt8}
    {turns taken : Nat} {a : ArrayState} {data : List Element} {read : Unpacked Element}
    (hhigh : high = 0xCD ∨ high = 0xCA ∨ high = 0xC4 ∨ high = 0x04) (hpos : 0 < taken)
    (hroom : 2 + taken < 65536)
    (hcall : ∀ read, call fresh [high, low, 0] 0 = some read → read.loaded = taken)
    (h : Array.deserialize call turns a fresh data [high, low, 0] 0 = some read) :
    read.loaded = 2 + taken := by
  have hstart : start a high = (a, 0, 1) := by
    obtain rfl | rfl | rfl | rfl := hhigh <;> rfl
  have hcount : high.toNat * 256 + low.toNat ≠ 0 := by
    have hne : high.toNat ≠ 0 := by
      obtain rfl | rfl | rfl | rfl := hhigh <;> decide
    omega
  have hloop := countLoop_bytes (fun _ => PARSE) (fun _ => ⟨by decide, by decide⟩) high low [0]
    a.count
  rw [Array.deserialize] at h
  simp only [if_pos, List.getD_cons_zero, hstart, List.drop_zero, hloop] at h
  obtain ⟨last, hlast, rfl⟩ := Option.map_eq_some_iff.mp h
  refine elementLoop_over hcount ?_ ?_ hroom hcall hlast
  · show 2 < 3
    decide
  · show 3 ≤ 2 + taken
    omega

/-- A container whose count is nothing. -/
theorem Container.deserialize_sample {call : Call Element} {turns : Nat} {c : ContainerState}
    {fields : List (Text × Element)} {read : Unpacked Element}
    (h : Container.deserialize call turns c fields [0x04, 0, 0] 0 = some read) :
    read.loaded = 3 := by
  have hloop := countLoop_bytes (fun count => if 0 < count then PARSE else 0)
    (fun n => by split <;> decide) 0 0 [] c.count
  have hstart : start c 0x04 = (c, 1) := rfl
  rw [Container.deserialize] at h
  simp only [if_pos, List.getD_cons_zero, hstart, List.drop_succ_cons, List.drop_zero, hloop] at h
  obtain ⟨last, hlast, rfl⟩ := Option.map_eq_some_iff.mp h
  cases turns with
  | zero => exact absurd hlast.symm (Option.some_ne_none last)
  | succ turns =>
    rw [fieldLoop, if_neg fun h => absurd h.1 (by decide)] at hlast
    rw [← Option.some.inj hlast]

theorem Number.deserialize_sample {f : NumberFormat} (x : Number f) :
    (x.deserialize [0xCD, 0, 0] 0).loaded = 3 := by
  have hstart : x.start 0xCD = (⟨2, false, false, false, false, f.cast 0⟩, 1) := by
    rw [start, if_neg (by decide), if_pos (by decide)]
    rfl
  show 1 + (valueLoop [0, 0] (x.start 0xCD).1 (x.start 0xCD).2).loaded = 3
  rw [hstart]
  simp [valueLoop, Unpacked.after]

theorem Float.deserialize_sample (x : Float) : (x.deserialize [0xCA, 0, 0] 0).loaded = 3 := by
  have hstart : x.start 0xCA = (x.zero, 4) := by
    rw [start, if_neg (by decide), if_pos rfl]
  show 1 + (valueLoop [0, 0] (x.start 0xCA).1 (x.start 0xCA).2).loaded = 3
  rw [hstart]
  rfl

theorem String.deserialize_sample (s : JSON.String) :
    (String.deserialize s [0x04, 0, 0] 0).loaded = 3 := by
  have hstart : start s 0x04 3 = ({ s with value := [] }, 3, 0) := rfl
  rw [deserialize]
  show (if (start s 0x04 3).2.2 = 0 then _ else _ : Unpacked JSON.String).loaded = 3
  rw [hstart, if_pos rfl]
  show (start s 0x04 3).2.1 = 3
  rw [hstart]

theorem Buffer.deserialize_sample (b : JSON.Buffer) :
    (Buffer.deserialize b [0xC4, 1, 0] 0).loaded = 3 := by
  have hstart : start b 0xC4 = ({ b with state := 0, length := 0, index := 0 }, 1, 2) := by
    rw [start, if_neg (by decide), if_pos rfl]
  rw [deserialize, hstart, if_neg (Nat.succ_ne_zero _)]
  obtain ⟨hindex, hlength⟩ := grown_index { b with state := 0, length := 1, index := 0 }
    (b.maxLength < 1)
  simp [behind, lengthLoop, valueLoop, Unpacked.after, u16] at *
  simp [hindex, hlength]

theorem Enum.deserialize_sample (x : Enum) : (x.deserialize [0xCD, 0, 0] 0).loaded = 3 := by
  rw [deserialize, if_neg (by decide)]
  exact x.package.deserialize_sample

/-- Each element takes its sample. -/
theorem Element.deserialize_sample (turns : Nat) {e : Element} {read : Unpacked Element}
    (hroom : e.taken < 65536) (h : deserialize turns e e.sampleStream 0 = some read) :
    read.loaded = e.taken := by
  induction turns generalizing e read with
  | zero => exact absurd h.symm (Option.some_ne_none read)
  | succ turns ih =>
    cases e with
    | array a fresh data =>
      exact Array.deserialize_sample (sample_header fresh) (taken_pos fresh) hroom
        (fun _ => ih (Nat.lt_of_le_of_lt (Nat.le_add_left _ 2) hroom)) h
    | container c fields =>
      have h : Container.deserialize (deserialize turns) turns c fields [0x04, 0, 0] 0 =
        some read := h
      exact Container.deserialize_sample h
    | number f x =>
      rw [← Option.some.inj h]
      exact x.deserialize_sample
    | float x =>
      rw [← Option.some.inj h]
      exact x.deserialize_sample
    | boolean x => rw [← Option.some.inj h]; rfl
    | string s =>
      rw [← Option.some.inj h]
      have hstream : (string s).sampleStream = [0x04, 0, 0] := rfl
      rw [hstream]
      exact String.deserialize_sample s
    | buffer b =>
      rw [← Option.some.inj h]
      exact Buffer.deserialize_sample b
    | enum x =>
      rw [← Option.some.inj h]
      exact x.deserialize_sample

/-! ### Fields of a container -/

/-- A string of which the bytes are all there. -/
theorem String.valueLoop_bytes (value rest : Text) (s : JSON.String) (offset : Nat)
    (hoffset : 3 ≤ offset) (hend : offset - 3 + value.length = u16 s.storage) :
    valueLoop (value ++ rest) s offset =
      ⟨{ s with value := s.value ++ value }, value.length, offset + value.length⟩ := by
  induction value generalizing s offset with
  | nil =>
    rw [List.length_nil, Nat.add_zero] at hend
    rw [List.append_nil, List.nil_append]
    cases rest with
    | nil => rfl
    | cons c rest =>
      rw [valueLoop, if_neg (Nat.not_lt.mpr (Nat.le_of_eq hend.symm))]
      rfl
  | cons c value ih =>
    rw [List.length_cons] at hend
    rw [List.cons_append, valueLoop, if_pos (by omega)]
    rw [ih { s with value := s.value ++ [c] } (offset + 1) (by omega)
      (by show offset + 1 - 3 + value.length = u16 s.storage; omega)]
    simp only [Unpacked.after, List.append_assoc, List.singleton_append, List.length_cons,
      Nat.add_comm 1, Nat.add_assoc]

theorem String.lengthLoop_bytes (high low : UInt8) (rest : Text) (s : JSON.String) :
    lengthLoop (high :: low :: rest) { s with storage := 0 } 1 =
      ⟨{ s with storage := high.toNat * 256 + low.toNat }, 2, 3⟩ := by
  have hhigh := high.toNat_lt
  have hlow := low.toNat_lt
  have hstorage : u32 (u32 (u32 (u32 (0 <<< 8) + high.toNat) <<< 8) + low.toNat) =
      high.toNat * 256 + low.toNat := by
    simp only [u32, Nat.shiftLeft_eq]
    omega
  rw [lengthLoop, if_pos (by decide), lengthLoop, if_pos (by decide)]
  simp only [hstorage]
  cases rest with
  | nil => rfl
  | cons c rest =>
    rw [lengthLoop, if_neg (by decide)]
    rfl

/-- A string of this length, which has two bytes. -/
def longString (value : Text) : Text :=
  0xDA :: .ofNat (value.length / 256) :: .ofNat (value.length % 256) :: value

theorem String.deserialize_longString {s : JSON.String} {value : Text} (rest : Text)
    (hlength : value.length < 65536) (hnull : value ≠ nullTag) :
    String.deserialize s (longString value ++ rest) 0 =
      ⟨{ s with storage := value.length, value, set := true }, value.length + 3, 0⟩ := by
  set s' : JSON.String := { s with value := [], storage := value.length }
  have hstart (n : Nat) : start s 0xDA n = ({ s with value := [], storage := 0 }, 1, 1) := rfl
  have hlength' : lengthLoop (.ofNat (value.length / 256) :: .ofNat (value.length % 256) ::
      (value ++ rest)) { s with value := [], storage := 0 } 1 = ⟨s', 2, 3⟩ := by
    rw [lengthLoop_bytes _ _ _ { s with value := [] }, UInt8.toNat_ofNat', UInt8.toNat_ofNat',
      show value.length / 256 % 2 ^ 8 * 256 + value.length % 256 % 2 ^ 8 = value.length by omega]
  have hvalue := valueLoop_bytes value rest s' 3 (Nat.le_refl 3) (by
    show 0 + value.length = value.length % 65536
    rw [Nat.mod_eq_of_lt hlength, Nat.zero_add])
  rw [longString, List.cons_append, List.cons_append, List.cons_append, deserialize, hstart,
    if_neg (Nat.succ_ne_zero 0), behind, hlength']
  simp only [List.drop_succ_cons, List.drop_zero, hvalue, Unpacked.after]
  rw [if_pos ⟨Nat.le_add_right _ _, by
    rw [Nat.add_sub_cancel_left, u16, Nat.mod_eq_of_lt hlength]⟩, complete,
    if_neg fun h => hnull h.2]
  have hloaded : 1 + (2 + value.length) = value.length + 3 := by omega
  exact congrArg (Unpacked.mk _ · 0) hloaded

namespace Container

theorem find_eq {fields : List (Text × Element)} (hnodup : (fields.map Prod.fst).Nodup)
    {index : Nat} {field : Text × Element} (h : fields[index]? = some field) :
    find fields field.1 = some index := by
  obtain ⟨hlt, hfield⟩ := List.getElem?_eq_some_iff.mp h
  rw [find, List.findIdx?_eq_some_iff_getElem]
  refine ⟨hlt, by rw [hfield]; exact decide_eq_true rfl, fun j hj => ?_⟩
  have hj' : j < (fields.map Prod.fst).length := by
    rw [List.length_map]
    exact hj.trans hlt
  have hlt' : index < (fields.map Prod.fst).length := by rwa [List.length_map]
  rw [decide_eq_true_eq, ← hfield]
  intro heq
  have hsame : (fields.map Prod.fst)[j] = (fields.map Prod.fst)[index] := by
    rw [List.getElem_map, List.getElem_map]
    exact heq
  exact absurd ((List.Nodup.getElem_inj_iff hnodup).mp hsame) (Nat.ne_of_lt hj)

/-- A container that is sent one field. -/
def fieldStream (label stream : Text) : Text := 0x81 :: (longString (label ++ [0]) ++ stream)

theorem length_fieldStream (label stream : Text) :
    (fieldStream label stream).length = label.length + 5 + stream.length := by
  simp only [fieldStream, longString, List.length_cons, List.length_append, List.length_nil]
  omega

/-- The field takes more than is left, and with it the container. -/
theorem deserialize_over {call : Call Element} {turns loaded : Nat} {c : ContainerState}
    {fields : List (Text × Element)} {stream : Text} {read : Unpacked Element} {index : Nat}
    {field : Text × Element} (hname : c.fieldName = c.fieldName.clear)
    (hnodup : (fields.map Prod.fst).Nodup) (hfield : fields[index]? = some field)
    (hnul : 0 ∉ field.1) (hstream : stream ≠ []) (hover : stream.length ≤ loaded)
    (hroom : field.1.length + 5 + loaded < 65536)
    (hcall : ∀ read, call field.2 stream 0 = some read → read.loaded = loaded)
    (h : deserialize call turns c fields (fieldStream field.1 stream) 0 = some read) :
    read.loaded = field.1.length + 5 + loaded := by
  have hlength := length_fieldStream field.1 stream
  have hpos := List.length_pos_iff.mpr hstream
  have hstart : start c 0x81 = ({ c with count := 1 }, PARSE) := rfl
  have hcount (l : Text) :
      countLoop (fun count => if 0 < count then PARSE else 0) l 1 PARSE = ⟨1, 0, PARSE⟩ :=
    (countAhead_live l 1 PARSE).2.2 (by decide) (by decide)
  rw [deserialize] at h
  simp only [if_pos, fieldStream, List.getD_cons_zero, hstart, hcount] at h
  obtain ⟨last, hlast, rfl⟩ := Option.map_eq_some_iff.mp h
  clear h
  rw [← fieldStream] at hlast
  cases turns with
  | zero => exact absurd hlast.symm (Option.some_ne_none last)
  | succ turns =>
    -- The name.
    have hset : c.fieldName.set = false := by rw [hname]; rfl
    have hnull : c.fieldName.null = false := by rw [hname]; rfl
    have hquote : c.fieldName.quoteFound = false := by rw [hname]; rfl
    have hunset : c.fieldName.set ≠ true := Bool.eq_false_iff.mp hset
    rw [fieldLoop, if_pos ⟨by omega, Nat.le_refl _⟩, if_neg hunset] at hlast
    have hrest : (fieldStream field.1 stream).drop 1 = longString (field.1 ++ [0]) ++ stream := rfl
    have hvalue : field.1 ++ [0] ≠ nullTag := by
      intro h
      have := congrArg List.getLast? h
      rw [List.getLast?_concat] at this
      exact absurd this (by decide)
    have hshort : (field.1 ++ [0]).length < 65536 := by
      rw [List.length_append, List.length_singleton]
      omega
    have hread := String.deserialize_longString (s := c.fieldName) stream hshort hvalue
    rw [Nat.sub_self, hrest, hread] at hlast
    have hloaded : u16 (1 + ((field.1 ++ [0]).length + 3)) = field.1.length + 5 := by
      rw [List.length_append, List.length_singleton, u16, Nat.mod_eq_of_lt (by omega)]
      omega
    simp only [hloaded, Nat.zero_add] at hlast
    set name : JSON.String := { c.fieldName with
      storage := (field.1 ++ [0]).length, value := field.1 ++ [0], set := true }
    have hlabel : String.cString name.getValue = field.1 := by
      have hcut : String.cString (field.1 ++ [0]) = field.1 := by
        rw [String.cString, List.takeWhile_append_of_pos, List.takeWhile_cons_of_neg (by simp),
          List.append_nil]
        intro b hb
        exact decide_eq_true fun (h : b = 0) => hnul (h ▸ hb)
      have hplain : ¬(name.set = true ∧ name.quoteFound = true ∧ name.quotedSerialize = false) :=
        fun h => Bool.false_ne_true (hquote.symm.trans h.2.1)
      rw [String.getValue, if_neg hplain, if_pos ⟨rfl, hnull⟩]
      show String.cString (String.cString (field.1 ++ [0])) = _
      rw [hcut, String.cString_of_noNul hnul]
    cases turns with
    | zero => exact absurd hlast.symm (Option.some_ne_none last)
    | succ turns =>
      -- Its field.
      rw [fieldLoop, if_pos ⟨by omega, Nat.le_refl _⟩, if_pos rfl] at hlast
      simp only [hlabel, find_eq hnodup hfield, Option.elim] at hlast
      cases turns with
      | zero => exact absurd hlast.symm (Option.some_ne_none last)
      | succ turns =>
        -- What it takes.
        rw [fieldLoop, if_pos ⟨by omega, Nat.le_refl _⟩, if_pos rfl] at hlast
        have hdrop : (fieldStream field.1 stream).drop (field.1.length + 5) = stream := by
          have hsplit : fieldStream field.1 stream =
            (0x81 :: longString (field.1 ++ [0])) ++ stream := rfl
          rw [hsplit, List.drop_left']
          simp [longString]
        simp only [hfield, Nat.sub_self, hdrop] at hlast
        cases hfound : call field.2 stream 0 with
        | none =>
          rw [hfound] at hlast
          exact absurd hlast.symm (Option.some_ne_none last)
        | some read =>
          rw [hfound] at hlast
          simp only [hcall read hfound, u16, Nat.mod_eq_of_lt hroom] at hlast
          cases turns with
          | zero => exact absurd hlast.symm (Option.some_ne_none last)
          | succ turns =>
            rw [fieldLoop, if_neg fun h => absurd h.1 (by omega)] at hlast
            rw [← Option.some.inj hlast]

end Container

/-! ### The tree -/

namespace Element

mutual

/-- A tree of which no container has read a name yet, with labels that differ. -/
def Fresh : Element → Prop
  | container c fields =>
    c.fieldName = c.fieldName.clear ∧ c.current = .none ∧ (fields.map Prod.fst).Nodup ∧
      freshFields fields
  | _ => True

def freshFields : List (Text × Element) → Prop
  | [] => True
  | (label, element) :: fields => 0 ∉ label ∧ Fresh element ∧ freshFields fields

end

mutual

/-- The bytes that lead to an array of the tree, and what it takes, are no more than these. -/
def room : Element → Nat
  | container _ fields => roomFields fields
  | array _ fresh _ => 2 + taken fresh
  | _ => 0

def roomFields : List (Text × Element) → Nat
  | [] => 0
  | (label, element) :: fields => max (label.length + 5 + room element) (roomFields fields)

end

mutual

theorem clear_shape : ∀ e : Element, e.clear.Bounded = e.Bounded ∧ e.clear.room = e.room ∧
    e.clear.height = e.height ∧ (e.Fresh → e.clear.Fresh)
  | number _ _ => ⟨rfl, rfl, rfl, id⟩
  | float _ => ⟨rfl, rfl, rfl, id⟩
  | boolean _ => ⟨rfl, rfl, rfl, id⟩
  | string _ => ⟨rfl, rfl, rfl, id⟩
  | buffer _ => ⟨rfl, rfl, rfl, id⟩
  | enum _ => ⟨rfl, rfl, rfl, id⟩
  | array _ _ _ => ⟨rfl, rfl, rfl, id⟩
  | container c fields => by
    obtain ⟨hbounded, hroom, hheight, hlabels, hfresh⟩ := clearFields_shape fields
    refine ⟨hbounded, hroom, congrArg (· + 1) hheight, fun h => ⟨h.1, h.2.1, ?_, hfresh h.2.2.2⟩⟩
    rw [hlabels]
    exact h.2.2.1

theorem clearFields_shape : ∀ fields : List (Text × Element),
    boundedFields (clearFields fields) = boundedFields fields ∧
    roomFields (clearFields fields) = roomFields fields ∧
    heightFields (clearFields fields) = heightFields fields ∧
    (clearFields fields).map Prod.fst = fields.map Prod.fst ∧
    (freshFields fields → freshFields (clearFields fields))
  | [] => ⟨rfl, rfl, rfl, rfl, id⟩
  | (label, e) :: fields => by
    obtain ⟨hbounded, hroom, hheight, hfresh⟩ := clear_shape e
    obtain ⟨hbounded', hroom', hheight', hlabels', hfresh'⟩ := clearFields_shape fields
    refine ⟨?_, ?_, ?_, congrArg (label :: ·) hlabels',
      fun h => ⟨h.1, hfresh h.2.1, hfresh' h.2.2⟩⟩
    · rw [clearFields, boundedFields, boundedFields, hbounded, hbounded']
    · rw [clearFields, roomFields, roomFields, hroom, hroom']
    · rw [clearFields, heightFields, heightFields, hheight, hheight']

end

/-- One of the fields has an array of something other than Booleans. -/
theorem exists_unbounded {fields : List (Text × Element)} (h : boundedFields fields = false)
    (hfresh : freshFields fields) : ∃ (index : Nat) (field : Text × Element),
      fields[index]? = some field ∧ field.2.Bounded = false ∧ 0 ∉ field.1 ∧ field.2.Fresh ∧
      field.1.length + 5 + field.2.room ≤ roomFields fields ∧
      field.2.height ≤ heightFields fields := by
  induction fields with
  | nil => exact absurd h (by simp [boundedFields])
  | cons field fields ih =>
    obtain ⟨label, e⟩ := field
    obtain ⟨hnul, hfirst, hrest⟩ := hfresh
    by_cases he : e.Bounded
    · rw [boundedFields, he, Bool.true_and] at h
      obtain ⟨index, field, hfield, hbounded, hnul', hfresh', hroom, hheight⟩ := ih h hrest
      exact ⟨index + 1, field, hfield, hbounded, hnul', hfresh', hroom.trans (Nat.le_max_right _ _),
        hheight.trans (Nat.le_max_right _ _)⟩
    · exact ⟨0, (label, e), rfl, Bool.eq_false_iff.mpr he, hnul, hfirst, Nat.le_max_left _ _,
        Nat.le_max_left _ _⟩

/-- There are bytes of which the tree takes more than there are. -/
theorem exists_over (n : Nat) {e : Element} (hheight : e.height ≤ n) (hbounded : e.Bounded = false)
    (hfresh : e.Fresh) (hroom : e.room < 65536) :
    ∃ (stream : Text) (loaded : Nat), stream ≠ [] ∧ stream.length < loaded ∧ loaded ≤ e.room ∧
      ∀ turns read, deserialize turns e stream 0 = some read → read.loaded = loaded := by
  induction n generalizing e with
  | zero => exact absurd hheight (by cases e <;> simp [height])
  | succ n ih =>
    cases e with
    | array a fresh data =>
      refine ⟨(array a fresh data).sampleStream, 2 + fresh.taken, List.cons_ne_nil _ _, ?_,
        Nat.le_refl _, fun turns read h => deserialize_sample turns ?_ h⟩
      · have := two_le_taken hbounded
        show 3 < 2 + fresh.taken
        omega
      · exact hroom
    | container c fields =>
      obtain ⟨hname, -, hnodup, hfields⟩ := hfresh
      obtain ⟨index, field, hfield, hopen, hnul, hfresh', hroom', hheight'⟩ :=
        exists_unbounded hbounded hfields
      have hroom : roomFields fields < 65536 := hroom
      obtain ⟨stream, loaded, hne, hover, hle, hcall⟩ :=
        ih (hheight'.trans (Nat.le_of_succ_le_succ hheight)) hopen hfresh' (by omega)
      refine ⟨Container.fieldStream field.1 stream, field.1.length + 5 + loaded,
        List.cons_ne_nil _ _, ?_, ?_, fun turns read h => ?_⟩
      · rw [Container.length_fieldStream]
        omega
      · show _ ≤ roomFields fields
        omega
      · cases turns with
        | zero => exact absurd h.symm (Option.some_ne_none read)
        | succ turns =>
          exact Container.deserialize_over hname hnodup hfield hnul hne (Nat.le_of_lt hover)
            (by omega) (hcall turns) h
    | _ => exact absurd hbounded (by simp [Bounded])

end Element

/-! ### `FromBuffer` -/

/-- `FromBuffer` with a root whose calls leave it as it was. -/
theorem fromBufferLoop_stuck (call : Call Element) (byte : UInt8) {P : Element → Prop}
    (hcall : ∀ e, P e → ∀ read, call e [byte] 0 = some read →
      P read.element ∧ read.loaded = 0 ∧ read.offset = 0) (turns : Nat) {e : Element} (h : P e) :
    fromBufferLoop call [byte] 1 turns e 0 0 = none := by
  induction turns generalizing e with
  | zero => rfl
  | succ turns ih =>
    rw [fromBufferLoop, if_neg (by decide), if_neg (by decide)]
    have hstream : ([byte].drop 0).take (min (1 - 0) 0xFFFF) = [byte] := rfl
    rw [hstream]
    cases hread : call e [byte] 0 with
    | none => rfl
    | some read =>
      obtain ⟨hnext, hloaded, hoffset⟩ := hcall e h read hread
      simp only [hloaded, hoffset]
      exact ih hnext

/-- An array without elements takes no byte. -/
theorem not_ends_array (a : ArrayState) (fresh : Element) (data : List Element) :
    ¬Ends (.array a fresh data) [0x90] := by
  rintro ⟨turns, last, success, h⟩
  have hstuck := fromBufferLoop_stuck (Element.deserialize turns) 0x90
    (P := fun e => ∃ a, e = .array a fresh []) ?_ turns
    (show ∃ b, Element.clear (.array a fresh data) = .array b fresh [] from ⟨_, rfl⟩)
  · exact absurd (hstuck.symm.trans h).symm (Option.some_ne_none _)
  · rintro e ⟨a, rfl⟩ read hread
    cases turns with
    | zero => exact absurd hread.symm (Option.some_ne_none read)
    | succ turns =>
      have hstart : Array.start a 0x90 = ({ a with count := 0 }, 0, Array.PARSE) := by
        rw [Array.start, if_neg (by decide), if_pos (by decide)]
        rfl
      have hcount := (countLoop_live (fun _ => Array.PARSE) (fun _ => ⟨by decide, by decide⟩) [0x90]
        0 Array.PARSE).2.2 (by decide) (by decide)
      have hread : Array.deserialize (Element.deserialize turns) turns a fresh [] [0x90] 0 =
        some read := hread
      rw [Array.deserialize] at hread
      simp only [if_pos, List.getD_cons_zero, hstart, List.drop_zero, hcount] at hread
      obtain ⟨last, hlast, rfl⟩ := Option.map_eq_some_iff.mp hread
      cases turns with
      | zero => exact absurd hlast.symm (Option.some_ne_none last)
      | succ turns =>
        rw [Array.elementLoop, if_pos (by decide), if_pos ⟨rfl, rfl⟩] at hlast
        rw [← Option.some.inj hlast]
        exact ⟨⟨_, rfl⟩, rfl, rfl⟩

/-- A buffer does not take a byte that it does not know. -/
theorem not_ends_buffer (b : JSON.Buffer) : ¬Ends (.buffer b) [0] := by
  rintro ⟨turns, last, success, h⟩
  have hstuck := fromBufferLoop_stuck (Element.deserialize turns) 0
    (P := fun e => ∃ b, e = .buffer b) ?_ turns
    (show ∃ c, Element.clear (.buffer b) = .buffer c from ⟨_, rfl⟩)
  · exact absurd (hstuck.symm.trans h).symm (Option.some_ne_none _)
  · rintro e ⟨b, rfl⟩ read hread
    cases turns with
    | zero => exact absurd hread.symm (Option.some_ne_none read)
    | succ turns =>
      have hstart : Buffer.start b 0 = ({ b with
          state := JSON.Buffer.ERROR, length := 0, index := 0 }, 0, 0) := by
        rw [Buffer.start, if_neg (by decide), if_neg (by decide), if_neg (by decide)]
      have hread : some ((Buffer.deserialize b [0] 0).map Element.buffer) = some read := hread
      rw [← Option.some.inj hread, Buffer.deserialize, hstart, if_pos rfl]
      exact ⟨⟨_, rfl⟩, rfl, rfl⟩

/-- The element that a tree is read into leaves its vector: what it takes is more than there is. -/
theorem not_ends_over {e : Element} {stream : Text} {loaded : Nat} (hne : stream ≠ [])
    (hover : stream.length < loaded) (hroom : loaded < 65536)
    (hcall : ∀ turns read, Element.deserialize turns e.clear stream 0 = some read →
      read.loaded = loaded) : ¬Ends e stream := by
  rintro ⟨turns, last, success, h⟩
  have hpos := List.length_pos_iff.mpr hne
  have hsize : u32 stream.length = stream.length := Nat.mod_eq_of_lt (by omega)
  have hpart : (stream.drop 0).take (min (stream.length - 0) 0xFFFF) = stream := by
    rw [List.drop_zero, List.take_of_length_le (by omega)]
  rw [fromBuffer, hsize] at h
  cases turns with
  | zero => exact absurd h.symm (Option.some_ne_none _)
  | succ turns =>
    rw [fromBufferLoop, if_neg (by omega), if_neg (by omega), hpart] at h
    cases hread : Element.deserialize (turns + 1) e.clear stream 0 with
    | none =>
      rw [hread] at h
      exact absurd h.symm (Option.some_ne_none _)
    | some read =>
      have hloaded : u32 (0 + read.loaded) = loaded := by
        rw [hcall _ _ hread, u32, Nat.mod_eq_of_lt (by omega), Nat.zero_add]
      rw [hread] at h
      simp only [hloaded] at h
      cases turns with
      | zero => exact absurd h.symm (Option.some_ne_none _)
      | succ turns =>
        rw [fromBufferLoop, if_neg (by omega), if_pos hover] at h
        exact Outcome.noConfusion (Option.some.inj h)

theorem bounded_of_ends {e : Element} (hfresh : e.Fresh) (hroom : e.room < 65536)
    (h : ∀ stream, Ends e stream) : e.Bounded := by
  by_contra hbounded
  obtain ⟨hbounded', hroom', hheight', hfresh'⟩ := e.clear_shape
  obtain ⟨stream, loaded, hne, hover, hle, hcall⟩ := exists_over e.height (Nat.le_of_eq hheight')
    (hbounded'.trans (Bool.eq_false_iff.mpr hbounded)) (hfresh' hfresh) (by rwa [hroom'])
  exact not_ends_over hne hover (by omega) hcall (h stream)

theorem eager_of_ends {e : Element} (h : ∀ stream, Ends e stream) : e.Eager := by
  cases e with
  | array a fresh data => exact absurd (h [0x90]) (not_ends_array a fresh data)
  | buffer b => exact absurd (h [0]) (not_ends_buffer b)
  | _ => rfl

mutual

theorem Element.Fresh.fitting : ∀ {e : Element}, e.Fresh → e.Fitting
  | .number _ _, _ => trivial
  | .float _, _ => trivial
  | .boolean _, _ => trivial
  | .string _, _ => trivial
  | .buffer _, _ => trivial
  | .enum _, _ => trivial
  | .array _ _ _, _ => trivial
  | .container _ _, h =>
    ⟨fun _ hfield => Current.noConfusion (h.2.1.symm.trans hfield), freshFields_fitting h.2.2.2⟩

theorem freshFields_fitting : ∀ {fields : List (Text × Element)},
    freshFields fields → fittingFields fields
  | [], _ => trivial
  | (_, _) :: _, h => ⟨h.2.1.fitting, freshFields_fitting h.2.2⟩

end

/-- `FromBuffer` ends within every vector if the tree is neither an array nor a buffer and all
arrays in it are of Booleans; and only then, for a tree that has not read anything and whose names
leave room in a call for what an array takes. -/
theorem fromBuffer_ends_iff (e : Element) :
    (e.Fitting → e.Eager ∧ e.Bounded → ∀ stream, Ends e stream) ∧
    (e.Fresh → e.room < 65536 → ((∀ stream, Ends e stream) ↔ e.Eager ∧ e.Bounded)) := by
  have hends (hfitting : e.Fitting) (h : e.Eager ∧ e.Bounded) (stream : Text) : Ends e stream :=
    ends_of_bounded hfitting h.1 h.2 stream
  refine ⟨hends, fun hfresh hroom => ⟨fun h => ?_, hends hfresh.fitting⟩⟩
  exact ⟨eager_of_ends h, bounded_of_ends hfresh hroom h⟩

/-- A container with an array of Booleans, and one with an array of numbers. -/
theorem fromBuffer_ends_array :
    (∀ stream, Ends (.container ⟨0, 0, .none, String.new true⟩
      [([0x61], .array ⟨0, 0⟩ (.boolean ⟨0⟩) [])]) stream) ∧
    ¬∀ stream, Ends (.container ⟨0, 0, .none, String.new true⟩
      [([0x61], .array ⟨0, 0⟩ (.float ⟨false, false, false, false, List.replicate 8 0⟩) [])])
      stream := by
  constructor
  · exact (fromBuffer_ends_iff _).1 ⟨fun _ h => Current.noConfusion h, trivial, trivial⟩ ⟨rfl, rfl⟩
  · intro h
    have hiff := (fromBuffer_ends_iff (.container ⟨0, 0, .none, String.new true⟩
      [([0x61], .array ⟨0, 0⟩ (.float ⟨false, false, false, false, List.replicate 8 0⟩) [])])).2
      ⟨rfl, rfl, by decide, by decide, trivial, trivial⟩ (by decide)
    exact Bool.false_ne_true (hiff.mp h).2

/-- An array that is sent an empty array. -/
theorem not_fromBuffer_ends : ¬∀ (e : Element) (stream : Text), Ends e stream := fun h =>
  not_ends_array ⟨0, 0⟩ (.float ⟨false, false, false, false, List.replicate 8 0⟩) []
    (h _ [0x90])

end Thunder.Core.MessagePack
