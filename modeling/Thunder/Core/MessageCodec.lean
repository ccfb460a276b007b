import Thunder.Core.MessageStore

/-! The wire format of messages, and that `Serialize` and `Deserialize` agree with it.  `encode` says
what the bytes of a message are; the serializers write them when they fit, and the deserializers read
them back, but for the header of an assert, whose category is fixed, and for the process id of an
assert, which is read with half its width. -/

namespace Thunder.Core

open Bytes

/-! ### The wire format -/

def Metadata.encode (m : Metadata) : List UInt8 :=
  [m.type.code] ++
    if m.type = .assert then []
    else if m.type.sendsModule then (m.category ++ [0]) ++ (m.module ++ [0])
    else m.category ++ [0]

def MessageInfo.encode (m : MessageInfo) : List UInt8 :=
  m.metadata.encode ++ bigEndian 8 m.timeStamp.toNat

def Tracing.encode (m : Tracing) : List UInt8 :=
  m.info.encode ++ ((m.className ++ [0]) ++ (m.fileName ++ [0]) ++ bigEndian 2 m.lineNumber.toNat)

def WarningReporting.encode (m : WarningReporting) : List UInt8 :=
  m.info.encode ++ (m.callsign ++ [0])

def Assert.encode (m : Assert) : List UInt8 :=
  m.info.encode ++ (bigEndian 4 m.processId.toNat ++ (m.processName ++ [0]) ++
    (m.fileName ++ [0]) ++ bigEndian 2 m.lineNumber.toNat ++ (m.callstack ++ [0]))

theorem Metadata.encode_pos (m : Metadata) : 0 < m.encode.length := by
  simp [encode]

theorem MessageInfo.encode_pos (m : MessageInfo) : 0 < m.encode.length := by
  have := m.metadata.encode_pos
  simp only [encode, List.length_append]
  omega

theorem MetadataType.bigEndian_code (type : MetadataType) :
    bigEndian 1 type.code.toNat = [type.code] := by
  simp [bigEndian]

/-! ### Writing -/

/-- A serializer writes `code` at the start of every buffer that holds it, and returns 0 for every
other buffer. -/
def Serializes (serialize : List UInt8 → Nat × List UInt8) (code : List UInt8) : Prop :=
  ∀ buffer : List UInt8, buffer.length ≤ 65535 →
    (code.length ≤ buffer.length →
      serialize buffer = (code.length, code ++ buffer.drop code.length)) ∧
    (buffer.length < code.length → (serialize buffer).1 = 0)

theorem Metadata.serializedLength_eq {m : Metadata} (h : m.encode.length ≤ 65535) :
    m.serializedLength = m.encode.length := by
  unfold serializedLength encode at *
  split_ifs at h ⊢ with hassert hsends
  · rfl
  · simp only [List.length_append, List.length_cons, List.length_nil] at h ⊢
    unfold u16
    omega
  · simp only [List.length_append, List.length_cons, List.length_nil] at h ⊢
    unfold u16
    omega

/-- What `Metadata::Serialize` writes. -/
def Metadata.fields (m : Metadata) (frameWriter : Writer) : Writer :=
  let frameWriter := frameWriter.number 1 m.type.code.toNat
  if m.type = .assert then frameWriter
  else if m.type.sendsModule then
    (frameWriter.nullTerminatedText m.category).nullTerminatedText m.module
  else frameWriter.nullTerminatedText m.category

theorem Metadata.fills (m : Metadata) : Writer.Fills m.fields m.encode := by
  have hcode := Writer.fills_number 1 m.type.code.toNat
  rw [MetadataType.bigEndian_code] at hcode
  unfold fields encode
  split_ifs
  · simpa using hcode
  · exact hcode.comp ((Writer.fills_text m.category).comp (Writer.fills_text m.module))
  · exact hcode.comp (Writer.fills_text m.category)

theorem Metadata.serializes {m : Metadata} (h : m.encode.length ≤ 65535) :
    Serializes m.serialize m.encode := by
  intro buffer hbuffer
  constructor
  · intro hfits
    have hwritten := m.fills _ _ _ (Writer.at_start hbuffer) hfits
    unfold serialize
    rw [serializedLength_eq h, if_pos hfits]
    exact Prod.ext rfl hwritten.data
  · intro hsmall
    unfold serialize
    rw [serializedLength_eq h, if_neg (by omega)]

theorem extend_serializes {base : List UInt8 → Nat × List UInt8} {code bytes : List UInt8}
    {fields : Writer → Writer} {extra : Nat} (hbase : Serializes base code) (hpos : 0 < code.length)
    (hfields : Writer.Fills fields bytes) (hextra : extra = u16 bytes.length)
    (h : (code ++ bytes).length ≤ 65535) :
    Serializes (fun buffer => extend (base buffer) extra fields) (code ++ bytes) := by
  rw [List.length_append] at h
  have hextra' : extra = bytes.length := hextra.trans (u16_of_lt (by omega))
  intro buffer hbuffer
  obtain ⟨hfit, hsmall⟩ := hbase buffer hbuffer
  by_cases hcode : code.length ≤ buffer.length
  · have hlength : (code ++ buffer.drop code.length).length = buffer.length := by
      simp only [List.length_append, List.length_drop]
      omega
    simp only [hfit hcode, extend, hlength, List.length_append]
    rw [if_pos (by omega)]
    constructor
    · intro hfits
      rw [if_pos (by omega), List.take_left, List.drop_left]
      have hroom : (buffer.drop code.length).length ≤ 65535 := by
        rw [List.length_drop]
        omega
      have hwritten := hfields _ _ _ (Writer.at_start hroom) (by rw [List.length_drop]; omega)
      rw [hwritten.data, List.nil_append, List.drop_drop, hextra', u16_of_lt (by omega),
        List.append_assoc]
    · intro hshort
      rw [if_neg (by omega)]
  · constructor
    · intro hfits
      rw [List.length_append] at hfits
      omega
    · intro _
      have hzero := hsmall (by omega)
      simp only [extend]
      rw [if_neg (by simpa using hzero)]

theorem MessageInfo.serializes {m : MessageInfo} (h : m.encode.length ≤ 65535) :
    Serializes m.serialize m.encode := by
  have hmetadata : m.metadata.encode.length ≤ 65535 := by
    simp only [encode, List.length_append] at h
    omega
  exact extend_serializes (Metadata.serializes hmetadata) m.metadata.encode_pos
    (Writer.fills_number 8 _) rfl h

theorem Tracing.serializes {m : Tracing} (h : m.encode.length ≤ 65535) :
    Serializes m.serialize m.encode := by
  have hinfo : m.info.encode.length ≤ 65535 := by
    simp only [encode, List.length_append] at h
    omega
  have hfields := ((Writer.fills_text m.className).comp (Writer.fills_text m.fileName)).comp
    (Writer.fills_number 2 m.lineNumber.toNat)
  exact extend_serializes (MessageInfo.serializes hinfo) m.info.encode_pos hfields
    (congrArg u16 (by simp; omega)) h

theorem WarningReporting.serializes {m : WarningReporting} (h : m.encode.length ≤ 65535) :
    Serializes m.serialize m.encode := by
  have hinfo : m.info.encode.length ≤ 65535 := by
    simp only [encode, List.length_append] at h
    omega
  exact extend_serializes (MessageInfo.serializes hinfo) m.info.encode_pos
    (Writer.fills_text m.callsign) (congrArg u16 (by simp)) h

theorem Assert.serializes {m : Assert} (h : m.encode.length ≤ 65535) :
    Serializes m.serialize m.encode := by
  have hinfo : m.info.encode.length ≤ 65535 := by
    simp only [encode, List.length_append] at h
    omega
  have hfields := ((((Writer.fills_number 4 m.processId.toNat).comp
    (Writer.fills_text m.processName)).comp (Writer.fills_text m.fileName)).comp
      (Writer.fills_number 2 m.lineNumber.toNat)).comp (Writer.fills_text m.callstack)
  exact extend_serializes (MessageInfo.serializes hinfo) m.info.encode_pos hfields
    (congrArg u16 (by simp; omega)) h

/-! ### Reading -/

/-- The module that a type fixes; `none` where it is on the wire. -/
def MetadataType.fixedModule : MetadataType → Option Text
  | .logging => some moduleLogging
  | .reporting => some moduleReporting
  | .operationalStream => some moduleOperationalStream
  | .assert => some moduleAssert
  | _ => none

/-- The type is one of the six kinds of messages, with the module that belongs to it. -/
def Metadata.Canonical (m : Metadata) : Prop :=
  m.type.sendsModule = true ∨ m.type.fixedModule = some m.module

def Metadata.NulFree (m : Metadata) : Prop := 0 ∉ m.category ∧ 0 ∉ m.module

/-- The metadata that arrives: the category of an assert is not sent. -/
def Metadata.received (m : Metadata) : Metadata :=
  if m.type = .assert then { m with category := assertCategory } else m

theorem MetadataType.ofCode_code {type : MetadataType}
    (h : type.sendsModule = true ∨ type.fixedModule ≠ none) :
    ofCode (UInt8.ofNat (type.code.toNat % 256)) = type := by
  cases type <;> simp [sendsModule, fixedModule] at h <;> decide

theorem Metadata.encode_of_assert {m : Metadata} (h : m.type = .assert) :
    m.encode = bigEndian 1 m.type.code.toNat ++ [] := by
  rw [MetadataType.bigEndian_code]
  simp [encode, h]

theorem Metadata.encode_of_sendsModule {m : Metadata} (h : m.type.sendsModule = true) :
    m.encode = bigEndian 1 m.type.code.toNat ++ (m.category ++ 0 :: (m.module ++ [0])) := by
  have hassert : m.type ≠ .assert := by
    intro hassert
    simp [hassert, MetadataType.sendsModule] at h
  rw [MetadataType.bigEndian_code]
  simp [encode, h, hassert]

theorem Metadata.encode_of_category {m : Metadata} (hassert : m.type ≠ .assert)
    (h : m.type.sendsModule = false) :
    m.encode = bigEndian 1 m.type.code.toNat ++ (m.category ++ [0]) := by
  rw [MetadataType.bigEndian_code]
  simp [encode, h, hassert]

/-- The metadata that an object with the module `module` makes of it: a module that is not sent is
that of the type, or stays. -/
def Metadata.arrived (m : Metadata) (module : Text) : Metadata where
  type := m.type
  category := if m.type = .assert then assertCategory else m.category
  module := if m.type.sendsModule then m.module else m.type.fixedModule.getD module

theorem Metadata.arrived_of_canonical {m : Metadata} (h : m.Canonical) (module : Text) :
    m.arrived module = m.received := by
  have hmodule : (if m.type.sendsModule then m.module else m.type.fixedModule.getD module) =
      m.module := by
    split_ifs with hsends
    · rfl
    · rw [h.resolve_left hsends, Option.getD_some]
  rw [arrived, received, hmodule]
  split_ifs <;> rfl

/-- Every encoding is read, whatever the module is. -/
theorem Metadata.deserialize_encode_arrived (object : Metadata) {m : Metadata}
    (hvalue : MetadataType.ofCode m.type.code = m.type) (hnul : m.NulFree) {rest : List UInt8}
    (hsize : (m.encode ++ rest).length ≤ 65535) (htwo : 1 < (m.encode ++ rest).length) :
    object.deserialize (m.encode ++ rest) =
      some (m.encode.length, m.arrived object.module) := by
  obtain ⟨hcategory, hmodule⟩ := hnul
  have hofCode : MetadataType.ofCode (UInt8.ofNat (m.type.code.toNat % 256 ^ 1)) = m.type := by
    rw [Nat.mod_eq_of_lt (show m.type.code.toNat < 256 ^ 1 from m.type.code.toNat_lt),
      UInt8.ofNat_toNat, hvalue]
  have hlength : m.encode.length ≤ (m.encode ++ rest).length := by simp
  have hstart := Reader.at_start hsize
  rcases hread : Reader.number 1 ⟨m.encode ++ rest, 0⟩ with ⟨code, frameReader⟩
  -- the type is read first, whatever follows it
  have hnumber : ∀ tail, m.encode = bigEndian 1 m.type.code.toNat ++ tail →
      code = m.type.code.toNat % 256 ^ 1 ∧
        frameReader.At ([] ++ bigEndian 1 m.type.code.toNat) (tail ++ rest) := by
    intro tail hencode
    have hat : Reader.At ⟨m.encode ++ rest, 0⟩ []
        (bigEndian 1 m.type.code.toNat ++ (tail ++ rest)) := by
      rw [← List.append_assoc, ← hencode]
      exact hstart
    have hnumber := hat.number
    rwa [hread] at hnumber
  unfold deserialize
  rw [if_pos htwo]
  by_cases hassert : m.type = .assert
  · have hencode := encode_of_assert hassert
    obtain ⟨hcode, -⟩ := hnumber _ hencode
    have hone : m.encode.length = 1 := by simp [hencode]
    simp only [hread, hcode, hassert, if_true, arrived, hone]
    rw [Nat.min_eq_right (by omega)]
    rfl
  by_cases hsends : m.type.sendsModule = true
  · have hencode := encode_of_sendsModule hsends
    obtain ⟨hcode, hat⟩ := hnumber _ hencode
    simp only [List.append_assoc, List.cons_append] at hat
    obtain ⟨reader₁, hread₁, hat₁⟩ := hat.nullTerminatedText hcategory
    obtain ⟨reader₂, hread₂, -⟩ := hat₁.nullTerminatedText hmodule
    have hlen := congrArg List.length hencode
    simp only [List.length_append, List.length_cons, List.length_nil, length_bigEndian] at hlen
    have hu16 : u16 (u16 (1 + (u16 m.category.length + 1)) + (u16 m.module.length + 1)) =
        m.encode.length := by
      simp only [List.length_append] at hsize
      unfold u16
      omega
    simp only [hread, hcode, hofCode, hassert, if_false, hread₁, hsends, if_true, hread₂, hu16,
      Option.bind_eq_bind, Option.bind_some, arrived]
    rw [Nat.min_eq_right hlength]
    rfl
  · have hencode := encode_of_category hassert (by simpa using hsends)
    obtain ⟨hcode, hat⟩ := hnumber _ hencode
    simp only [List.append_assoc, List.cons_append, List.nil_append] at hat
    obtain ⟨reader₁, hread₁, -⟩ := hat.nullTerminatedText hcategory
    have hlen := congrArg List.length hencode
    simp only [List.length_append, List.length_cons, List.length_nil, length_bigEndian] at hlen
    have hu16 : u16 (1 + (u16 m.category.length + 1)) = m.encode.length := by
      simp only [List.length_append] at hsize
      unfold u16
      omega
    simp only [hread, hcode, hofCode, hassert, if_false, hread₁, hsends, hu16,
      Option.bind_eq_bind, Option.bind_some, arrived]
    rw [Nat.min_eq_right hlength]
    obtain ⟨type, category, module⟩ := m
    cases type <;> first | rfl | exact absurd rfl hassert

theorem Metadata.deserialize_encode (object : Metadata) {m : Metadata} (hcanon : m.Canonical)
    (hnul : m.NulFree) {rest : List UInt8} (hsize : (m.encode ++ rest).length ≤ 65535)
    (htwo : 1 < (m.encode ++ rest).length) :
    object.deserialize (m.encode ++ rest) = some (m.encode.length, m.received) := by
  have hvalue : MetadataType.ofCode m.type.code = m.type := by
    have hofCode := MetadataType.ofCode_code (hcanon.imp id fun h => by simp [h])
    rwa [Nat.mod_eq_of_lt (show m.type.code.toNat < 256 from m.type.code.toNat_lt),
      UInt8.ofNat_toNat] at hofCode
  rw [deserialize_encode_arrived object hvalue hnul hsize htwo, arrived_of_canonical hcanon]

def MessageInfo.received (m : MessageInfo) : MessageInfo :=
  { m with metadata := m.metadata.received }

theorem MessageInfo.deserialize_encode (object : MessageInfo) {m : MessageInfo}
    (hcanon : m.metadata.Canonical) (hnul : m.metadata.NulFree) {rest : List UInt8}
    (hsize : (m.encode ++ rest).length ≤ 65535) :
    object.deserialize (m.encode ++ rest) = some (m.encode.length, m.received) := by
  have hpos := m.metadata.encode_pos
  have hlen : m.encode.length = m.metadata.encode.length + 8 := by simp [encode]
  have hsplit : m.encode ++ rest =
      m.metadata.encode ++ (bigEndian 8 m.timeStamp.toNat ++ rest) := by
    simp [encode]
  rw [hsplit] at hsize ⊢
  have hmetadata := Metadata.deserialize_encode object.metadata hcanon hnul hsize
    (by simp; omega)
  simp only [List.length_append] at hsize
  have hroom : (bigEndian 8 m.timeStamp.toNat ++ rest).length ≤ 65535 := by
    rw [List.length_append]
    omega
  obtain ⟨hstamp, -⟩ := (Reader.at_start hroom).number
  have hvalue : UInt64.ofNat (m.timeStamp.toNat % 256 ^ 8) = m.timeStamp := by
    rw [Nat.mod_eq_of_lt (show m.timeStamp.toNat < 256 ^ 8 from m.timeStamp.toNat_lt),
      UInt64.ofNat_toNat]
  have hok : m.metadata.encode.length ≤
      (m.metadata.encode ++ (bigEndian 8 m.timeStamp.toNat ++ rest)).length ∧
      m.metadata.encode.length ≠ 0 := ⟨by simp, by omega⟩
  unfold deserialize
  simp only [hmetadata, Option.bind_eq_bind, Option.bind_some]
  rw [if_pos hok]
  simp only [List.drop_left, hstamp, hvalue]
  rw [u16_of_lt (by simp at hsize; omega), ← hlen]
  rfl

/-- What a derived class finds: the base class has read its part, and the own fields follow. -/
theorem MessageInfo.deserialize_base (object : MessageInfo) {m : MessageInfo}
    (hcanon : m.metadata.Canonical) (hnul : m.metadata.NulFree) {fields rest code : List UInt8}
    (hcode : code = m.encode ++ fields) (hsize : (code ++ rest).length ≤ 65535) :
    object.deserialize (code ++ rest) = some (m.encode.length, m.received) ∧
      (m.encode.length ≤ (code ++ rest).length ∧ m.encode.length ≠ 0) ∧
      Reader.At ⟨(code ++ rest).drop m.encode.length, 0⟩ [] (fields ++ rest) := by
  have hpos := m.encode_pos
  have hsplit : code ++ rest = m.encode ++ (fields ++ rest) := by
    rw [hcode, List.append_assoc]
  rw [hsplit] at hsize ⊢
  refine ⟨deserialize_encode object hcanon hnul hsize, ⟨by simp, by omega⟩, ?_⟩
  rw [List.drop_left]
  refine Reader.at_start ?_
  rw [List.length_append] at hsize
  omega

theorem uint16_roundTrip (n : UInt16) : UInt16.ofNat (n.toNat % 256 ^ 2) = n := by
  rw [Nat.mod_eq_of_lt (show n.toNat < 256 ^ 2 from n.toNat_lt), UInt16.ofNat_toNat]

theorem Tracing.deserialize_encode (object : Tracing) {m : Tracing}
    (hcanon : m.info.metadata.Canonical) (hnul : m.info.metadata.NulFree)
    (hclass : 0 ∉ m.className) (hfile : 0 ∉ m.fileName) {rest : List UInt8}
    (hsize : (m.encode ++ rest).length ≤ 65535) :
    object.deserialize (m.encode ++ rest) =
      some (m.encode.length, { m with info := m.info.received }) := by
  have hcode : m.encode = m.info.encode ++ _ := rfl
  obtain ⟨hinfo, hok, hat⟩ := MessageInfo.deserialize_base object.info hcanon hnul hcode hsize
  simp only [List.append_assoc, List.cons_append, List.nil_append] at hat
  obtain ⟨reader₁, hread₁, hat₁⟩ := hat.nullTerminatedText hclass
  obtain ⟨reader₂, hread₂, hat₂⟩ := hat₁.nullTerminatedText hfile
  obtain ⟨hline, -⟩ := hat₂.number
  have hlen : m.encode.length = m.info.encode.length +
      ((m.className.length + 1) + (m.fileName.length + 1) + 2) := by
    simp [encode]
    omega
  have hu16 : u16 (m.info.encode.length +
      u16 ((m.className.length + 1) + (m.fileName.length + 1) + 2)) = m.encode.length := by
    rw [List.length_append] at hsize
    unfold u16
    omega
  unfold deserialize
  simp only [hinfo, Option.bind_eq_bind, Option.bind_some]
  rw [if_pos hok]
  simp only [hread₁, hread₂, Option.bind_some, hline, uint16_roundTrip, hu16]
  rfl

theorem WarningReporting.deserialize_encode (object : WarningReporting) {m : WarningReporting}
    (hcanon : m.info.metadata.Canonical) (hnul : m.info.metadata.NulFree)
    (hcallsign : 0 ∉ m.callsign) {rest : List UInt8}
    (hsize : (m.encode ++ rest).length ≤ 65535) :
    object.deserialize (m.encode ++ rest) =
      some (m.encode.length, { m with info := m.info.received }) := by
  have hcode : m.encode = m.info.encode ++ _ := rfl
  obtain ⟨hinfo, hok, hat⟩ := MessageInfo.deserialize_base object.info hcanon hnul hcode hsize
  simp only [List.append_assoc, List.cons_append, List.nil_append] at hat
  obtain ⟨reader₁, hread₁, -⟩ := hat.nullTerminatedText hcallsign
  have hlen : m.encode.length = m.info.encode.length + (m.callsign.length + 1) := by
    simp [encode]
  have hu16 : u16 (m.info.encode.length + u16 (m.callsign.length + 1)) = m.encode.length := by
    rw [List.length_append] at hsize
    unfold u16
    omega
  unfold deserialize
  simp only [hinfo, Option.bind_eq_bind, Option.bind_some]
  rw [if_pos hok]
  simp only [hread₁, Option.bind_some, hu16]
  rfl

/-! ### The process id of an assert -/

/-- The assert reads as it was written when its own fields are all zero or empty. -/
def Assert.Blank (m : Assert) : Prop :=
  m.processId = 0 ∧ m.processName = [] ∧ m.fileName = [] ∧ m.lineNumber = 0 ∧ m.callstack = []

/-- The reader takes the two high bytes of the process id for all of it, so every field after it is
read two bytes early. -/
theorem Assert.reads (object : Assert) {m : Assert} (hcanon : m.info.metadata.Canonical)
    (hnul : m.info.metadata.NulFree) {rest : List UInt8}
    (hsize : (m.encode ++ rest).length ≤ 65535) :
    ∃ frameReader : Reader,
      frameReader.At ([] ++ bigEndian 2 (m.processId.toNat / 65536))
        (bigEndian 2 m.processId.toNat ++ (m.processName ++ 0 :: (m.fileName ++ 0 ::
          (bigEndian 2 m.lineNumber.toNat ++ (m.callstack ++ 0 :: rest))))) ∧
      object.deserialize (m.encode ++ rest) = (do
        let (processName, frameReader) ← frameReader.nullTerminatedText
        let (fileName, frameReader) ← frameReader.nullTerminatedText
        let (lineNumber, frameReader) := frameReader.number 2
        let (callstack, _) ← frameReader.nullTerminatedText
        return (u16 (m.info.encode.length + u16 (4 + (processName.length + 1) +
            (fileName.length + 1) + 2 + (callstack.length + 1))),
          ⟨m.info.received, UInt32.ofNat (m.processId.toNat / 65536), processName, fileName,
            UInt16.ofNat lineNumber, callstack⟩)) := by
  have hcode : m.encode = m.info.encode ++ _ := rfl
  obtain ⟨hinfo, hok, hat⟩ := MessageInfo.deserialize_base object.info hcanon hnul hcode hsize
  rw [show (4 : Nat) = 2 + 2 from rfl, bigEndian_add] at hat
  simp only [List.append_assoc, List.cons_append, List.nil_append] at hat
  have hnumber := hat.number
  rcases hread : Reader.number 2 ⟨(m.encode ++ rest).drop m.info.encode.length, 0⟩ with
    ⟨processId, frameReader⟩
  rw [hread] at hnumber
  obtain ⟨hid, hat₁⟩ := hnumber
  have hhigh : m.processId.toNat / 256 ^ 2 % 256 ^ 2 = m.processId.toNat / 65536 := by
    have := m.processId.toNat_lt
    omega
  refine ⟨frameReader, hat₁, ?_⟩
  simp only at hid
  rw [hhigh] at hid
  unfold deserialize
  simp only [hinfo, Option.bind_eq_bind, Option.bind_some]
  rw [if_pos hok]
  simp only [hread, hid]

/-- With a process id of zero, its two low bytes are read as two empty texts. -/
theorem Reader.At.two_empty {reader : Reader} {read rest : List UInt8}
    (h : reader.At read (bigEndian 2 0 ++ rest)) :
    ∃ reader₁ reader₂ read', reader.nullTerminatedText = some ([], reader₁) ∧
      reader₁.nullTerminatedText = some ([], reader₂) ∧ reader₂.At read' rest := by
  have hzero : bigEndian 2 0 = [0, 0] := by decide
  rw [hzero] at h
  have hat : reader.At read ([] ++ 0 :: ([] ++ 0 :: rest)) := h
  obtain ⟨reader₁, hread₁, hat₁⟩ := hat.nullTerminatedText (by simp)
  obtain ⟨reader₂, hread₂, hat₂⟩ := hat₁.nullTerminatedText (by simp)
  exact ⟨reader₁, reader₂, _, hread₁, hread₂, hat₂⟩

/-- With empty names, the line number is read from their terminators. -/
theorem Reader.At.zero_line {reader : Reader} {read rest : List UInt8}
    (h : reader.At read (0 :: 0 :: rest)) :
    ∃ reader' read', reader.number 2 = (0, reader') ∧ reader'.At read' rest := by
  have hzero : bigEndian 2 0 = [0, 0] := by decide
  have hat : reader.At read (bigEndian 2 0 ++ rest) := by
    rw [hzero]
    exact h
  obtain ⟨hvalue, hnext⟩ := hat.number
  exact ⟨(reader.number 2).2, _, Prod.ext (by simpa using hvalue) rfl, hnext⟩

theorem Assert.deserialize_encode_iff (object : Assert) {m : Assert}
    (hcanon : m.info.metadata.Canonical) (hnul : m.info.metadata.NulFree) {rest : List UInt8}
    (hsize : (m.encode ++ rest).length ≤ 65535) :
    object.deserialize (m.encode ++ rest) = some (m.encode.length, m) ↔
      m.info.received = m.info ∧ m.Blank := by
  obtain ⟨reader₁, hat₁, hread⟩ := reads object hcanon hnul hsize
  rw [hread]
  constructor
  · intro h
    obtain ⟨⟨processName, reader₂⟩, hread₂, h⟩ := Option.bind_eq_some_iff.mp h
    obtain ⟨⟨fileName, reader₃⟩, hread₃, h⟩ := Option.bind_eq_some_iff.mp h
    rcases hread₄ : reader₃.number 2 with ⟨lineNumber, reader₄⟩
    simp only [hread₄] at h
    obtain ⟨⟨callstack, reader₅⟩, hread₅, h⟩ := Option.bind_eq_some_iff.mp h
    have hobject := (Prod.mk.inj (Option.some.inj h)).2
    have hid : m.processId.toNat = 0 := by
      have hid : UInt32.ofNat (m.processId.toNat / 65536) = m.processId :=
        congrArg Assert.processId hobject
      have hnat := congrArg UInt32.toNat hid
      have hlt := m.processId.toNat_lt
      rw [UInt32.toNat_ofNat_of_lt' (by simp [UInt32.size]; omega)] at hnat
      omega
    rw [hid] at hat₁
    obtain ⟨r₂, r₃, read, hr₂, hr₃, hat₃⟩ := hat₁.two_empty
    rw [hr₂] at hread₂
    obtain ⟨rfl, rfl⟩ := Prod.mk.inj (Option.some.inj hread₂)
    rw [hr₃] at hread₃
    obtain ⟨rfl, rfl⟩ := Prod.mk.inj (Option.some.inj hread₃)
    have hname : [] = m.processName := congrArg Assert.processName hobject
    have hfile : [] = m.fileName := congrArg Assert.fileName hobject
    rw [← hname, ← hfile] at hat₃
    obtain ⟨r₄, read', hnumber, hat₄⟩ := hat₃.zero_line
    rw [hnumber] at hread₄
    obtain ⟨rfl, rfl⟩ := Prod.mk.inj hread₄
    have hline : UInt16.ofNat 0 = m.lineNumber := congrArg Assert.lineNumber hobject
    rw [← hline] at hat₄
    obtain ⟨r₅, -, -, hr₅, -, -⟩ := hat₄.two_empty
    rw [hr₅] at hread₅
    have hstack : callstack = m.callstack := congrArg Assert.callstack hobject
    have hempty : [] = callstack := congrArg Prod.fst (Option.some.inj hread₅)
    exact ⟨congrArg Assert.info hobject, UInt32.toNat_inj.mp hid, hname.symm, hfile.symm,
      hline.symm, hstack.symm.trans hempty.symm⟩
  · rintro ⟨hreceived, hid, hname, hfile, hline, hstack⟩
    have hlen : m.encode.length = m.info.encode.length + 9 := by
      simp [encode, hname, hfile, hstack]
    rw [hid, hname, hfile, hline] at hat₁
    obtain ⟨r₂, r₃, read, hr₂, hr₃, hat₃⟩ := hat₁.two_empty
    obtain ⟨r₄, read', hnumber, hat₄⟩ := hat₃.zero_line
    obtain ⟨r₅, -, -, hr₅, -, -⟩ := hat₄.two_empty
    have hu16 : u16 (m.info.encode.length + u16 9) = m.encode.length := by
      rw [List.length_append] at hsize
      unfold u16
      omega
    simp only [hr₂, hr₃, hr₅, hnumber, Option.bind_eq_bind, Option.bind_some, List.length_nil, hu16,
      hreceived, hid]
    obtain ⟨info, processId, processName, fileName, lineNumber, callstack⟩ := m
    simp only at hid hname hfile hline hstack
    subst hid hname hfile hline hstack
    rfl

/-! ### Messages of any kind -/

namespace Message

def encode : Message → List UInt8
  | .metadata m => m.encode
  | .messageInfo m => m.encode
  | .tracing m => m.encode
  | .warningReporting m => m.encode
  | .assert m => m.encode

/-- The metadata of a message. -/
def header : Message → Metadata
  | .metadata m => m
  | .messageInfo m => m.metadata
  | .tracing m => m.info.metadata
  | .warningReporting m => m.info.metadata
  | .assert m => m.info.metadata

/-- No text of the message contains a zero byte. -/
def NulFree (m : Message) : Prop :=
  m.header.NulFree ∧
    match m with
    | .tracing m => 0 ∉ m.className ∧ 0 ∉ m.fileName
    | .warningReporting m => 0 ∉ m.callsign
    | .assert m => 0 ∉ m.processName ∧ 0 ∉ m.fileName ∧ 0 ∉ m.callstack
    | _ => True

def SameClass : Message → Message → Prop
  | .metadata _, .metadata _ => True
  | .messageInfo _, .messageInfo _ => True
  | .tracing _, .tracing _ => True
  | .warningReporting _, .warningReporting _ => True
  | .assert _, .assert _ => True
  | _, _ => False

/-- Every buffer that holds the message gets it, an object that reads it back and further bytes is
the message, and a buffer that is one byte too small gets nothing. -/
def Conveyed (m object : Message) (rest : List UInt8) : Prop :=
  ∀ buffer : List UInt8, buffer.length ≤ 65535 →
    (m.encode.length ≤ buffer.length →
      (m.serialize buffer).1 = m.encode.length ∧
      object.deserialize ((m.serialize buffer).2.take m.encode.length ++ rest) =
        some (m.encode.length, m)) ∧
    (buffer.length + 1 = m.encode.length → (m.serialize buffer).1 = 0)

/-- The messages that arrive as they were. -/
def Readable (m : Message) (rest : List UInt8) : Prop :=
  (m.header.type = .assert → m.header.category = assertCategory) ∧
    match m with
    | .metadata m => m.type = .assert → rest ≠ []
    | .assert m => m.Blank
    | _ => True

theorem serializes {m : Message} (h : m.encode.length ≤ 65535) :
    Serializes m.serialize m.encode := by
  cases m with
  | metadata m => exact Metadata.serializes h
  | messageInfo m => exact MessageInfo.serializes h
  | tracing m => exact Tracing.serializes h
  | warningReporting m => exact WarningReporting.serializes h
  | assert m => exact Assert.serializes h

/-- What is left to show of a message is that its encoding is read back. -/
theorem conveyed_iff_deserialize {m : Message} (object : Message) (rest : List UInt8)
    (h : m.encode.length ≤ 65535) :
    m.Conveyed object rest ↔
      object.deserialize (m.encode ++ rest) = some (m.encode.length, m) := by
  constructor
  · intro hconveyed
    obtain ⟨hfit, -⟩ := serializes h m.encode h
    have hread := ((hconveyed m.encode h).1 (Nat.le_refl _)).2
    rw [hfit (Nat.le_refl _)] at hread
    simpa using hread
  · intro hread buffer hbuffer
    obtain ⟨hfit, hsmall⟩ := serializes h buffer hbuffer
    constructor
    · intro hfits
      rw [hfit hfits]
      refine ⟨rfl, ?_⟩
      rw [List.take_left]
      exact hread
    · intro hshort
      exact hsmall (by omega)

theorem received_eq_iff (m : Metadata) :
    m.received = m ↔ (m.type = .assert → m.category = assertCategory) := by
  unfold Metadata.received
  split_ifs with hassert
  · simp [Metadata.ext_iff, hassert, eq_comm]
  · simp [hassert]

theorem info_received_eq_iff (m : MessageInfo) :
    m.received = m ↔ (m.metadata.type = .assert → m.metadata.category = assertCategory) := by
  rw [← received_eq_iff, MessageInfo.ext_iff]
  simp [MessageInfo.received]

theorem metadata_read_iff (object : Metadata) {m : Metadata} (hcanon : m.Canonical)
    (hnul : m.NulFree) {rest : List UInt8} (hsize : (m.encode ++ rest).length ≤ 65535) :
    object.deserialize (m.encode ++ rest) = some (m.encode.length, m) ↔
      (m.type = .assert → m.category = assertCategory) ∧ (m.type = .assert → rest ≠ []) := by
  by_cases htwo : 1 < (m.encode ++ rest).length
  · have hrest : m.type = .assert → rest ≠ [] := by
      rintro hassert rfl
      rw [Metadata.encode_of_assert hassert] at htwo
      simp at htwo
    rw [Metadata.deserialize_encode object hcanon hnul hsize htwo, ← received_eq_iff]
    simp only [Option.some.injEq, Prod.mk.injEq, true_and]
    exact ⟨fun h => ⟨h, hrest⟩, And.left⟩
  · -- a single byte is refused, and only the metadata of an assert is that short
    have hpos := m.encode_pos
    rw [List.length_append] at htwo
    have hassert : m.type = .assert := by
      by_contra hassert
      by_cases hsends : m.type.sendsModule = true
      · have hlen := congrArg List.length (Metadata.encode_of_sendsModule hsends)
        simp only [List.length_append, List.length_cons, length_bigEndian] at hlen
        omega
      · have hlen := congrArg List.length
          (Metadata.encode_of_category hassert (by simpa using hsends))
        simp only [List.length_append, List.length_cons, length_bigEndian] at hlen
        omega
    have hrest : rest = [] := List.length_eq_zero_iff.mp (by omega)
    constructor
    · intro h
      unfold Metadata.deserialize at h
      rw [if_neg (by rw [List.length_append]; omega)] at h
      have := congrArg Prod.fst (Option.some.inj h)
      simp only at this
      omega
    · rintro ⟨-, h⟩
      exact absurd hrest (h hassert)

theorem map_eq_some_iff_of_injective {β γ : Type*} {f : β → γ} (hf : Function.Injective f)
    {r : Option (Nat × β)} {n : Nat} {x : β} :
    (r.map fun y => (y.1, f y.2)) = some (n, f x) ↔ r = some (n, x) := by
  rcases r with - | ⟨k, y⟩
  · simp
  · simp [hf.eq_iff]

/-- A canonical message whose texts contain no zero byte, and whose bytes and what follows them fit
a 16-bit size, is conveyed exactly when it is readable. -/
theorem conveyed_iff_readable {m object : Message} {rest : List UInt8}
    (hclass : m.SameClass object) (hcanon : m.header.Canonical) (hnul : m.NulFree)
    (hsize : (m.encode ++ rest).length ≤ 65535) :
    m.Conveyed object rest ↔ m.Readable rest := by
  have hle : m.encode.length ≤ 65535 := by
    rw [List.length_append] at hsize
    omega
  rw [conveyed_iff_deserialize object rest hle]
  obtain ⟨hheader, hfields⟩ := hnul
  cases m with
  | metadata m =>
    cases object with
    | metadata object =>
      rw [deserialize, map_eq_some_iff_of_injective fun _ _ h => metadata.inj h]
      exact metadata_read_iff object hcanon hheader hsize
    | _ => exact hclass.elim
  | messageInfo m =>
    cases object with
    | messageInfo object =>
      rw [deserialize, map_eq_some_iff_of_injective fun _ _ h => messageInfo.inj h, encode,
        MessageInfo.deserialize_encode object hcanon hheader hsize]
      simp [Readable, header, info_received_eq_iff]
    | _ => exact hclass.elim
  | tracing m =>
    cases object with
    | tracing object =>
      rw [deserialize, map_eq_some_iff_of_injective fun _ _ h => tracing.inj h, encode,
        Tracing.deserialize_encode object hcanon hheader hfields.1 hfields.2 hsize]
      simp [Readable, header, Tracing.ext_iff, info_received_eq_iff]
    | _ => exact hclass.elim
  | warningReporting m =>
    cases object with
    | warningReporting object =>
      rw [deserialize, map_eq_some_iff_of_injective fun _ _ h => warningReporting.inj h, encode,
        WarningReporting.deserialize_encode object hcanon hheader hfields hsize]
      simp [Readable, header, WarningReporting.ext_iff, info_received_eq_iff]
    | _ => exact hclass.elim
  | assert m =>
    cases object with
    | assert object =>
      rw [deserialize, map_eq_some_iff_of_injective fun _ _ h => assert.inj h, encode,
        Assert.deserialize_encode_iff object hcanon hheader hsize, info_received_eq_iff]
      rfl
    | _ => exact hclass.elim

/-- A tracing message and a blank object that reads it. -/
theorem conveyed_tracing :
    Conveyed (.tracing ⟨⟨⟨.tracing, text "Information", text "Plugin"⟩, 5⟩, text "a.cpp", 42,
        text "A"⟩)
      (.tracing ⟨⟨⟨.invalid, [], []⟩, 0⟩, [], 0, []⟩) [1, 2] := by
  refine (conveyed_iff_readable ?_ (.inl rfl) ?_ (by decide)).mpr ⟨by decide, trivial⟩
  · trivial
  · exact ⟨⟨by decide, by decide⟩, by decide, by decide⟩

/-- The process id 1234 arrives as 0, and its low bytes are taken for the process name. -/
theorem not_conveyed_assert :
    ¬ Conveyed (.assert ⟨⟨⟨.assert, assertCategory, moduleAssert⟩, 5⟩, 1234, text "Thunder",
        text "a.cpp", 42, text "main"⟩)
      (.assert ⟨⟨⟨.invalid, [], []⟩, 0⟩, 0, [], [], 0, []⟩) [] := by
  intro h
  rw [conveyed_iff_deserialize _ _ (by decide)] at h
  exact absurd h (by decide)

end Message

end Thunder.Core
