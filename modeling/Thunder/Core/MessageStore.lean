import Thunder.Core.Frame

/-! The codec of messages.  Every class writes what its base class writes and then its own fields,
each into a frame of its own behind the bytes written so far; a buffer that is too small makes the
length 0.  The module of a message is on the wire only where its type does not fix it, and neither
is the category of an assert. -/

namespace Thunder.Core

open Bytes

/-- The bytes of a string literal of the source. -/
def text (s : String) : Text := s.toList.map fun c => UInt8.ofNat c.toNat

def moduleLogging : Text := text "SysLog"
def moduleReporting : Text := text "Reporting"
def moduleOperationalStream : Text := text "Operational Stream"
def moduleAssert : Text := text "Assert"
def assertCategory : Text := text "General"

/-- The byte of `Metadata::type`. -/
def MetadataType.code : MetadataType → UInt8
  | .invalid => 0
  | .tracing => 1
  | .logging => 2
  | .reporting => 3
  | .operationalStream => 4
  | .assert => 5
  | .telemetry => 6
  | .other code => code

def MetadataType.ofCode (code : UInt8) : MetadataType :=
  if code = 0 then .invalid
  else if code = 1 then .tracing
  else if code = 2 then .logging
  else if code = 3 then .reporting
  else if code = 4 then .operationalStream
  else if code = 5 then .assert
  else if code = 6 then .telemetry
  else .other code

/-- The types whose module is on the wire. -/
def MetadataType.sendsModule (type : MetadataType) : Bool := type = .tracing ∨ type = .telemetry

@[ext] structure MessageInfo where
  metadata : Metadata
  timeStamp : UInt64
  deriving DecidableEq

/-- `IStore::Tracing`. -/
@[ext] structure Tracing where
  info : MessageInfo
  fileName : Text
  lineNumber : UInt16
  className : Text
  deriving DecidableEq

/-- `IStore::WarningReporting`. -/
@[ext] structure WarningReporting where
  info : MessageInfo
  callsign : Text
  deriving DecidableEq

/-- `IStore::Assert`; `processId` is a `pid_t`, as its 32 bits. -/
structure Assert where
  info : MessageInfo
  processId : UInt32
  processName : Text
  fileName : Text
  lineNumber : UInt16
  callstack : Text
  deriving DecidableEq

/-! ### Serialize -/

/-- The length that `Metadata::Serialize` computes first. -/
def Metadata.serializedLength (m : Metadata) : Nat :=
  if m.type = .assert then 1
  else if m.type.sendsModule then
    u16 (u16 (1 + u16 (m.category.length + 1)) + u16 (m.module.length + 1))
  else u16 (1 + u16 (m.category.length + 1))

/-- The length, and the buffer afterwards. -/
def Metadata.serialize (m : Metadata) (buffer : List UInt8) : Nat × List UInt8 :=
  if m.serializedLength ≤ buffer.length then
    let frameWriter := Writer.number 1 m.type.code.toNat ⟨buffer, 0⟩
    let frameWriter :=
      if m.type = .assert then frameWriter
      else if m.type.sendsModule then
        (frameWriter.nullTerminatedText m.category).nullTerminatedText m.module
      else frameWriter.nullTerminatedText m.category
    (m.serializedLength, frameWriter.data)
  else (0, buffer)

/-- What a derived class adds to the result of its base class: `extra` bytes of fields. -/
def extend (base : Nat × List UInt8) (extra : Nat) (fields : Writer → Writer) :
    Nat × List UInt8 :=
  let (length, buffer) := base
  if length ≠ 0 then
    if length + extra ≤ buffer.length then
      (u16 (length + extra), buffer.take length ++ (fields ⟨buffer.drop length, 0⟩).data)
    else (0, buffer)
  else (0, buffer)

def MessageInfo.serialize (m : MessageInfo) (buffer : List UInt8) : Nat × List UInt8 :=
  extend (m.metadata.serialize buffer) 8 fun frameWriter =>
    frameWriter.number 8 m.timeStamp.toNat

def Tracing.serialize (m : Tracing) (buffer : List UInt8) : Nat × List UInt8 :=
  extend (m.info.serialize buffer)
    (u16 ((m.className.length + 1) + (m.fileName.length + 1) + 2)) fun frameWriter =>
      ((frameWriter.nullTerminatedText m.className).nullTerminatedText m.fileName).number 2
        m.lineNumber.toNat

def WarningReporting.serialize (m : WarningReporting) (buffer : List UInt8) : Nat × List UInt8 :=
  extend (m.info.serialize buffer) (u16 (m.callsign.length + 1)) fun frameWriter =>
    frameWriter.nullTerminatedText m.callsign

def Assert.serialize (m : Assert) (buffer : List UInt8) : Nat × List UInt8 :=
  extend (m.info.serialize buffer)
    (u16 (4 + (m.processName.length + 1) + (m.fileName.length + 1) + 2 + (m.callstack.length + 1)))
    fun frameWriter =>
      ((((frameWriter.number 4 m.processId.toNat).nullTerminatedText
        m.processName).nullTerminatedText m.fileName).number 2
          m.lineNumber.toNat).nullTerminatedText m.callstack

/-! ### Deserialize

The first argument is the object before the call.  There is no result where the code would read a
text on behind the buffer. -/

def Metadata.deserialize (m : Metadata) (buffer : List UInt8) : Option (Nat × Metadata) :=
  if 1 < buffer.length then do
    let (code, frameReader) := Reader.number 1 ⟨buffer, 0⟩
    let type := MetadataType.ofCode (UInt8.ofNat code)
    if type = .assert then
      return (min buffer.length 1, ⟨type, assertCategory, moduleAssert⟩)
    else
      let (category, frameReader) ← frameReader.nullTerminatedText
      let length := u16 (1 + (u16 category.length + 1))
      if type.sendsModule then
        let (module, _) ← frameReader.nullTerminatedText
        let length := u16 (length + (u16 module.length + 1))
        return (min buffer.length length, ⟨type, category, module⟩)
      else
        let module := match type with
          | .logging => moduleLogging
          | .reporting => moduleReporting
          | .operationalStream => moduleOperationalStream
          | _ => m.module
        return (min buffer.length length, ⟨type, category, module⟩)
  else some (0, m)

def MessageInfo.deserialize (m : MessageInfo) (buffer : List UInt8) :
    Option (Nat × MessageInfo) := do
  let (length, metadata) ← m.metadata.deserialize buffer
  if length ≤ buffer.length ∧ length ≠ 0 then
    let (timeStamp, _) := Reader.number 8 ⟨buffer.drop length, 0⟩
    return (u16 (length + 8), ⟨metadata, UInt64.ofNat timeStamp⟩)
  else return (0, { m with metadata := metadata })

def Tracing.deserialize (m : Tracing) (buffer : List UInt8) : Option (Nat × Tracing) := do
  let (length, info) ← m.info.deserialize buffer
  if length ≤ buffer.length ∧ length ≠ 0 then
    let frameReader : Reader := ⟨buffer.drop length, 0⟩
    let (className, frameReader) ← frameReader.nullTerminatedText
    let (fileName, frameReader) ← frameReader.nullTerminatedText
    let (lineNumber, _) := frameReader.number 2
    return (u16 (length + u16 ((className.length + 1) + (fileName.length + 1) + 2)),
      ⟨info, fileName, UInt16.ofNat lineNumber, className⟩)
  else return (0, { m with info := info })

def WarningReporting.deserialize (m : WarningReporting) (buffer : List UInt8) :
    Option (Nat × WarningReporting) := do
  let (length, info) ← m.info.deserialize buffer
  if length ≤ buffer.length ∧ length ≠ 0 then
    let frameReader : Reader := ⟨buffer.drop length, 0⟩
    let (callsign, _) ← frameReader.nullTerminatedText
    return (u16 (length + u16 (callsign.length + 1)), ⟨info, callsign⟩)
  else return (0, { m with info := info })

/-- The process id is read as 16 bits. -/
def Assert.deserialize (m : Assert) (buffer : List UInt8) : Option (Nat × Assert) := do
  let (length, info) ← m.info.deserialize buffer
  if length ≤ buffer.length ∧ length ≠ 0 then
    let frameReader : Reader := ⟨buffer.drop length, 0⟩
    let (processId, frameReader) := frameReader.number 2
    let (processName, frameReader) ← frameReader.nullTerminatedText
    let (fileName, frameReader) ← frameReader.nullTerminatedText
    let (lineNumber, frameReader) := frameReader.number 2
    let (callstack, _) ← frameReader.nullTerminatedText
    return (u16 (length + u16 (4 + (processName.length + 1) + (fileName.length + 1) + 2 +
        (callstack.length + 1))),
      ⟨info, UInt32.ofNat processId, processName, fileName, UInt16.ofNat lineNumber, callstack⟩)
  else return (0, { m with info := info })

/-! ### Messages of any kind -/

/-- A message of one of the five classes. -/
inductive Message
  | metadata (m : Metadata)
  | messageInfo (m : MessageInfo)
  | tracing (m : Tracing)
  | warningReporting (m : WarningReporting)
  | assert (m : Assert)
  deriving DecidableEq

namespace Message

def serialize : Message → List UInt8 → Nat × List UInt8
  | .metadata m => m.serialize
  | .messageInfo m => m.serialize
  | .tracing m => m.serialize
  | .warningReporting m => m.serialize
  | .assert m => m.serialize

/-- `Deserialize` of the object's class. -/
def deserialize (object : Message) (buffer : List UInt8) : Option (Nat × Message) :=
  match object with
  | .metadata m => (m.deserialize buffer).map fun r => (r.1, .metadata r.2)
  | .messageInfo m => (m.deserialize buffer).map fun r => (r.1, .messageInfo r.2)
  | .tracing m => (m.deserialize buffer).map fun r => (r.1, .tracing r.2)
  | .warningReporting m => (m.deserialize buffer).map fun r => (r.1, .warningReporting r.2)
  | .assert m => (m.deserialize buffer).map fun r => (r.1, .assert r.2)

end Message

end Thunder.Core
