import Thunder.Core.JSONBuffer
import Thunder.Core.JSONNumber

/-! `Core::JSON::IMessagePack`: elements that read themselves from MessagePack, and
`IMessagePack::FromBuffer`.  A call of `Deserialize` gets a byte at least.  What loops in the source
has a number of turns here and gives nothing if they are too few. -/

namespace Thunder.Core.MessagePack

open JSON

/-- What `Deserialize` leaves behind: the element, the number of bytes it took and the offset. -/
structure Unpacked (α : Type) where
  element : α
  loaded : Nat
  offset : Nat

namespace Unpacked

variable {α β : Type}

def map (f : α → β) (r : Unpacked α) : Unpacked β := ⟨f r.element, r.loaded, r.offset⟩

/-- The same, with so many bytes taken before. -/
def after (taken : Nat) (r : Unpacked α) : Unpacked α := { r with loaded := taken + r.loaded }

end Unpacked

def nullValue : UInt8 := 0xC0

/-! ### Numbers -/

/-- `NumberType`; `size` is the upper four bits of `_set`. -/
structure Number (f : NumberFormat) where
  size : Nat
  set : Bool
  error : Bool
  negative : Bool
  undefined : Bool
  value : f.Value

namespace Number

variable {f : NumberFormat}

def clear (_ : Number f) : Number f := ⟨0, false, false, false, false, f.cast 0⟩

/-- The header: what it leaves, and the next offset. -/
def start (x : Number f) (header : UInt8) : Number f × Nat :=
  if header = nullValue then (⟨0, false, false, false, true, f.cast 0⟩, 0)
  else if 0xCC ≤ header ∧ header ≤ 0xCF then
    (⟨2 ^ (header.toNat - 0xCC), false, false, false, false, f.cast 0⟩, 1)
  else if 0xD0 ≤ header ∧ header ≤ 0xD3 then
    (⟨2 ^ (header.toNat - 0xD0), false, false, false, false, f.cast 0⟩, 1)
  else if header &&& 0x80 = 0 then ({ x with value := f.cast (header &&& 0x7F).toNat }, 0)
  else if header &&& 0xE0 = 0xE0 then
    (⟨0, false, false, true, false, f.cast (header &&& 0x0F).toNat⟩, 0)
  else (⟨0, false, true, false, false, f.cast 0⟩, 0)

def valueLoop : Text → Number f → Nat → Unpacked (Number f)
  | [], x, offset => ⟨x, 0, offset⟩
  | c :: rest, x, offset =>
    if offset ≠ 0 then
      let value := f.cast ((f.cast (x.value.1 * 2 ^ 8)).1 + c.toNat)
      (valueLoop rest { x with value } (if offset = x.size then 0 else offset + 1)).after 1
    else ⟨x, 0, offset⟩

def deserialize (x : Number f) (stream : Text) (offset : Nat) : Unpacked (Number f) :=
  let read :=
    match stream, offset with
    | header :: rest, 0 => (valueLoop rest (x.start header).1 (x.start header).2).after 1
    | stream, offset => valueLoop stream x offset
  read.map fun x => { x with set := x.set ∨ x.value.1 ≠ 0 }

end Number

/-- `FloatType`; `memory` is the eight bytes from `_value` on, of which those of `_default` are the
upper ones in a `float`. -/
structure Float where
  double : Bool
  set : Bool
  error : Bool
  undefined : Bool
  memory : List UInt8

namespace Float

def width (x : Float) : Nat := if x.double then 8 else 4

/-- `_value = 0`. -/
def zero (x : Float) : Float :=
  { x with memory := List.replicate x.width 0 ++ x.memory.drop x.width }

def clear (x : Float) : Float :=
  { x.zero with set := false, error := false, undefined := false }

/-- `_value != 0`: a bit other than the sign. -/
def nonzero (x : Float) : Bool :=
  (x.memory.take (x.width - 1)).any (· ≠ 0) ∨ x.memory.getD (x.width - 1) 0 &&& 0x7F ≠ 0

/-- The header: what it leaves, and how many bytes it announces. -/
def start (x : Float) (header : UInt8) : Float × Nat :=
  if header = nullValue then ({ x.zero with set := false, error := false, undefined := true }, 0)
  else if header = 0xCA then (x.zero, 4)
  else if header = 0xCB then (x.zero, 8)
  else ({ x.zero with set := false, error := true, undefined := false }, 0)

def valueLoop : Text → Float → Nat → Unpacked Float
  | c :: rest, x, bytes + 1 =>
    (valueLoop rest { x with memory := x.memory.set bytes c } bytes).after 1
  | _, x, _ => ⟨x, 0, 0⟩

def deserialize (x : Float) (stream : Text) (offset : Nat) : Unpacked Float :=
  let read :=
    match stream, offset with
    | header :: rest, 0 => (valueLoop rest (x.start header).1 (x.start header).2).after 1
    | _, _ => ⟨x, 0, 0⟩
  { read with
    element := { read.element with set := read.element.set ∨ read.element.nonzero }
    offset }

end Float

/-! ### Booleans -/

structure Boolean where
  value : UInt8

namespace Boolean

def ValueBit : UInt8 := 0x01

def DefaultBit : UInt8 := 0x02

def SetBit : UInt8 := 0x04

def ErrorBit : UInt8 := 0x10

def NullBit : UInt8 := 0x20

def clear (x : Boolean) : Boolean := ⟨x.value &&& DefaultBit⟩

def deserialize (_ : Boolean) (stream : Text) (offset : Nat) : Unpacked Boolean :=
  let value :=
    if stream.getD 0 0 = nullValue then NullBit
    else if stream.getD offset 0 = 0xC3 then ValueBit ||| SetBit
    else if stream.getD offset 0 = 0xC2 then SetBit
    else ErrorBit
  ⟨⟨value⟩, 1, offset⟩

end Boolean

/-! ### Strings -/

namespace String

/-- The header: what it leaves, how many bytes it takes and the next offset. -/
def start (s : JSON.String) (header : UInt8) (maxLength : Nat) : JSON.String × Nat × Nat :=
  let s := { s with value := [] }
  if header = nullValue then ({ s with null := true }, 1, 0)
  else if header &&& 0xA0 = 0xA0 then ({ s with storage := (header &&& 0x1F).toNat }, 1, 3)
  else if header = 0xD9 then ({ s with storage := 0 }, 1, 2)
  else if header = 0xDA then ({ s with storage := 0 }, 1, 1)
  else (s, maxLength, 0)

def lengthLoop : Text → JSON.String → Nat → Unpacked JSON.String
  | [], s, offset => ⟨s, 0, offset⟩
  | c :: rest, s, offset =>
    if offset < 3 then
      (lengthLoop rest { s with storage := u32 (u32 (s.storage <<< 8) + c.toNat) }
        (offset + 1)).after 1
    else ⟨s, 0, offset⟩

def valueLoop : Text → JSON.String → Nat → Unpacked JSON.String
  | [], s, offset => ⟨s, 0, offset⟩
  | c :: rest, s, offset =>
    if offset - 3 < u16 s.storage then
      (valueLoop rest { s with value := s.value ++ [c] } (offset + 1)).after 1
    else ⟨s, 0, offset⟩

/-- A string of which all bytes are read is set, or null if it reads so. -/
def complete (s : JSON.String) : JSON.String :=
  if s.quoteFound = false ∧ s.value = nullTag then { s with null := true }
  else { s with set := true }

/-- What is behind the header. -/
def behind (s : JSON.String) (stream : Text) (offset : Nat) : Unpacked JSON.String :=
  let length := lengthLoop stream s offset
  let value := (valueLoop (stream.drop length.loaded) length.element length.offset).after
    length.loaded
  if 3 ≤ value.offset ∧ u16 (value.offset - 3) = value.element.storage then
    ⟨complete value.element, value.loaded, 0⟩
  else value

def deserialize (s : JSON.String) (stream : Text) (offset : Nat) : Unpacked JSON.String :=
  match stream, offset with
  | header :: rest, 0 =>
    let first := start s header (rest.length + 1)
    if first.2.2 = 0 then ⟨first.1, first.2.1, 0⟩
    else (behind first.1 rest first.2.2).after 1
  | stream, offset => if offset = 0 then ⟨s, 0, 0⟩ else behind s stream offset

end String

/-! ### Buffers -/

namespace Buffer

open JSON.Buffer in
/-- The header: what it leaves, how many bytes it takes and the next offset. -/
def start (b : JSON.Buffer) (header : UInt8) : JSON.Buffer × Nat × Nat :=
  let b := { b with state := 0, length := 0, index := 0 }
  if header = nullValue then ({ b with state := UNDEFINED }, 1, 0)
  else if header = 0xC4 then (b, 1, 2)
  else if header = 0xC5 then (b, 1, 1)
  else ({ b with state := ERROR }, 0, 0)

def lengthLoop : Text → JSON.Buffer → Nat → Unpacked JSON.Buffer
  | [], b, offset => ⟨b, 0, offset⟩
  | c :: rest, b, offset =>
    if offset < 3 then
      (lengthLoop rest { b with length := u16 ((b.length <<< 8) + c.toNat) } (offset + 1)).after 1
    else ⟨b, 0, offset⟩

def valueLoop : Text → JSON.Buffer → Unpacked JSON.Buffer
  | [], b => ⟨b, 0, 0⟩
  | c :: rest, b => if b.index < b.length then (valueLoop rest (b.push c)).after 1 else ⟨b, 0, 0⟩

/-- What is behind the header.  The memory of a longer buffer holds what it holds. -/
def behind (b : JSON.Buffer) (stream : Text) (offset : Nat) : Unpacked JSON.Buffer :=
  let length := lengthLoop stream b offset
  let b := length.element
  let b :=
    if length.offset = 3 ∧ b.maxLength < b.length then { b with maxLength := b.length } else b
  let value := valueLoop (stream.drop length.loaded) b
  ⟨value.element, length.loaded + value.loaded,
    if value.element.index = value.element.length then 0
    else if length.offset = 3 then 4 else length.offset⟩

def deserialize (b : JSON.Buffer) (stream : Text) (offset : Nat) : Unpacked JSON.Buffer :=
  match stream, offset with
  | header :: rest, 0 =>
    let first := start b header
    if first.2.2 = 0 then ⟨first.1, first.2.1, 0⟩
    else (behind first.1 rest first.2.2).after 1
  | stream, offset => if offset = 0 then ⟨b, 0, 0⟩ else behind b stream offset

end Buffer

/-! ### Enumerations -/

/-- The format of `_package`. -/
def packageFormat : NumberFormat := ⟨32, false, .hexadecimal, by decide⟩

structure Enum where
  state : UInt8
  value : Int
  default : Int
  package : Number packageFormat

namespace Enum

def ERROR : UInt8 := 0x02

def UNDEFINED : UInt8 := 0x04

def clear (x : Enum) : Enum := { x with state := 0 }

/-- A package that is read to its end. -/
def complete (x : Enum) : Enum :=
  if x.state = UNDEFINED then x
  else if x.package.set then { x with value := x.package.value.1 }
  else { x with state := ERROR }

def deserialize (x : Enum) (stream : Text) (offset : Nat) : Unpacked Enum :=
  if offset = 0 ∧ stream.getD 0 0 = nullValue then ⟨{ x with state := UNDEFINED }, 1, 0⟩
  else
    let read := x.package.deserialize stream offset
    let x := { x with package := read.element }
    ⟨if read.offset = 0 then x.complete else x, read.loaded, read.offset⟩

end Enum

/-! ### Arrays and containers -/

/-- What an array is besides its elements. -/
structure ArrayState where
  state : UInt8
  count : Nat

/-- `_current.pack`: nothing, `_fieldName` or the element of a field. -/
inductive Current
  | none
  | fieldName
  | field (index : Nat)
  deriving DecidableEq

/-- What a container is besides its fields. -/
structure ContainerState where
  state : UInt8
  count : Nat
  current : Current
  fieldName : JSON.String

/-- An array has the element that `ELEMENT()` makes, and its elements. -/
inductive Element
  | number (f : NumberFormat) (x : Number f)
  | float (x : Float)
  | boolean (x : Boolean)
  | string (s : JSON.String)
  | buffer (b : JSON.Buffer)
  | enum (x : Enum)
  | array (a : ArrayState) (fresh : Element) (data : List Element)
  | container (c : ContainerState) (fields : List (Text × Element))

/-- A call of `Deserialize` of an element of some type; nothing, if it does not return. -/
abbrev Call (α : Type) := α → Text → Nat → Option (Unpacked α)

/-- The two bytes of a count that is ahead, and the offset behind them. -/
def countLoop (behind : Nat → Nat) : Text → Nat → Nat → Unpacked Nat
  | [], count, offset => ⟨count, 0, offset⟩
  | c :: rest, count, offset =>
    let next := u16 (count <<< 8 ||| c.toNat)
    if offset = 1 then (countLoop behind rest next 2).after 1
    else if offset = 2 then (countLoop behind rest next (behind next)).after 1
    else ⟨count, 0, offset⟩

namespace Array

def PARSE : Nat := 5

def UNDEFINED : UInt8 := 0x40

/-- The header, which is not taken: what it leaves, how many bytes it takes and the next offset. -/
def start (a : ArrayState) (header : UInt8) : ArrayState × Nat × Nat :=
  if header = nullValue then ({ a with state := UNDEFINED ||| (a.state &&& 0xF) }, 1, 0)
  else if header &&& 0xF0 = 0x90 then ({ a with count := (header &&& 0x0F).toNat }, 0, PARSE)
  else if header &&& 0xDC ≠ 0 then (a, 0, 1)
  else (a, 0, 0)

/-- The loop over the elements, each of which gets the whole stream. -/
def elementLoop (call : Call Element) (fresh : Element) (stream : Text) :
    Nat → Nat → List Element → Nat → Nat → Option (Nat × List Element × Nat × Nat)
  | 0, _, _, _, _ => none
  | turns + 1, count, data, loaded, offset =>
    if loaded < stream.length ∧ PARSE ≤ offset then
      if offset = PARSE ∧ count = 0 then some (count, data, loaded, 0)
      else
        let count' := if offset = PARSE then count - 1 else count
        let data' := if offset = PARSE then data ++ [fresh] else data
        match data'.getLast? with
        | none => none
        | some last =>
          match call last stream (offset - PARSE) with
          | none => none
          | some read =>
            elementLoop call fresh stream turns count' (data'.dropLast ++ [read.element])
              (u16 (loaded + read.loaded)) (read.offset + PARSE)
    else some (count, data, loaded, offset)

def deserialize (call : Call Element) (turns : Nat) (a : ArrayState) (fresh : Element)
    (data : List Element) (stream : Text) (offset : Nat) : Option (Unpacked Element) :=
  let first := if offset = 0 then start a (stream.getD 0 0) else (a, 0, offset)
  let count := countLoop (fun _ => PARSE) (stream.drop first.2.1) first.1.count first.2.2
  (elementLoop call fresh stream turns count.element data (first.2.1 + count.loaded)
    count.offset).map fun last =>
      ⟨.array { first.1 with count := last.1 } fresh last.2.1, last.2.2.1, last.2.2.2⟩

end Array

namespace Container

def PARSE : Nat := 7

def UNDEFINED : UInt8 := 0x40

/-- The header: what it leaves and the next offset. -/
def start (c : ContainerState) (header : UInt8) : ContainerState × Nat :=
  if header = nullValue then ({ c with state := UNDEFINED }, 0)
  else if header &&& 0x80 = 0x80 then
    let count := (header &&& 0x0F).toNat
    ({ c with count }, if 0 < count then PARSE else 0)
  else if header &&& 0xDE ≠ 0 then (c, 1)
  else (c, 0)

/-- `Find`: the first field with this label. -/
def find (fields : List (Text × Element)) (label : Text) : Option Nat :=
  fields.findIdx? fun field => field.1 = label

/-- A field is read, if the offset says so. -/
def fieldRead (c : ContainerState) (offset : Nat) : ContainerState × Nat :=
  if offset = 0 then
    let count := if c.count = 0 then 0xFFFF else c.count - 1
    ({ c with fieldName := c.fieldName.clear, count }, if count = 0 then 0 else PARSE)
  else (c, offset + PARSE)

/-- The loop over the names and the fields. -/
def fieldLoop (call : Call Element) (stream : Text) : Nat → ContainerState →
    List (Text × Element) → Nat → Nat → Option (ContainerState × List (Text × Element) × Nat × Nat)
  | 0, _, _, _, _ => none
  | turns + 1, c, fields, loaded, offset =>
    if loaded < stream.length ∧ PARSE ≤ offset then
      let rest := stream.drop loaded
      if c.fieldName.set then
        match c.current with
        | .none =>
          let found := find fields (String.cString c.fieldName.getValue)
          let current := found.elim .fieldName .field
          fieldLoop call stream turns { c with current } fields loaded offset
        | .fieldName =>
          let read := String.deserialize c.fieldName rest (offset - PARSE)
          let next := fieldRead { c with fieldName := read.element } read.offset
          fieldLoop call stream turns next.1 fields (u16 (loaded + read.loaded)) next.2
        | .field index =>
          match fields[index]? with
          | none => none
          | some field =>
            match call field.2 rest (offset - PARSE) with
            | none => none
            | some read =>
              let next := fieldRead c read.offset
              fieldLoop call stream turns next.1 (fields.set index (field.1, read.element))
                (u16 (loaded + read.loaded)) next.2
      else
        let read := String.deserialize c.fieldName rest (offset - PARSE)
        fieldLoop call stream turns { c with fieldName := read.element, current := .none } fields
          (u16 (loaded + read.loaded)) (read.offset + PARSE)
    else some (c, fields, loaded, offset)

def deserialize (call : Call Element) (turns : Nat) (c : ContainerState)
    (fields : List (Text × Element)) (stream : Text) (offset : Nat) : Option (Unpacked Element) :=
  let first := if offset = 0 then start c (stream.getD 0 0) else (c, offset)
  let loaded := if offset = 0 then 1 else 0
  let count := countLoop (fun count => if 0 < count then PARSE else 0) (stream.drop loaded)
    first.1.count first.2
  (fieldLoop call stream turns { first.1 with count := count.element } fields
    (loaded + count.loaded) count.offset).map fun last =>
      ⟨.container last.1 last.2.1, last.2.2.1, last.2.2.2⟩

end Container

namespace Element

/-- `Deserialize` of an element; the turns bound its loops and its depth. -/
def deserialize : Nat → Call Element
  | 0, _, _, _ => none
  | turns + 1, element, stream, offset =>
    match element with
    | number f x => some ((x.deserialize stream offset).map (number f))
    | float x => some ((x.deserialize stream offset).map float)
    | boolean x => some ((x.deserialize stream offset).map boolean)
    | string s => some ((String.deserialize s stream offset).map string)
    | buffer b => some ((Buffer.deserialize b stream offset).map buffer)
    | enum x => some ((x.deserialize stream offset).map enum)
    | array a fresh data => Array.deserialize (deserialize turns) turns a fresh data stream offset
    | container c fields => Container.deserialize (deserialize turns) turns c fields stream offset

mutual

def clear : Element → Element
  | number f x => number f x.clear
  | float x => float x.clear
  | boolean x => boolean x.clear
  | string s => string s.clear
  | buffer b => buffer b.clear
  | enum x => enum x.clear
  | array a fresh _ => array { a with state := 0 } fresh []
  | container c fields => container { c with state := 0 } (clearFields fields)

def clearFields : List (Text × Element) → List (Text × Element)
  | [] => []
  | (label, element) :: fields => (label, clear element) :: clearFields fields

end

end Element

/-! ### `FromBuffer` -/

/-- How `FromBuffer` is left: with an element and whether it is complete, or with bytes that are
not in the vector. -/
inductive Outcome
  | ended (element : Element) (success : Bool)
  | outside

def fromBufferLoop (call : Call Element) (stream : Text) (size : Nat) :
    Nat → Element → Nat → Nat → Option Outcome
  | 0, _, _, _ => none
  | turns + 1, element, handled, offset =>
    if handled = size then
      some (if offset = 0 then .ended element true else .ended element.clear false)
    else if size < handled then some .outside
    else
      match call element ((stream.drop handled).take (min (size - handled) 0xFFFF)) offset with
      | none => none
      | some read =>
        fromBufferLoop call stream size turns read.element (u32 (handled + read.loaded)) read.offset

/-- `FromBuffer`; nothing, if the turns are too few. -/
def fromBuffer (turns : Nat) (element : Element) (stream : Text) : Option Outcome :=
  fromBufferLoop (Element.deserialize turns) stream (u32 stream.length) turns element.clear 0 0

/-- `FromBuffer` ends within the vector. -/
def Ends (element : Element) (stream : Text) : Prop :=
  ∃ turns last success, fromBuffer turns element stream = some (.ended last success)

end Thunder.Core.MessagePack
