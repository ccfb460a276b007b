import Thunder.Core.CodePoint
import Thunder.Core.JSONElement
import Mathlib.Data.List.DropRight

/-! `Core::JSON::String`: a text between quotes with its escapes, or the opaque text of any other
value.  In the bytes below 0x22 is the quote, 0x5C the backslash, 0x2F the slash, 0x75 the `u`;
0x7B and 0x7D are the curly brackets, 0x5B and 0x5D the square ones, 0x2C is the comma. -/

namespace Thunder.Core.JSON

def isprint (c : UInt8) : Bool := 0x20 ≤ c ∧ c ≤ 0x7E

def isspace (c : UInt8) : Bool := c = 0x20 ∨ (0x09 ≤ c ∧ c ≤ 0x0D)

def isdigit (c : UInt8) : Bool := 0x30 ≤ c ∧ c ≤ 0x39

def isxdigit (c : UInt8) : Bool := isdigit c ∨ (0x41 ≤ c ∧ c ≤ 0x46) ∨ (0x61 ≤ c ∧ c ≤ 0x66)

theorem isdigit_iff {c : UInt8} : isdigit c = true ↔ 0x30 ≤ c.toNat ∧ c.toNat ≤ 0x39 :=
  decide_eq_true_iff.trans (and_congr UInt8.le_iff_toNat_le UInt8.le_iff_toNat_le)

theorem isxdigit_iff {c : UInt8} : isxdigit c = true ↔
    (0x30 ≤ c.toNat ∧ c.toNat ≤ 0x39) ∨ (0x41 ≤ c.toNat ∧ c.toNat ≤ 0x46) ∨
      (0x61 ≤ c.toNat ∧ c.toNat ≤ 0x66) := by
  simp [isxdigit, isdigit_iff, UInt8.le_iff_toNat_le]

/-- The value of a hexadecimal digit. -/
def hexValue (c : UInt8) : Nat :=
  if isdigit c then c.toNat - 0x30
  else if 0x61 ≤ c then 10 + (c.toNat - 0x20 - 0x41) else 10 + (c.toNat - 0x41)

/-- `IElement::NullTag`. -/
def nullTag : Text := [0x6E, 0x75, 0x6C, 0x6C]

/-- The counters are the ten lowest bits of `_flagsAndCounters`: the nesting depth of an opaque
value, the hexadecimal digits that are to be read, or, while an escape is written, the bytes it
stands for (three bits) and the index in it (three bits). -/
structure String where
  default : Text
  value : Text
  storage : Nat
  counter : Nat
  quotedArea : Bool
  special : Bool
  quotedSerialize : Bool
  quoteFound : Bool
  null : Bool
  set : Bool
  deriving DecidableEq, Repr

namespace String

/-- `String(quoted)`. -/
def new (quoted : Bool) : String :=
  ⟨[], [], 0, 0, false, false, quoted, false, false, false⟩

/-- A text up to its first zero byte (`c_str`). -/
def cString (text : Text) : Text := text.takeWhile (· ≠ 0)

/-- `operator=(const string&)`. -/
def assign (s : String) (text : Text) : String := { s with value := cString text, set := true }

/-- `Value()`. -/
def getValue (s : String) : Text :=
  if s.set ∧ s.quoteFound ∧ s.quotedSerialize = false then toQuotedString 0x22 s.value
  else if s.set ∧ s.null = false then cString s.value else cString s.default

def clear (s : String) : String :=
  { s with
    value := []
    counter := 0
    quotedArea := false
    special := false
    quoteFound := false
    null := false
    set := false }

def isQuoted (s : String) : Bool := s.null = false ∧ (s.quotedSerialize ∨ s.quoteFound)

/-! ### Serialize -/

/-- Written as it is, between quotes. -/
def isPlain (current : UInt8) : Bool :=
  isprint current ∧ current ≠ 0x22 ∧ current ≠ 0x5C ∧ current ≠ 0x2F

/-- The letter behind the backslash, for the characters that have one. -/
def shortEscape (current : UInt8) : Option UInt8 :=
  if current = 0x08 then some 0x62
  else if current = 0x09 then some 0x74
  else if current = 0x0A then some 0x6E
  else if current = 0x0C then some 0x66
  else if current = 0x0D then some 0x72
  else if current = 0x5C then some 0x5C
  else if current = 0x2F then some 0x2F
  else if current = 0x22 then some 0x22
  else none

def hexDigit (part : Nat) : UInt8 :=
  if 9 < part then UInt8.ofNat (0x41 + (part - 10)) else UInt8.ofNat (0x30 + part)

/-- The `\u` escape of the code point at `offset` begins. -/
def startUnicode (s : String) (offset length : Nat) : String :=
  let (codeSize, codePoint) := toCodePoint (s.value.drop (offset - 1)) length
  let codeSize :=
    if codeSize < 0 then if (-codeSize).toNat ≤ length then (-codeSize).toNat else length
    else codeSize.toNat
  let (lowPart, highPart, _) := codePointToUTF16 codePoint
  { s with
    storage := highPart <<< 16 ||| lowPart
    counter := s.counter ||| ((codeSize &&& 7) <<< 3 ||| 2) }

/-- The byte of a `\u` escape at its index: the first unit of two is in the upper half of the
storage. -/
def unicodeByte (s : String) : UInt8 :=
  let index := s.counter &&& 7
  if index < 2 then if index = 0 then 0x5C else 0x75
  else
    hexDigit (s.storage >>> ((if 0xFFFF < s.storage then 16 else 0) + (5 - index) * 4) &&& 0xF)

/-- A turn of the loop: the byte that it writes, and what is left of the text. -/
def serializeByte (s : String) (offset length : Nat) : UInt8 × String × Nat × Nat :=
  let current := s.value.getD (offset - 1) 0
  if s.isQuoted = false ∨ isPlain current then (current, s, u32 (offset + 1), length - 1)
  else if s.special = false then (0x5C, { s with special := true }, offset, length)
  else if s.counter &&& 0xFF = 0 then
    match shortEscape current with
    | some letter => (letter, { s with special := false }, u32 (offset + 1), length - 1)
    | none => (0x75, s.startUnicode offset length, offset, length)
  else
    let counter := s.counter + 1
    if counter &&& 7 = 6 then
      if 0xFFFF < s.storage then
        (s.unicodeByte, { s with storage := s.storage &&& 0xFFFF, counter := counter &&& 0xF8 },
          offset, length)
      else
        let skip := counter >>> 3 &&& 7
        (s.unicodeByte, { s with counter := 0, special := false }, u32 (offset + skip),
          u32 (length + 2 ^ 32 - skip))
    else (s.unicodeByte, { s with counter := counter }, offset, length)

/-- The loop, with room for so many bytes. -/
def serializeLoop : Nat → String → Nat → Nat → Text × String × Nat × Nat
  | 0, s, offset, length => ([], s, offset, length)
  | room + 1, s, offset, length =>
    if length = 0 then ([], s, offset, length)
    else
      let (b, s, offset, length) := serializeByte s offset length
      let (bytes, rest) := serializeLoop room s offset length
      (b :: bytes, rest)

/-- The end of `Serialize`: the closing quote, when the text has ended and there is room for it. -/
def closeText (maxLength : Nat) (result : Text) (s : String) (offset length : Nat) :
    Text × String × Nat :=
  if length = 0 then
    if s.isQuoted = false then (result, s, 0)
    else if result.length < maxLength then (result ++ [0x22], s, 0)
    else (result, s, offset)
  else (result, s, offset)

def serialize (s : String) (maxLength offset : Nat) : Text × String × Nat :=
  if s.set ∨ (s.value = [] ∧ s.isQuoted) then
    let (opening, s, offset) :=
      if offset = 0 then
        (if s.isQuoted then [0x22] else [],
          { s with special := false, quotedArea := false, counter := 0 }, 1)
      else ([], s, offset)
    let length := u32 (u32 s.value.length + 2 ^ 32 - (offset - 1))
    let (bytes, s, offset, length) := serializeLoop (maxLength - opening.length) s offset length
    closeText maxLength (opening ++ bytes) s offset length
  else ([], s, offset)

/-! ### Deserialize -/

/-- Whether backslashes escape the last character, by their number. -/
def isEscaped (value : Text) : Bool :=
  if value.length < 2 then false
  else
    let index := u32 (value.length - 2)
    ((value.take (index + 1)).reverse.takeWhile (· = 0x5C)).length % 2 ≠ 0

/-- `InScope`, for a square bracket or a curly one. -/
def inScope (s : String) (square : Bool) : Option String :=
  let depth := s.counter &&& 0x1F
  if (depth ≠ 0 ∨ s.value = []) ∧ depth + 1 ≤ 31 then
    some { s with storage := u32 (s.storage <<< 1) ||| square.toNat, counter := s.counter + 1 }
  else none

def outScope (s : String) (square : Bool) : Option String :=
  if 0 < s.counter &&& 0x1F ∧ s.storage &&& 1 = square.toNat then
    some { s with storage := s.storage >>> 1, counter := s.counter - 1 }
  else none

/-- A turn of the loop: whether it took the byte, and whether the value has ended. -/
structure Turn where
  string : String
  error : Option Error
  taken : Bool
  finished : Bool
  deriving DecidableEq, Repr

/-- Behind the last byte of an opaque value that is not in a bracket. -/
def endsOpaque (value : Text) (current : UInt8) : Bool :=
  current = 0x2C ∨ current = 0x7D ∨ current = 0x5D ∨ current = 0 ∨ (value ≠ [] ∧ isspace current)

/-- What a bracket outside string literals does to the scope. -/
def scope (s : String) (error : Option Error) (current : UInt8) : String × Option Error :=
  if current = 0x7B ∨ current = 0x5B then
    match s.inScope (current = 0x5B) with
    | some s => (s, error)
    | none => (s, some "Opaque object nesting too deep")
  else if s.counter &&& 0x1F = 0 then (s, error)
  else if current = 0x7D then
    match s.outScope false with
    | some s => (s, error)
    | none => (s, some "Expected \"]\" but got \"\x7d\" in opaque object")
  else if current = 0x5D then
    match s.outScope true with
    | some s => (s, error)
    | none => (s, some "Expected \"\x7d\" but got \"]\" in opaque object")
  else (s, error)

/-- The bytes of an opaque value are kept, but for blanks outside string literals. -/
def opaqueTurn (s : String) (error : Option Error) (current : UInt8) : Turn :=
  if s.quotedArea = false ∧ current ≠ 0x7B ∧ current ≠ 0x5B ∧ s.counter &&& 0x1F = 0 ∧
      endsOpaque s.value current then ⟨s, error, false, true⟩
  else
    let (s, error) := if s.quotedArea then (s, error) else s.scope error current
    let keep := s.quotedArea ∨ isspace current = false
    let finished := s.quotedArea = false ∧ s.counter &&& 0x1F = 0 ∧
      (current = 0x7D ∨ current = 0x5D)
    let s := if keep then { s with value := s.value ++ [current] } else s
    let s := if current = 0x22 ∧ isEscaped s.value = false then
      { s with quotedArea := !s.quotedArea } else s
    ⟨s, error, true, finished⟩

/-- The character that a letter behind a backslash stands for. -/
def unescape (current : UInt8) : Option UInt8 :=
  if current = 0x22 ∨ current = 0x5C ∨ current = 0x2F then some current
  else if current = 0x62 then some 0x08
  else if current = 0x74 then some 0x09
  else if current = 0x6E then some 0x0A
  else if current = 0x66 then some 0x0C
  else if current = 0x72 then some 0x0D
  else none

/-- Four digits are complete: a high surrogate waits for the next four, all else is decoded. -/
def decodeStorage (s : String) (error : Option Error) : String × Option Error :=
  if 0xFFFF ≤ s.storage ∨ s.storage &&& 0xFC00 ≠ 0xD800 then
    let (codePoint, _) := utf16ToCodePoint (s.storage &&& 0xFFFF) (s.storage >>> 16 &&& 0xFFFF)
    let buffer := fromCodePoint codePoint
    if buffer = [] then
      ({ s with storage := 0 }, some "There is no valid codepoint defined.")
    else ({ s with value := s.value ++ buffer, storage := 0 }, error)
  else (s, error)

/-- A turn between quotes. -/
def quotedTurn (s : String) (error : Option Error) (current : UInt8) : Turn :=
  if s.special = false then
    if current = 0x5C then ⟨{ s with special := true }, error, true, false⟩
    else if current = 0x22 then ⟨s, error, true, true⟩
    else if current ≤ 0x1F then ⟨s, some "Unescaped control character detected", true, false⟩
    else ⟨{ s with value := s.value ++ [current] }, error, true, false⟩
  else if s.counter &&& 0xFF = 0 then
    if current = 0x75 then ⟨{ s with counter := s.counter ||| 4 }, error, true, false⟩
    else
      match unescape current with
      | some c => ⟨{ s with value := s.value ++ [c], special := false }, error, true, false⟩
      | none => ⟨{ s with special := false }, some "unknown escaping code.", true, false⟩
  else
    let s := { s with counter := s.counter - 1 }
    if isxdigit current = false then
      ⟨s, some "the unescaping of the u requires hexadecimal characters", false, false⟩
    else
      let s := { s with storage := u32 (s.storage <<< 4) ||| (hexValue current &&& 0xF) }
      if s.counter &&& 0xFF = 0 then
        let (s, error) := decodeStorage { s with special := false } error
        ⟨s, error, true, false⟩
      else ⟨s, error, true, false⟩

def turn (s : String) (error : Option Error) (current : UInt8) : Turn :=
  if s.quoteFound = false then s.opaqueTurn error current else s.quotedTurn error current

/-- The turns on one byte: a turn that neither takes it nor ends the value counts down, so there
are at most as many of them as the counter says. -/
def turns (current : UInt8) : Nat → String → Option Error → Turn
  | 0, s, error => s.turn error current
  | count + 1, s, error =>
    let t := s.turn error current
    if t.taken ∨ t.finished then t else turns current count t.string t.error

/-- What the loop leaves behind. -/
structure Parsed where
  string : String
  error : Option Error
  result : Nat
  finished : Bool
  deriving DecidableEq, Repr

def deserializeLoop : Text → String → Option Error → Parsed
  | [], s, error => ⟨s, error, 0, false⟩
  | current :: rest, s, error =>
    let t := turns current s.counter s error
    if t.finished then ⟨t.string, t.error, t.taken.toNat, true⟩
    else
      let parsed := deserializeLoop rest t.string t.error
      { parsed with result := parsed.result + 1 }

/-- The value has ended: it is set, and an opaque one loses its trailing blanks. -/
def complete (s : String) : String :=
  { s with
    value := if s.quoteFound then s.value else s.value.rdropWhile isspace
    null := s.null ∨ s.value = nullTag
    set := true }

def deserialize (s : String) (stream : Text) (offset : Nat) (error : Option Error) :
    Loaded String :=
  let quote := offset = 0 ∧ stream.head? = some 0x22
  let s := if offset = 0 then
      { s with
        value := []
        storage := 0
        counter := 0
        quotedArea := false
        special := false
        quoteFound := quote }
    else s
  let offset := if offset = 0 then 1 else offset
  let parsed := deserializeLoop (if quote then stream.tail else stream) s error
  let result := (if quote then 1 else 0) + parsed.result
  if parsed.finished = false ∧ parsed.error = none then
    ⟨parsed.string, result, u32 (offset + u32 parsed.string.value.length), parsed.error⟩
  else ⟨parsed.string.complete, result, 0, parsed.error⟩

instance : IElement String where
  clear := clear
  isSet := set
  isNull := null
  serialize := serialize
  deserialize := deserialize

end String

end Thunder.Core.JSON
