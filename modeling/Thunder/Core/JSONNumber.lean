import Thunder.Core.JSONString
import Mathlib.Data.Int.Basic

/-! `Core::JSON::NumberType`: the integers of 8 to 64 bits as text, decimal or between quotes as
octal and hexadecimal numbers.  In the bytes below 0x22 is the quote, 0x2D the minus, 0x58 and 0x78
are the letter `x`. -/

namespace Thunder.Core.JSON

inductive NumberBase
  | octal
  | decimal
  | hexadecimal
  deriving DecidableEq

def NumberBase.toNat : NumberBase → Nat
  | octal => 8
  | decimal => 10
  | hexadecimal => 16

/-- `TYPE`, `SIGNED` and `BASETYPE`. -/
structure NumberFormat where
  bits : Nat
  signed : Bool
  base : NumberBase
  bits_mem : bits ∈ [8, 16, 32, 64]

namespace NumberFormat

variable (f : NumberFormat)

def min : Int := if f.signed then -2 ^ (f.bits - 1) else 0

def max : Int := if f.signed then 2 ^ (f.bits - 1) - 1 else 2 ^ f.bits - 1

/-- The numbers of `TYPE`. -/
abbrev Value := { n : Int // f.min ≤ n ∧ n ≤ f.max }

/-- An integer as a number of `TYPE`, which wraps. -/
def wrap (n : Int) : Int := if f.signed then n.bmod (2 ^ f.bits) else n % 2 ^ f.bits

theorem bits_pos : 0 < f.bits := by
  have h := f.bits_mem
  simp only [List.mem_cons, List.not_mem_nil, or_false] at h
  omega

theorem wrap_mem (n : Int) : f.min ≤ f.wrap n ∧ f.wrap n ≤ f.max := by
  have hbits := f.bits_pos
  have hsplit : (2 : Int) ^ f.bits = 2 * 2 ^ (f.bits - 1) := by
    rw [← Int.pow_succ', show f.bits - 1 + 1 = f.bits by omega]
  have hpos : (0 : Int) < 2 ^ (f.bits - 1) := Int.pow_pos (by decide)
  unfold min max wrap
  split
  · have hcast : ((2 ^ f.bits : Nat) : Int) = 2 * 2 ^ (f.bits - 1) := by
      rw [← hsplit]
      norm_cast
    have hle := Int.le_bmod (x := n) (m := 2 ^ f.bits) (Nat.two_pow_pos _)
    have hlt := Int.bmod_lt (x := n) (m := 2 ^ f.bits) (Nat.two_pow_pos _)
    omega
  · have hnonneg := Int.emod_nonneg n (show (2 : Int) ^ f.bits ≠ 0 by omega)
    have hlt := Int.emod_lt_of_pos n (show (0 : Int) < 2 ^ f.bits by omega)
    omega

def cast (n : Int) : f.Value := ⟨f.wrap n, f.wrap_mem n⟩

end NumberFormat

/-- `base` is the lowest five bits of `_set`. -/
structure NumberType (f : NumberFormat) where
  base : Nat
  quoted : Bool
  set : Bool
  error : Bool
  negative : Bool
  undefined : Bool
  value : f.Value
  default : f.Value
  deriving DecidableEq

namespace NumberType

variable {f : NumberFormat}

/-- `NumberType()`. -/
def new (f : NumberFormat) : NumberType f :=
  ⟨0, false, false, false, false, false, f.cast 0, f.cast 0⟩

/-- `operator=(const TYPE&)`. -/
def assign (x : NumberType f) (value : f.Value) : NumberType f :=
  ⟨0, false, true, false, false, false, value, x.default⟩

def clear (x : NumberType f) : NumberType f :=
  ⟨0, false, false, false, false, false, f.cast 0, x.default⟩

/-! ### `Serialize` -/

/-- The sign, where there is one. -/
def sign (x : NumberType f) : Text := if f.signed ∧ x.value.1 < 0 then [0x2D] else []

/-- A turn of the first loop of `Serialize`: what it puts out and the next offset.  The null tag
ends with the offset 0. -/
def serializeTurn (x : NumberType f) (offset : Nat) : Text × Nat :=
  if x.undefined then ([nullTag.getD offset 0], if offset + 1 = 4 then 0 else offset + 1)
  else
    match f.base, offset with
    | .decimal, _ => (x.sign, 4)
    | _, 0 => ([0x22], 1)
    | _, 1 => (x.sign, 2)
    | .octal, 2 => ([0x30], 4)
    | .hexadecimal, 2 => ([0x30], 3)
    | .hexadecimal, 3 => ([0x78], 4)
    | _, offset => ([], offset)

/-- The first loop of `Serialize`.  Each of its turns moves the offset on towards 4. -/
def serializeLead (x : NumberType f) : Nat → Nat → Nat → Text × Nat
  | 0, _, offset => ([], offset)
  | turns + 1, room, offset =>
    if offset < 4 ∧ 0 < room then
      let turn := x.serializeTurn offset
      if turn.2 = 0 then turn
      else
        let rest := serializeLead x turns (room - turn.1.length) turn.2
        (turn.1 ++ rest.1, rest.2)
    else ([], offset)

/-- `while (divider <= value) divider *= BASETYPE;` -/
def divider (f : NumberFormat) (value : Int) : Nat → Int → Int
  | 0, divider => divider
  | turns + 1, divider =>
    if divider ≤ value then NumberType.divider f value turns (f.wrap (divider * f.base.toNat))
    else divider

/-- The character of a digit. -/
def digitChar (base : NumberBase) (digit : Nat) : UInt8 :=
  if base ≠ .hexadecimal ∨ digit < 10 then .ofNat (0x30 + digit) else .ofNat (0x41 - 10 + digit)

/-- The loop of `Convert`: a digit for each power of the base, put out from the offset on. -/
def convertLoop (f : NumberFormat) : Nat → Int → Int → Nat → Nat → Nat → Text × Nat
  | 0, _, _, _, offset, _ => ([], offset)
  | turns + 1, value, divider, parsed, offset, room =>
    if 0 < divider ∧ 0 < room then
      let next := convertLoop f turns (value.tmod divider) (divider.tdiv f.base.toNat) (parsed + 1)
      if offset ≤ parsed then
        let rest := next (offset + 1) (room - 1)
        (digitChar f.base (value.tdiv divider % 2 ^ 8).toNat :: rest.1, rest.2)
      else next offset room
    else ([], offset)

/-- `Convert` of a number of `TYPE`. -/
def convert (f : NumberFormat) (serialize : Int) (room offset : Nat) : Text × Nat :=
  let first := divider f (serialize.tdiv f.base.toNat) f.bits 1
  let digits := convertLoop f (f.bits + 1) serialize first 4 offset room
  (digits.1, if f.base = .decimal ∧ digits.1.length < room then 0 else digits.2)

/-- The number that `Convert` gets: for a signed one `abs`, of which the lowest number of `TYPE` has
none. -/
def absolute (x : NumberType f) : Int := if f.signed then f.wrap x.value.1.natAbs else x.value.1

def serialize (x : NumberType f) (maxLength offset : Nat) : Text × NumberType f × Nat :=
  let lead := x.serializeLead 4 maxLength offset
  let room := maxLength - lead.1.length
  let body := if x.undefined = false ∧ 0 < room then convert f x.absolute room lead.2
    else ([], lead.2)
  if body.2 ≠ 0 ∧ body.1.length < room then (lead.1 ++ body.1 ++ [0x22], x, 0)
  else (lead.1 ++ body.1, x, body.2)

/-! ### `Deserialize` -/

def isX (c : UInt8) : Bool := c = 0x58 ∨ c = 0x78

def unsupported (c : UInt8) : Error :=
  "Unsupported character \"" ++ (Char.ofNat c.toNat).toString ++ "\" in a number"

def overflowed : Error := "Integer overflow, it should be in the integer type range"

def digitValue (c : UInt8) : Nat := c.toNat - 0x30

/-- The first digit, of a number of this base. -/
def firstDigit (x : NumberType f) (base : Nat) (c : UInt8) : NumberType f :=
  { x with base, value := f.cast (digitValue c) }

/-- What a turn of the first loop of `Deserialize` leaves: `taken` is how far it moves on. -/
structure LeadTurn (f : NumberFormat) where
  element : NumberType f
  offset : Nat
  taken : Nat
  error : Option Error

/-- An unsupported character moves on by two. -/
def refuse (x : NumberType f) (c : UInt8) : LeadTurn f :=
  ⟨⟨0, false, false, true, false, false, x.value, x.default⟩, 4, 2, some (unsupported c)⟩

/-- A turn of the first loop of `Deserialize`. -/
def leadTurn (x : NumberType f) (offset : Nat) (c : UInt8) (error : Option Error) : LeadTurn f :=
  let next (x : NumberType f) (offset : Nat) : LeadTurn f := ⟨x, offset, 1, error⟩
  -- the quote behind nothing is read again by the second loop
  let empty : LeadTurn f := ⟨x, 4, 0, error⟩
  match offset with
  | 0 =>
    let x := x.clear
    if c = 0x22 then next { x with quoted := true } 1
    else if c = 0x2D then next { x with negative := true, base := 10 } 4
    else if isdigit c then next (x.firstDigit 10 c) 4
    else if c = 0x6E then next { x with undefined := true } 1
    else x.refuse c
  | 1 =>
    if c = 0x30 then next x 2
    else if c = 0x2D then next { x with negative := true } 2
    else if isdigit c then next (x.firstDigit 10 c) 4
    else if x.undefined ∧ c = 0x75 then next x 2
    else if c = 0x22 ∧ x.quoted then empty
    else x.refuse c
  | 2 =>
    if c = 0x30 then next x 3
    else if isX c then next { x with base := 16 } 4
    else if isdigit c then next (x.firstDigit (if x.negative then 10 else 8) c) 4
    else if x.undefined ∧ c = 0x6C then next x 3
    else if c = 0x22 ∧ x.quoted then empty
    else x.refuse c
  | _ =>
    if isX c then next { x with base := 16 } 4
    else if isdigit c then next (x.firstDigit 8 c) 4
    else if x.undefined ∧ c = 0x6C then next x 4
    else if c = 0x22 ∧ x.quoted then empty
    else x.refuse c

/-- The first loop of `Deserialize`. -/
def leadLoop : Text → NumberType f → Nat → Option Error → Loaded (NumberType f)
  | [], x, offset, error => ⟨x, 0, offset, error⟩
  | c :: rest, x, offset, error =>
    if offset < 4 then
      let turn := x.leadTurn offset c error
      -- every other turn moves on by one
      if turn.taken = 1 then (leadLoop rest turn.element turn.offset turn.error).after 1
      else ⟨turn.element, turn.taken, turn.offset, turn.error⟩
    else ⟨x, 0, offset, error⟩

/-- What ends a number without quotes: a blank, the end of the text, a comma or a bracket. -/
def isEnd (c : UInt8) : Bool := isspace c ∨ c = 0 ∨ c = 0x2C ∨ c = 0x7D ∨ c = 0x5D

/-- `__builtin_mul_overflow` and `__builtin_add_overflow`: the number and whether it wrapped. -/
def accumulate (f : NumberFormat) (value base digit : Int) : f.Value × Bool :=
  if value * base = f.wrap (value * base) then
    (f.cast (value * base + digit), value * base + digit ≠ f.wrap (value * base + digit))
  else (f.cast (value * base), true)

/-- What the second loop of `Deserialize` leaves. -/
structure Digits (f : NumberFormat) where
  element : NumberType f
  loaded : Nat
  completed : Bool
  error : Option Error

/-- The second loop of `Deserialize`. -/
def digitLoop : Text → NumberType f → Option Error → Digits f
  | [], x, error => ⟨x, 0, false, error⟩
  | c :: rest, x, error =>
    if isxdigit c then
      let sum := accumulate f x.value.1 (if isdigit c then x.base else 16) (hexValue c)
      let x := { x with value := sum.1 }
      if sum.2 then ⟨{ x with error := true }, 1, true, some overflowed⟩
      else
        let digits := digitLoop rest x error
        { digits with loaded := digits.loaded + 1 }
    else if x.quoted ∧ c = 0x22 then ⟨x, 1, true, error⟩
    else if x.quoted = false ∧ isEnd c then ⟨x, 0, true, error⟩
    else ⟨{ x with error := true }, 1, true, some (unsupported c)⟩

/-- A completed number gets its sign. -/
def complete (x : NumberType f) : NumberType f :=
  { x with value := if x.negative then f.cast (x.value.1 * -1) else x.value, set := true }

/-- The second loop of `Deserialize` and what is behind it, on what the first one has left. -/
def finish (stream : Text) (lead : Loaded (NumberType f)) : Loaded (NumberType f) :=
  let digits : Digits f :=
    if lead.element.error ∨ lead.element.undefined then ⟨lead.element, 0, true, lead.error⟩
    else digitLoop (stream.drop lead.loaded) lead.element lead.error
  let loaded := lead.loaded + digits.loaded
  if digits.element.error ∧ digits.element.quoted then
    -- up to the closing quote
    let skipped := (stream.drop loaded).takeWhile (· ≠ 0x22)
    if lead.offset = 0 then ⟨digits.element, loaded, 0, digits.error⟩
    else if loaded + skipped.length < stream.length then
      ⟨digits.element, loaded + skipped.length + 1, 0, digits.error⟩
    else ⟨digits.element, max loaded stream.length, lead.offset, digits.error⟩
  else if digits.completed ∧ 4 ≤ lead.offset then
    ⟨digits.element.complete, loaded, 0, digits.error⟩
  else ⟨digits.element, loaded, lead.offset, digits.error⟩

def deserialize (x : NumberType f) (stream : Text) (offset : Nat) (error : Option Error) :
    Loaded (NumberType f) :=
  finish stream (leadLoop stream x offset error)

instance : IElement (NumberType f) where
  clear := clear
  isSet := set
  isNull := undefined
  serialize := serialize
  deserialize := deserialize

end NumberType

end Thunder.Core.JSON
