import Thunder.Library.Chunks
import Thunder.Core.Metadata
import Thunder.Core.Words

/-! `Core::JSON::IElement`: elements that write themselves into buffers of any size and read
themselves from chunks of any size.  The place in the text is carried from call to call in an
offset, which is 0 before the first and after the last call. -/

namespace Thunder.Core

namespace JSON

/-- The message of an `Error`. -/
abbrev Error := String

/-- What `Deserialize` leaves behind: the element, the number of bytes it took, the offset and the
error. -/
structure Loaded (α : Type) where
  element : α
  loaded : Nat
  offset : Nat
  error : Option Error
  deriving DecidableEq, Repr

/-- The same, with so many bytes taken before. -/
def Loaded.after {α : Type} (taken : Nat) (r : Loaded α) : Loaded α :=
  { r with loaded := taken + r.loaded }

def Loaded.map {α β : Type} (f : α → β) (r : Loaded α) : Loaded β :=
  ⟨f r.element, r.loaded, r.offset, r.error⟩

theorem Loaded.after_zero {α : Type} (r : Loaded α) : r.after 0 = r := by
  simp [Loaded.after]

theorem Loaded.after_after {α : Type} (r : Loaded α) (m n : Nat) :
    (r.after m).after n = r.after (n + m) := by
  simp [Loaded.after, Nat.add_assoc]

/-- `Serialize` gets the size of the buffer and the offset; `Deserialize` gets the bytes of the
stream, the offset and the error so far. -/
class IElement (α : Type) where
  clear : α → α
  isSet : α → Bool
  isNull : α → Bool
  serialize : α → Nat → Nat → Text × α × Nat
  deserialize : α → Text → Nat → Option Error → Loaded α

/-- A way to cut every text into chunks. -/
structure Cut where
  chunks : Text → List Text
  flatten : ∀ text, (chunks text).flatten = text
  nonempty : ∀ text, ∀ chunk ∈ chunks text, chunk ≠ []

/-- One chunk. -/
def Cut.whole : Cut where
  chunks text := if text = [] then [] else [text]
  flatten text := by
    split
    · exact ‹text = []›.symm
    · simp
  nonempty text chunk hchunk := by
    split at hchunk
    · simp at hchunk
    · rw [List.mem_singleton.mp hchunk]
      exact ‹text ≠ []›

namespace IElement

variable {α : Type} [IElement α]

/-- A call of `Serialize` with a buffer of this size, on an element and its offset. -/
def write (w : α × Nat) (size : Nat) : Text × α × Nat := serialize w.1 size w.2

/-- Calls with buffers of these sizes, until the offset is 0 again. -/
def serializeAll (x : α) (sizes : List Nat) : Text × α × Nat :=
  Chunks.writeUntil write (fun w => w.2 = 0) (x, 0) sizes

/-- Calls with these chunks, until the offset is 0 again, there is an error or a call has not taken
its whole chunk (`Tester::FromString`). -/
def deserializeFrom (x : α) (offset : Nat) (error : Option Error) : List Text → Loaded α
  | [] => ⟨x, 0, offset, error⟩
  | chunk :: chunks =>
    let first := deserialize x chunk offset error
    if first.offset = 0 ∨ first.error.isSome ∨ first.loaded < chunk.length then first
    else (deserializeFrom first.element first.offset first.error chunks).after first.loaded

theorem deserializeFrom_stop {x : α} {chunk : Text} {offset : Nat} {error : Option Error}
    {chunks : List Text} (h : (deserialize x chunk offset error).offset = 0 ∨
      (deserialize x chunk offset error).error.isSome) :
    deserializeFrom x offset error (chunk :: chunks) = deserialize x chunk offset error := by
  rw [deserializeFrom]
  exact if_pos (h.imp_right Or.inl)

theorem deserializeFrom_next {x : α} {chunk : Text} {offset : Nat} {error : Option Error}
    {chunks : List Text} (hoffset : (deserialize x chunk offset error).offset ≠ 0)
    (herror : (deserialize x chunk offset error).error = none)
    (hall : (deserialize x chunk offset error).loaded = chunk.length) :
    deserializeFrom x offset error (chunk :: chunks) =
      (deserializeFrom (deserialize x chunk offset error).element
        (deserialize x chunk offset error).offset none chunks).after chunk.length := by
  rw [deserializeFrom]
  rw [if_neg (by simp [hoffset, herror, hall]), herror, hall]

def deserializeAll (x : α) (chunks : List Text) : Loaded α := deserializeFrom x 0 none chunks

end IElement

end JSON

end Thunder.Core
