import Mathlib.Data.List.Basic

/-! `Core::Messaging::Metadata`: the type, category and module of a message.  A text is the list of
its bytes; an empty text in a setting stands for any text. -/

namespace Thunder.Core

/-- A `string`, as its bytes. -/
abbrev Text := List UInt8

/-- `Metadata::type`; a received byte beyond the enumeration is kept as it is. -/
inductive MetadataType
  | invalid
  | tracing
  | logging
  | reporting
  | operationalStream
  | assert
  | telemetry
  | other (code : UInt8)
  deriving DecidableEq, Repr

@[ext] structure Metadata where
  type : MetadataType
  category : Text
  module : Text
  deriving DecidableEq, Repr

namespace Metadata

/-- Tracing and telemetry are off unless a setting says otherwise. -/
def default (metaData : Metadata) : Bool :=
  if metaData.type = .tracing ∨ metaData.type = .telemetry then false else true

def applicable (metaData rhs : Metadata) : Bool :=
  rhs.type = metaData.type ∧
    (rhs.module = [] ∨ metaData.module = [] ∨ rhs.module = metaData.module) ∧
    (rhs.category = [] ∨ metaData.category = [] ∨ rhs.category = metaData.category)

end Metadata

end Thunder.Core
