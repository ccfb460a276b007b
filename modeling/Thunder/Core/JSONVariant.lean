import Thunder.Core.JSONOpaque

/-! `Core::JSON::Variant`: a String that guesses what it has received.  Whatever it is, the text of a
value is captured as by a String. -/

namespace Thunder.Core.JSON

open Json

/-- `Variant::type`. -/
inductive VariantType
  | empty
  | boolean
  | number
  | string
  | array
  | object
  | float
  | double
  deriving DecidableEq, Repr

structure Variant where
  string : String
  type : VariantType
  deriving DecidableEq, Repr

namespace Variant

def clear (v : Variant) : Variant := { v with string := v.string.clear }

/-- What a completed String is taken for. -/
def guess (s : String) : VariantType :=
  if s.isQuoted = false then
    let base := s.getValue
    if s.null then .empty
    else if base.headD 0 = 0x7B then .object
    else if base.headD 0 = 0x5B then .array
    else if base = boolText true ∨ base = boolText false then .boolean
    else if 0x2E ∈ base then .double
    else .number
  else .string

def deserialize (v : Variant) (stream : Text) (offset : Nat) (error : Option Error) :
    Loaded Variant :=
  let r := v.string.deserialize stream offset error
  r.map fun s => ⟨s, if r.offset = 0 then guess s else v.type⟩

instance : IElement Variant where
  clear := clear
  isSet v := v.string.set
  isNull v := v.string.null
  serialize v maxLength offset :=
    let (bytes, s, offset) := v.string.serialize maxLength offset
    (bytes, { v with string := s }, offset)
  deserialize := deserialize

/-- A Variant reads as its String does. -/
theorem deserializeAll_string (v : Variant) (chunks : List Text) :
    (IElement.deserializeAll v chunks).map Variant.string =
      IElement.deserializeAll v.string chunks := by
  unfold IElement.deserializeAll
  generalize 0 = offset
  generalize none = error
  induction chunks generalizing v offset error with
  | nil => rfl
  | cons chunk chunks ih =>
    rw [IElement.deserializeFrom, IElement.deserializeFrom]
    have hfirst : IElement.deserialize v.string chunk offset error =
        (IElement.deserialize v chunk offset error).map Variant.string := rfl
    rw [hfirst]
    by_cases h : (IElement.deserialize v chunk offset error).offset = 0 ∨
        (IElement.deserialize v chunk offset error).error.isSome ∨
        (IElement.deserialize v chunk offset error).loaded < chunk.length
    · rw [if_pos h]
      exact (if_pos h).symm
    · rw [if_neg h]
      refine Eq.trans ?_ (if_neg h).symm
      exact congrArg (Loaded.after (IElement.deserialize v chunk offset error).loaded) (ih _ _ _)

/-- A value is captured as it was written if and only if it is no string literal with escapes other
than of quotes, the default can stand for a null, and the offset carried does not come to 0. -/
theorem captured_iff {v : Variant} (hv : v.string.quotedSerialize = false)
    {node : Node (List String.Item) .value} {text : Text}
    (h : Written String.quotedText node text) (hdepth : node.depth ≤ 31)
    (hlen : text.length < 2 ^ 32) {terminator : UInt8}
    (hterminator : terminator ∈ [0x2C, 0x7D, 0x5D, 0]) {rest : Text} {chunks : List Text}
    (hflat : chunks.flatten = text ++ terminator :: rest) (hne : ∀ chunk ∈ chunks, chunk ≠ []) :
    (String.Captured node text (IElement.deserializeAll v.string.clear chunks) ↔
      String.Carried 1 0 (String.crossed node text) chunks ∧ String.Exact v.string.default node) ∧
    (String.Captured node text ((IElement.deserializeAll v.clear chunks).map Variant.string) ↔
      String.Carried 1 0 (String.crossed node text) chunks ∧
        String.Exact v.string.default node) := by
  have hstring := String.captured_string hv h hdepth hlen hterminator hflat hne
  rw [deserializeAll_string]
  exact ⟨hstring, hstring⟩

/-- `[ 1]`, followed by the end, in one chunk. -/
theorem captured_array :
    String.Captured (.array (.element (.number [0x31]) .noElements)) [0x5B, 0x20, 0x31, 0x5D]
      (IElement.deserializeAll (String.new false).clear [[0x5B, 0x20, 0x31, 0x5D, 0]]) ∧
    String.Captured (.array (.element (.number [0x31]) .noElements)) [0x5B, 0x20, 0x31, 0x5D]
      ((IElement.deserializeAll (⟨String.new false, .empty⟩ : Variant).clear
        [[0x5B, 0x20, 0x31, 0x5D, 0]]).map Variant.string) := by
  have hnil : ∀ b ∈ ([] : Text), isBlank b = true := by simp
  have hblank : ∀ b ∈ ([0x20] : Text), isBlank b = true := List.all_eq_true.mp rfl
  have hone : IsNumber [0x31] :=
    ⟨[], [0x31], [], [], rfl, Or.inl rfl, Or.inr ⟨0x31, [], rfl, by decide, by decide, by simp⟩,
      Or.inl rfl, Or.inl rfl⟩
  have hwritten : Written String.quotedText (.array (.element (.number [0x31]) .noElements))
      [0x5B, 0x20, 0x31, 0x5D] :=
    .array (.element hblank (.number hone) hnil (.noElements hnil))
  have hquoted : (⟨String.new false, .empty⟩ : Variant).string.quotedSerialize = false := rfl
  have hend : (0 : UInt8) ∈ [0x2C, 0x7D, 0x5D, 0] := by decide
  have hflat : ([[0x5B, 0x20, 0x31, 0x5D, 0]] : List Text).flatten =
      [0x5B, 0x20, 0x31, 0x5D] ++ 0 :: [] := rfl
  obtain ⟨hstring, hvariant⟩ :=
    captured_iff hquoted hwritten (by decide) (by decide) hend hflat (by simp)
  have hcarried : String.Carried 1 0 [(0x5B, [0x5B]), (0x20, []), (0x31, [0x31])]
      [[0x5B, 0x20, 0x31, 0x5D, 0]] := Or.inl (by decide)
  exact ⟨hstring.mpr ⟨hcarried, trivial⟩, hvariant.mpr ⟨hcarried, trivial⟩⟩

/-- `"\n"`, followed by a comma, is handed out with the line feed itself. -/
theorem not_captured_newline : ¬String.Captured (.string [.short 0x6E 0x0A rfl])
    (String.quotedText [.short 0x6E 0x0A rfl])
    (IElement.deserializeAll (String.new false).clear [[0x22, 0x5C, 0x6E, 0x22, 0x2C]]) := by
  intro h
  exact absurd h.value (by decide)

end Variant

end Thunder.Core.JSON
