import Mathlib.Data.List.Basic

/-! JSON values and their texts (RFC 8259), over any form of string literals.  A value has one
compact text and as many texts as there are ways to put blanks between its tokens. -/

namespace Thunder.Json

inductive Kind
  | value
  | elements
  | members

/-- Values, the elements of an array and the members of an object. -/
inductive Node (σ : Type) : Kind → Type
  | null : Node σ .value
  | bool (b : Bool) : Node σ .value
  | number (text : List UInt8) : Node σ .value
  | string (s : σ) : Node σ .value
  | array (elements : Node σ .elements) : Node σ .value
  | object (members : Node σ .members) : Node σ .value
  | noElements : Node σ .elements
  | element (v : Node σ .value) (rest : Node σ .elements) : Node σ .elements
  | noMembers : Node σ .members
  | member (key : σ) (v : Node σ .value) (rest : Node σ .members) : Node σ .members

def isBlank (b : UInt8) : Bool := b = 0x20 ∨ b = 0x09 ∨ b = 0x0A ∨ b = 0x0D

def isDigit (b : UInt8) : Bool := 0x30 ≤ b ∧ b ≤ 0x39

/-- The grammar of numbers: sign, integer, fraction and exponent. -/
structure IsNumber (text : List UInt8) : Prop where
  parts : ∃ sign int frac exp, text = sign ++ int ++ frac ++ exp ∧ (sign = [] ∨ sign = [0x2D]) ∧
    (int = [0x30] ∨ ∃ d ds, int = d :: ds ∧ 0x31 ≤ d ∧ isDigit d ∧ ∀ b ∈ ds, isDigit b) ∧
    (frac = [] ∨ ∃ ds, frac = 0x2E :: ds ∧ ds ≠ [] ∧ ∀ b ∈ ds, isDigit b) ∧
    (exp = [] ∨ ∃ e sign ds, exp = e :: sign ++ ds ∧ (e = 0x65 ∨ e = 0x45) ∧
      (sign = [] ∨ sign = [0x2B] ∨ sign = [0x2D]) ∧ ds ≠ [] ∧ ∀ b ∈ ds, isDigit b)

def nullText : List UInt8 := [0x6E, 0x75, 0x6C, 0x6C]

def boolText (b : Bool) : List UInt8 :=
  if b then [0x74, 0x72, 0x75, 0x65] else [0x66, 0x61, 0x6C, 0x73, 0x65]

namespace Node

variable {σ : Type} {kind : Kind}

/-- How deep arrays and objects are nested. -/
def depth : {kind : Kind} → Node σ kind → Nat
  | _, .array elements => elements.depth + 1
  | _, .object members => members.depth + 1
  | _, .element v rest => max v.depth rest.depth
  | _, .member _ v rest => max v.depth rest.depth
  | _, _ => 0

/-- What stands before a further element or member. -/
def separator : {kind : Kind} → Node σ kind → List UInt8
  | _, .noElements => []
  | _, .noMembers => []
  | _, _ => [0x2C]

/-- The text without blanks, with the literals that `bytes` gives. -/
def compact (bytes : σ → List UInt8) : {kind : Kind} → Node σ kind → List UInt8
  | _, .null => nullText
  | _, .bool b => boolText b
  | _, .number text => text
  | _, .string s => bytes s
  | _, .array elements => 0x5B :: elements.compact bytes ++ [0x5D]
  | _, .object members => 0x7B :: members.compact bytes ++ [0x7D]
  | _, .noElements => []
  | _, .element v rest => v.compact bytes ++ rest.separator ++ rest.compact bytes
  | _, .noMembers => []
  | _, .member key v rest =>
    bytes key ++ [0x3A] ++ v.compact bytes ++ rest.separator ++ rest.compact bytes

end Node

/-- The texts of a value: its tokens with blanks between them. -/
inductive Written {σ : Type} (bytes : σ → List UInt8) : {kind : Kind} → Node σ kind → List UInt8 → Prop
  | null : Written bytes .null nullText
  | bool (b : Bool) : Written bytes (.bool b) (boolText b)
  | number {text : List UInt8} : IsNumber text → Written bytes (.number text) text
  | string (s : σ) : Written bytes (.string s) (bytes s)
  | array {elements : Node σ .elements} {text : List UInt8} : Written bytes elements text →
      Written bytes (.array elements) (0x5B :: text ++ [0x5D])
  | object {members : Node σ .members} {text : List UInt8} : Written bytes members text →
      Written bytes (.object members) (0x7B :: text ++ [0x7D])
  | noElements {blanks : List UInt8} : (∀ b ∈ blanks, isBlank b) → Written bytes .noElements blanks
  | element {v : Node σ .value} {rest : Node σ .elements} {before text after more : List UInt8} :
      (∀ b ∈ before, isBlank b) → Written bytes v text → (∀ b ∈ after, isBlank b) →
      Written bytes rest more →
      Written bytes (.element v rest) (before ++ text ++ after ++ rest.separator ++ more)
  | noMembers {blanks : List UInt8} : (∀ b ∈ blanks, isBlank b) → Written bytes .noMembers blanks
  | member {key : σ} {v : Node σ .value} {rest : Node σ .members}
      {start colon before text after more : List UInt8} :
      (∀ b ∈ start, isBlank b) → (∀ b ∈ colon, isBlank b) → (∀ b ∈ before, isBlank b) →
      Written bytes v text → (∀ b ∈ after, isBlank b) → Written bytes rest more →
      Written bytes (.member key v rest)
        (start ++ bytes key ++ colon ++ [0x3A] ++ before ++ text ++ after ++ rest.separator ++ more)

section Compact

variable {σ : Type} {bytes : σ → List UInt8} {kind : Kind} {node : Node σ kind} {text : List UInt8}

/-- The compact text of a value is a text of it. -/
theorem Written.compact (h : Written bytes node text) : Written bytes node (node.compact bytes) := by
  have hnil : ∀ b ∈ ([] : List UInt8), isBlank b = true := fun b hb => absurd hb List.not_mem_nil
  induction h with
  | null => exact .null
  | bool b => exact .bool b
  | number h => exact .number h
  | string s => exact .string s
  | array _ ih => exact .array ih
  | object _ ih => exact .object ih
  | noElements _ => exact .noElements hnil
  | element _ _ _ _ ihv ihrest =>
    simpa [Node.compact] using Written.element hnil ihv hnil ihrest
  | noMembers _ => exact .noMembers hnil
  | @member key v rest _ _ _ _ _ _ _ _ _ _ _ _ ihv ihrest =>
    have hmember : Written bytes (.member key v rest) _ :=
      .member hnil hnil hnil ihv hnil ihrest
    simpa [Node.compact] using hmember

end Compact

/-! ### Blanks outside string literals -/

/-- Each byte of a text with what is left of it when the blanks outside string literals are taken
away.  The flags say whether the text goes on inside a literal, and there behind a backslash. -/
def marks : Bool → Bool → List UInt8 → List (UInt8 × List UInt8)
  | _, _, [] => []
  | false, _, b :: text =>
    if isBlank b then (b, []) :: marks false false text
    else (b, [b]) :: marks (b = 0x22) false text
  | true, true, b :: text => (b, [b]) :: marks true false text
  | true, false, b :: text => (b, [b]) :: marks (b ≠ 0x22) (b = 0x5C) text

/-- A text without its blanks outside string literals. -/
def strip (text : List UInt8) : List UInt8 := (marks false false text).flatMap Prod.snd

/-- Behind such a text a scan is outside string literals. -/
def Apart (text : List UInt8) : Prop :=
  ∀ rest, marks false false (text ++ rest) = marks false false text ++ marks false false rest

theorem Apart.append {text text' : List UInt8} (h : Apart text) (h' : Apart text') :
    Apart (text ++ text') := by
  intro rest
  rw [List.append_assoc, h, h', h, List.append_assoc]

theorem Apart.strip {text : List UInt8} (h : Apart text) (rest : List UInt8) :
    strip (text ++ rest) = Json.strip text ++ Json.strip rest := by
  rw [Json.strip, h, List.flatMap_append]
  rfl

@[simp] theorem marks_nil (inside escaped : Bool) : marks inside escaped [] = [] := by
  cases inside <;> cases escaped <;> rfl

/-- Outside a literal no byte is behind a backslash. -/
theorem marks_outside (escaped : Bool) (b : UInt8) (text : List UInt8) :
    marks false escaped (b :: text) =
      if isBlank b then (b, []) :: marks false false text
      else (b, [b]) :: marks (b = 0x22) false text := by
  cases escaped <;> rfl

theorem map_fst_marks (inside escaped : Bool) (text : List UInt8) :
    (marks inside escaped text).map Prod.fst = text := by
  induction text generalizing inside escaped with
  | nil => rw [marks_nil, List.map_nil]
  | cons b text ih =>
    cases inside with
    | false =>
      rw [marks_outside]
      split <;> simp only [List.map_cons, ih]
    | true => cases escaped <;> exact congrArg (b :: ·) (ih _ _)

theorem length_strip_le (text : List UInt8) : (strip text).length ≤ text.length := by
  have hmarks (inside escaped : Bool) :
      ((marks inside escaped text).flatMap Prod.snd).length ≤ text.length := by
    induction text generalizing inside escaped with
    | nil => cases inside <;> cases escaped <;> exact Nat.le_refl 0
    | cons b text ih =>
      have hnext (inside escaped : Bool) := ih inside escaped
      cases inside with
      | false =>
        rw [marks_outside]
        split <;> rw [List.flatMap_cons, List.length_append]
        · simpa using Nat.le_succ_of_le (hnext false false)
        · simpa [Nat.add_comm 1] using hnext _ _
      | true => cases escaped <;> simpa [marks, Nat.add_comm 1] using hnext _ _
  exact hmarks false false

theorem marks_blanks {blanks : List UInt8} (h : ∀ b ∈ blanks, isBlank b) (rest : List UInt8) :
    marks false false (blanks ++ rest) = blanks.map (fun b => (b, [])) ++ marks false false rest := by
  induction blanks with
  | nil => rfl
  | cons b blanks ih =>
    rw [List.cons_append, marks_outside, if_pos (h b (by simp)), ih fun b' hb' => h b' (by simp [hb'])]
    rfl

/-- A byte that is neither a blank nor a quote. -/
def isPlain (b : UInt8) : Bool := isBlank b = false ∧ b ≠ 0x22

theorem marks_plain (text : List UInt8) (h : ∀ b ∈ text, isPlain b) (rest : List UInt8) :
    marks false false (text ++ rest) = text.map (fun b => (b, [b])) ++ marks false false rest := by
  induction text with
  | nil => rfl
  | cons b text ih =>
    obtain ⟨hblank, hquote⟩ : isBlank b = false ∧ b ≠ 0x22 := by simpa [isPlain] using h b (by simp)
    rw [List.cons_append, marks_outside, if_neg (by simp [hblank]), decide_eq_false hquote,
      ih fun b' hb' => h b' (by simp [hb'])]
    rfl

theorem apart_blanks {blanks : List UInt8} (h : ∀ b ∈ blanks, isBlank b) :
    Apart blanks ∧ strip blanks = [] := by
  have hmarks := marks_blanks h []
  rw [List.append_nil, marks_nil, List.append_nil] at hmarks
  refine ⟨fun rest => by rw [marks_blanks h, hmarks], ?_⟩
  rw [strip, hmarks]
  simp

theorem apart_plain {text : List UInt8} (h : ∀ b ∈ text, isPlain b) :
    Apart text ∧ strip text = text := by
  have hmarks := marks_plain text h []
  rw [List.append_nil, marks_nil, List.append_nil] at hmarks
  refine ⟨fun rest => by rw [marks_plain text h, hmarks], ?_⟩
  rw [strip, hmarks, List.flatMap_map]
  simp

theorem IsNumber.bytes {text : List UInt8} (h : IsNumber text) :
    text ≠ [] ∧ ∀ b ∈ text, isDigit b ∨ b = 0x2D ∨ b = 0x2E ∨ b = 0x65 ∨ b = 0x45 ∨ b = 0x2B := by
  obtain ⟨sign, int, frac, exp, rfl, hsign, hint, hfrac, hexp⟩ := h.parts
  have hint' : int ≠ [] ∧ ∀ b ∈ int, isDigit b := by
    rcases hint with rfl | ⟨d, ds, rfl, -, hd, hds⟩
    · exact ⟨by simp, List.all_eq_true.mp rfl⟩
    · exact ⟨by simp, by simpa [hd] using hds⟩
  refine ⟨by simp [hint'.1], fun b hb => ?_⟩
  simp only [List.mem_append] at hb
  rcases hb with ((hb | hb) | hb) | hb
  · rcases hsign with rfl | rfl
    · simp at hb
    · exact Or.inr (Or.inl (List.mem_singleton.mp hb))
  · exact Or.inl (hint'.2 b hb)
  · rcases hfrac with rfl | ⟨ds, rfl, -, hds⟩
    · simp at hb
    · rcases List.mem_cons.mp hb with rfl | hb
      · simp
      · exact Or.inl (hds b hb)
  · rcases hexp with rfl | ⟨e, sign, ds, rfl, he, hsign, -, hds⟩
    · simp at hb
    · simp only [List.cons_append, List.mem_cons, List.mem_append] at hb
      rcases hb with rfl | hb | hb
      · rcases he with rfl | rfl <;> simp
      · rcases hsign with rfl | rfl | rfl
        · simp at hb
        · rw [List.mem_singleton.mp hb]
          simp
        · rw [List.mem_singleton.mp hb]
          simp
      · exact Or.inl (hds b hb)

/-- A byte of a number, of `null` or of a truth value. -/
def isWordByte (b : UInt8) : Bool :=
  isDigit b ∨ b = 0x2D ∨ b = 0x2E ∨ b = 0x2B ∨ (0x61 ≤ b ∧ b ≤ 0x7A) ∨ b = 0x45

theorem isPlain_of_isWordByte {b : UInt8} (h : isWordByte b = true) : isPlain b = true := by
  simp only [isWordByte, isDigit, isPlain, isBlank, UInt8.le_iff_toNat_le, ← UInt8.toNat_inj,
    UInt8.reduceToNat, decide_eq_true_eq, decide_eq_false_iff_not, ne_eq] at h ⊢
  omega

theorem IsNumber.isWordByte {text : List UInt8} (h : IsNumber text) : ∀ b ∈ text, isWordByte b := by
  intro b hb
  unfold Json.isWordByte
  rcases h.bytes.2 b hb with h | h | h | h | h | h <;> simp [h]

theorem isWordByte_nullText : ∀ b ∈ nullText, isWordByte b := List.all_eq_true.mp rfl

theorem isWordByte_boolText (v : Bool) : ∀ b ∈ boolText v, isWordByte b := by
  cases v <;> exact List.all_eq_true.mp rfl

section Marks

variable {σ : Type} {bytes : σ → List UInt8} {kind : Kind} {node : Node σ kind} {text : List UInt8}

/-- Literals that a scan takes as a whole. -/
def Delimited (bytes : σ → List UInt8) : Prop := ∀ s, Apart (bytes s) ∧ strip (bytes s) = bytes s

/-- Without the blanks every text of a value is the compact one. -/
theorem Written.strip (hbytes : Delimited bytes) (h : Written bytes node text) :
    Apart text ∧ strip text = node.compact bytes := by
  have hcons (b : UInt8) (hb : isPlain b = true) : Apart [b] ∧ Json.strip [b] = [b] :=
    apart_plain (by simpa using hb)
  have hseparator {kind : Kind} (node : Node σ kind) :
      Apart node.separator ∧ Json.strip node.separator = node.separator := by
    cases node <;> first | exact hcons 0x2C (by decide) | exact apart_plain (by simp [Node.separator])
  induction h with
  | null => exact apart_plain fun b hb => isPlain_of_isWordByte (isWordByte_nullText b hb)
  | bool v => exact apart_plain fun b hb => isPlain_of_isWordByte (isWordByte_boolText v b hb)
  | number h => exact apart_plain fun b hb => isPlain_of_isWordByte (h.isWordByte b hb)
  | string s => exact hbytes s
  | array _ ih =>
    obtain ⟨hopen, hopen'⟩ := hcons 0x5B (by decide)
    obtain ⟨hclose, hclose'⟩ := hcons 0x5D (by decide)
    refine ⟨(hopen.append ih.1).append hclose, ?_⟩
    show Json.strip ([0x5B] ++ _ ++ _) = _
    rw [(hopen.append ih.1).strip, hopen.strip, ih.2, hopen', hclose']
    rfl
  | object _ ih =>
    obtain ⟨hopen, hopen'⟩ := hcons 0x7B (by decide)
    obtain ⟨hclose, hclose'⟩ := hcons 0x7D (by decide)
    refine ⟨(hopen.append ih.1).append hclose, ?_⟩
    show Json.strip ([0x7B] ++ _ ++ _) = _
    rw [(hopen.append ih.1).strip, hopen.strip, ih.2, hopen', hclose']
    rfl
  | noElements h => exact apart_blanks h
  | @element v rest _ _ _ _ hbefore _ hafter _ ihv ihrest =>
    obtain ⟨h1, h1'⟩ := apart_blanks hbefore
    obtain ⟨h3, h3'⟩ := apart_blanks hafter
    obtain ⟨h4, h4'⟩ := hseparator rest
    have h12 := h1.append ihv.1
    have h13 := h12.append h3
    have h14 := h13.append h4
    refine ⟨h14.append ihrest.1, ?_⟩
    rw [h14.strip, h13.strip, h12.strip, h1.strip, h1', ihv.2, h3', h4', ihrest.2]
    simp [Node.compact]
  | noMembers h => exact apart_blanks h
  | @member key v rest _ _ _ _ _ _ hstart hcolon hbefore _ hafter _ ihv ihrest =>
    obtain ⟨h1, h1'⟩ := apart_blanks hstart
    obtain ⟨h2, h2'⟩ := hbytes key
    obtain ⟨h3, h3'⟩ := apart_blanks hcolon
    obtain ⟨h4, h4'⟩ := hcons 0x3A (by decide)
    obtain ⟨h5, h5'⟩ := apart_blanks hbefore
    obtain ⟨h7, h7'⟩ := apart_blanks hafter
    obtain ⟨h8, h8'⟩ := hseparator rest
    have h12 := h1.append h2
    have h13 := h12.append h3
    have h14 := h13.append h4
    have h15 := h14.append h5
    have h16 := h15.append ihv.1
    have h17 := h16.append h7
    have h18 := h17.append h8
    refine ⟨h18.append ihrest.1, ?_⟩
    rw [h18.strip, h17.strip, h16.strip, h15.strip, h14.strip, h13.strip, h12.strip, h1.strip, h1',
      h2', h3', h4', h5', ihv.2, h7', h8', ihrest.2]
    simp [Node.compact]

end Marks

end Thunder.Json
