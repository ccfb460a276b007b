import Thunder.Core.JSONNumberToken

/-! The grammar of numbers: which texts are read as what they say. -/

namespace Thunder.Core.JSON.NumberType

variable {f : NumberFormat}

def IsDigit (base : Nat) (c : UInt8) : Prop := isxdigit c = true ∧ hexValue c < base

/-- Decimal digits as they are or, but for one with a zero in front, in quotes; in quotes with a
zero in front, octal ones; in quotes behind a zero and an `x`, hexadecimal ones. -/
inductive Form
  | plain
  | decimal
  | octal
  | hexadecimal (x : UInt8)

namespace Form

def base : Form → Nat
  | plain => 10
  | decimal => 10
  | octal => 8
  | hexadecimal _ => 16

def quoted : Form → Bool
  | plain => false
  | _ => true

def radix : Form → Text
  | hexadecimal x => [0x30, x]
  | _ => []

/-- The first digit that the form asks for. -/
def Begins : Form → Option UInt8 → Prop
  | plain, _ => True
  | decimal, first => first ≠ some 0x30
  | octal, first => first = some 0x30
  | hexadecimal x, _ => isX x = true

end Form

structure Token where
  form : Form
  negative : Bool
  digits : Text
  nonempty : digits ≠ []
  of_base : ∀ c ∈ digits, IsDigit form.base c
  begins : form.Begins digits.head?

namespace Token

def opening (t : Token) : Text :=
  (if t.form.quoted then [0x22] else []) ++ (if t.negative then [0x2D] else []) ++ t.form.radix

def closing (t : Token) : Text := if t.form.quoted then [0x22] else []

def text (t : Token) : Text := t.opening ++ t.digits ++ t.closing

def amount (t : Token) : Nat := t.digits.foldl (fun n c => n * t.form.base + hexValue c) 0

def value (t : Token) : Int := if t.negative then -t.amount else t.amount

/-- What a token begins with. -/
def mark (t : Token) : Mark :=
  ⟨t.form.quoted, t.negative, t.form.base, true, t.opening.length⟩

end Token

/-! ### Tokens are read -/

theorem IsDigit.isdigit {base : Nat} {c : UInt8} (h : IsDigit base c) (hbase : base ≤ 10) :
    isdigit c = true := by
  have hsmall : hexValue c < 10 := Nat.lt_of_lt_of_le h.2 hbase
  have hdigit := isxdigit_iff.mp h.1
  rw [isdigit_iff]
  simp only [hexValue, isdigit_iff, UInt8.le_iff_toNat_le, UInt8.reduceToNat] at hsmall
  split_ifs at hsmall <;> omega

theorem not_isX {c : UInt8} (h : isdigit c = true) : isX c = false := by
  rw [isdigit_iff] at h
  simp only [isX, ← UInt8.toNat_inj, UInt8.reduceToNat, decide_eq_false_iff_not]
  omega

/-- Digits of the base add up to what they say. -/
theorem magnitude_digits {base : Nat} {digits : Text} (hbase : base ≤ 10 ∨ base = 16)
    (h : ∀ c ∈ digits, IsDigit base c) (start : Nat) :
    magnitude base start digits = digits.foldl (fun n c => n * base + hexValue c) start := by
  induction digits generalizing start with
  | nil => rfl
  | cons c digits ih =>
    have hc := h c List.mem_cons_self
    have hweight : (if isdigit c then base else 16) = base := by
      rcases hbase with hle | rfl
      · rw [if_pos (hc.isdigit hle)]
      · exact ite_self 16
    rw [magnitude, List.foldl_cons, List.foldl_cons, hweight]
    exact ih (fun d hd => h d (List.mem_cons_of_mem _ hd)) _

theorem Form.base_bound (form : Form) : form.base ≤ 10 ∨ form.base = 16 := by
  cases form <;> simp [Form.base]

theorem Token.magnitude_eq (t : Token) : magnitude t.form.base 0 t.digits = t.amount :=
  magnitude_digits t.form.base_bound t.of_base 0

theorem markLast_octal (negative : Bool) {digits : Text} (h : ∀ c ∈ digits, IsDigit 8 c)
    (rest : Text) : markLast negative (digits ++ 0x22 :: rest) =
      some ⟨true, negative, 8, true, if negative then 2 else 1⟩ := by
  cases digits with
  | nil => rfl
  | cons c digits =>
    have hdigit := (h c List.mem_cons_self).isdigit (by decide)
    simp [markLast, not_isX hdigit, hdigit]

theorem markSecond_octal {digits : Text} (h : ∀ c ∈ digits, IsDigit 8 c) (rest : Text) :
    markSecond false (digits ++ 0x22 :: rest) = some ⟨true, false, 8, true, 1⟩ := by
  cases digits with
  | nil => rfl
  | cons c digits =>
    have hdigit := (h c List.mem_cons_self).isdigit (by decide)
    rw [List.cons_append, markSecond]
    by_cases hzero : c = 0x30
    · rw [if_pos hzero]
      exact markLast_octal false (fun d hd => h d (List.mem_cons_of_mem _ hd)) rest
    · rw [if_neg hzero]
      simp [not_isX hdigit, hdigit]

theorem Token.mark_text (t : Token) (rest : Text) :
    NumberType.mark (t.text ++ rest) = some t.mark := by
  obtain ⟨form, negative, digits, hne, hbase, hbegins⟩ := t
  obtain ⟨c, digits, rfl⟩ := List.exists_cons_of_ne_nil hne
  have hc := hbase c List.mem_cons_self
  have hrest (d : UInt8) (hd : d ∈ digits) := hbase d (List.mem_cons_of_mem _ hd)
  have hquote : isdigit c = true → c ≠ 0x22 := by
    rintro hdigit rfl
    exact absurd hdigit (by decide)
  have hminus : isdigit c = true → c ≠ 0x2D := by
    rintro hdigit rfl
    exact absurd hdigit (by decide)
  cases form with
  | plain =>
    have hdigit := hc.isdigit (by decide)
    cases negative with
    | true => rfl
    | false =>
      simp [Token.text, Token.opening, Token.mark, NumberType.mark, Form.quoted, Form.radix,
        Form.base, hquote hdigit, hminus hdigit, hdigit]
  | decimal =>
    have hdigit := hc.isdigit (by decide)
    have hzero : c ≠ 0x30 := fun h => hbegins (congrArg some h)
    cases negative <;>
      simp [Token.text, Token.opening, Token.mark, NumberType.mark, markQuoted, markSecond,
        Form.quoted, Form.radix, Form.base, hminus hdigit, hdigit, hzero, not_isX hdigit]
  | octal =>
    obtain rfl : c = 0x30 := Option.some.inj hbegins
    cases negative with
    | true =>
      simpa [Token.text, Token.opening, Token.closing, Token.mark, NumberType.mark, markQuoted,
        markSecond, Form.quoted, Form.radix, Form.base] using markLast_octal true hrest rest
    | false =>
      simpa [Token.text, Token.opening, Token.closing, Token.mark, NumberType.mark, markQuoted,
        Form.quoted, Form.radix, Form.base] using markSecond_octal hrest rest
  | hexadecimal x =>
    have hx : isX x = true := hbegins
    have hzero : x ≠ 0x30 := by
      rintro rfl
      exact absurd hx (by decide)
    cases negative <;>
      simp [Token.text, Token.opening, Token.mark, NumberType.mark, markQuoted, markSecond,
        markLast, Form.quoted, Form.radix, Form.base, hx, hzero]

/-! ### What is read is a token -/

/-- The digits behind a mark. -/
def Mark.digits (m : Mark) (text : Text) : Text := (text.drop m.size).takeWhile isxdigit

/-- The bytes that make the number behind a mark one of its base. -/
structure Proper (f : NumberFormat) (m : Mark) (text : Text) : Prop where
  proper : m.proper = true
  nonempty : m.digits text ≠ []
  of_base : ∀ c ∈ m.digits text, IsDigit m.base c
  sign : m.negative = true → f.signed = true ∨ magnitude m.base 0 (m.digits text) = 0

theorem Proper.of_last {negative : Bool} {m : Mark} {text : Text}
    (h : Proper f m (0x22 :: (if negative then 0x2D else 0x30) :: 0x30 :: text))
    (hmark : markLast negative text = some m) : ∃ t : Token, t.mark = m ∧
      t.digits = m.digits (0x22 :: (if negative then 0x2D else 0x30) :: 0x30 :: text) ∧
      t.opening = (0x22 :: (if negative then 0x2D else 0x30) :: 0x30 :: text).take m.size := by
  cases text with
  | nil => exact absurd hmark (by simp [markLast])
  | cons c rest =>
    rw [markLast] at hmark
    split at hmark
    · next hx =>
      obtain rfl := Option.some.inj hmark
      obtain rfl : negative = true := h.proper
      exact ⟨⟨.hexadecimal c, true, _, h.nonempty, h.of_base, hx⟩, rfl, rfl, rfl⟩
    · split at hmark
      · obtain rfl := Option.some.inj hmark
        cases negative with
        | true => exact ⟨⟨.octal, true, _, h.nonempty, h.of_base, rfl⟩, rfl, rfl, rfl⟩
        | false => exact ⟨⟨.octal, false, _, h.nonempty, h.of_base, rfl⟩, rfl, rfl, rfl⟩
      · exact absurd hmark (by simp)

theorem Mark.digits_cons {m : Mark} {text rest : Text} {c : UInt8}
    (h : text.drop m.size = c :: rest) (hdigit : isxdigit c = true) :
    (m.digits text).head? = some c := by
  rw [Mark.digits, h, List.takeWhile_cons_of_pos hdigit]
  rfl

theorem Proper.of_second (negative : Bool) {m : Mark} {text : Text}
    (h : Proper f m (0x22 :: (if negative then 0x2D else 0x30) :: text))
    (hmark : markSecond negative text = some m) : ∃ t : Token, t.mark = m ∧
      t.digits = m.digits (0x22 :: (if negative then 0x2D else 0x30) :: text) ∧
      t.opening = (0x22 :: (if negative then 0x2D else 0x30) :: text).take m.size := by
  cases text with
  | nil => exact absurd hmark (by simp [markSecond])
  | cons c rest =>
    rw [markSecond] at hmark
    split at hmark
    · next hzero =>
      subst hzero
      exact h.of_last hmark
    split at hmark
    · next hx =>
      obtain rfl := Option.some.inj hmark
      have hpositive : (!negative) = true := h.proper
      obtain rfl : negative = false := by simpa using hpositive
      exact ⟨⟨.hexadecimal c, false, _, h.nonempty, h.of_base, hx⟩, rfl, rfl, rfl⟩
    split at hmark
    · next hzero _ hdigit =>
      obtain rfl := Option.some.inj hmark
      cases negative with
      | true =>
        obtain hdigit | rfl := hdigit
        · have hfirst : (Mark.digits ⟨true, true, 10, true, 2⟩ (0x22 :: 0x2D :: c :: rest)).head? =
              some c := Mark.digits_cons rfl (isxdigit_of_isdigit hdigit)
          refine ⟨⟨.decimal, true, _, h.nonempty, h.of_base, ?_⟩, rfl, rfl, rfl⟩
          show List.head? _ ≠ some 0x30
          rw [if_pos rfl, if_pos rfl, hfirst]
          exact fun he => hzero (Option.some.inj he)
        · exact absurd rfl h.nonempty
      | false => exact ⟨⟨.octal, false, _, h.nonempty, h.of_base, rfl⟩, rfl, rfl, rfl⟩
    · exact absurd hmark (by simp)

theorem Proper.token {m : Mark} {text : Text} (h : Proper f m text) (hmark : mark text = some m) :
    ∃ t : Token, t.mark = m ∧ t.digits = m.digits text ∧ t.opening = text.take m.size := by
  cases text with
  | nil => exact absurd hmark (by simp [mark])
  | cons c rest =>
    rw [mark] at hmark
    split at hmark
    · next hquote =>
      subst hquote
      cases rest with
      | nil => exact absurd hmark (by simp [markQuoted])
      | cons c rest =>
        rw [markQuoted] at hmark
        split at hmark
        · next hzero =>
          subst hzero
          exact Proper.of_second false h hmark
        split at hmark
        · next hminus =>
          subst hminus
          exact Proper.of_second true h hmark
        split at hmark
        · next hzero _ hdigit =>
          obtain rfl := Option.some.inj hmark
          obtain hdigit | rfl := hdigit
          · have hfirst : (Mark.digits ⟨true, false, 10, true, 1⟩ (0x22 :: c :: rest)).head? =
                some c := Mark.digits_cons rfl (isxdigit_of_isdigit hdigit)
            refine ⟨⟨.decimal, false, _, h.nonempty, h.of_base, ?_⟩, rfl, rfl, rfl⟩
            show List.head? _ ≠ some 0x30
            rw [hfirst]
            exact fun he => hzero (Option.some.inj he)
          · exact absurd rfl h.nonempty
        · exact absurd hmark (by simp)
    split at hmark
    · next hminus =>
      subst hminus
      obtain rfl := Option.some.inj hmark
      exact ⟨⟨.plain, true, _, h.nonempty, h.of_base, trivial⟩, rfl, rfl, rfl⟩
    split at hmark
    · obtain rfl := Option.some.inj hmark
      exact ⟨⟨.plain, false, _, h.nonempty, h.of_base, trivial⟩, rfl, rfl, rfl⟩
    · exact absurd hmark (by simp)

/-! ### What is read -/

/-- The digits behind a mark are within the range and end as a number does. -/
def Ends (f : NumberFormat) (m : Mark) (text : Text) : Prop :=
  (magnitude m.base 0 (m.digits text) : Int) ≤ f.max ∧
    (closing m.quoted ((text.drop m.size).dropWhile isxdigit)).isSome

def Mark.number (m : Mark) (f : NumberFormat) (text : Text) : f.Value :=
  f.cast (if m.negative then -(magnitude m.base 0 (m.digits text))
    else magnitude m.base 0 (m.digits text))

/-- How many bytes end a number. -/
def Mark.closed (m : Mark) : Nat := if m.quoted then 1 else 0

theorem closing_eq {quoted : Bool} {text : Text} {n : Nat} (h : closing quoted text = some n) :
    text.take n = if quoted then [0x22] else [] := by
  cases text with
  | nil => exact absurd h (by simp [closing])
  | cons c rest =>
    rw [closing] at h
    split at h
    · next hc =>
      obtain rfl := Option.some.inj h
      rw [hc.1, hc.2]
      rfl
    split at h
    · next hc =>
      obtain rfl := Option.some.inj h
      rw [hc.1]
      rfl
    · exact absurd h (by simp)

theorem closing_closed {m : Mark} {text : Text} {n : Nat} (h : closing m.quoted text = some n) :
    n = m.closed := by
  cases text with
  | nil => exact absurd h (by simp [closing])
  | cons c rest =>
    rw [closing] at h
    split at h
    · next hc => simpa [Mark.closed, hc.1] using h.symm
    split at h
    · next hc => simpa [Mark.closed, hc.1] using h.symm
    · exact absurd h (by simp)

theorem Mark.read_of_ends {m : Mark} {text : Text} (h : Ends f m text) : m.read f text =
    some (.number (m.number f text) (m.size + ((m.digits text).length + m.closed))) := by
  obtain ⟨n, hn⟩ := Option.isSome_iff_exists.mp h.2
  have hle := h.1
  unfold Mark.digits at hle
  rw [Mark.read, readDigits, if_pos hle, hn, closing_closed hn]
  rfl

theorem Mark.read_of_not_ends {m : Mark} {text : Text} (h : ¬Ends f m text) :
    m.read f text = none := by
  rw [Mark.read, readDigits]
  split
  · next hle =>
    cases hn : closing m.quoted ((text.drop m.size).dropWhile isxdigit) with
    | none => rfl
    | some n => exact absurd ⟨hle, by rw [hn]; rfl⟩ h
  · rfl

theorem max_signed (h : f.signed = true) : f.min = -f.max - 1 := by
  unfold NumberFormat.min NumberFormat.max
  rw [if_pos h, if_pos h]
  omega

theorem min_unsigned (h : f.signed = false) : f.min = 0 := by
  simp [NumberFormat.min, h]

/-- The lowest number of a signed type is never read. -/
theorem number_ne_min {m : Mark} {text : Text} (h : Ends f m text) (hsigned : f.signed = true) :
    (m.number f text).1 ≠ f.min := by
  have hle := h.1
  have hmin := max_signed hsigned
  have hmax := max_ge f
  rw [Mark.number]
  split <;> rw [cast_val (by omega) (by omega)] <;> omega

theorem Proper.number_eq {m : Mark} {text : Text} (h : Proper f m text) (hends : Ends f m text) :
    (m.number f text).1 = if m.negative then -(magnitude m.base 0 (m.digits text) : Int)
      else magnitude m.base 0 (m.digits text) := by
  have hle := hends.1
  have hmin := min_le_zero f
  rw [Mark.number]
  split
  · next hnegative =>
    obtain hsigned | hzero := h.sign hnegative
    · have := max_signed hsigned
      exact cast_val (by omega) (by omega)
    · rw [hzero]
      exact cast_val hmin (by omega)
  · exact cast_val (by omega) hle

/-- The bytes of a number. -/
theorem Mark.take_eq {m : Mark} {text : Text} (h : Ends f m text) :
    text.take (m.size + ((m.digits text).length + m.closed)) =
      text.take m.size ++ (m.digits text ++ if m.quoted then [0x22] else []) := by
  obtain ⟨n, hn⟩ := Option.isSome_iff_exists.mp h.2
  have hclosing := closing_eq hn
  obtain rfl := closing_closed hn
  have hsplit : text.drop m.size = m.digits text ++ (text.drop m.size).dropWhile isxdigit :=
    List.takeWhile_append_dropWhile.symm
  rw [List.take_add, hsplit, List.take_length_add_append, hclosing]

/-- A proper number that ends is a token. -/
theorem Proper.sound {m : Mark} {text : Text} (h : Proper f m text) (hmark : mark text = some m)
    (hends : Ends f m text) : ∃ t : Token,
      t.text = text.take (m.size + ((m.digits text).length + m.closed)) ∧
        t.value = (m.number f text).1 := by
  obtain ⟨t, rfl, hdigits, hopening⟩ := h.token hmark
  refine ⟨t, ?_, ?_⟩
  · rw [Mark.take_eq hends, Token.text, hopening, hdigits, List.append_assoc]
    rfl
  · rw [h.number_eq hends, ← hdigits]
    show _ = if t.negative then -(magnitude t.form.base 0 t.digits : Int)
      else magnitude t.form.base 0 t.digits
    rw [t.magnitude_eq]
    rfl

/-- A token is proper. -/
theorem Token.proper {m : Mark} {text : Text} (hmark : NumberType.mark text = some m)
    (hends : Ends f m text) (t : Token)
    (ht : t.text = text.take (m.size + ((m.digits text).length + m.closed)))
    (hv : t.value = (m.number f text).1) : Proper f m text := by
  have hsplit := List.take_append_drop (m.size + ((m.digits text).length + m.closed)) text
  rw [← ht] at hsplit
  have hsame := t.mark_text (text.drop (m.size + ((m.digits text).length + m.closed)))
  rw [hsplit, hmark] at hsame
  obtain rfl := Option.some.inj hsame
  have hopening : text.take t.mark.size = t.opening := by
    rw [← hsplit, Token.text, List.append_assoc, List.append_assoc]
    exact List.take_left
  have hdigits : t.mark.digits text = t.digits := by
    rw [Mark.take_eq hends, hopening, Token.text, List.append_assoc] at ht
    exact (List.append_cancel_right (List.append_cancel_left ht)).symm
  have hbase : ∀ c ∈ t.mark.digits text, IsDigit t.mark.base c := by
    rw [hdigits]
    exact t.of_base
  refine ⟨rfl, hdigits ▸ t.nonempty, hbase, fun hnegative => ?_⟩
  by_cases hsigned : f.signed = true
  · exact .inl hsigned
  · right
    have hmin := (t.mark.number f text).2.1
    rw [← hv, min_unsigned (by simpa using hsigned), Token.value,
      if_pos (show t.negative = true from hnegative), ← t.magnitude_eq] at hmin
    rw [hdigits]
    show magnitude t.form.base 0 t.digits = 0
    omega

/-- Behind the digits of a token is a byte that ends them. -/
theorem Token.behind (t : Token) {rest : Text}
    (hrest : t.form.quoted = false → ∃ c rest', rest = c :: rest' ∧ isEnd c = true) :
    ∃ c rest', t.closing ++ rest = c :: rest' ∧ isxdigit c = false ∧
      (NumberType.closing t.mark.quoted (c :: rest')).isSome := by
  cases hquoted : t.form.quoted with
  | true =>
    refine ⟨0x22, rest, by rw [Token.closing, if_pos hquoted]; rfl, by decide, ?_⟩
    simp [NumberType.closing, Token.mark, hquoted]
  | false =>
    obtain ⟨c, rest', rfl, hend⟩ := hrest hquoted
    refine ⟨c, rest', by simp [Token.closing, hquoted], ?_, ?_⟩
    · rw [← Bool.not_eq_true, isxdigit_iff]
      simp only [isEnd, isspace, UInt8.le_iff_toNat_le, ← UInt8.toNat_inj, UInt8.reduceToNat,
        decide_eq_true_eq] at hend
      omega
    · simp [NumberType.closing, Token.mark, hquoted, hend]

/-- A token in the range is read. -/
theorem Token.ends (t : Token) (hmax : (t.amount : Int) ≤ f.max) {rest : Text}
    (hrest : t.form.quoted = false → ∃ c rest', rest = c :: rest' ∧ isEnd c = true) :
    t.mark.digits (t.text ++ rest) = t.digits ∧ Ends f t.mark (t.text ++ rest) := by
  obtain ⟨c, rest', hbehind, hdigit, hclosing⟩ := t.behind hrest
  have hdrop : (t.text ++ rest).drop t.mark.size = t.digits ++ c :: rest' := by
    rw [Token.text, List.append_assoc, List.append_assoc, hbehind]
    exact List.drop_left
  have hall : ∀ d ∈ t.digits, isxdigit d = true := fun d hd => (t.of_base d hd).1
  have hneg : ¬isxdigit c = true := by simp [hdigit]
  have hdigits : t.mark.digits (t.text ++ rest) = t.digits := by
    rw [Mark.digits, hdrop, List.takeWhile_append_of_pos hall, List.takeWhile_cons_of_neg hneg,
      List.append_nil]
  refine ⟨hdigits, ?_, ?_⟩
  · rw [hdigits]
    show (magnitude t.form.base 0 t.digits : Int) ≤ f.max
    rw [t.magnitude_eq]
    exact hmax
  · rw [hdrop, List.dropWhile_append_of_pos hall, List.dropWhile_cons_of_neg hneg]
    exact hclosing

/-- It is read as what it says. -/
theorem Token.reading (t : Token) (hmax : (t.amount : Int) ≤ f.max) (rest : Text)
    (hrest : t.form.quoted = false → ∃ c rest', rest = c :: rest' ∧ isEnd c = true)
    (x : NumberType f) : NumberType.reading (run step (t.text ++ rest) x 0) =
      some (.number (f.cast t.value) t.text.length) := by
  obtain ⟨hdigits, hends⟩ := t.ends hmax hrest
  have hnumber : t.mark.number f (t.text ++ rest) = f.cast t.value := by
    rw [Mark.number, hdigits]
    show f.cast (if t.negative then -(magnitude t.form.base 0 t.digits : Int)
      else magnitude t.form.base 0 t.digits) = _
    rw [t.magnitude_eq]
    rfl
  rw [reading_text, t.mark_text, Option.bind_some, Mark.read_of_ends hends, hnumber, hdigits]
  have hlength : t.text.length = t.opening.length + (t.digits.length + t.mark.closed) := by
    rw [Token.text, List.length_append, List.length_append, Nat.add_assoc, Token.closing,
      Mark.closed]
    show _ + (_ + List.length (if t.form.quoted then [0x22] else [])) =
      _ + (_ + if t.form.quoted then 1 else 0)
    split <;> rfl
  rw [hlength]
  rfl

end Thunder.Core.JSON.NumberType
