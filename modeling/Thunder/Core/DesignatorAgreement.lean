import Mathlib.Data.List.Induction
import Mathlib.Tactic.Ring
import Thunder.Core.DesignatorAccessors

/-! The accessors of a designator against `Split`.  Each of them scans the text anew.  Versions have
at most three digits and are less than 255, as a byte holds them; some scans go on into the
index. -/

namespace Thunder.Core.JSONRPC.Message

open Text Designator

/-! ### The accessors -/

/-- `Message::FullMethod`. -/
def fullMethod (designator : List Char) : List Char :=
  designator.drop (next (rfind (· = '.') designator (rfind (· = '@') designator none)))

/-- `Message::Index`. -/
def index (designator : List Char) : List Char :=
  match rfind (· = '@') designator none with
  | none => []
  | some stop => designator.drop (stop + 1)

/-- `Message::InstanceId`. -/
def instanceId (designator : List Char) : List Char :=
  match find (· = '#') designator 0 with
  | none => []
  | some pos =>
    substr designator (pos + 1)
      ((find (fun c => c = ':' ∨ c = '@') designator pos).map (· - (pos + 1)))

/-- `Message::Prefix`; a difference that wraps is longer than any text. -/
def prefixOf (designator : List Char) : List Char :=
  match rfind (· = ':') designator none with
  | none => []
  | some stop =>
    let start := next (rfind (· = '.') designator (some stop))
    let lookup := find (· = '#') designator start
    let limit := if stop = 0 then lookup else some (min (lookup.getD (stop - 1)) (stop - 1))
    substr designator start (limit.bind (between start))

def digit (c : Char) : Nat := c.toNat - '0'.toNat

/-- What the loop over the digits of a version, from the back, has come to. -/
structure Digits where
  length : Nat
  base : Nat
  result : Nat
  count : Nat
  deriving DecidableEq, Repr

/-- The loop; the length goes down before the test. -/
def digitsFrom (designator : List Char) : Nat → Nat → Nat → Nat → Digits
  | 0, base, result, count => ⟨0, base, result, count⟩
  | length + 1, base, result, count =>
    match designator[length]? with
    | none => ⟨length, base, result, count⟩
    | some c =>
      if c.isDigit ∧ base ≤ 100 then
        digitsFrom designator length (base * 10) (result + digit c * base) (count + 1)
      else ⟨length, base, result, count⟩

/-- The loop from the dot before the method on. -/
def digits (designator : List Char) : Digits :=
  digitsFrom designator
    ((rfind (· = '.') designator (rfind (· = '@') designator none)).getD 0) 1 0 0

/-- `Message::Version`. -/
def version (designator : List Char) : Nat :=
  let d := digits designator
  if d.base > 1 ∧ d.result < 0xFF ∧ (d.length = 0 ∨ designator[d.length]? = some '.') then d.result
  else 0xFF

/-- `Message::VersionAsString`. -/
def versionAsString (designator : List Char) : List Char :=
  let d := digits designator
  if d.base > 1 ∧ d.result < 0xFF then
    if d.length = 0 then designator.take d.count
    else if designator[d.length]? = some '.' then (designator.drop (d.length + 1)).take d.count
    else []
  else []

/-! ### What they are compared with -/

/-- The number that digits stand for. -/
def number (text : List Char) : Nat := text.foldl (fun n c => 10 * n + digit c) 0

/-- A version that fits in a byte, less the value for none. -/
def Small (text : List Char) : Prop := text.length ≤ 3 ∧ number text < 0xFF

instance (text : List Char) : Decidable (Small text) := inferInstanceAs (Decidable (_ ∧ _))

/-- A callsign of one character and digits behind it, in which the scan for a version ends at the
begin of the text. -/
def LikeVersion (callsign : List Char) : Prop :=
  ∃ c text, callsign = c :: text ∧ text ≠ [] ∧ (∀ d ∈ text, d.isDigit = true) ∧ Small text

/-- What `Version` is for the version of a designator. -/
def versionOf (text : List Char) : Nat := if text = [] then 0xFF else number text

/-- The accessors give the parts of the designator.  A version that does not fit is none. -/
structure Agree (designator : List Char) (parts : Designator) : Prop where
  callsign : callsign designator = parts.callsign
  fullMethod : fullMethod designator = parts.owner ++ parts.method ++ parts.tail
  index : index designator = parts.index
  version : Small parts.version → (parts.version = [] → ¬ LikeVersion parts.callsign) →
    Message.version designator = versionOf parts.version ∧
      versionAsString designator = parts.version
  noVersion : ¬ Small parts.version → (parts.callsign = [] → parts.version.length ≠ 4) →
    Message.version designator = 0xFF ∧ versionAsString designator = []
  prefixText : ':' ∉ parts.index → prefixOf designator = parts.prefixText
  instanceId : (parts.instanceId = [] → '#' ∉ parts.index) →
    instanceId designator = parts.instanceId
  method : (parts.instanceId = [] → '#' ∉ parts.index) →
    method designator =
      (if parts.prefixText = [] then [] else parts.prefixText ++ [':', ':']) ++ parts.method

/-! ### The loop over the digits -/

section Digits

variable {designator before text : List Char} {base : Nat}

theorem number_append (text : List Char) (c : Char) :
    number (text ++ [c]) = 10 * number text + digit c := by
  rw [number, List.foldl_append]
  rfl

/-- Digits that the loop takes. -/
theorem digitsFrom_digits (result count : Nat) {rest : List Char}
    (htext : designator = before ++ text ++ rest)
    (hdigits : ∀ c ∈ text, c.isDigit = true) (hcount : count + text.length ≤ 3) :
    digitsFrom designator (before ++ text).length (10 ^ count) result count =
      digitsFrom designator before.length (10 ^ (count + text.length))
        (result + 10 ^ count * number text) (count + text.length) := by
  induction text using List.reverseRecOn generalizing count result rest with
  | nil => simp [number]
  | append_singleton text c ih =>
    obtain ⟨hinit, hlast⟩ := List.forall_mem_append.mp hdigits
    have hc : c.isDigit = true := hlast c (List.mem_singleton_self c)
    have hat : designator[(before ++ text).length]? = some c := by
      rw [htext, ← List.append_assoc, List.append_assoc _ [c], List.getElem?_append_right
        (Nat.le_refl _), Nat.sub_self]
      rfl
    have hlength : (before ++ (text ++ [c])).length = (before ++ text).length + 1 := by
      simp [Nat.add_assoc]
    have hbase : 10 ^ count ≤ 100 := by
      rw [List.length_append, List.length_singleton] at hcount
      exact Nat.pow_le_pow_right (by decide : 0 < 10) (show count ≤ 2 by omega)
    have hshort : count + 1 + text.length ≤ 3 := by
      rw [List.length_append, List.length_singleton] at hcount
      omega
    have hsum : count + 1 + text.length = count + (text.length + 1) := by omega
    have hresult : result + digit c * 10 ^ count + 10 ^ (count + 1) * number text =
        result + 10 ^ count * (10 * number text + digit c) := by ring
    rw [hlength, digitsFrom, hat]
    dsimp only
    have htext' : designator = before ++ text ++ c :: rest := by simp [htext]
    rw [if_pos ⟨hc, hbase⟩, ← Nat.pow_succ, ih _ _ htext' hinit hshort,
      number_append, List.length_append, List.length_singleton, hsum, hresult]

/-- A character at which the loop stops. -/
theorem digitsFrom_stop {length result count : Nat} {c : Char} (hat : designator[length]? = some c)
    (hstop : c.isDigit = false ∨ 100 < base) :
    digitsFrom designator (length + 1) base result count = ⟨length, base, result, count⟩ := by
  rw [digitsFrom, hat]
  refine if_neg fun hgo => ?_
  rcases hstop with hdigit | hbase
  · rw [hdigit] at hgo
    exact Bool.false_ne_true hgo.1
  · omega

/-- At most three digits at the begin of the text. -/
theorem digitsFrom_begin {rest : List Char} (htext : designator = text ++ rest)
    (hdigits : ∀ c ∈ text, c.isDigit = true) (hcount : text.length ≤ 3) :
    digitsFrom designator text.length 1 0 0 =
      ⟨0, 10 ^ text.length, number text, text.length⟩ := by
  have hloop := digitsFrom_digits 0 0 (show designator = [] ++ text ++ rest from htext) hdigits
    (by rwa [Nat.zero_add])
  simpa [digitsFrom] using hloop

/-- At most three digits behind another character. -/
theorem digitsFrom_behind {rest : List Char} {c : Char}
    (htext : designator = before ++ [c] ++ text ++ rest) (hc : c.isDigit = false)
    (hdigits : ∀ c ∈ text, c.isDigit = true) (hcount : text.length ≤ 3) :
    digitsFrom designator (before ++ [c] ++ text).length 1 0 0 =
      ⟨before.length, 10 ^ text.length, number text, text.length⟩ := by
  have hloop := digitsFrom_digits 0 0 htext hdigits (by rwa [Nat.zero_add])
  have hat : designator[before.length]? = some c := by simp [htext]
  rw [Nat.pow_zero] at hloop
  rw [hloop, List.length_append, List.length_singleton, digitsFrom_stop hat (.inl hc),
    Nat.zero_add, Nat.zero_add, Nat.one_mul]

/-- The loop does not go further than three digits. -/
theorem digitsFrom_many {rest : List Char} (htext : designator = before ++ text ++ rest)
    (hdigits : ∀ c ∈ text, c.isDigit = true) (hmany : 3 < text.length) :
    ∃ result c, digitsFrom designator (before ++ text).length 1 0 0 =
        ⟨before.length + (text.length - 4), 1000, result, 3⟩ ∧
      designator[before.length + (text.length - 4)]? = some c ∧ c.isDigit = true := by
  have hsplit : text = text.take (text.length - 4) ++ [text[text.length - 4]] ++
      text.drop (text.length - 3) := by
    have hcut : text.length - 4 + 1 = text.length - 3 := by omega
    rw [List.append_assoc, List.singleton_append, ← hcut, ← List.drop_eq_getElem_cons,
      List.take_append_drop]
  have hlast : (text.drop (text.length - 3)).length = 3 := by
    rw [List.length_drop]
    omega
  have htext' : designator = before ++ (text.take (text.length - 4) ++ [text[text.length - 4]]) ++
      text.drop (text.length - 3) ++ rest := by
    rw [htext]
    nth_rewrite 1 [hsplit]
    simp only [List.append_assoc]
  have hloop := digitsFrom_digits 0 0 htext'
    (fun c hc => hdigits c (List.mem_of_mem_drop hc)) (by rw [hlast])
  have hat : designator[before.length + (text.length - 4)]? = some text[text.length - 4] := by
    rw [htext, List.append_assoc, List.getElem?_append_right (Nat.le_add_right ..),
      Nat.add_sub_cancel_left, List.getElem?_append_left (by omega), List.getElem?_eq_getElem]
  refine ⟨number (text.drop (text.length - 3)), text[text.length - 4], ?_, hat,
    hdigits _ (List.getElem_mem _)⟩
  have hwhole : before ++ (text.take (text.length - 4) ++ [text[text.length - 4]]) ++
      text.drop (text.length - 3) = before ++ text := by
    rw [List.append_assoc, ← hsplit]
  have hfront : (before ++ (text.take (text.length - 4) ++ [text[text.length - 4]])).length =
      before.length + (text.length - 4) + 1 := by
    simp
    omega
  rw [Nat.pow_zero, hwhole, hfront, hlast, digitsFrom_stop hat (.inr (by decide))] at hloop
  rw [hloop]
  simp

end Digits

/-! ### The version -/

section Versions

variable {parts : Designator} {designator before text rest : List Char} {c : Char}

/-- What `Version` and `VersionAsString` make of the digits in front of the method. -/
theorem version_none (h : (digits designator).base ≤ 1 ∨ 0xFF ≤ (digits designator).result ∨
    (digits designator).length ≠ 0 ∧ designator[(digits designator).length]? ≠ some '.') :
    version designator = 0xFF ∧ versionAsString designator = [] := by
  rw [version, versionAsString]
  rcases h with hbase | hresult | ⟨hlength, hdot⟩
  · rw [if_neg (by omega), if_neg (by omega)]
    exact ⟨rfl, rfl⟩
  · rw [if_neg (by omega), if_neg (by omega)]
    exact ⟨rfl, rfl⟩
  · rw [if_neg (fun hall => hall.2.2.elim hlength hdot), if_neg hlength, if_neg hdot]
    split_ifs <;> exact ⟨rfl, rfl⟩

theorem one_lt_base (hne : text ≠ []) : 10 ^ text.length > 1 :=
  Nat.one_lt_pow (fun hzero => hne (List.length_eq_zero_iff.mp hzero)) (by decide)

/-- A small version at the begin of the text. -/
theorem version_begin (htext : designator = text ++ rest)
    (hdigits : digits designator = ⟨0, 10 ^ text.length, number text, text.length⟩)
    (hne : text ≠ []) (hsmall : number text < 0xFF) :
    version designator = number text ∧ versionAsString designator = text := by
  have hbase := one_lt_base hne
  rw [version, versionAsString, hdigits]
  dsimp only
  rw [if_pos ⟨hbase, hsmall, .inl rfl⟩, if_pos ⟨hbase, hsmall⟩, if_pos rfl, htext, List.take_left]
  exact ⟨rfl, rfl⟩

/-- A small version behind a dot. -/
theorem version_behind (htext : designator = before ++ ['.'] ++ text ++ rest)
    (hdigits : digits designator =
      ⟨before.length, 10 ^ text.length, number text, text.length⟩) (hbefore : before ≠ [])
    (hne : text ≠ []) (hsmall : number text < 0xFF) :
    version designator = number text ∧ versionAsString designator = text := by
  have hbase := one_lt_base hne
  have hlength : before.length ≠ 0 := fun hzero => hbefore (List.length_eq_zero_iff.mp hzero)
  have hdot : designator[before.length]? = some '.' := by simp [htext]
  have hdrop : designator.drop (before.length + 1) = text ++ rest := by
    rw [htext, List.append_assoc, List.append_assoc, ← List.drop_drop, List.drop_left]
    rfl
  rw [version, versionAsString, hdigits]
  dsimp only
  rw [if_pos ⟨hbase, hsmall, .inr hdot⟩, if_pos ⟨hbase, hsmall⟩, if_neg hlength, if_pos hdot, hdrop,
    List.take_left]
  exact ⟨rfl, rfl⟩

/-- The digits are taken from the dot of the address. -/
theorem digits_join (h : parts.WellFormed) (haddress : parts.address = before ++ ['.']) :
    digits (join parts) = digitsFrom (join parts) before.length 1 0 0 := by
  rw [digits, rfind_index h, rfind_dot h haddress, Option.getD_some]

theorem join_address (haddress : parts.address = before ++ ['.']) :
    join parts = before ++ '.' :: (parts.owner ++ parts.method ++ parts.tail) := by
  rw [join_eq, haddress]
  simp

/-- A text ends in digits, as many as there are. -/
theorem exists_digits (text : List Char) : ∃ front last, text = front ++ last ∧
    (∀ c ∈ last, c.isDigit = true) ∧
    (front = [] ∨ ∃ before c, front = before ++ [c] ∧ c.isDigit = false) := by
  induction text using List.reverseRecOn with
  | nil => exact ⟨[], [], rfl, nofun, .inl rfl⟩
  | append_singleton text c ih =>
    cases hc : c.isDigit with
    | false => exact ⟨text ++ [c], [], by simp, nofun, .inr ⟨text, c, rfl, hc⟩⟩
    | true =>
      obtain ⟨front, last, rfl, hlast, hfront⟩ := ih
      refine ⟨front, last ++ [c], by simp, ?_, hfront⟩
      rw [List.forall_mem_append, List.forall_mem_singleton]
      exact ⟨hlast, hc⟩

/-- The digits at the end of a callsign stand behind a character of its last segment. -/
theorem callsign_digits (h : parts.WellFormed) (hne : parts.callsign ≠ []) :
    ∃ before c last, parts.callsign = before ++ [c] ++ last ∧ c.isDigit = false ∧ c ≠ '.' ∧
      ∀ d ∈ last, d.isDigit = true := by
  obtain ⟨front, last, hcallsign, hlast, rfl | ⟨before, c, rfl, hc⟩⟩ := exists_digits parts.callsign
  · obtain ⟨c, hmem, hdigit⟩ := h.segment hne
    have hall := hlast c (by rw [hcallsign] at hmem; exact List.mem_of_mem_drop hmem)
    rw [hall] at hdigit
    cases hdigit
  · refine ⟨before, c, last, hcallsign, hc, ?_, hlast⟩
    rintro rfl
    obtain ⟨d, hmem, hdigit⟩ := h.segment hne
    have hdot : lastIdx (· = '.') parts.callsign = some before.length := by
      rw [hcallsign, List.append_assoc, List.singleton_append]
      exact lastIdx_append_cons (decide_eq_true rfl) fun d hd =>
        decide_eq_false (digit_ne (hlast d hd) (by decide))
    have hsegment : lastSegment parts.callsign = last := by
      rw [lastSegment, hdot, next, hcallsign, List.append_assoc, ← List.drop_drop, List.drop_left]
      rfl
    rw [hsegment] at hmem
    rw [hlast d hmem] at hdigit
    cases hdigit

/-- Digits that are too many are none, unless they begin the text. -/
theorem version_many (hdigits : digits designator = digitsFrom designator (before ++ text).length
    1 0 0) (htext : designator = before ++ text ++ rest)
    (hall : ∀ c ∈ text, c.isDigit = true) (hmany : 3 < text.length)
    (hbefore : before = [] → text.length ≠ 4) :
    version designator = 0xFF ∧ versionAsString designator = [] := by
  obtain ⟨result, c, hloop, hat, hc⟩ := digitsFrom_many htext hall hmany
  apply version_none
  rw [hdigits, hloop]
  have hlength : before.length + (text.length - 4) ≠ 0 := by
    intro hzero
    exact hbefore (List.length_eq_zero_iff.mp (by omega)) (by omega)
  refine .inr (.inr ⟨hlength, ?_⟩)
  rw [hat]
  exact fun heq => digit_ne hc (by decide) (Option.some.inj heq)

/-- No version, and a callsign that is not like one. -/
theorem version_callsign (h : parts.WellFormed) (hversion : parts.version = [])
    (hlike : ¬ LikeVersion parts.callsign) :
    version (join parts) = 0xFF ∧ versionAsString (join parts) = [] := by
  by_cases hne : parts.callsign = []
  · have haddress : parts.address = [] := by simp [address, hne, hversion]
    apply version_none
    rw [digits, rfind_index h, rfind_dot_none h haddress]
    exact .inl (Nat.le_refl 1)
  · have haddress : parts.address = parts.callsign ++ ['.'] := by simp [address, hne, hversion]
    obtain ⟨before, c, last, hcallsign, hc, hdot, hlast⟩ := callsign_digits h hne
    have hjoin := join_address haddress
    have hdigits := digits_join h haddress
    rw [hcallsign] at hjoin hdigits
    by_cases hmany : 3 < last.length
    · exact version_many hdigits hjoin hlast hmany (by simp)
    · have hloop := digitsFrom_behind hjoin hc hlast (Nat.le_of_not_lt hmany)
      rw [hloop] at hdigits
      apply version_none
      rw [hdigits]
      by_cases hlong : before = []
      · by_cases hempty : last = []
        · exact .inl (by simp [hempty])
        · refine .inr (.inl (Nat.le_of_not_lt fun hsmall => hlike ?_))
          have hcons : parts.callsign = c :: last := by
            rw [hcallsign, hlong]
            rfl
          exact ⟨c, last, hcons, hempty, hlast, Nat.le_of_not_lt hmany, hsmall⟩
      · refine .inr (.inr ⟨fun hzero => hlong (List.length_eq_zero_iff.mp hzero), ?_⟩)
        have hat : (join parts)[before.length]? = some c := by simp [hjoin]
        rw [hat]
        exact fun heq => hdot (Option.some.inj heq)

/-- The version of a designator, as a number and as a text. -/
theorem version_join (h : parts.WellFormed) (hsmall : Small parts.version)
    (hlike : parts.version = [] → ¬ LikeVersion parts.callsign) :
    version (join parts) = versionOf parts.version ∧
      versionAsString (join parts) = parts.version := by
  by_cases hversion : parts.version = []
  · rw [versionOf, if_pos hversion, hversion]
    exact version_callsign h hversion (hlike hversion)
  · rw [versionOf, if_neg hversion]
    by_cases hcallsign : parts.callsign = []
    · have haddress : parts.address = parts.version ++ ['.'] := by
        simp [address, hcallsign, hversion]
      have hjoin := join_address haddress
      have hdigits := digits_join h haddress
      rw [digitsFrom_begin hjoin h.version hsmall.1] at hdigits
      exact version_begin hjoin hdigits hversion hsmall.2
    · have haddress : parts.address = parts.callsign ++ ['.'] ++ parts.version ++ ['.'] := by
        simp [address, hcallsign, hversion]
      have hjoin := join_address haddress
      have hdigits := digits_join h haddress
      rw [digitsFrom_behind hjoin (by decide) h.version hsmall.1] at hdigits
      exact version_behind hjoin hdigits hcallsign hversion hsmall.2

/-- A version that does not fit is none, unless it has four digits that begin the text. -/
theorem version_large (h : parts.WellFormed) (hlarge : ¬ Small parts.version)
    (hfour : parts.callsign = [] → parts.version.length ≠ 4) :
    version (join parts) = 0xFF ∧ versionAsString (join parts) = [] := by
  have hversion : parts.version ≠ [] := by
    intro hnil
    rw [hnil] at hlarge
    exact hlarge (by decide)
  by_cases hcallsign : parts.callsign = []
  · have haddress : parts.address = [] ++ parts.version ++ ['.'] := by
      simp [address, hcallsign, hversion]
    have hjoin := join_address haddress
    have hdigits := digits_join h haddress
    by_cases hmany : 3 < parts.version.length
    · exact version_many hdigits hjoin h.version hmany fun _ => hfour hcallsign
    · rw [List.nil_append] at hjoin hdigits
      rw [digitsFrom_begin hjoin h.version (Nat.le_of_not_lt hmany)] at hdigits
      apply version_none
      rw [hdigits]
      exact .inr (.inl (Nat.le_of_not_lt fun hsmall => hlarge ⟨Nat.le_of_not_lt hmany, hsmall⟩))
  · have haddress : parts.address = parts.callsign ++ ['.'] ++ parts.version ++ ['.'] := by
      simp [address, hcallsign, hversion]
    have hjoin := join_address haddress
    have hdigits := digits_join h haddress
    by_cases hmany : 3 < parts.version.length
    · exact version_many hdigits hjoin h.version hmany (by simp)
    · rw [digitsFrom_behind hjoin (by decide) h.version (Nat.le_of_not_lt hmany)] at hdigits
      apply version_none
      rw [hdigits]
      exact .inr (.inl (Nat.le_of_not_lt fun hsmall => hlarge ⟨Nat.le_of_not_lt hmany, hsmall⟩))

end Versions

/-! ### The other parts -/

section Parts

variable {parts : Designator} {designator : List Char}

theorem layout_join (h : parts.WellFormed) :
    Layout (join parts) (parts.address ++ (parts.owner ++ parts.method)) parts.tail := by
  refine ⟨join_eq parts, ?_, ?_⟩
  · rw [tail]
    split_ifs
    · exact .inr ⟨parts.index, rfl⟩
    · exact .inl rfl
  · rw [rfind_index h, indexIdx, tail]
    by_cases hindex : parts.index = [] <;> simp [hindex]

theorem index_join (h : parts.WellFormed) : index (join parts) = parts.index := by
  rw [index, rfind_index h]
  exact split_index parts

theorem fullMethod_join (h : parts.WellFormed) :
    fullMethod (join parts) = parts.owner ++ parts.method ++ parts.tail := by
  rw [fullMethod, rfind_index h, (split_address h).2, join_eq, List.append_assoc, List.drop_left]

/-- Digits are gone back over as far as there are any. -/
theorem backDigits_eq {i n : Nat}
    (hdigits : ∀ j, i < j → j ≤ i + n → (designator[j]?).any Char.isDigit = true)
    (hstop : i = 0 ∨ (designator[i]?).any Char.isDigit = false) :
    backDigits designator (i + n) = i := by
  induction n with
  | zero =>
    cases i with
    | zero => rfl
    | succ i =>
      have hnot := hstop.resolve_left (Nat.succ_ne_zero i)
      rw [Nat.add_zero, backDigits, if_neg (by simp [hnot])]
  | succ n ih =>
    rw [← Nat.add_assoc, backDigits, if_pos (hdigits (i + n + 1) (by omega) (Nat.le_refl _))]
    exact ih fun j hlt hle => hdigits j hlt (by omega)

/-- Digits that stand in a text. -/
theorem any_digit {before text rest : List Char} (htext : designator = before ++ text ++ rest)
    (hdigits : ∀ c ∈ text, c.isDigit = true) {j : Nat} (hle : before.length ≤ j)
    (hlt : j < before.length + text.length) : (designator[j]?).any Char.isDigit = true := by
  have hin : j - before.length < text.length := by omega
  rw [htext, List.append_assoc, List.getElem?_append_right hle, List.getElem?_append_left hin,
    List.getElem?_eq_getElem hin]
  exact hdigits _ (List.getElem_mem hin)

theorem callsign_eq {before : List Char} (h : parts.WellFormed)
    (haddress : parts.address = before ++ ['.']) :
    callsign (join parts) = match callsignEnd (join parts) before.length with
      | none => []
      | some pos => (join parts).take pos := by
  rw [callsign, rfind_index h, rfind_dot h haddress]
  rfl

theorem callsign_join (h : parts.WellFormed) : callsign (join parts) = parts.callsign := by
  by_cases hcallsign : parts.callsign = []
  · by_cases hversion : parts.version = []
    · have haddress : parts.address = [] := by simp [address, hcallsign, hversion]
      rw [callsign, rfind_index h, rfind_dot_none h haddress, hcallsign]
      rfl
    · have haddress : parts.address = parts.version ++ ['.'] := by
        simp [address, hcallsign, hversion]
      have hjoin : join parts = [] ++ parts.version ++ '.' :: _ := join_address haddress
      have hpos := List.length_pos_of_ne_nil hversion
      have hback : backDigits (join parts) (0 + (parts.version.length - 1)) = 0 := by
        apply backDigits_eq
        · intro j _ hle
          exact any_digit hjoin h.version (Nat.zero_le j) (by simp; omega)
        · exact .inl rfl
      have hfirst : ((join parts)[0]?).any Char.isDigit = true :=
        any_digit hjoin h.version (Nat.le_refl 0) (by simpa using hpos)
      rw [Nat.zero_add] at hback
      rw [callsign_eq h haddress, callsignEnd, if_pos hpos, hback, hcallsign]
      simp [hfirst]
  · obtain ⟨before, c, last, hparts, hc, hdot, hlast⟩ := callsign_digits h hcallsign
    have hpos := List.length_pos_of_ne_nil hcallsign
    by_cases hversion : parts.version = []
    · have haddress : parts.address = parts.callsign ++ ['.'] := by
        simp [address, hcallsign, hversion]
      have hjoin := join_address haddress
      have hjoin' := hjoin
      rw [hparts] at hjoin'
      have hat : (join parts)[before.length]? = some c := by simp [hjoin']
      have hlength : parts.callsign.length - 1 = before.length + last.length := by simp [hparts]
      have hback : backDigits (join parts) (before.length + last.length) = before.length := by
        apply backDigits_eq
        · intro j hlt hle
          exact any_digit hjoin' hlast (by simp; omega) (by simp; omega)
        · exact .inr (by simp [hat, hc])
      rw [callsign_eq h haddress, callsignEnd, if_pos hpos, hlength, hback]
      have hnodot : ¬ (before.length ≠ 0 ∧ (join parts)[before.length]? = some '.') := by
        rw [hat]
        exact fun hand => hdot (Option.some.inj hand.2)
      have hnodigit : ¬ (before.length = 0 ∧ ((join parts)[0]?).any Char.isDigit = true) := by
        rintro ⟨hzero, hdigit⟩
        rw [hzero] at hat
        rw [hat] at hdigit
        exact Bool.false_ne_true (hc.symm.trans hdigit)
      rw [if_neg hnodot, if_neg hnodigit, hjoin]
      exact List.take_left
    · have haddress : parts.address = parts.callsign ++ ['.'] ++ parts.version ++ ['.'] := by
        simp [address, hcallsign, hversion]
      have hjoin := join_address haddress
      have hat : (join parts)[parts.callsign.length]? = some '.' := by simp [hjoin]
      have hvpos := List.length_pos_of_ne_nil hversion
      have hlength : (parts.callsign ++ ['.'] ++ parts.version).length - 1 =
          parts.callsign.length + parts.version.length := by
        simp
      have hback : backDigits (join parts) (parts.callsign.length + parts.version.length) =
          parts.callsign.length := by
        apply backDigits_eq
        · intro j hlt hle
          exact any_digit hjoin h.version (by simp; omega) (by simp; omega)
        · exact .inr (by simp [hat])
      rw [callsign_eq h haddress, callsignEnd, if_pos (by simp), hlength, hback,
        if_pos ⟨Nat.ne_of_gt hpos, hat⟩, hjoin]
      simp only [List.append_assoc]
      exact List.take_left

/-- What is in front of the delimiters of an instance id. -/
theorem find_from (before : List Char) {text rest : List Char} {p : Char → Bool} {c : Char}
    (htext : designator = before ++ text ++ c :: rest) (hnot : ∀ c ∈ text, p c = false)
    (hc : p c = true) : find p designator before.length = some (before.length + text.length) := by
  rw [find, htext, List.append_assoc, List.drop_left, find_append hnot hc, Option.map_some]

theorem find_none (before : List Char) {rest : List Char} {p : Char → Bool}
    (htext : designator = before ++ rest) (hnot : ∀ c ∈ rest, p c = false) :
    find p designator before.length = none := by
  rw [find, htext, List.drop_left, List.findIdx?_eq_none_iff.mpr hnot, Option.map_none]

/-- A designator with an instance id. -/
theorem join_instance (hpre : parts.prefixText ≠ []) (hid : parts.instanceId ≠ []) :
    join parts = parts.address ++ parts.prefixText ++
      '#' :: (parts.instanceId ++ ':' :: ':' :: (parts.method ++ parts.tail)) := by
  rw [join_eq]
  simp [owner, hpre, hid]

/-- A designator with a prefix and no instance id. -/
theorem join_plain (hpre : parts.prefixText ≠ []) (hid : parts.instanceId = []) :
    join parts = parts.address ++ parts.prefixText ++
      ':' :: ':' :: (parts.method ++ parts.tail) := by
  rw [join_eq]
  simp [owner, hpre, hid]

/-- Nothing of a designator without an instance id is a `#`, the index apart. -/
theorem no_hash (h : parts.WellFormed) (hid : parts.instanceId = []) (hindex : '#' ∉ parts.index) :
    ∀ c ∈ parts.owner ++ parts.method ++ parts.tail, decide (c = '#') = false := by
  have howner : ∀ c ∈ parts.owner, c ≠ '#' := by
    rw [owner, hid]
    split_ifs
    · exact absurd rfl ‹_›
    · simp only [List.append_nil, List.forall_mem_append, List.forall_mem_cons]
      exact ⟨fun c hc => (h.prefixText c hc).2.1, by decide, by decide, (by rintro _ ⟨⟩)⟩
    · rintro _ ⟨⟩
  have htail : ∀ c ∈ parts.tail, c ≠ '#' := by
    rw [tail]
    split_ifs
    · rw [List.forall_mem_cons]
      exact ⟨by decide, fun c hc => ne_of_mem_of_not_mem hc hindex⟩
    · rintro _ ⟨⟩
  rw [List.forall_mem_append, List.forall_mem_append]
  exact ⟨⟨fun c hc => decide_eq_false (howner c hc),
    fun c hc => decide_eq_false (h.method c hc).2.1⟩, fun c hc => decide_eq_false (htail c hc)⟩

theorem instanceId_join (h : parts.WellFormed)
    (hhash : parts.instanceId = [] → '#' ∉ parts.index) :
    instanceId (join parts) = parts.instanceId := by
  by_cases hid : parts.instanceId = []
  · have hnone : find (· = '#') (join parts) 0 = none := by
      apply find_none [] (List.nil_append _).symm
      rw [join_eq, ← List.append_assoc, List.append_assoc parts.address, List.append_assoc,
        List.forall_mem_append]
      exact ⟨fun c hc => decide_eq_false (h.address c hc).1, no_hash h hid (hhash hid)⟩
    rw [instanceId, hnone, hid]
  · have hpre : parts.prefixText ≠ [] := fun hnil => hid (h.owner hnil)
    have hjoin := join_instance hpre hid
    have hpos : find (· = '#') (join parts) 0 =
        some (parts.address ++ parts.prefixText).length := by
      have hnot : ∀ c ∈ parts.address ++ parts.prefixText, decide (c = '#') = false := by
        rw [List.forall_mem_append]
        exact ⟨fun c hc => decide_eq_false (h.address c hc).1,
          fun c hc => decide_eq_false (h.prefixText c hc).2.1⟩
      have hfind := find_from [] hjoin hnot (decide_eq_true rfl)
      rwa [List.length_nil, Nat.zero_add] at hfind
    have hend : find (fun c => decide (c = ':' ∨ c = '@')) (join parts)
        (parts.address ++ parts.prefixText).length =
          some ((parts.address ++ parts.prefixText).length + ('#' :: parts.instanceId).length) := by
      have htext : join parts = (parts.address ++ parts.prefixText) ++ ('#' :: parts.instanceId) ++
          ':' :: ':' :: (parts.method ++ parts.tail) := by simp [hjoin]
      apply find_from _ htext
      · rw [List.forall_mem_cons]
        refine ⟨by decide, fun c hc => decide_eq_false ?_⟩
        rw [not_or]
        exact ⟨(h.instanceId c hc).2.2.2, (h.instanceId c hc).2.2.1⟩
      · rfl
    have hcount : (parts.address ++ parts.prefixText).length + ('#' :: parts.instanceId).length -
        ((parts.address ++ parts.prefixText).length + 1) = parts.instanceId.length := by
      rw [List.length_cons]
      omega
    rw [instanceId, hpos]
    dsimp only
    rw [hend, Option.map_some, hcount, substr, hjoin, ← List.drop_drop, List.drop_left]
    exact List.take_left

theorem method_join (h : parts.WellFormed) (hhash : parts.instanceId = [] → '#' ∉ parts.index) :
    method (join parts) =
      (if parts.prefixText = [] then [] else parts.prefixText ++ [':', ':']) ++ parts.method := by
  have hlayout := layout_join h
  have hstart : next (rfind (· = '.') (join parts) (rfind (· = '@') (join parts) none)) =
      parts.address.length := by rw [rfind_index h, (split_address h).2]
  by_cases hid : parts.instanceId = []
  · have hnone : find (· = '#') (join parts) parts.address.length = none := by
      apply find_none
      · rw [join_eq, List.append_assoc]
      · exact no_hash h hid (hhash hid)
    have howner : parts.owner =
        if parts.prefixText = [] then [] else parts.prefixText ++ [':', ':'] := by
      rw [owner, hid]
      split_ifs <;> simp_all
    rw [method, hstart, hnone, ← howner]
    exact hlayout.substr_eq
  · have hpre : parts.prefixText ≠ [] := fun hnil => hid (h.owner hnil)
    have hjoin := join_instance hpre hid
    have hlookup : find (· = '#') (join parts) parts.address.length =
        some (parts.address.length + parts.prefixText.length) :=
      find_from _ hjoin (fun c hc => decide_eq_false (h.prefixText c hc).2.1) (decide_eq_true rfl)
    have hcolon : find (· = ':') (join parts) (parts.address ++ parts.prefixText ++ ['#']).length =
        some ((parts.address ++ parts.prefixText ++ ['#']).length + parts.instanceId.length) := by
      have htext : join parts = (parts.address ++ parts.prefixText ++ ['#']) ++ parts.instanceId ++
          ':' :: ':' :: (parts.method ++ parts.tail) := by simp [hjoin]
      apply find_from _ htext
      · exact fun c hc => decide_eq_false (h.instanceId c hc).2.2.2
      · rfl
    have hhead : parts.address ++ (parts.owner ++ parts.method) =
        (parts.address ++ parts.prefixText ++ ['#'] ++ parts.instanceId) ++
          (':' :: ':' :: parts.method) := by
      simp [owner, hpre, hid]
    rw [hhead] at hlayout
    have hsubstr := hlayout.substr_eq
    have hlength : parts.address.length + parts.prefixText.length + 1 =
        (parts.address ++ parts.prefixText ++ ['#']).length := by simp [Nat.add_assoc]
    have hfirst : ((join parts).drop parts.address.length).take parts.prefixText.length =
        parts.prefixText := by
      rw [hjoin, List.append_assoc, List.drop_left, List.take_left]
    rw [← List.length_append] at hcolon
    rw [method, hstart, hlookup]
    dsimp only
    rw [hlength, hcolon, Nat.add_sub_cancel_left, hfirst]
    dsimp only
    rw [hsubstr, if_neg hpre, List.append_assoc]
    rfl

/-- What is found is behind the part of the text where nothing is. -/
theorem find_ge (before : List Char) {text rest : List Char} {p : Char → Bool} {i : Nat}
    (htext : designator = before ++ text ++ rest) (hnot : ∀ c ∈ text, p c = false)
    (hfind : find p designator before.length = some i) : before.length + text.length ≤ i := by
  rw [find, htext, List.append_assoc, List.drop_left, List.findIdx?_append,
    List.findIdx?_eq_none_iff.mpr hnot, Option.none_or] at hfind
  cases hrest : rest.findIdx? p with
  | none => simp [hrest] at hfind
  | some j =>
    simp only [hrest, Option.map_some, Option.some.injEq] at hfind
    omega

/-- The last dot is the one of the address. -/
theorem next_dot (parts : Designator) {rest : List Char} (hrest : ∀ c ∈ rest, c ≠ '.') :
    next (lastIdx (· = '.') (parts.address ++ rest)) = parts.address.length := by
  have hrest' : ∀ c ∈ rest, decide (c = '.') = false := fun c hc => decide_eq_false (hrest c hc)
  have haddress : parts.address = [] ∨ ∃ before, parts.address = before ++ ['.'] := by
    rw [address]
    split_ifs
    · exact .inr ⟨parts.callsign ++ ['.'] ++ parts.version, by simp⟩
    · exact .inr ⟨parts.callsign, by simp⟩
    · exact .inr ⟨parts.version, by simp⟩
    · exact .inl rfl
  rcases haddress with hnil | ⟨before, hdot⟩
  · rw [hnil, List.nil_append, lastIdx_eq_none.mpr hrest']
    rfl
  · have hlast : lastIdx (fun c => decide (c = '.')) (parts.address ++ rest) =
        some before.length := by
      rw [hdot, List.append_assoc, List.singleton_append]
      exact lastIdx_append_cons (decide_eq_true rfl) hrest'
    rw [hlast, hdot]
    simp [next]

/-- The prefix in front of its pair of colons, the last ones of the designator. -/
theorem prefixOf_eq (h : parts.WellFormed) (hpre : parts.prefixText ≠ [])
    (hindex : ':' ∉ parts.index) {before : List Char}
    (hbefore : before = parts.address ++ parts.prefixText ++
      if parts.instanceId ≠ [] then '#' :: parts.instanceId else [])
    (hlookup : min ((find (· = '#') (join parts) parts.address.length).getD before.length)
      before.length = parts.address.length + parts.prefixText.length) :
    prefixOf (join parts) = parts.prefixText := by
  have hjoin : join parts = (before ++ [':']) ++ ':' :: (parts.method ++ parts.tail) := by
    rw [join_eq, hbefore]
    simp [owner, hpre]
  have hbehind : ∀ c ∈ parts.method ++ parts.tail, decide (c = ':') = false := by
    rw [List.forall_mem_append, tail]
    refine ⟨fun c hc => decide_eq_false (h.method c hc).2.2.2, ?_⟩
    split_ifs
    · rw [List.forall_mem_cons]
      exact ⟨by decide, fun c hc => decide_eq_false (ne_of_mem_of_not_mem hc hindex)⟩
    · rintro _ ⟨⟩
  have hstop : rfind (· = ':') (join parts) none = some (before.length + 1) := by
    rw [rfind, upTo, hjoin, lastIdx_append_cons (p := fun c => decide (c = ':'))
      (decide_eq_true rfl) hbehind, List.length_append, List.length_singleton]
  have hnodot : ∀ c ∈ parts.owner ++ parts.method, c ≠ '.' := fun c hc => (h.call c hc).1
  have hstart : next (rfind (· = '.') (join parts) (some (before.length + 1))) =
      parts.address.length := by
    have hlength : before.length + 1 = (before ++ [':']).length := by simp
    have hup : upTo (join parts) (some (before.length + 1)) = parts.address ++ parts.owner := by
      rw [hlength, hjoin, upTo_append, hbefore]
      simp [owner, hpre]
    rw [rfind, hup]
    exact next_dot parts fun c hc => hnodot c (List.mem_append_left _ hc)
  have htake : (join parts).drop parts.address.length =
      parts.prefixText ++ (join parts).drop (parts.address.length + parts.prefixText.length) := by
    have htext : join parts = parts.address ++ (parts.prefixText ++
        ((if parts.instanceId ≠ [] then '#' :: parts.instanceId else []) ++
          [':', ':'] ++ parts.method ++ parts.tail)) := by
      rw [join_eq]
      simp [owner, hpre]
    rw [htext, List.drop_left, ← List.drop_drop, List.drop_left, List.drop_left]
  rw [prefixOf, hstop]
  dsimp only
  rw [hstart, if_neg (Nat.succ_ne_zero _), Nat.add_sub_cancel, hlookup, Option.bind_some, between,
    if_pos (Nat.le_add_right ..), Nat.add_sub_cancel_left, substr, htake, List.take_left]

theorem prefixOf_join (h : parts.WellFormed) (hindex : ':' ∉ parts.index) :
    prefixOf (join parts) = parts.prefixText := by
  by_cases hpre : parts.prefixText = []
  · have hnone : rfind (· = ':') (join parts) none = none := by
      rw [rfind, upTo, join_eq, owner, if_neg (not_not.mpr hpre), List.nil_append,
        lastIdx_eq_none, List.forall_mem_append, List.forall_mem_append, tail]
      refine ⟨⟨fun c hc => decide_eq_false (h.address c hc).2.2,
        fun c hc => decide_eq_false (h.method c hc).2.2.2⟩, ?_⟩
      split_ifs
      · rw [List.forall_mem_cons]
        exact ⟨by decide, fun c hc => decide_eq_false (ne_of_mem_of_not_mem hc hindex)⟩
      · rintro _ ⟨⟩
    rw [prefixOf, hnone, hpre]
  · have hplain : ∀ c ∈ parts.prefixText, decide (c = '#') = false :=
      fun c hc => decide_eq_false (h.prefixText c hc).2.1
    apply prefixOf_eq h hpre hindex rfl
    by_cases hid : parts.instanceId = []
    · rw [if_neg (not_not.mpr hid), List.append_nil, List.length_append]
      cases hfind : find (· = '#') (join parts) parts.address.length with
      | none => simp
      | some i =>
        have hge := find_ge _ (join_plain hpre hid) hplain hfind
        rw [Option.getD_some]
        omega
    · have hfind := find_from _ (join_instance hpre hid) hplain (decide_eq_true rfl)
      rw [hfind, Option.getD_some]
      simp

end Parts

/-- The accessors agree with `Split`, but for versions that do not fit in a byte and for the scans
that go on into the index. -/
theorem agree_split (parts : Designator) (h : parts.WellFormed) :
    Agree (join parts) (split (join parts)) := by
  rw [split_join parts h]
  exact ⟨callsign_join h, fullMethod_join h, index_join h, version_join h, version_large h,
    prefixOf_join h, instanceId_join h, method_join h⟩

/-- With all parts. -/
theorem agree_split_all : Agree "Bridge.Player.12.media#a1::seek@0.5#x".toList
    (split "Bridge.Player.12.media#a1::seek@0.5#x".toList) := by
  have hagree := agree_split ⟨"Bridge.Player".toList, "12".toList, "media".toList, "a1".toList,
    "seek".toList, "0.5#x".toList⟩ ⟨forall_mem_of_all (by decide),
      fun _ => ⟨'P', by decide, by decide⟩, forall_mem_of_all (by decide),
      forall_mem_of_all (by decide), forall_mem_of_all (by decide), forall_mem_of_all (by decide),
      by decide, by decide⟩
  exact hagree

/-- A version that does not fit in a byte. -/
theorem not_same_version : ¬ ∀ parts : Designator, parts.WellFormed →
    versionAsString (join parts) = (split (join parts)).version := by
  intro h
  have hversion := h ⟨"P".toList, "300".toList, [], [], "m".toList, []⟩
    ⟨forall_mem_of_all (by decide), fun _ => ⟨'P', by decide, by decide⟩,
      forall_mem_of_all (by decide), nofun, nofun, forall_mem_of_all (by decide), by decide,
      by decide⟩
  exact absurd hversion (by decide)

end Thunder.Core.JSONRPC.Message
