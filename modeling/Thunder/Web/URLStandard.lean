import Thunder.Library.Decimal
import Thunder.Web.URL

/-! The parts of a `URL` as the standard cuts them: the fragment is behind the first `#`, in front
of it the query behind the first `?`, and so on inwards; a colon in an IP literal is in front of no
port. -/

namespace Thunder.Core.URL

/-- The text in front of the fragment. -/
def beforeFragment (rest : Text) : Text := (Text.cut 0x23 rest).1

/-- The authority and the path. -/
def hierarchical (rest : Text) : Text := (Text.cut 0x3F (beforeFragment rest)).1

def authority (rest : Text) : Text := (Text.cut 0x2F (hierarchical rest)).1

def userinfo (rest : Text) : Option Text := (Text.cutLast 0x40 (authority rest)).1

def domain (rest : Text) : Text := (Text.cutLast 0x40 (authority rest)).2

def hostAndPort (domain : Text) : Text × Option Text :=
  match Text.cutLast 0x3A domain with
  | (none, _) => (domain, none)
  | (some host, port) =>
    if domain.head? = some 0x5B ∧ 0x5D ∈ port then (domain, none) else (host, some port)

/-- The number that a port is, if it is one. -/
def portNumber (port : Text) : Option Nat :=
  if port ≠ [] ∧ port.all Decimal.isDigit ∧ (Decimal.read port).1 ≤ 65535 then
    some (Decimal.read port).1
  else none

/-- The standard decomposition of what is behind a scheme; the path is without its first slash. -/
def standard (scheme : SchemeType) (rest : Text) : URL where
  scheme
  username := (userinfo rest).map fun info => (Text.cut 0x3A info).1
  password := (userinfo rest).bind fun info => (Text.cut 0x3A info).2
  host := some (hostAndPort (domain rest)).1
  port := (hostAndPort (domain rest)).2.bind portNumber
  path := (Text.cut 0x2F (hierarchical rest)).2
  query := (Text.cut 0x3F (beforeFragment rest)).2
  ref := (Text.cut 0x23 rest).2

/-- The texts of a `URL`. -/
def parts (url : URL) : List Text :=
  [url.username, url.password, url.host, url.path, url.query, url.ref].filterMap id

/-- The parser gives the standard decomposition, with parts that are in the text. -/
def ParsesRight (f : TextFragment) (scheme : SchemeType) (rest : Text) : Prop :=
  ∃ url, parse f = some url ∧ url = standard scheme rest ∧ ∀ part ∈ url.parts, part <:+: rest

/-- A port that `Convert` reads as the number it is: it does not start with a zero, or it is one
octal digit behind zeros. -/
def PlainPort (port : Text) : Prop :=
  (portNumber port).isSome ∧
    (port.head? = some 0x30 → (port.dropWhile (· = 0x30)).length ≤ 1 ∧ ∀ c ∈ port, c ≤ 0x37)

/-- A user name has a password, the marks of the path and the query are not behind those of later
parts only, and what is behind the last colon of the domain is a port without zeros in front. -/
def Plain (rest : Text) : Prop :=
  (∀ info ∈ userinfo rest, 0x3A ∈ info) ∧
    (0x2F ∈ rest → 0x2F ∈ hierarchical rest) ∧ (0x3F ∈ rest → 0x3F ∈ beforeFragment rest) ∧
    (0x3A ∈ domain rest → ∃ port ∈ (hostAndPort (domain rest)).2, PlainPort port)

/-! ### The number of a port -/

open NumberType

variable {max value n : Nat} {c : UInt8} {port rest : Text}

/-- What `Convert` makes of a decimal digit. -/
theorem digit_spec (c : UInt8) : Decimal.isDigit c = true →
    (c ≠ 0 ∧ c ≠ 0x58 ∧ c ≠ 0x78) ∧ c.toNat - 0x30 < 10 ∧
      (c ≠ 0x30 → isSkipped c = false ∧ 0 < c.toNat - 0x30) ∧
      digit c .decimal = some (c.toNat - 0x30) ∧
      digit c .octal = if c ≤ 0x37 then some (c.toNat - 0x30) else none :=
  Decimal.forall_isDigit (P := fun c => (c ≠ 0 ∧ c ≠ 0x58 ∧ c ≠ 0x78) ∧ c.toNat - 0x30 < 10 ∧
    (c ≠ 0x30 → isSkipped c = false ∧ 0 < c.toNat - 0x30) ∧
    digit c .decimal = some (c.toNat - 0x30) ∧
    digit c .octal = if c ≤ 0x37 then some (c.toNat - 0x30) else none) (by decide)

theorem le_readFrom (rest : Text) (n : Nat) : n ≤ (Decimal.readFrom rest n).1 := by
  induction rest generalizing n with
  | nil => exact le_rfl
  | cons c rest ih =>
    rw [Decimal.readFrom]
    split_ifs
    · exact le_trans (by omega) (ih _)
    · exact le_rfl

/-- A digit behind others, in the base they are read in. -/
theorem convertFrom_cons (base : NumberBase) (hbase : base ≠ .unknown) (hvalue : 0 < value)
    (hc : c ≠ 0) (rest : Text) : convertFrom max (c :: rest) value base =
      match digit c base with
      | none => value
      | some d =>
        if value ≤ max / base.value ∧ d ≤ max - value * base.value then
          convertFrom max rest (value * base.value + d) base
        else value := by
  have hne : value ≠ 0 := Nat.ne_of_gt hvalue
  rw [convertFrom, if_neg hc, if_neg fun h => hne h.1, if_neg fun h => hne h.1,
    if_neg fun h => hne h.1]
  dsimp only
  rewrite [if_neg hbase]
  cases digit c base <;> rfl

theorem convertFrom_decimal_cons (hc : Decimal.isDigit c = true) (hvalue : 0 < value)
    (rest : Text) : convertFrom max (c :: rest) value .decimal =
      if value ≤ max / 10 ∧ c.toNat - 0x30 ≤ max - value * 10 then
        convertFrom max rest (value * 10 + (c.toNat - 0x30)) .decimal
      else value := by
  obtain ⟨⟨hnul, -⟩, -, -, hdigit, -⟩ := digit_spec c hc
  rw [convertFrom_cons .decimal (by decide) hvalue hnul, hdigit]
  rfl

theorem convertFrom_octal_cons (hc : Decimal.isDigit c = true) (hvalue : 0 < value)
    (rest : Text) : convertFrom max (c :: rest) value .octal =
      if c ≤ 0x37 ∧ value ≤ max / 8 ∧ c.toNat - 0x30 ≤ max - value * 8 then
        convertFrom max rest (value * 8 + (c.toNat - 0x30)) .octal
      else value := by
  obtain ⟨⟨hnul, -⟩, -, -, -, hdigit⟩ := digit_spec c hc
  rw [convertFrom_cons .octal (by decide) hvalue hnul, hdigit]
  by_cases hoctal : c ≤ 0x37
  · rw [if_pos hoctal]
    simp only [hoctal, true_and]
    rfl
  · rw [if_neg hoctal, if_neg fun h => hoctal h.1]

theorem convertFrom_decimal (hdigits : ∀ c ∈ rest, Decimal.isDigit c = true) (hvalue : 0 < value)
    (hmax : (Decimal.readFrom rest value).1 ≤ max) :
    convertFrom max rest value .decimal = (Decimal.readFrom rest value).1 := by
  induction rest generalizing value with
  | nil => rfl
  | cons c rest ih =>
    obtain ⟨hc, hrest⟩ := List.forall_mem_cons.mp hdigits
    rw [Decimal.readFrom, if_pos hc] at hmax ⊢
    have hle := (le_readFrom rest (value * 10 + (c.toNat - 0x30))).trans hmax
    rw [convertFrom_decimal_cons hc hvalue, if_pos (by omega)]
    exact ih hrest (by omega) hmax

/-- Octal digits make less than decimal ones. -/
theorem convertFrom_octal_lt (hdigits : ∀ c ∈ rest, Decimal.isDigit c = true) (hvalue : 0 < value)
    (hless : value < n) :
    convertFrom max rest value .octal < (Decimal.readFrom rest n).1 := by
  induction rest generalizing value n with
  | nil => exact hless
  | cons c rest ih =>
    obtain ⟨hc, hrest⟩ := List.forall_mem_cons.mp hdigits
    rw [convertFrom_octal_cons hc hvalue]
    split_ifs
    · rw [Decimal.readFrom, if_pos hc]
      exact ih hrest (by omega) (by omega)
    · exact hless.trans_le (le_readFrom _ n)

theorem convertFrom_octal_cons_lt (max : Nat) (hc : Decimal.isDigit c = true)
    (hdigits : ∀ c ∈ rest, Decimal.isDigit c = true) (hvalue : 0 < value) :
    convertFrom max (c :: rest) value .octal < (Decimal.readFrom (c :: rest) value).1 := by
  rw [convertFrom_octal_cons hc hvalue, Decimal.readFrom, if_pos hc]
  split_ifs
  · exact convertFrom_octal_lt hdigits (by omega) (by omega)
  · exact lt_of_lt_of_le (by omega) (le_readFrom _ _)

/-- The first digit that is not a zero. -/
theorem convertFrom_octal_first (hc : Decimal.isDigit c = true) (hzero : c ≠ 0x30) (rest : Text) :
    convertFrom 65535 (c :: rest) 0 .octal =
      if c ≤ 0x37 then convertFrom 65535 rest (c.toNat - 0x30) .octal else 0 := by
  obtain ⟨⟨hnul, hX, hx⟩, hten, hother, -, hdigit⟩ := digit_spec c hc
  have hskipped := (hother hzero).1
  have hfirst : 0 ≤ 65535 / 8 ∧ c.toNat - 0x30 ≤ 65535 - 0 * 8 := by omega
  rw [convertFrom, if_neg hnul, if_neg (by simp), if_neg (by simp [hX, hx]),
    if_neg (by simp [hskipped])]
  simp only [reduceCtorEq, if_false, hdigit]
  by_cases hoctal : c ≤ 0x37
  · simp only [hoctal, if_true, NumberBase.value, hfirst, and_self, Nat.zero_mul, Nat.zero_add]
  · simp only [hoctal, if_false]

/-- Behind a zero digits are octal. -/
theorem convertFrom_zero_iff (hdigits : ∀ c ∈ rest, Decimal.isDigit c = true) :
    convertFrom 65535 rest 0 .octal = (Decimal.readFrom rest 0).1 ↔
      (rest.dropWhile (· = 0x30)).length ≤ 1 ∧ ∀ c ∈ rest, c ≤ 0x37 := by
  induction rest with
  | nil => simp [convertFrom, Decimal.readFrom]
  | cons c rest ih =>
    obtain ⟨hc, hrest⟩ := List.forall_mem_cons.mp hdigits
    by_cases hzero : c = 0x30
    · subst hzero
      have hskip : convertFrom 65535 (0x30 :: rest) 0 .octal =
          convertFrom 65535 rest 0 .octal := rfl
      have hread : Decimal.readFrom (0x30 :: rest) 0 = Decimal.readFrom rest 0 := rfl
      rw [hskip, hread, ih hrest, List.forall_mem_cons]
      simp
    · have hpos := ((digit_spec c hc).2.2.1 hzero).2
      have hdrop : (c :: rest).dropWhile (· = 0x30) = c :: rest := by simp [hzero]
      rw [hdrop, List.length_cons, List.forall_mem_cons, convertFrom_octal_first hc hzero,
        Decimal.readFrom, if_pos hc, Nat.zero_mul, Nat.zero_add]
      by_cases hoctal : c ≤ 0x37
      · rw [if_pos hoctal]
        cases rest with
        | nil => simp [convertFrom, Decimal.readFrom, hoctal]
        | cons b rest =>
          obtain ⟨hb, hmore⟩ := List.forall_mem_cons.mp hrest
          have hlt := convertFrom_octal_cons_lt 65535 hb hmore hpos
          rw [List.length_cons]
          exact iff_of_false hlt.ne fun h => by omega
      · rw [if_neg hoctal]
        refine iff_of_false (ne_of_lt ?_) fun h => hoctal h.2.1
        exact hpos.trans_le (le_readFrom rest _)

/-- A port is read as the number it is, or not. -/
theorem convert_iff (port : Text) :
    some (convert 65535 port) = portNumber port ↔ PlainPort port := by
  rw [PlainPort, portNumber]
  split_ifs with hport
  · rw [Option.isSome_some, and_iff_right rfl]
    obtain ⟨hne, hall, hmax⟩ := hport
    cases port with
    | nil => exact absurd rfl hne
    | cons c rest =>
      obtain ⟨hc, hrest⟩ := List.forall_mem_cons.mp (List.all_eq_true.mp hall)
      obtain ⟨⟨hnul, hX, hx⟩, -, hother, hdigit, -⟩ := digit_spec c hc
      rw [Option.some_inj, List.head?_cons, Option.some_inj, convert]
      rw [Decimal.read, Decimal.readFrom, if_pos hc, Nat.zero_mul, Nat.zero_add] at hmax ⊢
      by_cases hzero : c = 0x30
      · subst hzero
        have hskip : convertFrom 65535 (0x30 :: rest) 0 .unknown =
            convertFrom 65535 rest 0 .octal := rfl
        have hread : Decimal.readFrom rest ((0x30 : UInt8).toNat - 0x30) =
            Decimal.readFrom rest 0 := rfl
        rw [hskip, hread, convertFrom_zero_iff hrest, List.forall_mem_cons]
        simp
      · obtain ⟨hskipped, hpos⟩ := hother hzero
        refine iff_of_true ?_ fun h => absurd h hzero
        have hfirst : 0 ≤ 65535 / 10 ∧ c.toNat - 0x30 ≤ 65535 - 0 * 10 := by
          have hle := le_readFrom rest (c.toNat - 0x30)
          omega
        rw [convertFrom, if_neg hnul, if_neg (by simp [hzero]), if_neg (by simp [hX, hx]),
          if_neg (by simp [hskipped])]
        simp only [if_true, hdigit, NumberBase.value, hfirst, and_self, Nat.zero_mul, Nat.zero_add]
        exact convertFrom_decimal hrest hpos hmax
  · exact iff_of_false (by rintro ⟨⟩) fun h => Bool.false_ne_true h.1

/-! ### The parts and their marks -/

theorem mem_take_iff {k : Nat} (hk : k ≤ rest.length) :
    c ∈ rest.take k ↔ rest.findIdx (· == c) < k := by
  rw [← Text.findIdx_lt_iff, List.findIdx_take, List.length_take]
  omega

theorem beforeFragment_eq (rest : Text) :
    beforeFragment rest = rest.take (rest.findIdx (· == 0x23)) := Text.cut_fst _ _

theorem hierarchical_eq (rest : Text) : hierarchical rest =
    rest.take (min (rest.findIdx (· == 0x3F)) (rest.findIdx (· == 0x23))) := by
  rw [hierarchical, Text.cut_fst, beforeFragment_eq, List.findIdx_take, List.take_take,
    Nat.min_comm (rest.findIdx (· == 0x23)), min_eq_left (min_le_right _ _)]

theorem authority_eq (rest : Text) : authority rest =
    rest.take (min (min (rest.findIdx (· == 0x2F)) (rest.findIdx (· == 0x3F)))
      (rest.findIdx (· == 0x23))) := by
  rw [authority, Text.cut_fst, hierarchical_eq, List.findIdx_take, List.take_take]
  congr 1
  omega

/-- A part is behind its mark where that is in front of an end. -/
theorem cut_take_snd {k : Nat} (hk : k ≤ rest.length) : (Text.cut c (rest.take k)).2 =
    if rest.findIdx (· == c) < k then some ((rest.take k).drop (rest.findIdx (· == c) + 1))
    else none := by
  rw [Text.cut_snd, List.findIdx_take, List.length_take, min_eq_left hk]
  split_ifs with hmin hless hless
  · rw [min_eq_right hless.le]
  · omega
  · omega
  · rfl

theorem isInfix_hierarchical (rest : Text) : hierarchical rest <:+: rest :=
  (Text.cut_fst_prefix _ _).isInfix.trans (Text.cut_fst_prefix _ _).isInfix

theorem isInfix_authority (rest : Text) : authority rest <:+: rest :=
  (Text.cut_fst_prefix _ _).isInfix.trans (isInfix_hierarchical rest)

theorem isInfix_host (domain : Text) : (hostAndPort domain).1 <:+: domain := by
  by_cases hmem : 0x3A ∈ domain
  · obtain ⟨before, after, rfl, hafter⟩ := Text.exists_last hmem
    rw [hostAndPort, Text.cutLast_append _ hafter]
    dsimp only
    split_ifs
    · exact List.infix_rfl
    · exact (List.prefix_append _ _).isInfix
  · rw [hostAndPort, Text.cutLast_of_not_mem hmem]

theorem standard_infix (scheme : SchemeType) (rest : Text) :
    ∀ part ∈ (standard scheme rest).parts, part <:+: rest := by
  intro part hpart
  have huserinfo {info : Text} (hinfo : userinfo rest = some info) : info <:+: rest :=
    (Text.cutLast_fst_prefix hinfo).isInfix.trans (isInfix_authority rest)
  simp only [parts, List.mem_filterMap, List.mem_cons, List.not_mem_nil, or_false, id,
    exists_eq_right] at hpart
  rcases hpart with h | h | h | h | h | h
  · obtain ⟨info, hinfo, rfl⟩ := Option.map_eq_some_iff.mp h.symm
    exact (Text.cut_fst_prefix _ _).isInfix.trans (huserinfo hinfo)
  · obtain ⟨info, hinfo, hpassword⟩ := Option.bind_eq_some_iff.mp h.symm
    exact (Text.cut_snd_suffix hpassword).isInfix.trans (huserinfo hinfo)
  · obtain rfl := Option.some.inj h
    exact (isInfix_host _).trans
      ((Text.cutLast_snd_suffix _ _).isInfix.trans (isInfix_authority rest))
  · exact (Text.cut_snd_suffix h.symm).isInfix.trans (isInfix_hierarchical rest)
  · exact (Text.cut_snd_suffix h.symm).isInfix.trans (Text.cut_fst_prefix _ _).isInfix
  · exact (Text.cut_snd_suffix h.symm).isInfix

theorem credentials_eq {info : Option Text} (h : ∀ text ∈ info, 0x3A ∈ text) :
    credentials info = (info.map fun info => (Text.cut 0x3A info).1,
      info.bind fun info => (Text.cut 0x3A info).2) := by
  cases info with
  | none => rfl
  | some info =>
    obtain ⟨name, password, rfl, hname⟩ := List.eq_append_cons_of_mem (h info rfl)
    rw [credentials, Option.map_some, Option.map_some, Option.bind_some, Text.cut_append hname]

/-- A last colon is in front of a port, but in a literal. -/
theorem address_cases {domain : Text} (h : 0x3A ∈ domain) : ∃ port,
    (address domain).2 = some (convert 65535 port) ∧
      (hostAndPort domain = (domain, none) ∨
        hostAndPort domain = ((address domain).1, some port)) := by
  obtain ⟨before, after, rfl, hafter⟩ := Text.exists_last h
  refine ⟨after, ?_, ?_⟩
  · rw [address, Text.cutLast_append _ hafter]
  · rw [address, hostAndPort, Text.cutLast_append _ hafter]
    dsimp only
    split_ifs
    · exact Or.inl rfl
    · exact Or.inr rfl

theorem address_iff (domain : Text) :
    address domain = ((hostAndPort domain).1, (hostAndPort domain).2.bind portNumber) ↔
      (0x3A ∈ domain → ∃ port ∈ (hostAndPort domain).2, PlainPort port) := by
  by_cases hmem : 0x3A ∈ domain
  · obtain ⟨port, hnumber, hliteral | hparts⟩ := address_cases hmem
    · rw [hliteral]
      refine iff_of_false (fun h => ?_) fun h => ?_
      · rw [h] at hnumber
        cases hnumber
      · obtain ⟨port, hport, -⟩ := h hmem
        cases hport
    · have hnumbers : address domain = ((address domain).1, some (convert 65535 port)) := by
        rw [← hnumber]
      rw [hparts, hnumbers]
      simp only [Option.bind_some, Prod.mk.injEq, true_and, hmem, forall_const,
        Option.mem_some_iff, exists_eq_left']
      exact convert_iff port
  · rw [address, hostAndPort, Text.cutLast_of_not_mem hmem]
    exact iff_of_true rfl fun h => absurd h hmem

variable {f : TextFragment} {scheme : SchemeType}

theorem cutLast_authority (rest : Text) :
    Text.cutLast 0x40 (rest.take (min (min (rest.findIdx (· == 0x2F)) (rest.findIdx (· == 0x3F)))
      (rest.findIdx (· == 0x23)))) = (userinfo rest, domain rest) := by
  rw [← authority_eq]
  rfl

/-- A mark is in front of an end if it is there at all. -/
theorem marked_iff {k : Nat} (hk : k ≤ rest.length) :
    (rest.findIdx (· == c) < rest.length → rest.findIdx (· == c) < k) ↔
      (c ∈ rest → c ∈ rest.take k) := by
  rw [mem_take_iff hk, Text.findIdx_lt_iff]

/-- The part that the parser takes is the standard's. -/
theorem parsePart_cut (h : f.text = scheme.front ++ rest) {k : Nat} (hk : k ≤ rest.length)
    (hmark : c ∈ rest → c ∈ rest.take k) :
    parsePart f (scheme.front.length + rest.findIdx (· == c)) (scheme.front.length + k) =
      some (Text.cut c (rest.take k)).2 := by
  have hless := (marked_iff hk).mpr hmark
  rw [parsePart_eq h hk hless, cut_take_snd hk]
  by_cases hmem : rest.findIdx (· == c) < rest.length
  · rw [if_pos hmem, if_pos (hless hmem)]
  · rw [if_neg hmem, if_neg fun h => hmem (h.trans_le hk)]

/-- The parser where the marks of the path and the query are those of the standard. -/
theorem parse_marked (h : f.text = scheme.front ++ rest)
    (hpath : 0x2F ∈ rest → 0x2F ∈ hierarchical rest)
    (hquery : 0x3F ∈ rest → 0x3F ∈ beforeFragment rest) :
    parse f = some { standard scheme rest with
      username := (credentials (userinfo rest)).1
      password := (credentials (userinfo rest)).2
      host := some (address (domain rest)).1
      port := (address (domain rest)).2 } := by
  have href : rest.findIdx (· == 0x23) ≤ rest.length := List.findIdx_le_length
  rw [hierarchical_eq] at hpath
  rw [beforeFragment_eq] at hquery
  rw [parse_eq h rfl rfl rfl (cutLast_authority rest),
    parsePart_cut h ((min_le_right _ _).trans href) hpath, Option.bind_some,
    parsePart_cut h href hquery, Option.bind_some, ← hierarchical_eq, ← beforeFragment_eq]
  rfl

theorem parse_plain (h : f.text = scheme.front ++ rest) (hplain : Plain rest) :
    parse f = some (standard scheme rest) := by
  obtain ⟨hinfo, hpath, hquery, hport⟩ := hplain
  rw [parse_marked h hpath hquery, credentials_eq hinfo, (address_iff (domain rest)).mpr hport]
  rfl

/-- Where a mark is only behind an end, the parser takes a part and the standard does not. -/
theorem mem_of_parsePart (h : f.text = scheme.front ++ rest) {k last : Nat}
    (hpart : parsePart f (scheme.front.length + rest.findIdx (· == c)) last =
      some (Text.cut c (rest.take k)).2) (hmem : c ∈ rest) : c ∈ rest.take k := by
  by_contra hnot
  rw [Text.cut_of_not_mem hnot] at hpart
  exact parsePart_set h (Text.findIdx_lt_iff.mpr hmem) hpart

theorem plain_of_parse (h : f.text = scheme.front ++ rest)
    (hparse : parse f = some (standard scheme rest)) : Plain rest := by
  rw [parse_eq h rfl rfl rfl (cutLast_authority rest)] at hparse
  obtain ⟨path, hpath, hparse⟩ := Option.bind_eq_some_iff.mp hparse
  obtain ⟨query, hquery, hparse⟩ := Option.bind_eq_some_iff.mp hparse
  rw [Option.some_inj, standard, URL.mk.injEq] at hparse
  obtain ⟨-, hname, -, hhost, hport, rfl, rfl, -⟩ := hparse
  refine ⟨?_, ?_, ?_, ?_⟩
  · intro info hinfo
    by_contra hcolon
    rw [Option.mem_def.mp hinfo, credentials, Option.map_some, Option.map_some,
      Text.cut_of_not_mem hcolon] at hname
    cases hname
  · rw [hierarchical_eq] at hpath ⊢
    exact mem_of_parsePart h hpath
  · rw [beforeFragment_eq] at hquery ⊢
    exact mem_of_parsePart h hquery
  · exact (address_iff (domain rest)).mp (Prod.ext (Option.some.inj hhost) hport)

/-- What is behind a scheme is parsed as the standard says, unless it has a user name without a
password, a mark behind one of a later part only, or a last colon that is in front of no plain
port. -/
theorem url_parse_exact (f : TextFragment) (scheme : SchemeType) (rest : Text)
    (h : f.text = scheme.front ++ rest) :
    ParsesRight f scheme rest ↔ Plain rest := by
  constructor
  · rintro ⟨url, hparse, rfl, -⟩
    exact plain_of_parse h hparse
  · exact fun hplain => ⟨_, parse_plain h hplain, rfl, standard_infix scheme rest⟩

/-- All parts: `http://u:p@h:80/a?b#c`. -/
theorem url_parse_exact_full :
    ParsesRight (.ofText [0x68, 0x74, 0x74, 0x70, 0x3A, 0x2F, 0x2F, 0x75, 0x3A, 0x70, 0x40, 0x68,
      0x3A, 0x38, 0x30, 0x2F, 0x61, 0x3F, 0x62, 0x23, 0x63] (by decide)) .http [0x75, 0x3A, 0x70,
      0x40, 0x68, 0x3A, 0x38, 0x30, 0x2F, 0x61, 0x3F, 0x62, 0x23, 0x63] ↔
    Plain [0x75, 0x3A, 0x70, 0x40, 0x68, 0x3A, 0x38, 0x30, 0x2F, 0x61, 0x3F, 0x62, 0x23, 0x63] :=
  url_parse_exact _ _ _ rfl

/-- A user name without a password: `http://u@h`. -/
theorem not_url_parse_exact : ¬ ∀ (f : TextFragment) (scheme : SchemeType) (rest : Text),
    f.text = scheme.front ++ rest → ParsesRight f scheme rest := by
  intro h
  obtain ⟨url, hparse, rfl, -⟩ := h (.ofText [0x68, 0x74, 0x74, 0x70, 0x3A, 0x2F, 0x2F, 0x75, 0x40,
    0x68] (by decide)) .http [0x75, 0x40, 0x68] rfl
  exact absurd hparse (by decide)

end Thunder.Core.URL
