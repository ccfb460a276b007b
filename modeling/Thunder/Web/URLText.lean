import Thunder.Web.URLStandard

/-! `Text` of a `URL`, which it puts together in a buffer of `MaximumURLLength` characters, and the
`URL` of that text. -/

namespace Thunder.Core.URL

def maximumURLLength : Nat := 2048

/-- `CopyFragment`. -/
def copyFragment (url data : Text) : Text := url ++ data.take (maximumURLLength - url.length)

/-- A character, if there is room for it. -/
def copyCharacter (url : Text) (c : UInt8) : Text :=
  if url.length < maximumURLLength then url ++ [c] else url

/-- A text behind its mark, if there is one and room for the mark. -/
def copyMarked (url : Text) (mark : UInt8) (data : Option Text) : Text :=
  match data with
  | some data => if url.length < maximumURLLength then copyFragment (url ++ [mark]) data else url
  | none => url

/-- The user name and the password, if there is a user name. -/
def copyUserinfo (url : Text) (u : URL) : Text :=
  match u.username with
  | some username => copyCharacter (copyMarked (copyFragment url username) 0x3A u.password) 0x40
  | none => url

/-- The host and the port, if there is a host. -/
def copyDomain (url : Text) (u : URL) : Text :=
  match u.host with
  | some host => copyMarked (copyFragment url host) 0x3A (u.port.map NumberType.text)
  | none => url

def copyPath (url : Text) (u : URL) : Text :=
  match u.path with
  | some path => copyFragment url path
  | none => url

/-- `Text`; the result ends with the first zero. -/
def text (u : URL) : Text :=
  if u.scheme = .unknown then []
  else
    let url := copyFragment [] u.scheme.data
    let url := copyFragment url [0x3A, 0x2F, 0x2F]
    let url := copyUserinfo url u
    let url := copyDomain url u
    let url := copyCharacter url 0x2F
    let url := copyPath url u
    let url := copyMarked url 0x3F u.query
    let url := copyMarked url 0x23 u.ref
    url.takeWhile (· ≠ 0)

/-! ### The whole text -/

/-- A text behind its mark. -/
def marked (mark : UInt8) : Option Text → Text
  | some data => mark :: data
  | none => []

/-- What is in front of the host. -/
def userinfoText (u : URL) : Text :=
  match u.username with
  | some username => username ++ marked 0x3A u.password ++ [0x40]
  | none => []

def domainText (u : URL) : Text :=
  match u.host with
  | some host => host ++ marked 0x3A (u.port.map NumberType.text)
  | none => []

/-- What is behind the scheme. -/
def behindScheme (u : URL) : Text :=
  u.userinfoText ++ u.domainText ++ 0x2F :: (u.path.getD [] ++ marked 0x3F u.query) ++
    marked 0x23 u.ref

/-- The text in a buffer that is large enough. -/
def wholeText (u : URL) : Text := u.scheme.front ++ u.behindScheme

/-- A valid `URL` whose text fits, and whose parts have none of the characters that end them. -/
structure Delimited (u : URL) : Prop where
  valid : u.scheme ≠ .unknown
  username : ∀ text ∈ u.username, ∀ c ∈ text, c ∉ ([0x3A, 0x40, 0x2F, 0x3F, 0x23] : Text)
  password : ∀ text ∈ u.password, ∀ c ∈ text, c ∉ ([0x40, 0x2F, 0x3F, 0x23] : Text)
  host : ∀ text ∈ u.host, ∀ c ∈ text, c ∉ ([0x3A, 0x2F, 0x3F, 0x23] : Text)
  path : ∀ text ∈ u.path, ∀ c ∈ text, c ∉ ([0x3F, 0x23] : Text)
  query : ∀ text ∈ u.query, 0x23 ∉ text
  port : ∀ port ∈ u.port, port < 2 ^ 16
  fits : u.wholeText.length ≤ maximumURLLength

section

variable {url data : Text} {c : UInt8}

theorem length_copyFragment (h : url.length ≤ maximumURLLength) (data : Text) :
    (copyFragment url data).length ≤ maximumURLLength := by
  rw [copyFragment, List.length_append, List.length_take]
  omega

theorem length_copyCharacter (h : url.length ≤ maximumURLLength) (c : UInt8) :
    (copyCharacter url c).length ≤ maximumURLLength := by
  rw [copyCharacter]
  split_ifs
  · rw [List.length_append, List.length_singleton]
    omega
  · exact h

theorem length_copyMarked (h : url.length ≤ maximumURLLength) (c : UInt8) (data : Option Text) :
    (copyMarked url c data).length ≤ maximumURLLength := by
  cases data with
  | none => exact h
  | some data =>
    rw [copyMarked]
    split_ifs
    · apply length_copyFragment
      rw [List.length_append, List.length_singleton]
      omega
    · exact h

theorem length_copyUserinfo (h : url.length ≤ maximumURLLength) (u : URL) :
    (copyUserinfo url u).length ≤ maximumURLLength := by
  rw [copyUserinfo]
  cases u.username with
  | none => exact h
  | some username =>
    exact length_copyCharacter (length_copyMarked (length_copyFragment h _) _ _) _

theorem length_copyDomain (h : url.length ≤ maximumURLLength) (u : URL) :
    (copyDomain url u).length ≤ maximumURLLength := by
  rw [copyDomain]
  cases u.host with
  | none => exact h
  | some host => exact length_copyMarked (length_copyFragment h _) _ _

theorem length_copyPath (h : url.length ≤ maximumURLLength) (u : URL) :
    (copyPath url u).length ≤ maximumURLLength := by
  rw [copyPath]
  cases u.path with
  | none => exact h
  | some path => exact length_copyFragment h _

theorem length_text (u : URL) : u.text.length ≤ maximumURLLength := by
  rw [text]
  split_ifs
  · exact Nat.zero_le _
  · refine (List.takeWhile_prefix _).length_le.trans ?_
    apply length_copyMarked
    apply length_copyMarked
    apply length_copyPath
    apply length_copyCharacter
    apply length_copyDomain
    apply length_copyUserinfo
    apply length_copyFragment
    apply length_copyFragment
    exact Nat.zero_le _

theorem copyFragment_of_le (h : url.length + data.length ≤ maximumURLLength) :
    copyFragment url data = url ++ data := by
  rw [copyFragment, List.take_of_length_le (by omega)]

theorem copyCharacter_of_lt (h : url.length < maximumURLLength) :
    copyCharacter url c = url ++ [c] := if_pos h

theorem copyMarked_of_le {data : Option Text}
    (h : url.length + (marked c data).length ≤ maximumURLLength) :
    copyMarked url c data = url ++ marked c data := by
  cases data with
  | none => exact (List.append_nil url).symm
  | some data =>
    rw [marked, List.length_cons] at h
    rw [copyMarked, if_pos (by omega), copyFragment_of_le, List.append_assoc]
    · rfl
    · rw [List.length_append, List.length_singleton]
      omega

theorem copyUserinfo_of_le {u : URL}
    (h : url.length + u.userinfoText.length ≤ maximumURLLength) :
    copyUserinfo url u = url ++ u.userinfoText := by
  rw [userinfoText] at h ⊢
  rw [copyUserinfo]
  cases hname : u.username with
  | none => exact (List.append_nil url).symm
  | some username =>
    simp only [hname, List.length_append, List.length_singleton] at h
    dsimp only
    rw [copyFragment_of_le (by omega), copyMarked_of_le (by rw [List.length_append]; omega),
      copyCharacter_of_lt (by simp only [List.length_append]; omega)]
    simp only [List.append_assoc]

theorem copyDomain_of_le {u : URL} (h : url.length + u.domainText.length ≤ maximumURLLength) :
    copyDomain url u = url ++ u.domainText := by
  rw [domainText] at h ⊢
  rw [copyDomain]
  cases hhost : u.host with
  | none => exact (List.append_nil url).symm
  | some host =>
    simp only [hhost, List.length_append] at h
    dsimp only
    rw [copyFragment_of_le (by omega), copyMarked_of_le (by rw [List.length_append]; omega),
      List.append_assoc]

theorem copyPath_of_le {u : URL} (h : url.length + (u.path.getD []).length ≤ maximumURLLength) :
    copyPath url u = url ++ u.path.getD [] := by
  rw [copyPath]
  cases hpath : u.path with
  | none => exact (List.append_nil url).symm
  | some path =>
    rw [hpath] at h
    exact copyFragment_of_le h

end

/-- `URL(u.Text())`. -/
def reparsed (u : URL) : Option URL :=
  parse (.ofText u.text ((length_text u).trans_lt (by decide)))

/-- The `URL` comes back from its text, with an empty path for none, and has that text. -/
def RoundTrips (u : URL) : Prop :=
  ∃ url, u.reparsed = some url ∧ url = { u with path := some (u.path.getD []) } ∧
    url.text = u.text

/-- The user name and the password are both set or both not, the host is set and has no `@`, a
fragment behind no query has no question mark, and no part has a zero. -/
structure Kept (u : URL) : Prop where
  credentials : u.username.isSome = u.password.isSome
  host : u.host.isSome
  at_ : ∀ text ∈ u.host, 0x40 ∉ text
  fragment : u.query = none → ∀ text ∈ u.ref, 0x3F ∉ text
  zeroFree : ∀ part ∈ u.parts, 0 ∉ part

variable {u : URL}

theorem text_eq (hvalid : u.scheme ≠ .unknown) (hfits : u.wholeText.length ≤ maximumURLLength) :
    u.text = u.wholeText.takeWhile (· ≠ 0) := by
  rw [wholeText, behindScheme, SchemeType.front] at hfits
  simp only [List.length_append, List.length_cons, List.length_nil] at hfits
  rw [text, if_neg hvalid, wholeText, behindScheme, SchemeType.front]
  dsimp only
  have hscheme : copyFragment [] u.scheme.data = u.scheme.data :=
    copyFragment_of_le (by rw [List.length_nil]; omega)
  rw [hscheme, copyFragment_of_le, copyUserinfo_of_le, copyDomain_of_le, copyCharacter_of_lt,
    copyPath_of_le, copyMarked_of_le (c := 0x3F), copyMarked_of_le]
  · simp only [List.append_assoc, List.cons_append, List.nil_append]
  all_goals simp only [List.length_append, List.length_cons, List.length_nil]; omega

/-! ### The parts of the text -/

theorem cut_marked {c : UInt8} {front : Text} (h : c ∉ front) (data : Option Text) :
    Text.cut c (front ++ marked c data) = (front, data) := by
  cases data with
  | none => rw [marked, List.append_nil, Text.cut_of_not_mem h]
  | some data => exact Text.cut_append h data

theorem not_mem_marked {c mark : UInt8} {data : Option Text} (hmark : c ≠ mark)
    (h : ∀ text ∈ data, c ∉ text) : c ∉ marked mark data := by
  cases data with
  | none => exact List.not_mem_nil
  | some data =>
    rw [marked, List.mem_cons, not_or]
    exact ⟨hmark, h data rfl⟩

/-- The marks behind the authority. -/
def isMark (c : UInt8) : Prop := c = 0x2F ∨ c = 0x3F ∨ c = 0x23

theorem not_mem_port {c : UInt8} (h : ¬ (0x30 ≤ c ∧ c ≤ 0x39)) (port : Option Nat) :
    ∀ text ∈ port.map NumberType.text, c ∉ text := by
  intro text htext hc
  obtain ⟨n, -, rfl⟩ := Option.map_eq_some_iff.mp htext
  exact h (NumberType.mem_text hc)

theorem Delimited.not_mem_userinfoText (d : Delimited u) {c : UInt8} (hc : isMark c) :
    c ∉ u.userinfoText := by
  rw [userinfoText]
  cases hname : u.username with
  | none => exact List.not_mem_nil
  | some username =>
    have husername : c ∉ username := fun h => d.username username hname c h (by
      obtain rfl | rfl | rfl := hc <;> decide)
    have hpassword : c ∉ marked 0x3A u.password := by
      refine not_mem_marked (by obtain rfl | rfl | rfl := hc <;> decide) fun text htext h => ?_
      exact d.password text htext c h (by obtain rfl | rfl | rfl := hc <;> decide)
    have hat : c ≠ 0x40 := by obtain rfl | rfl | rfl := hc <;> decide
    simp only [List.mem_append, List.mem_singleton, not_or]
    exact ⟨⟨husername, hpassword⟩, hat⟩

theorem Delimited.not_mem_domainText (d : Delimited u) {c : UInt8} (hc : isMark c) :
    c ∉ u.domainText := by
  rw [domainText]
  cases hhost : u.host with
  | none => exact List.not_mem_nil
  | some host =>
    have hnot : c ∉ host := fun h => d.host host hhost c h (by
      obtain rfl | rfl | rfl := hc <;> decide)
    have hport : c ∉ marked 0x3A (u.port.map NumberType.text) :=
      not_mem_marked (by obtain rfl | rfl | rfl := hc <;> decide)
        (not_mem_port (by obtain rfl | rfl | rfl := hc <;> decide) u.port)
    rw [List.mem_append, not_or]
    exact ⟨hnot, hport⟩

theorem Delimited.not_mem_path (d : Delimited u) {c : UInt8} (hc : c = 0x3F ∨ c = 0x23) :
    c ∉ u.path.getD [] := by
  cases hpath : u.path with
  | none => exact List.not_mem_nil
  | some path =>
    intro h
    exact d.path path hpath c h (by obtain rfl | rfl := hc <;> decide)

/-- The marks of the text are where the standard looks for them. -/
theorem Delimited.marks (d : Delimited u) :
    beforeFragment u.behindScheme =
        u.userinfoText ++ u.domainText ++ 0x2F :: (u.path.getD [] ++ marked 0x3F u.query) ∧
      hierarchical u.behindScheme = u.userinfoText ++ u.domainText ++ 0x2F :: u.path.getD [] ∧
      authority u.behindScheme = u.userinfoText ++ u.domainText ∧
      (Text.cut 0x2F (hierarchical u.behindScheme)).2 = some (u.path.getD []) ∧
      (Text.cut 0x3F (beforeFragment u.behindScheme)).2 = u.query ∧
      (Text.cut 0x23 u.behindScheme).2 = u.ref := by
  have hfragment : Text.cut 0x23 u.behindScheme =
      (u.userinfoText ++ u.domainText ++ 0x2F :: (u.path.getD [] ++ marked 0x3F u.query),
        u.ref) := by
    apply cut_marked
    simp only [List.mem_append, List.mem_cons, not_or]
    exact ⟨⟨d.not_mem_userinfoText (by simp [isMark]), d.not_mem_domainText (by simp [isMark])⟩,
      by decide, d.not_mem_path (Or.inr rfl), not_mem_marked (by decide) d.query⟩
  have hbefore : beforeFragment u.behindScheme =
      u.userinfoText ++ u.domainText ++ 0x2F :: u.path.getD [] ++ marked 0x3F u.query := by
    rw [beforeFragment, hfragment, List.append_assoc (u.userinfoText ++ u.domainText),
      List.cons_append]
  have hquery : Text.cut 0x3F (beforeFragment u.behindScheme) =
      (u.userinfoText ++ u.domainText ++ 0x2F :: u.path.getD [], u.query) := by
    rw [hbefore]
    apply cut_marked
    simp only [List.mem_append, List.mem_cons, not_or]
    exact ⟨⟨d.not_mem_userinfoText (by simp [isMark]), d.not_mem_domainText (by simp [isMark])⟩,
      by decide, d.not_mem_path (Or.inl rfl)⟩
  have hpath : Text.cut 0x2F (hierarchical u.behindScheme) =
      (u.userinfoText ++ u.domainText, some (u.path.getD [])) := by
    rw [hierarchical, hquery]
    apply Text.cut_append
    rw [List.mem_append, not_or]
    exact ⟨d.not_mem_userinfoText (by simp [isMark]), d.not_mem_domainText (by simp [isMark])⟩
  refine ⟨?_, ?_, ?_, ?_, ?_, ?_⟩
  · rw [beforeFragment, hfragment]
  · rw [hierarchical, hquery]
  · rw [authority, hpath]
  · rw [hpath]
  · rw [hquery]
  · rw [hfragment]

/-! ### There and back -/

/-- What is behind the scheme in the text. -/
def written (u : URL) : Text := u.behindScheme.takeWhile (· ≠ 0)

theorem zero_not_mem_written (u : URL) : 0 ∉ u.written := by
  intro h
  have hne := List.mem_takeWhile_imp h
  exact of_decide_eq_true hne rfl

theorem ofText_text (text : Text) (h : text.length < 2 ^ 32) :
    (TextFragment.ofText text h).text = text := by
  rw [TextFragment.text]
  exact List.take_length

theorem Delimited.text_split (d : Delimited u) : u.text = u.scheme.front ++ u.written := by
  have hfront : ∀ c ∈ u.scheme.front, decide (c ≠ 0) = true := by
    apply List.all_eq_true.mp
    cases u.scheme <;> rfl
  rw [text_eq d.valid d.fits, wholeText, List.takeWhile_append_of_pos hfront, written]

theorem Delimited.source_text (d : Delimited u) (h : u.text.length < 2 ^ 32) :
    (TextFragment.ofText u.text h).text = u.scheme.front ++ u.written :=
  (ofText_text _ h).trans d.text_split

theorem credentials_infix (info : Option Text) :
    (∀ text ∈ (credentials info).1, ∃ all ∈ info, text <:+: all) ∧
      (∀ text ∈ (credentials info).2, ∃ all ∈ info, text <:+: all) ∧
      (credentials info).1.isSome = (credentials info).2.isSome := by
  cases info with
  | none => exact ⟨(by rintro _ ⟨⟩), (by rintro _ ⟨⟩), rfl⟩
  | some info =>
    rw [credentials, Option.map_some]
    by_cases hmem : 0x3A ∈ info
    · obtain ⟨name, password, rfl, hname⟩ := List.eq_append_cons_of_mem hmem
      rw [Text.cut_append hname]
      refine ⟨?_, ?_, rfl⟩
      · rintro _ ⟨⟩
        exact ⟨_, rfl, (List.prefix_append _ _).isInfix⟩
      · rintro _ ⟨⟩
        exact ⟨_, rfl, ((List.suffix_cons _ _).trans (List.suffix_append _ _)).isInfix⟩
    · rw [Text.cut_of_not_mem hmem]
      exact ⟨(by rintro _ ⟨⟩), (by rintro _ ⟨⟩), rfl⟩

theorem isInfix_address (domain : Text) : (address domain).1 <:+: domain := by
  by_cases hmem : 0x3A ∈ domain
  · obtain ⟨host, number, rfl, hnumber⟩ := Text.exists_last hmem
    rw [address, Text.cutLast_append _ hnumber]
    exact (List.prefix_append _ _).isInfix
  · rw [address, Text.cutLast_of_not_mem hmem]

theorem mem_of_parsePart_some {f : TextFragment} {mark last : Nat} {text : Text}
    (hpart : parsePart f mark last = some (some text)) {c : UInt8} (hc : c ∈ text) :
    c ∈ f.memory := by
  rw [parsePart] at hpart
  split_ifs at hpart
  · obtain ⟨_, htext, ⟨⟩⟩ := Option.map_eq_some_iff.mp hpart
    rw [TextFragment.partText, Option.ite_none_left_eq_some] at htext
    obtain rfl := Option.some.inj htext.2
    exact List.mem_of_mem_drop (List.mem_of_mem_take hc)
  · cases hpart

/-- A `URL` that comes back has all that the text can hold of it. -/
theorem Delimited.kept_of_roundTrips (d : Delimited u) (h : RoundTrips u) : Kept u := by
  obtain ⟨url, hparse, rfl, -⟩ := h
  have hzero := zero_not_mem_written u
  have hsource := d.source_text ((length_text u).trans_lt (by decide))
  rw [reparsed, parse_eq hsource rfl rfl rfl (cutLast_authority u.written)] at hparse
  obtain ⟨path, hpath, hparse⟩ := Option.bind_eq_some_iff.mp hparse
  obtain ⟨query, hquery, hparse⟩ := Option.bind_eq_some_iff.mp hparse
  rw [Option.some_inj, URL.mk.injEq] at hparse
  obtain ⟨-, hname, hpassword, hhost, -, rfl, rfl, href⟩ := hparse
  obtain ⟨hnameInfix, hpasswordInfix, hboth⟩ := credentials_infix (userinfo u.written)
  have hmemory {part : Text} (hpart : part <:+: u.written) : 0 ∉ part := fun h =>
    hzero (hpart.subset h)
  have hmemory' : 0 ∉ u.text := by
    rw [d.text_split, List.mem_append, not_or]
    refine ⟨?_, hzero⟩
    cases u.scheme <;> decide
  have huserinfo {info : Text} (hinfo : userinfo u.written = some info) : info <:+: u.written :=
    (Text.cutLast_fst_prefix hinfo).isInfix.trans (isInfix_authority u.written)
  have hdomain : domain u.written <:+: u.written :=
    (Text.cutLast_snd_suffix _ _).isInfix.trans (isInfix_authority u.written)
  refine ⟨?_, ?_, ?_, ?_, ?_⟩
  · rw [← hname, ← hpassword]
    exact hboth
  · rw [← hhost]
    rfl
  · intro text htext hmem
    rw [← hhost] at htext
    obtain rfl := Option.some.inj htext
    exact Text.not_mem_cutLast_snd _ _ ((isInfix_address _).subset hmem)
  · intro hnone text htext hmem
    rw [hnone] at hquery
    refine parsePart_set hsource (Text.findIdx_lt_iff.mpr ?_) hquery
    rw [← href] at htext
    exact (Text.cut_snd_suffix htext).subset hmem
  · intro part hpart
    simp only [parts, List.mem_filterMap, List.mem_cons, List.not_mem_nil, or_false, id,
      exists_eq_right] at hpart
    rcases hpart with h | h | h | h | h | h
    · obtain ⟨info, hinfo, hsub⟩ := hnameInfix part (by rw [hname]; exact h.symm)
      exact hmemory (hsub.trans (huserinfo hinfo))
    · obtain ⟨info, hinfo, hsub⟩ := hpasswordInfix part (by rw [hpassword]; exact h.symm)
      exact hmemory (hsub.trans (huserinfo hinfo))
    · rw [← hhost] at h
      obtain rfl := Option.some.inj h
      exact hmemory ((isInfix_address _).trans hdomain)
    · rw [← h] at hpath
      exact fun hmem => hmemory' (mem_of_parsePart_some hpath hmem)
    · rw [← h] at hquery
      exact fun hmem => hmemory' (mem_of_parsePart_some hquery hmem)
    · rw [← href] at h
      exact hmemory (Text.cut_snd_suffix h.symm).isInfix

theorem Kept.zero_not_mem (h : Kept u) : 0 ∉ u.behindScheme := by
  have hpart {part : Text} (hmem : some part ∈
      [u.username, u.password, u.host, u.path, u.query, u.ref]) : 0 ∉ part :=
    h.zeroFree part (List.mem_filterMap.mpr ⟨_, hmem, rfl⟩)
  have huserinfo : 0 ∉ u.userinfoText := by
    rw [userinfoText]
    cases hname : u.username with
    | none => exact List.not_mem_nil
    | some username =>
      simp only [List.mem_append, List.mem_singleton, not_or]
      refine ⟨⟨hpart (by simp [hname]), not_mem_marked (by decide) fun text htext => ?_⟩, by decide⟩
      exact hpart (by simp [Option.mem_def.mp htext])
  have hdomain : 0 ∉ u.domainText := by
    rw [domainText]
    cases hhost : u.host with
    | none => exact List.not_mem_nil
    | some host =>
      rw [List.mem_append, not_or]
      exact ⟨hpart (by simp [hhost]), not_mem_marked (by decide) (not_mem_port (by decide) _)⟩
  have hpath : 0 ∉ u.path.getD [] := by
    cases hpath : u.path with
    | none => exact List.not_mem_nil
    | some path => exact hpart (by simp [hpath])
  have hquery : 0 ∉ marked 0x3F u.query :=
    not_mem_marked (by decide) fun text htext => hpart (by simp [Option.mem_def.mp htext])
  have href : 0 ∉ marked 0x23 u.ref :=
    not_mem_marked (by decide) fun text htext => hpart (by simp [Option.mem_def.mp htext])
  simp only [behindScheme, List.mem_append, List.mem_cons, not_or]
  exact ⟨⟨⟨huserinfo, hdomain⟩, by decide, hpath, hquery⟩, href⟩

/-- The userinfo and the domain of the text. -/
theorem Delimited.credentials_eq (d : Delimited u) (h : Kept u) :
    credentials (userinfo u.behindScheme) = (u.username, u.password) ∧
      domain u.behindScheme = u.domainText := by
  have hat : 0x40 ∉ u.domainText := by
    rw [domainText]
    cases hhost : u.host with
    | none => exact List.not_mem_nil
    | some host =>
      rw [List.mem_append, not_or]
      exact ⟨h.at_ host hhost, not_mem_marked (by decide) (not_mem_port (by decide) _)⟩
  rw [userinfo, domain, d.marks.2.2.1]
  have hboth := h.credentials
  rw [userinfoText]
  cases hname : u.username with
  | none =>
    rw [hname] at hboth
    have hpassword : u.password = none := Option.not_isSome_iff_eq_none.mp (by
      rw [← hboth]
      decide)
    rw [List.nil_append, Text.cutLast_of_not_mem hat, hpassword]
    exact ⟨rfl, rfl⟩
  | some username =>
    rw [hname] at hboth
    obtain ⟨password, hpassword⟩ := Option.isSome_iff_exists.mp hboth.symm
    have hcolon : 0x3A ∉ username := fun hmem =>
      d.username username hname _ hmem (by decide)
    rw [hpassword, List.append_assoc, List.singleton_append, Text.cutLast_append _ hat,
      credentials, Option.map_some, marked, Text.cut_append hcolon]
    exact ⟨rfl, rfl⟩

theorem Delimited.address_eq (d : Delimited u) {host : Text} (hhost : u.host = some host) :
    address u.domainText = (host, u.port) := by
  have hcolon : 0x3A ∉ host := fun hmem => d.host host hhost _ hmem (by decide)
  rw [domainText, hhost]
  dsimp only
  cases hport : u.port with
  | none => rw [Option.map_none, marked, List.append_nil, address, Text.cutLast_of_not_mem hcolon]
  | some port =>
    have hlt : port < 2 ^ 16 := d.port port hport
    have hdigits : 0x3A ∉ NumberType.text port := fun hmem =>
      absurd (NumberType.mem_text hmem) (by decide)
    rw [Option.map_some, marked, address, Text.cutLast_append _ hdigits]
    dsimp only
    rw [NumberType.convert_text (by omega) (by omega)]

theorem copyPath_getD (url : Text) (u : URL) :
    copyPath url { u with path := some (u.path.getD []) } = copyPath url u := by
  rw [copyPath, copyPath]
  cases u.path with
  | none =>
    dsimp only [Option.getD_none]
    rw [copyFragment, List.take_nil, List.append_nil]
  | some path => rfl

/-- No path and an empty one have the same text. -/
theorem text_path (u : URL) : ({ u with path := some (u.path.getD []) } : URL).text = u.text := by
  rw [text, text]
  dsimp only
  rw [copyPath_getD]
  rfl

theorem Delimited.roundTrips (d : Delimited u) (h : Kept u) : RoundTrips u := by
  obtain ⟨hbefore, hhierarchical, -, hpath, hquery, href⟩ := d.marks
  have hwritten : u.written = u.behindScheme := by
    rw [written, List.takeWhile_eq_self_iff]
    intro c hc
    exact decide_eq_true fun hzero => h.zero_not_mem (hzero ▸ hc)
  have hsource := d.source_text ((length_text u).trans_lt (by decide))
  rw [hwritten] at hsource
  obtain ⟨host, hhost⟩ := Option.isSome_iff_exists.mp h.host
  obtain ⟨hcredentials, hdomain⟩ := d.credentials_eq h
  refine ⟨_, ?_, rfl, text_path u⟩
  rw [reparsed, parse_marked hsource]
  · rw [hcredentials, hdomain, d.address_eq hhost, standard, hpath, hquery, href, ← hhost]
  · intro hmem
    rw [hhierarchical]
    simp
  · intro hmem
    rw [hbefore]
    rw [behindScheme, List.mem_append] at hmem
    cases hnone : u.query with
    | none =>
      rw [hnone] at hmem
      exact hmem.resolve_right (not_mem_marked (by decide) (h.fragment hnone))
    | some query => simp [marked]

/-- A `URL` comes back from its text if it has a host without an `@` in it, both a user name and a
password or none, no question mark in a fragment behind no query, and no zeros. -/
theorem url_text_exact (d : Delimited u) : RoundTrips u ↔ Kept u :=
  ⟨d.kept_of_roundTrips, d.roundTrips⟩

/-- `http://u:p@h:80?b`, without a path. -/
theorem url_text_exact_query :
    RoundTrips ⟨.http, some [0x75], some [0x70], some [0x68], some 80, none, some [0x62], none⟩ ↔
      Kept ⟨.http, some [0x75], some [0x70], some [0x68], some 80, none, some [0x62], none⟩ :=
  url_text_exact ⟨by decide, by simp, by simp, by simp, by simp, by simp, by simp, by decide⟩

/-- A user name without a password: `http://u@h/`. -/
theorem not_url_text_exact : ¬ ∀ u : URL, Delimited u → RoundTrips u := by
  intro h
  obtain ⟨url, hparse, rfl, -⟩ := h ⟨.http, some [0x75], none, some [0x68], none, none, none, none⟩
    ⟨by decide, by simp, by simp, by simp, by simp, by simp, by simp, by decide⟩
  exact absurd hparse (by decide)

end Thunder.Core.URL
