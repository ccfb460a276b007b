import Thunder.Core.Number
import Thunder.Core.TextSegments
import Thunder.Library.Cut

/-! `URL`: its parser on every kind of `TextFragment`, and the text it is written as.  Positions are
`uint32_t`. -/

namespace Thunder.Core

namespace TextFragment

/-- `TextFragment(text)`. -/
def ofText (text : Text) (h : text.length < 2 ^ 32) : TextFragment where
  memory := text
  atPointer := false
  first := 0
  length := text.length
  inside := by omega
  small := h
  zeroFree := nofun

/-- `ForwardFind` of a character. -/
def forwardFind (f : TextFragment) (c : UInt8) (offset : Nat) : Nat := f.findFirstOf ⟨c, []⟩ offset

/-- `TextFragment(base, offset, length)`, in its range. -/
def part (f : TextFragment) (offset length : Nat) : Option TextFragment :=
  if h : offset + length ≤ f.length then
    some { f with
      first := f.first + offset
      length
      inside := by
        have hinside := f.inside
        omega }
  else none

/-- `TextFragment(base, offset, length).Text()`, also out of its range: a text that is held ends
where it ends, and behind a text at a pointer there is none. -/
def partText (f : TextFragment) (offset length : Nat) : Option Text :=
  let length := if length = 2 ^ 32 - 1 then f.length - offset else length
  if f.atPointer ∧ f.memory.length < f.first + offset + length then none
  else some ((f.memory.drop (f.first + offset)).take length)

end TextFragment

namespace URL

inductive SchemeType
  | file
  | http
  | https
  | ftp
  | ntp
  | ws
  | wss
  | unknown
  deriving DecidableEq

/-- The names of `ENUM_CONVERSION_BEGIN`, in their order. -/
def schemeNames : List (SchemeType × Text) :=
  [(.file, [0x66, 0x69, 0x6C, 0x65]),
    (.http, [0x68, 0x74, 0x74, 0x70]),
    (.https, [0x68, 0x74, 0x74, 0x70, 0x73]),
    (.ftp, [0x66, 0x74, 0x70]),
    (.ntp, [0x6E, 0x74, 0x70]),
    (.ws, [0x77, 0x73]),
    (.wss, [0x77, 0x73, 0x73]),
    (.unknown, [0x3F, 0x3F, 0x3F, 0x3F])]

/-- `EnumerateType<SchemeType>` of a text. -/
def SchemeType.find (text : Text) : Option SchemeType :=
  (schemeNames.find? fun entry => entry.2 = text).map Prod.fst

/-- `EnumerateType<SchemeType>::Data`. -/
def SchemeType.data (scheme : SchemeType) : Text :=
  ((schemeNames.find? fun entry => entry.1 = scheme).map Prod.snd).getD []

/-- A scheme with what is behind it in a text. -/
def SchemeType.front (scheme : SchemeType) : Text := scheme.data ++ [0x3A, 0x2F, 0x2F]

end URL

structure URL where
  scheme : URL.SchemeType
  username : Option Text
  password : Option Text
  host : Option Text
  port : Option Nat
  path : Option Text
  query : Option Text
  ref : Option Text
  deriving DecidableEq

namespace URL

/-- `URL(type)`. -/
def ofType (scheme : SchemeType) : URL := ⟨scheme, none, none, none, none, none, none, none⟩

/-- The loop of `FindNext`, for so many turns: the last place of a character before an end. -/
def findNext (url : TextFragment) : Nat → Nat → Nat → Nat
  | 0, result, _ => result
  | turns + 1, result, end_ =>
    let offset := url.forwardFind (url.text.getD result 0) (result + 1)
    if offset < end_ then findNext url turns offset end_ else result

/-- The length from one position to another, which is not always behind it. -/
def distance (first last : Nat) : Nat := u32 (last + 2 ^ 32 - first)

/-- `ParseDomain`: the host and the port. -/
def parseDomain (url : TextFragment) : Option (Text × Option Nat) :=
  let port := url.forwardFind 0x3A 0
  let length := url.length
  if length ≤ port then some (url.text, none)
  else do
    let port := findNext url length port length
    let host ← url.partText 0 port
    let number ← url.partText (port + 1) (distance (port + 1) length)
    some (host, some (NumberType.convert 65535 number))

/-- What `Parse` does from the marks up to the path: the user name, the password and the domain. -/
def parseAuthority (url : TextFragment) (offset atsign marker : Nat) (result : URL) :
    Option URL :=
  if atsign < url.length ∧ atsign < marker then do
    let hostname := findNext url url.length atsign marker
    let user := url.forwardFind 0x3A offset
    let result ←
      (if user < hostname then do
        let username ← url.partText offset (distance offset user)
        let password ← url.partText (user + 1) (distance (user + 1) hostname)
        some { result with username := some username, password := some password }
      else some result)
    let domain ← url.part (hostname + 1) (distance (hostname + 1) marker)
    let (host, port) ← parseDomain domain
    some { result with host := some host, port }
  else do
    let domain ← url.part offset (distance offset marker)
    let (host, port) ← parseDomain domain
    some { result with host := some host, port }

/-- A text from behind a mark up to an end, where there is the mark. -/
def parsePart (url : TextFragment) (mark end_ : Nat) : Option (Option Text) :=
  if mark < url.length then (url.partText (mark + 1) (distance (mark + 1) end_)).map some
  else some none

/-- `Parse`.  There is no result where a text is taken from behind the one at a pointer. -/
def parse (url : TextFragment) : Option URL :=
  let offset := url.forwardFind 0x3A 0
  let length := url.length
  if length ≤ offset ∨ length ≤ u32 (offset + 2) ∨ url.text[offset + 1]? ≠ some 0x2F ∨
      url.text[offset + 2]? ≠ some 0x2F then
    some (ofType .unknown)
  else do
    let scheme ← (url.partText 0 offset).map fun text => (SchemeType.find text).getD .unknown
    let offset := offset + 3
    let atsign := url.forwardFind 0x40 offset
    let path := url.forwardFind 0x2F offset
    let query := url.forwardFind 0x3F offset
    let ref := url.forwardFind 0x23 offset
    let marker := min (min (min path query) ref) length
    let result ← parseAuthority url offset atsign marker (ofType scheme)
    if marker < length then do
      let path ← parsePart url path (min (min query ref) length)
      let query ← parsePart url query (min ref length)
      let ref ← parsePart url ref length
      some { result with path, query, ref }
    else some result

/-! ### Positions -/

variable {f : TextFragment} {pre rest : Text} {c : UInt8} {offset length : Nat}

theorem length_small (f : TextFragment) : f.length < 2 ^ 32 := by
  have hinside := f.inside
  have hsmall := f.small
  omega

theorem forwardFind_eq (hc : c ≠ 0) (h : f.text = pre ++ rest) :
    f.forwardFind c pre.length = pre.length + rest.findIdx (· == c) := by
  have hlength : f.length = pre.length + rest.length := by
    rw [← f.length_text, h, List.length_append]
  have hholds : Delimiters.holds ⟨c, []⟩ = (· == c) := by
    funext x
    rw [Delimiters.holds, if_neg hc]
    rfl
  rw [TextFragment.forwardFind]
  by_cases hless : pre.length < f.length
  · rw [TextFragment.findFirstOf_eq _ hless, h, List.drop_left, hholds]
  · have hnil : rest = [] := List.length_eq_zero_iff.mp (by omega)
    subst hnil
    rw [TextFragment.findFirstOf, if_neg hless, hlength]
    rfl

theorem distance_eq {first last : Nat} (h : first ≤ last) (hlast : last < 2 ^ 32) :
    distance first last = last - first := by
  rw [distance, u32]
  omega

theorem partText_eq (h : offset + length ≤ f.length) :
    f.partText offset length = some ((f.text.drop offset).take length) := by
  have hinside := f.inside
  have hsmall := length_small f
  have hrest : (if length = 2 ^ 32 - 1 then f.length - offset else length) = length := by
    split_ifs <;> omega
  rw [TextFragment.partText, hrest, if_neg (by omega), f.drop_text, List.take_take,
    min_eq_left (by omega)]

theorem length_of_append {mid post : Text} (h : f.text = pre ++ (mid ++ post)) :
    f.length = pre.length + mid.length + post.length := by
  rw [← f.length_text, h, List.length_append, List.length_append, Nat.add_assoc]

/-- A text between two positions. -/
theorem partText_of {mid post : Text} (h : f.text = pre ++ (mid ++ post))
    (hoffset : offset = pre.length) (hlength : length = mid.length) :
    f.partText offset length = some mid := by
  have hall := length_of_append h
  rw [partText_eq (by omega), hoffset, hlength, h, List.drop_left, List.take_left]

theorem part_of {mid post : Text} (h : f.text = pre ++ (mid ++ post))
    (hoffset : offset = pre.length) (hlength : length = mid.length) :
    ∃ domain, f.part offset length = some domain ∧ domain.text = mid := by
  have hall := length_of_append h
  have htext : (f.text.drop offset).take length = mid := by
    rw [hoffset, hlength, h, List.drop_left, List.take_left]
  rw [TextFragment.part, dif_pos (by omega)]
  refine ⟨_, rfl, ?_⟩
  refine Eq.trans ?_ htext
  rw [f.drop_text, List.take_take, min_eq_left (by omega), TextFragment.text]

/-- The last of the characters up to an end is found from any of them. -/
theorem findNext_spec (hc : c ≠ 0) (turns : Nat) {mid post : Text}
    (h : f.text = pre ++ c :: (mid ++ post)) (hturns : mid.length < turns) :
    ∃ before after, c :: mid = before ++ c :: after ∧ c ∉ after ∧
      findNext f turns pre.length (pre.length + 1 + mid.length) = pre.length + before.length := by
  induction turns generalizing pre mid with
  | zero => omega
  | succ turns ih =>
    have hat : f.text.getD pre.length 0 = c := by simp [h]
    have happend : f.text = (pre ++ [c]) ++ (mid ++ post) := by simp [h]
    have hlength : (pre ++ [c]).length = pre.length + 1 := by simp
    have hfind := forwardFind_eq hc happend
    rw [hlength] at hfind
    rw [findNext, hat, hfind]
    by_cases hmem : c ∈ mid
    · obtain ⟨x, y, rfl, hx⟩ := List.eq_append_cons_of_mem hmem
      have hidx : (x ++ c :: y ++ post).findIdx (· == c) = x.length := by
        rw [List.append_assoc, Text.findIdx_append_of_not_mem hx, List.cons_append,
          List.findIdx_cons, beq_self_eq_true, cond_true, Nat.add_zero]
      have hnext : f.text = (pre ++ c :: x) ++ c :: (y ++ post) := by simp [h]
      rw [List.length_append, List.length_cons] at hturns
      obtain ⟨before, after, heq, hafter, hlast⟩ := ih hnext (by omega)
      refine ⟨c :: x ++ before, after, ?_, hafter, ?_⟩
      · rw [List.append_assoc, ← heq, List.cons_append]
      · have hmid : (x ++ c :: y).length = x.length + 1 + y.length := by
          rw [List.length_append, List.length_cons]
          omega
        have hpre : (pre ++ c :: x).length = pre.length + 1 + x.length := by
          rw [List.length_append, List.length_cons]
          omega
        rw [hpre] at hlast
        rw [hidx, hmid, if_pos (by omega), List.length_append, List.length_cons]
        have hend : pre.length + 1 + (x.length + 1 + y.length) =
            pre.length + 1 + x.length + 1 + y.length := by omega
        rw [hend, hlast]
        omega
    · have hidx : (mid ++ post).findIdx (· == c) = mid.length + post.findIdx (· == c) :=
        Text.findIdx_append_of_not_mem hmem post
      rw [if_neg (by omega)]
      exact ⟨[], mid, rfl, hmem, rfl⟩

/-- The host and the port of a domain. -/
def address (domain : Text) : Text × Option Nat :=
  match Text.cutLast 0x3A domain with
  | (none, _) => (domain, none)
  | (some host, number) => (host, some (NumberType.convert 65535 number))

theorem parseDomain_eq (f : TextFragment) : parseDomain f = some (address f.text) := by
  have hsmall := length_small f
  have hlength := f.length_text
  have hfind : f.forwardFind 0x3A 0 = 0 + f.text.findIdx (· == 0x3A) :=
    forwardFind_eq (by decide) (List.nil_append f.text).symm
  rw [Nat.zero_add] at hfind
  rw [parseDomain, hfind]
  by_cases hmem : 0x3A ∈ f.text
  · obtain ⟨x, y, heq, hx⟩ := List.eq_append_cons_of_mem hmem
    have hidx : f.text.findIdx (· == 0x3A) = x.length := by
      rw [heq, Text.findIdx_append_of_not_mem hx, List.findIdx_cons, beq_self_eq_true, cond_true,
        Nat.add_zero]
    have hall : f.length = x.length + 1 + y.length := by
      rw [← hlength, heq, List.length_append, List.length_cons]
      omega
    have hsource : f.text = x ++ 0x3A :: (y ++ []) := by rw [heq, List.append_nil]
    obtain ⟨before, after, hlast, hafter, hnext⟩ :=
      findNext_spec (by decide) f.length hsource (by omega)
    have hcut : f.text = (x ++ before) ++ 0x3A :: after := by
      rw [heq, hlast, List.append_assoc]
    have hafterLength : x.length + before.length + 1 + after.length = f.length := by
      rw [← hlength, hcut]
      simp only [List.length_append, List.length_cons]
      omega
    have hhost : f.text = [] ++ ((x ++ before) ++ 0x3A :: after) := hcut
    have hnumber : f.text = (x ++ before ++ [0x3A]) ++ (after ++ []) := by
      rw [hcut, List.append_nil, List.append_cons]
    rw [← hall] at hnext
    rw [hidx, if_neg (by omega), hnext]
    dsimp only
    rw [partText_of hhost List.length_nil.symm (List.length_append).symm,
      distance_eq (by omega) hsmall,
      partText_of hnumber (by simp only [List.length_append, List.length_singleton]) (by omega),
      address, hcut, Text.cutLast_append _ hafter]
    rfl
  · have hidx : f.length ≤ f.text.findIdx (· == 0x3A) := by
      rw [← hlength, ← not_lt, Text.findIdx_lt_iff]
      exact hmem
    rw [if_pos hidx, address, Text.cutLast_of_not_mem hmem]

/-- The user name and the password of what is in front of a domain. -/
def credentials (userinfo : Option Text) : Option Text × Option Text :=
  match userinfo.map (Text.cut 0x3A) with
  | some (username, some password) => (some username, some password)
  | _ => (none, none)

/-- The user name and the password are found in front of the domain. -/
theorem parse_credentials {info : Text} {post : Text} (h : f.text = pre ++ (info ++ 0x40 :: post))
    (result : URL) :
    (if pre.length + (info ++ 0x40 :: post).findIdx (· == 0x3A) < pre.length + info.length then do
        let username ← f.partText pre.length
          (distance pre.length (pre.length + (info ++ 0x40 :: post).findIdx (· == 0x3A)))
        let password ← f.partText (pre.length + (info ++ 0x40 :: post).findIdx (· == 0x3A) + 1)
          (distance (pre.length + (info ++ 0x40 :: post).findIdx (· == 0x3A) + 1)
            (pre.length + info.length))
        some { result with username := some username, password := some password }
      else some result) =
      some (if 0x3A ∈ info then { result with
          username := (credentials (some info)).1
          password := (credentials (some info)).2 }
        else result) := by
  have hsmall := length_small f
  have hall := length_of_append h
  by_cases hmem : 0x3A ∈ info
  · obtain ⟨name, password, rfl, hname⟩ := List.eq_append_cons_of_mem hmem
    have hidx : (name ++ 0x3A :: password ++ 0x40 :: post).findIdx (· == 0x3A) = name.length := by
      rw [List.append_assoc, Text.findIdx_append_of_not_mem hname, List.cons_append,
        List.findIdx_cons, beq_self_eq_true, cond_true, Nat.add_zero]
    have husername : f.text = pre ++ (name ++ 0x3A :: (password ++ 0x40 :: post)) := by simp [h]
    have hpassword : f.text = (pre ++ name ++ [0x3A]) ++ (password ++ 0x40 :: post) := by simp [h]
    have hinfo : (name ++ 0x3A :: password).length = name.length + 1 + password.length := by
      rw [List.length_append, List.length_cons]
      omega
    rw [hinfo] at hall ⊢
    rw [hidx, if_pos (by omega), distance_eq (by omega) (by omega),
      partText_of husername rfl (by omega), distance_eq (by omega) (by omega),
      partText_of hpassword (by simp only [List.length_append, List.length_singleton]) (by omega),
      if_pos hmem, credentials, Option.map_some, Text.cut_append hname]
    rfl
  · have hidx : info.length ≤ (info ++ 0x40 :: post).findIdx (· == 0x3A) := by
      rw [Text.findIdx_append_of_not_mem hmem]
      omega
    rw [if_neg (by omega), if_neg hmem]

theorem parseAuthority_eq (h : f.text = pre ++ rest) {m : Nat} (hm : m ≤ rest.length)
    (scheme : SchemeType) {userinfo : Option Text} {domain : Text}
    (hcut : Text.cutLast 0x40 (rest.take m) = (userinfo, domain)) :
    parseAuthority f pre.length (pre.length + rest.findIdx (· == 0x40)) (pre.length + m)
      (ofType scheme) =
        some { ofType scheme with
          username := (credentials userinfo).1
          password := (credentials userinfo).2
          host := some (address domain).1
          port := (address domain).2 } := by
  have hsmall := length_small f
  have hsplit : rest.take m ++ rest.drop m = rest := List.take_append_drop m rest
  have hmlength : (rest.take m).length = m := List.length_take_of_le hm
  have hall : f.length = pre.length + rest.length := by
    rw [← f.length_text, h, List.length_append]
  by_cases hmem : 0x40 ∈ rest.take m
  · obtain ⟨x, y, heq, hx⟩ := List.eq_append_cons_of_mem hmem
    have hrest : rest = x ++ 0x40 :: (y ++ rest.drop m) := by
      conv_lhs => rw [← hsplit, heq, List.append_assoc, List.cons_append]
    have hsource : f.text = (pre ++ x) ++ 0x40 :: (y ++ rest.drop m) := by
      rw [h, List.append_assoc, ← hrest]
    have hidx : rest.findIdx (· == 0x40) = x.length := by
      rw [hrest, Text.findIdx_append_of_not_mem hx, List.findIdx_cons, beq_self_eq_true, cond_true,
        Nat.add_zero]
    have hm' : m = x.length + 1 + y.length := by
      rw [← hmlength, heq, List.length_append, List.length_cons]
      omega
    obtain ⟨before, after, hlast, hafter, hnext⟩ :=
      findNext_spec (by decide) f.length hsource (by omega)
    have hauthority : rest.take m = (x ++ before) ++ 0x40 :: after := by
      rw [heq, hlast, List.append_assoc]
    rw [hauthority, Text.cutLast_append _ hafter] at hcut
    obtain ⟨rfl, rfl⟩ := Prod.mk.inj hcut
    have hinfo : f.text = pre ++ ((x ++ before) ++ 0x40 :: (after ++ rest.drop m)) := by
      rw [h]
      conv_lhs => rw [← hsplit, hauthority]
      simp only [List.append_assoc, List.cons_append]
    have hdomain : f.text = (pre ++ (x ++ before) ++ [0x40]) ++ (after ++ rest.drop m) := by
      rw [hinfo]
      simp only [List.append_assoc, List.cons_append, List.nil_append]
    have hhostname : findNext f f.length (pre.length + x.length) (pre.length + m) =
        pre.length + (x ++ before).length := by
      have hend : pre.length + m = pre.length + x.length + 1 + y.length := by omega
      rw [List.length_append] at hnext
      rw [hend, hnext, List.length_append, Nat.add_assoc]
    have hinfoLength : (x ++ before).length + 1 + after.length = m := by
      rw [← hmlength, hauthority]
      simp only [List.length_append, List.length_cons]
      omega
    rw [parseAuthority, hidx, if_pos (by omega), hhostname, forwardFind_eq (by decide) h]
    have hrest' : rest = (x ++ before) ++ 0x40 :: (after ++ rest.drop m) :=
      List.append_cancel_left (h.symm.trans hinfo)
    generalize x ++ before = info at *
    generalize rest.drop m = post at *
    obtain ⟨domain, hpart, htext⟩ := part_of hdomain
      (show pre.length + info.length + 1 = _ by
        simp only [List.length_append, List.length_singleton])
      (show distance (pre.length + info.length + 1) (pre.length + m) = _ by
        rw [distance_eq (by omega) (by omega)]
        omega)
    rw [hrest']
    dsimp only
    rw [parse_credentials hinfo, hpart]
    simp only [Option.bind_eq_bind, Option.bind_some, parseDomain_eq, htext]
    by_cases hcolon : 0x3A ∈ info
    · rw [if_pos hcolon]
    · rw [if_neg hcolon, credentials, Option.map_some, Text.cut_of_not_mem hcolon]
      rfl
  · rw [Text.cutLast_of_not_mem hmem] at hcut
    obtain ⟨rfl, rfl⟩ := Prod.mk.inj hcut
    have hidx : m ≤ rest.findIdx (· == 0x40) := by
      rw [← hsplit, Text.findIdx_append_of_not_mem hmem, hmlength]
      omega
    have hdomain : f.text = pre ++ (rest.take m ++ rest.drop m) := by rw [hsplit, h]
    obtain ⟨domain, hpart, htext⟩ := part_of hdomain rfl
      (show distance pre.length (pre.length + m) = _ by
        rw [distance_eq (by omega) (by omega), hmlength]
        omega)
    rw [parseAuthority, if_neg (by omega), hpart]
    simp only [Option.bind_eq_bind, Option.bind_some, parseDomain_eq, htext]
    rfl

/-! ### The parser -/

/-- A part of a text from behind a mark up to an end. -/
theorem parsePart_eq (h : f.text = pre ++ rest) {mark last : Nat} (hlast : last ≤ rest.length)
    (hmark : mark < rest.length → mark < last) :
    parsePart f (pre.length + mark) (pre.length + last) =
      some (if mark < rest.length then some ((rest.take last).drop (mark + 1)) else none) := by
  have hsmall := length_small f
  have hall : f.length = pre.length + rest.length := by
    rw [← f.length_text, h, List.length_append]
  by_cases hless : mark < rest.length
  · have hmark := hmark hless
    have hsplit : f.text = (pre ++ rest.take (mark + 1)) ++
        ((rest.take last).drop (mark + 1) ++ rest.drop last) := by
      have htake : rest.take (mark + 1) = (rest.take last).take (mark + 1) := by
        rw [List.take_take, min_eq_left (by omega)]
      rw [List.append_assoc, ← List.append_assoc (rest.take (mark + 1)), htake,
        List.take_append_drop, List.take_append_drop, h]
    rw [parsePart, if_pos (by omega), if_pos hless, distance_eq (by omega) (by omega),
      partText_of hsplit, Option.map_some]
    · rw [List.length_append, List.length_take]
      omega
    · rw [List.length_drop, List.length_take]
      omega
  · rw [parsePart, if_neg (by omega), if_neg hless]

/-- Where there is the mark, the part is there. -/
theorem parsePart_set (h : f.text = pre ++ rest) {mark last : Nat} (hmark : mark < rest.length) :
    parsePart f (pre.length + mark) last ≠ some none := by
  have hall : f.length = pre.length + rest.length := by
    rw [← f.length_text, h, List.length_append]
  rw [parsePart, if_pos (by omega)]
  intro hnone
  obtain ⟨part, -, hpart⟩ := Option.map_eq_some_iff.mp hnone
  cases hpart

theorem scheme_spec (scheme : SchemeType) : 0x3A ∉ scheme.data ∧ scheme.data.length < 6 ∧
    SchemeType.find scheme.data = some scheme := by
  cases scheme <;> decide

/-- The marks of what is behind a scheme. -/
theorem parse_eq {scheme : SchemeType}
    (h : f.text = scheme.front ++ rest) {path query ref : Nat}
    (hpath : path = rest.findIdx (· == 0x2F)) (hquery : query = rest.findIdx (· == 0x3F))
    (href : ref = rest.findIdx (· == 0x23)) {userinfo : Option Text} {domain : Text}
    (hcut : Text.cutLast 0x40 (rest.take (min (min path query) ref)) = (userinfo, domain)) :
    parse f =
      (parsePart f (scheme.front.length + path) (scheme.front.length + min query ref)).bind
        fun path =>
          (parsePart f (scheme.front.length + query) (scheme.front.length + ref)).bind
            fun query =>
              some ⟨scheme, (credentials userinfo).1, (credentials userinfo).2,
                some (address domain).1, (address domain).2, path, query,
                (Text.cut 0x23 rest).2⟩ := by
  obtain ⟨hcolon, hshort, hfind⟩ := scheme_spec scheme
  have hfront : scheme.front.length = scheme.data.length + 3 := List.length_append
  have hall : f.length = scheme.front.length + rest.length := by
    rw [← f.length_text, h, List.length_append]
  have hsource : f.text = scheme.data ++ 0x3A :: 0x2F :: 0x2F :: rest := by
    rw [h, SchemeType.front, List.append_assoc]
    rfl
  have hoffset : f.forwardFind 0x3A 0 = scheme.data.length := by
    have hfirst : f.forwardFind 0x3A 0 =
        0 + (scheme.data ++ 0x3A :: 0x2F :: 0x2F :: rest).findIdx (· == 0x3A) :=
      forwardFind_eq (by decide) ((List.nil_append _).trans hsource.symm).symm
    rwa [Text.findIdx_append_of_not_mem hcolon, List.findIdx_cons, beq_self_eq_true, cond_true,
      Nat.add_zero, Nat.zero_add] at hfirst
  have hname : f.partText 0 scheme.data.length = some scheme.data :=
    partText_of ((List.nil_append _).trans hsource.symm).symm rfl rfl
  have hslashes : f.text[scheme.data.length + 1]? = some 0x2F ∧
      f.text[scheme.data.length + 2]? = some 0x2F := by
    rw [hsource]
    simp
  have hmarks : path ≤ rest.length ∧ query ≤ rest.length ∧ ref ≤ rest.length := by
    subst hpath hquery href
    exact ⟨List.findIdx_le_length, List.findIdx_le_length, List.findIdx_le_length⟩
  have hmarker : min (min (min (scheme.front.length + path) (scheme.front.length + query))
      (scheme.front.length + ref)) f.length =
        scheme.front.length + min (min path query) ref := by
    rw [hall, Nat.add_min_add_left, Nat.add_min_add_left, Nat.add_min_add_left,
      min_eq_left ((min_le_right _ _).trans hmarks.2.2)]
  have hauthority := parseAuthority_eq h ((min_le_right _ _).trans hmarks.2.2) scheme hcut
  have hfound (c : UInt8) (hc : c ≠ 0) : f.forwardFind c (scheme.data.length + 3) =
      scheme.front.length + rest.findIdx (· == c) := by
    rw [← hfront]
    exact forwardFind_eq hc h
  have hdata : u32 (scheme.data.length + 2) = scheme.data.length + 2 := u32_of_lt (by omega)
  rw [parse, hoffset, hdata, if_neg (by
    rw [hslashes.1, hslashes.2]
    simp only [ne_eq, not_true_eq_false, or_false, not_or, not_le]
    omega), hname, Option.map_some, hfind]
  dsimp only
  rw [Option.bind_eq_bind, Option.bind_some, hfound 0x40 (by decide), hfound 0x2F (by decide),
    hfound 0x3F (by decide), hfound 0x23 (by decide), ← hpath, ← hquery, ← href, hmarker,
    Option.getD_some, ← hfront, hauthority]
  simp only [Option.bind_eq_bind, Option.bind_some]
  have hpathEnd : min (min (scheme.front.length + query) (scheme.front.length + ref))
      f.length = scheme.front.length + min query ref := by
    rw [hall, Nat.add_min_add_left, Nat.add_min_add_left,
      min_eq_left ((min_le_right _ _).trans hmarks.2.2)]
  have hqueryEnd : min (scheme.front.length + ref) f.length =
      scheme.front.length + ref := by
    rw [hall, Nat.add_min_add_left, min_eq_left hmarks.2.2]
  have hfragment : parsePart f (scheme.front.length + ref) f.length =
      some (Text.cut 0x23 rest).2 := by
    rw [hall, parsePart_eq h le_rfl id, List.take_length, href,
      Text.cut_snd]
  rw [hpathEnd, hqueryEnd, hfragment]
  split_ifs with hless
  · rfl
  · rw [hall, Nat.add_lt_add_iff_left, not_lt, Nat.le_min, Nat.le_min] at hless
    obtain ⟨⟨hpathAbsent, hqueryAbsent⟩, hrefAbsent⟩ := hless
    have hnone {mark last : Nat} (hmark : rest.length ≤ mark) :
        parsePart f (scheme.front.length + mark) last = some none := by
      rw [parsePart, if_neg (by omega)]
    have hno : (Text.cut 0x23 rest).2 = none := by
      rw [Text.cut_snd, ← href, if_neg hrefAbsent.not_gt]
    rw [hnone hpathAbsent, hnone hqueryAbsent, hno]
    rfl

end URL

end Thunder.Core
