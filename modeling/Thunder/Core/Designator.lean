import Thunder.Library.Text
import Mathlib.Data.List.TakeWhile
import Mathlib.Tactic.SplitIfs

/-! The designators of JSON-RPC messages:
`[callsign.][version.][prefix[#instanceid]::]method[@index]`.  A position that is `npos` is
`none`. -/

namespace Thunder.Core.JSONRPC

open Text

/-- What a designator is joined from and split into. -/
structure Designator where
  callsign : List Char := []
  version : List Char := []
  prefixText : List Char := []
  instanceId : List Char := []
  method : List Char := []
  index : List Char := []
  deriving DecidableEq

namespace Designator

/-- `Message::Join`. -/
def join (parts : Designator) : List Char :=
  let out := if parts.callsign ≠ [] then parts.callsign ++ ['.'] else []
  let out := if parts.version ≠ [] then out ++ parts.version ++ ['.'] else out
  let out := if parts.prefixText ≠ [] then
      let out := out ++ parts.prefixText
      let out := if parts.instanceId ≠ [] then out ++ ['#'] ++ parts.instanceId else out
      out ++ [':', ':']
    else out
  let out := out ++ parts.method
  if parts.index ≠ [] then out ++ ['@'] ++ parts.index else out

/-- A position that is one further; behind `npos` the text begins. -/
def next : Option Nat → Nat
  | none => 0
  | some i => i + 1

/-- The length between two positions, which is longer than any text where it wraps. -/
def between (start : Nat) (stop : Nat) : Option Nat :=
  if start ≤ stop then some (stop - start) else none

/-- The position behind the digits from a position on, at most the given end. -/
def digitsEnd (designator : List Char) (start stop : Nat) : Nat :=
  start + (((designator.drop start).take (stop - start)).takeWhile Char.isDigit).length

/-- The callsign and the version before the dot of the method. -/
def splitCallsign (designator : List Char) (idxM : Option Nat) : List Char × List Char :=
  match idxM with
  | none => ([], [])
  | some idxM =>
    if idxM ≠ 0 then
      let idxV := next (rfind (· = '.') designator (some (idxM - 1)))
      let stop := if digitsEnd designator idxV idxM = idxM then
          (if idxV = 0 then none else some (idxV - 1))
        else some idxM
      (match stop with
        | none => []
        | some stop => designator.take stop,
        if stop ≠ some idxM then (designator.drop idxV).take (idxM - idxV) else [])
    else ([], [])

/-- The text behind the last `#` before the pair of colons. -/
def splitInstanceId (designator : List Char) : Option Nat → List Char
  | none => []
  | some idxP =>
    match rfind (· = '#') designator (some idxP) with
    | none => []
    | some idxId => (designator.drop (idxId + 1)).take (idxP - idxId - 1)

def splitPrefix (designator : List Char) (idxM : Nat) : Option Nat → List Char
  | none => []
  | some idxP =>
    let idxId := rfind (· = '#') designator (some idxP)
    substr designator idxM (between idxM (min idxP (idxId.getD idxP)))

def splitIndex (designator : List Char) : Option Nat → List Char
  | none => []
  | some idxI => designator.drop (idxI + 1)

/-- `Message::Split`.  Behind a pair of colons there always is a text, so that is not tested. -/
def split (designator : List Char) : Designator :=
  let idxI := rfind (· = '@') designator none
  let idxM := rfind (· = '.') designator idxI
  let idxP := rfindPair (· = ':') designator idxI
  let methodFrom := match idxP with
    | none => next idxM
    | some idxP => idxP + 2
  { callsign := (splitCallsign designator idxM).1
    version := (splitCallsign designator idxM).2
    prefixText := splitPrefix designator (next idxM) idxP
    instanceId := splitInstanceId designator idxP
    method := substr designator methodFrom (idxI.bind (between methodFrom))
    index := splitIndex designator idxI }

/-! ### Splitting what was joined -/

/-- What is behind the last dot of a callsign. -/
def lastSegment (callsign : List Char) : List Char :=
  callsign.drop (next (lastIdx (· = '.') callsign))

/-- The parts of the grammar: digits in a version, none of the delimiters in the other parts but for
the dots of a callsign, and no `@` in the index.  The last segment of a callsign is no version. -/
structure WellFormed (parts : Designator) : Prop where
  callsign : ∀ c ∈ parts.callsign, c ≠ '#' ∧ c ≠ '@' ∧ c ≠ ':'
  segment : parts.callsign ≠ [] → ∃ c ∈ lastSegment parts.callsign, c.isDigit = false
  version : ∀ c ∈ parts.version, c.isDigit = true
  prefixText : ∀ c ∈ parts.prefixText, c ≠ '.' ∧ c ≠ '#' ∧ c ≠ '@' ∧ c ≠ ':'
  instanceId : ∀ c ∈ parts.instanceId, c ≠ '.' ∧ c ≠ '#' ∧ c ≠ '@' ∧ c ≠ ':'
  method : ∀ c ∈ parts.method, c ≠ '.' ∧ c ≠ '#' ∧ c ≠ '@' ∧ c ≠ ':'
  owner : parts.prefixText = [] → parts.instanceId = []
  index : '@' ∉ parts.index

/-- The callsign and the version, with their dots. -/
def address (parts : Designator) : List Char :=
  (if parts.callsign ≠ [] then parts.callsign ++ ['.'] else []) ++
    if parts.version ≠ [] then parts.version ++ ['.'] else []

/-- The prefix with the instance id. -/
def owner (parts : Designator) : List Char :=
  if parts.prefixText ≠ [] then
    parts.prefixText ++ (if parts.instanceId ≠ [] then '#' :: parts.instanceId else []) ++
      [':', ':']
  else []

def tail (parts : Designator) : List Char := if parts.index ≠ [] then '@' :: parts.index else []

section

variable {parts : Designator} {c : Char} {d : List Char}

theorem join_eq (parts : Designator) :
    join parts = parts.address ++ (parts.owner ++ parts.method) ++ parts.tail := by
  simp only [join, address, owner, tail]
  split_ifs <;> simp

theorem digit_ne {x : Char} (hc : c.isDigit = true) (hx : x.isDigit = false) : c ≠ x := by
  rintro rfl
  rw [hc] at hx
  cases hx

theorem WellFormed.address (h : parts.WellFormed) :
    ∀ c ∈ parts.address, c ≠ '#' ∧ c ≠ '@' ∧ c ≠ ':' := by
  have hcallsign : ∀ c ∈ parts.callsign ++ ['.'], c ≠ '#' ∧ c ≠ '@' ∧ c ≠ ':' := by
    rw [List.forall_mem_append, List.forall_mem_singleton]
    exact ⟨h.callsign, by decide⟩
  have hversion : ∀ c ∈ parts.version ++ ['.'], c ≠ '#' ∧ c ≠ '@' ∧ c ≠ ':' := by
    rw [List.forall_mem_append, List.forall_mem_singleton]
    refine ⟨fun c hc => ?_, by decide⟩
    have hdigit := h.version c hc
    exact ⟨digit_ne hdigit (by decide), digit_ne hdigit (by decide), digit_ne hdigit (by decide)⟩
  rw [Designator.address, List.forall_mem_append]
  split_ifs
  · exact ⟨hcallsign, hversion⟩
  · exact ⟨hcallsign, nofun⟩
  · exact ⟨nofun, hversion⟩
  · exact ⟨nofun, nofun⟩

/-- Nothing behind the address has a dot, and the prefix with the method no `@`. -/
theorem WellFormed.call (h : parts.WellFormed) :
    ∀ c ∈ parts.owner ++ parts.method, c ≠ '.' ∧ c ≠ '@' := by
  have howner : ∀ c ∈ parts.owner, c ≠ '.' ∧ c ≠ '@' := by
    rw [Designator.owner]
    split_ifs
    · simp only [List.forall_mem_append, List.forall_mem_cons]
      exact ⟨⟨fun c hc => ⟨(h.prefixText c hc).1, (h.prefixText c hc).2.2.1⟩, by decide,
        fun c hc => ⟨(h.instanceId c hc).1, (h.instanceId c hc).2.2.1⟩⟩, by decide, by decide,
        nofun⟩
    · simp only [List.forall_mem_append, List.forall_mem_cons]
      exact ⟨⟨fun c hc => ⟨(h.prefixText c hc).1, (h.prefixText c hc).2.2.1⟩, nofun⟩, by decide,
        by decide, nofun⟩
    · exact nofun
  rw [List.forall_mem_append]
  exact ⟨howner, fun c hc => ⟨(h.method c hc).1, (h.method c hc).2.2.1⟩⟩

/-- Where the index begins. -/
def indexIdx (parts : Designator) : Option Nat :=
  if parts.index ≠ [] then some (parts.address ++ (parts.owner ++ parts.method)).length else none

theorem rfind_index (h : parts.WellFormed) :
    rfind (· = '@') (join parts) none = parts.indexIdx := by
  have hhead : ∀ c ∈ parts.address ++ (parts.owner ++ parts.method), decide (c = '@') = false := by
    rw [List.forall_mem_append]
    exact ⟨fun c hc => decide_eq_false (h.address c hc).2.1,
      fun c hc => decide_eq_false (h.call c hc).2⟩
  rw [rfind, upTo, join_eq, indexIdx, tail]
  split_ifs with hindex
  · exact lastIdx_append_cons (decide_eq_true rfl) fun c hc =>
      decide_eq_false fun heq => h.index (heq ▸ hc)
  · rw [List.append_nil]
    exact lastIdx_eq_none.mpr hhead

/-- What is searched for the dots. -/
theorem upTo_index (parts : Designator) : upTo (join parts) parts.indexIdx =
    parts.address ++ (parts.owner ++ parts.method) ++ if parts.index ≠ [] then ['@'] else [] := by
  rw [join_eq, indexIdx, tail]
  split_ifs
  · exact upTo_append
  · rfl

theorem split_index (parts : Designator) :
    splitIndex (join parts) parts.indexIdx = parts.index := by
  rw [indexIdx]
  by_cases hindex : parts.index = []
  · rw [if_neg (not_not.mpr hindex), hindex]
    rfl
  · rw [if_pos hindex, splitIndex, join_eq, tail, if_pos hindex, ← List.drop_drop, List.drop_left]
    rfl

/-- The text before a dot, seen from the dot. -/
theorem upTo_dot {before rest : List Char} (hne : before ≠ []) :
    upTo (before ++ '.' :: rest) (some (before.length - 1)) = before := by
  have hpos := List.length_pos_iff.mpr hne
  rw [upTo, Nat.sub_add_cancel hpos, List.take_left]

/-- A version with no callsign before it. -/
theorem splitCallsign_version {version : List Char} (rest : List Char) (hne : version ≠ [])
    (hdigits : ∀ c ∈ version, c.isDigit = true) :
    splitCallsign (version ++ '.' :: rest) (some version.length) = ([], version) := by
  have hlength : version.length ≠ 0 := fun hzero => hne (List.length_eq_zero_iff.mp hzero)
  have hdots : rfind (· = '.') (version ++ '.' :: rest) (some (version.length - 1)) = none := by
    rw [rfind, upTo_dot hne]
    exact lastIdx_eq_none.mpr fun c hc => decide_eq_false (digit_ne (hdigits c hc) (by decide))
  have hend : digitsEnd (version ++ '.' :: rest) 0 version.length = version.length := by
    rw [digitsEnd, List.drop_zero, Nat.sub_zero, List.take_left,
      List.takeWhile_eq_self_iff.mpr hdigits,
      Nat.zero_add]
  simp [splitCallsign, hlength, hdots, next, hend]

/-- A callsign with a version behind it. -/
theorem splitCallsign_both (callsign : List Char) {version : List Char} (rest : List Char)
    (hdigits : ∀ c ∈ version, c.isDigit = true) :
    splitCallsign (callsign ++ '.' :: (version ++ '.' :: rest))
      (some (callsign ++ '.' :: version).length) = (callsign, version) := by
  have htext : callsign ++ '.' :: (version ++ '.' :: rest) =
      (callsign ++ '.' :: version) ++ '.' :: rest := by simp
  have hlength : (callsign ++ '.' :: version).length ≠ 0 := by simp
  have hdots : rfind (· = '.') ((callsign ++ '.' :: version) ++ '.' :: rest)
      (some ((callsign ++ '.' :: version).length - 1)) = some callsign.length := by
    rw [rfind, upTo_dot (by simp)]
    exact lastIdx_append_cons (decide_eq_true rfl) fun c hc =>
      decide_eq_false (digit_ne (hdigits c hc) (by decide))
  have hdrop : ((callsign ++ '.' :: version) ++ '.' :: rest).drop (callsign.length + 1) =
      version ++ '.' :: rest := by
    rw [← htext, ← List.drop_drop, List.drop_left]
    rfl
  have hbetween : (callsign ++ '.' :: version).length - (callsign.length + 1) = version.length := by
    simp
    omega
  have hend : digitsEnd ((callsign ++ '.' :: version) ++ '.' :: rest) (callsign.length + 1)
      (callsign ++ '.' :: version).length = (callsign ++ '.' :: version).length := by
    rw [digitsEnd, hdrop, hbetween, List.take_left, List.takeWhile_eq_self_iff.mpr hdigits]
    simp
    omega
  have hshort : (some callsign.length : Option Nat) ≠ some (callsign ++ '.' :: version).length := by
    simp
  have hcallsign :
      ((callsign ++ '.' :: version) ++ '.' :: rest).take callsign.length = callsign := by
    rw [← htext, List.take_left]
  simp only [htext, splitCallsign, hdots, next, hend, if_pos hlength, if_true, Nat.add_one_ne_zero,
    if_false, Nat.add_sub_cancel, if_pos hshort, hcallsign, hdrop, hbetween, List.take_left]

/-- A callsign with no version behind it. -/
theorem splitCallsign_callsign {callsign : List Char} (rest : List Char) (hne : callsign ≠ [])
    (hsegment : ∃ c ∈ lastSegment callsign, c.isDigit = false) :
    splitCallsign (callsign ++ '.' :: rest) (some callsign.length) = (callsign, []) := by
  have hlength : callsign.length ≠ 0 := fun hzero => hne (List.length_eq_zero_iff.mp hzero)
  have hdots : rfind (· = '.') (callsign ++ '.' :: rest) (some (callsign.length - 1)) =
      lastIdx (· = '.') callsign := by rw [rfind, upTo_dot hne]
  have hle : next (lastIdx (· = '.') callsign) ≤ callsign.length := by
    cases hlast : lastIdx (· = '.') callsign with
    | none => exact Nat.zero_le _
    | some i =>
      obtain ⟨before, a, after, rfl, rfl, -⟩ := lastIdx_eq_some.mp hlast
      simp [next]
  have hend : digitsEnd (callsign ++ '.' :: rest) (next (lastIdx (· = '.') callsign))
      callsign.length ≠ callsign.length := by
    rw [digitsEnd, List.drop_append_of_le_length hle, List.take_left' (by simp)]
    have hshort : ((lastSegment callsign).takeWhile Char.isDigit).length <
        (lastSegment callsign).length := by
      obtain ⟨c, hc, hdigit⟩ := hsegment
      have hpre := List.takeWhile_prefix Char.isDigit (l := lastSegment callsign)
      refine Nat.lt_of_le_of_ne hpre.length_le fun heq => ?_
      have hall := List.takeWhile_eq_self_iff.mp (hpre.eq_of_length heq) c hc
      rw [hall] at hdigit
      cases hdigit
    simp only [lastSegment, List.length_drop] at hshort
    omega
  simp [splitCallsign, hlength, hdots, hend]

/-- The dot of the address, found from the index on. -/
theorem rfind_dot (h : parts.WellFormed) {before : List Char}
    (haddress : parts.address = before ++ ['.']) :
    rfind (· = '.') (join parts) parts.indexIdx = some before.length := by
  rw [rfind, upTo_index, haddress, List.append_assoc, List.append_assoc, List.append_assoc,
    List.singleton_append]
  refine lastIdx_append_cons (decide_eq_true rfl) ?_
  rw [← List.append_assoc, List.forall_mem_append]
  refine ⟨fun c hc => decide_eq_false (h.call c hc).1, ?_⟩
  split_ifs
  · simp
  · exact nofun

theorem rfind_dot_none (h : parts.WellFormed) (haddress : parts.address = []) :
    rfind (· = '.') (join parts) parts.indexIdx = none := by
  rw [rfind, upTo_index, haddress, List.nil_append, lastIdx_eq_none, List.forall_mem_append]
  refine ⟨fun c hc => decide_eq_false (h.call c hc).1, ?_⟩
  split_ifs
  · simp
  · exact nofun

theorem split_address (h : parts.WellFormed) :
    splitCallsign (join parts) (rfind (· = '.') (join parts) parts.indexIdx) =
        (parts.callsign, parts.version) ∧
      next (rfind (· = '.') (join parts) parts.indexIdx) = parts.address.length := by
  by_cases hcallsign : parts.callsign = [] <;> by_cases hversion : parts.version = []
  · have haddress : parts.address = [] := by simp [address, hcallsign, hversion]
    rw [rfind_dot_none h haddress, hcallsign, hversion, haddress]
    exact ⟨rfl, rfl⟩
  · have haddress : parts.address = parts.version ++ ['.'] := by
      simp [address, hcallsign, hversion]
    rw [rfind_dot h haddress, join_eq, haddress, hcallsign]
    refine ⟨?_, by simp [next]⟩
    have hsplit := splitCallsign_version (parts.owner ++ parts.method ++ parts.tail) hversion
      h.version
    simpa using hsplit
  · have haddress : parts.address = parts.callsign ++ ['.'] := by
      simp [address, hcallsign, hversion]
    rw [rfind_dot h haddress, join_eq, haddress, hversion]
    refine ⟨?_, by simp [next]⟩
    have hsplit := splitCallsign_callsign (parts.owner ++ parts.method ++ parts.tail)
      hcallsign (h.segment hcallsign)
    simpa using hsplit
  · have haddress : parts.address = (parts.callsign ++ '.' :: parts.version) ++ ['.'] := by
      simp [address, hcallsign, hversion]
    rw [rfind_dot h haddress, join_eq, haddress]
    refine ⟨?_, by simp [next, Nat.add_assoc]⟩
    have hsplit := splitCallsign_both parts.callsign
      (parts.owner ++ parts.method ++ parts.tail) h.version
    simpa using hsplit

/-- The pair of colons of the prefix. -/
theorem rfindPair_owner (h : parts.WellFormed) :
    rfindPair (· = ':') (join parts) parts.indexIdx =
      if parts.prefixText ≠ [] then some ((parts.address ++ parts.owner).length - 2) else none := by
  have hmethod : ∀ c ∈ parts.method, decide (c = ':') = false :=
    fun c hc => decide_eq_false (h.method c hc).2.2.2
  have hbound : upTo (join parts) (parts.indexIdx.map (· + 1)) =
      parts.address ++ (parts.owner ++ parts.method) ++
        if parts.index ≠ [] then '@' :: parts.index.take 1 else [] := by
    rw [join_eq, indexIdx, tail]
    split_ifs
    · rw [Option.map_some, upTo, Nat.add_assoc, List.take_length_add_append]
      rfl
    · rfl
  have hindex : lastPair (· = ':') (parts.address ++ (parts.owner ++ parts.method) ++
        if parts.index ≠ [] then '@' :: parts.index.take 1 else []) =
      lastPair (· = ':') (parts.address ++ (parts.owner ++ parts.method)) := by
    split_ifs
    · refine lastPair_append_cons (by decide) ?_
      cases parts.index <;> simp
    · rw [List.append_nil]
  rw [rfindPair, hbound, hindex]
  by_cases hpre : parts.prefixText = []
  · rw [if_neg (not_not.mpr hpre)]
    refine lastPair_eq_none ?_
    rw [owner, if_neg (not_not.mpr hpre), List.nil_append, List.forall_mem_append]
    exact ⟨fun c hc => decide_eq_false (h.address c hc).2.2, hmethod⟩
  · rw [if_pos hpre]
    obtain ⟨before, hbefore⟩ : ∃ before, parts.owner = before ++ [':', ':'] := by
      rw [owner, if_pos hpre]
      exact ⟨_, rfl⟩
    have htext : parts.address ++ (parts.owner ++ parts.method) =
        (parts.address ++ before) ++ ':' :: ':' :: parts.method := by simp [hbefore]
    rw [htext, lastPair_append_pair (p := fun c => decide (c = ':')) rfl rfl hmethod, hbefore]
    simp only [List.length_append, List.length_cons, List.length_nil]
    exact congrArg some (by omega)

/-- The method is what is left between two positions. -/
theorem substr_method (parts : Designator) :
    substr (join parts) (parts.address ++ parts.owner).length
      (parts.indexIdx.bind (between (parts.address ++ parts.owner).length)) = parts.method := by
  have htext : join parts = (parts.address ++ parts.owner) ++ (parts.method ++ parts.tail) := by
    rw [join_eq]
    simp
  rw [indexIdx]
  by_cases hindex : parts.index = []
  · rw [if_neg (not_not.mpr hindex), Option.bind_none, substr, htext, List.drop_left, tail,
      if_neg (not_not.mpr hindex), List.append_nil]
  · have hlength : (parts.address ++ (parts.owner ++ parts.method)).length =
        (parts.address ++ parts.owner).length + parts.method.length := by simp [Nat.add_assoc]
    rw [if_pos hindex, Option.bind_some, between, hlength, if_pos (Nat.le_add_right ..),
      Nat.add_sub_cancel_left, substr, htext, List.drop_left, List.take_left]

/-- The instance id and the prefix before the pair of colons. -/
theorem split_owner (h : parts.WellFormed) (hpre : parts.prefixText ≠ []) :
    splitInstanceId (join parts) (some ((parts.address ++ parts.owner).length - 2)) =
        parts.instanceId ∧
      splitPrefix (join parts) parts.address.length
        (some ((parts.address ++ parts.owner).length - 2)) = parts.prefixText := by
  have hhash : ∀ c ∈ parts.address ++ parts.prefixText, decide (c = '#') = false := by
    rw [List.forall_mem_append]
    exact ⟨fun c hc => decide_eq_false (h.address c hc).1,
      fun c hc => decide_eq_false (h.prefixText c hc).2.1⟩
  by_cases hid : parts.instanceId = []
  · have htext : join parts = (parts.address ++ parts.prefixText) ++
        ':' :: (':' :: (parts.method ++ parts.tail)) := by
      rw [join_eq]
      simp [owner, hpre, hid]
    have hidxP : (parts.address ++ parts.owner).length - 2 =
        (parts.address ++ parts.prefixText).length := by
      simp [owner, hpre, hid]
      omega
    have hnone : rfind (· = '#') (join parts)
        (some (parts.address ++ parts.prefixText).length) = none := by
      rw [rfind, htext, upTo_append, lastIdx_eq_none, List.forall_mem_append]
      exact ⟨hhash, by simp⟩
    rw [hidxP, splitInstanceId, splitPrefix, hnone]
    refine ⟨hid.symm, ?_⟩
    simp [htext, between, substr]
  · have htext : join parts = (parts.address ++ parts.prefixText ++ '#' :: parts.instanceId) ++
        ':' :: (':' :: (parts.method ++ parts.tail)) := by
      rw [join_eq]
      simp [owner, hpre, hid]
    have hidxP : (parts.address ++ parts.owner).length - 2 =
        (parts.address ++ parts.prefixText ++ '#' :: parts.instanceId).length := by
      simp [owner, hpre, hid]
      omega
    have hsome : rfind (· = '#') (join parts)
        (some (parts.address ++ parts.prefixText ++ '#' :: parts.instanceId).length) =
          some (parts.address ++ parts.prefixText).length := by
      rw [rfind, htext, upTo_append, List.append_assoc _ _ [':'], List.cons_append]
      refine lastIdx_append_cons (decide_eq_true rfl) ?_
      rw [List.forall_mem_append]
      exact ⟨fun c hc => decide_eq_false (h.instanceId c hc).2.1, by simp⟩
    rw [hidxP, splitInstanceId, splitPrefix, hsome]
    constructor
    · have hrest : join parts = (parts.address ++ parts.prefixText) ++ '#' ::
          (parts.instanceId ++ ':' :: ':' :: (parts.method ++ parts.tail)) := by
        rw [htext]
        simp
      have hcount : (parts.address ++ parts.prefixText ++ '#' :: parts.instanceId).length -
          (parts.address ++ parts.prefixText).length - 1 = parts.instanceId.length := by
        simp only [List.length_append, List.length_cons]
        omega
      change ((join parts).drop ((parts.address ++ parts.prefixText).length + 1)).take _ = _
      rw [hcount, hrest, ← List.drop_drop, List.drop_left, List.drop_succ_cons, List.drop_zero,
        List.take_left]
    · simp [htext, between, substr]

/-- Designators split as they were joined. -/
theorem split_join (parts : Designator) (h : parts.WellFormed) : split (join parts) = parts := by
  obtain ⟨haddress, hnext⟩ := split_address h
  simp only [split, rfind_index h, haddress, hnext, rfindPair_owner h, split_index]
  have hmethod := substr_method parts
  by_cases hpre : parts.prefixText = []
  · have howner : parts.owner = [] := by simp [owner, hpre]
    rw [howner, List.append_nil] at hmethod
    simp only [hpre, ne_eq, not_true_eq_false, if_false, hmethod, splitPrefix, splitInstanceId]
    obtain ⟨callsign, version, prefixText, instanceId, method, index⟩ := parts
    replace hpre : prefixText = [] := hpre
    have hid : instanceId = [] := h.owner hpre
    rw [hpre, hid]
  · obtain ⟨hid, hprefixText⟩ := split_owner h hpre
    have htwo : (parts.address ++ parts.owner).length - 2 + 2 =
        (parts.address ++ parts.owner).length := by
      refine Nat.sub_add_cancel ?_
      simp only [owner, if_pos hpre, List.length_append, List.length_cons]
      omega
    simp only [ne_eq, hpre, not_false_eq_true, if_true, htwo, hid, hprefixText, hmethod]

/-- With all parts, and delimiters in the index. -/
theorem split_join_all :
    split "Bridge.Player.12.media#a1::seek@0.5#x::y".toList =
      ⟨"Bridge.Player".toList, "12".toList, "media".toList, "a1".toList, "seek".toList,
        "0.5#x::y".toList⟩ := by
  have hjoin := split_join ⟨"Bridge.Player".toList, "12".toList, "media".toList, "a1".toList,
    "seek".toList, "0.5#x::y".toList⟩ ⟨forall_mem_of_all (by decide),
      fun _ => ⟨'P', by decide, by decide⟩, forall_mem_of_all (by decide),
      forall_mem_of_all (by decide), forall_mem_of_all (by decide), forall_mem_of_all (by decide),
      by decide, by decide⟩
  exact hjoin

end

end Designator

end Thunder.Core.JSONRPC
