import Mathlib.Data.Nat.Bitwise
import Mathlib.Tactic.SplitIfs

/-! `Service::Condition`: the subsystems a plugin waits for and those it stops without, folded into
a mask, an event word and a state byte. -/

namespace Thunder.PluginHost

/-- `ISubSystem::subsystem`, up to END_LIST. -/
inductive Subsystem
  | platform
  | security
  | network
  | identifier
  | graphics
  | internet
  | location
  | time
  | provisioning
  | decryption
  | webSource
  | streaming
  | bluetooth
  | cryptography
  | installation
  deriving DecidableEq

def Subsystem.bitNr : Subsystem → Nat
  | .platform => 0
  | .security => 1
  | .network => 2
  | .identifier => 3
  | .graphics => 4
  | .internet => 5
  | .location => 6
  | .time => 7
  | .provisioning => 8
  | .decryption => 9
  | .webSource => 10
  | .streaming => 11
  | .bluetooth => 12
  | .cryptography => 13
  | .installation => 14

def negativeStart : Nat := 0x80000000

/-- An entry of a list; `negative` for the value with NOT in front. -/
structure Entry where
  negative : Bool
  subsystem : Subsystem
  deriving DecidableEq

def Entry.value (e : Entry) : Nat :=
  if e.negative then negativeStart + e.subsystem.bitNr else e.subsystem.bitNr

structure Condition where
  events : Nat
  mask : Nat
  state : UInt8

namespace Condition

def stateAnd : UInt8 := 0x00
def stateOr : UInt8 := 0x01
def stateError : UInt8 := 0x02
def stateOk : UInt8 := 0x80

variable (c : Condition)

def isValid : Bool := c.state ≠ stateError

def isMet : Bool := c.state &&& stateOk ≠ 0

def addBit (input : Nat) : Condition :=
  if negativeStart ≤ input then
    let bitNr := input - negativeStart
    let c :=
      if c.mask.testBit bitNr ∧ c.events.testBit bitNr ∨ c.state &&& 0x1 ≠ stateOr then
        { c with state := stateError }
      else c
    { c with mask := c.mask ||| 1 <<< bitNr }
  else
    let c :=
      if c.mask.testBit input ∧ ¬ c.events.testBit input ∨ c.state &&& 0x1 ≠ stateAnd then
        { c with state := stateError }
      else { c with events := c.events ||| 1 <<< input }
    { c with mask := c.mask ||| 1 <<< input }

def addBits (input : List Entry) : Condition := input.foldl (fun c e => c.addBit e.value) c

/-- The condition of a configured list. -/
def new (andOperation : Bool) (input : List Entry) : Condition :=
  let c := addBits ⟨0, 0, if andOperation then stateAnd else stateOr⟩ input
  if c.mask = 0 then { c with state := c.state ||| stateOk } else c

/-- `Load`: the list of the metadata added to it. -/
def load (input : List Entry) : Condition :=
  let c := c.addBits input
  { c with state := if c.mask = 0 then c.state ||| stateOk else c.state &&& ~~~stateOk }

/-- What `Evaluate` finds for the subsystems. -/
def compliant (subsystems : Nat) : Bool :=
  if c.state &&& 0x03 = stateAnd then (subsystems &&& c.mask) ^^^ c.events = 0
  else if c.state &&& 0x03 = stateOr then (subsystems &&& c.mask) ^^^ c.events ≠ c.events
  else false

/-- `Evaluate`: whether it changed, and the condition. -/
def evaluate (subsystems : Nat) : Bool × Condition :=
  if c.mask ≠ 0 ∧ c.compliant subsystems ≠ c.isMet then
    (true, { c with state := c.state ^^^ stateOk })
  else (false, c)

/-- The condition of all lists: the configured one, and those that are loaded. -/
def ofLists (andOperation : Bool) (configured : List Entry) (loaded : List (List Entry)) :
    Condition :=
  loaded.foldl load (new andOperation configured)

/-! ### The subsystems change -/

/-- The flags of the subsystems, and the condition. -/
structure World where
  flags : Nat
  condition : Condition

inductive Change
  | set (type : Subsystem)
  | unset (type : Subsystem)
  | evaluate

def World.change (w : World) : Change → World
  | .set type => { w with flags := w.flags ||| 1 <<< type.bitNr }
  | .unset type => { w with flags := w.flags &&& (2 ^ 32 - 1 ^^^ 1 <<< type.bitNr) }
  | .evaluate => { w with condition := (w.condition.evaluate w.flags).2 }

/-! ### What is claimed of it -/

/-- A list of preconditions names no absence, and a list of terminations names no subsystem in both
ways. -/
def Consistent (andOperation : Bool) (entries : List Entry) : Prop :=
  if andOperation then ∀ e ∈ entries, e.negative = false
  else ∀ e ∈ entries, ∀ e' ∈ entries, e.subsystem = e'.subsystem → e.negative = e'.negative

/-- The documented meaning, of a list of preconditions and of one of terminations: every listed
subsystem is active. -/
def Meets (flags : Nat) (entries : List Entry) : Prop :=
  ∀ e ∈ entries, flags.testBit e.subsystem.bitNr = true

/-- A condition that is valid is after an evaluation what is documented, and tells a change; one of
an inconsistent list is not valid and not met. -/
structure HonouredAt (andOperation : Bool) (entries : List Entry) (w : World) : Prop where
  valid : w.condition.isValid = true ↔ Consistent andOperation entries
  met : Consistent andOperation entries →
    ((w.condition.evaluate w.flags).2.isMet = true ↔ Meets w.flags entries)
  notMet : ¬ Consistent andOperation entries → w.condition.isMet = false
  changed : (w.condition.evaluate w.flags).1 = true ↔
    w.condition.isMet ≠ (w.condition.evaluate w.flags).2.isMet

/-- Whatever the flags are at first and however they change. -/
def Honoured (andOperation : Bool) (configured : List Entry) (loaded : List (List Entry)) : Prop :=
  ∀ flags changes,
    HonouredAt andOperation (configured ++ loaded.flatten)
      ((changes : List Change).foldl World.change ⟨flags, ofLists andOperation configured loaded⟩)

/-! ### The words of a condition -/

theorem bitNr_injective {s s' : Subsystem} (h : s.bitNr = s'.bitNr) : s = s' := by
  cases s <;> cases s' <;> first | rfl | cases h

theorem bitNr_lt (s : Subsystem) : s.bitNr < negativeStart := by
  cases s <;> decide

theorem testBit_mark (n bitNr i : Nat) :
    (n ||| 1 <<< bitNr).testBit i = true ↔ n.testBit i = true ∨ bitNr = i := by
  rw [Nat.testBit_or, Nat.one_shiftLeft, Nat.testBit_two_pow, Bool.or_eq_true, decide_eq_true_eq]

/-- The state byte of a kind, with or without the bit that says it is met. -/
def stateOf (andOperation error met : Bool) : UInt8 :=
  (if error then stateError else if andOperation then stateAnd else stateOr) |||
    (if met then stateOk else 0)

/-- An entry has the form that the kind of condition takes. -/
def Fits (andOperation : Bool) (e : Entry) : Prop := e.negative = !andOperation

instance (andOperation : Bool) (e : Entry) : Decidable (Fits andOperation e) :=
  inferInstanceAs (Decidable (_ = _))

/-- What the words of a condition say of the entries that were added. -/
structure Has (andOperation : Bool) (entries : List Entry) (met : Bool) (c : Condition) : Prop where
  mask : ∀ i, c.mask.testBit i = true ↔ ∃ e ∈ entries, e.subsystem.bitNr = i
  fits : (∀ e ∈ entries, Fits andOperation e) →
    c.state = stateOf andOperation false met ∧ c.events = if andOperation then c.mask else 0
  error : ¬ (∀ e ∈ entries, Fits andOperation e) → c.state = stateOf andOperation true false

section

variable {c : Condition} {andOperation met : Bool} {entries : List Entry}

theorem addBit_negative (s : Subsystem) :
    c.addBit (negativeStart + s.bitNr) =
      { c with
        state :=
          if c.mask.testBit s.bitNr ∧ c.events.testBit s.bitNr ∨ c.state &&& 0x1 ≠ stateOr then
            stateError
          else c.state
        mask := c.mask ||| 1 <<< s.bitNr } := by
  rw [addBit, if_pos (Nat.le_add_right ..), Nat.add_sub_cancel_left]
  dsimp only
  split_ifs <;> rfl

theorem addBit_positive (s : Subsystem) :
    c.addBit s.bitNr =
      if c.mask.testBit s.bitNr ∧ ¬ c.events.testBit s.bitNr ∨ c.state &&& 0x1 ≠ stateAnd then
        { c with state := stateError, mask := c.mask ||| 1 <<< s.bitNr }
      else
        { c with
          events := c.events ||| 1 <<< s.bitNr, mask := c.mask ||| 1 <<< s.bitNr } := by
  rw [addBit, if_neg (Nat.not_le_of_lt (bitNr_lt s))]
  dsimp only
  split_ifs <;> rfl

theorem addBit_mask (e : Entry) : (c.addBit e.value).mask = c.mask ||| 1 <<< e.subsystem.bitNr := by
  rw [Entry.value]
  cases e.negative with
  | true => rw [if_pos rfl, addBit_negative]
  | false =>
    rw [if_neg (by decide), addBit_positive]
    split_ifs <;> rfl

theorem stateOf_or (met : Bool) : stateOf false false met &&& 0x1 = stateOr := by
  cases met <;> decide

theorem stateOf_and (met : Bool) : stateOf true false met &&& 0x1 = stateAnd := by
  cases met <;> decide

theorem stateOf_error (andOperation : Bool) : stateOf andOperation true false = stateError := by
  cases andOperation <;> decide

/-- An entry of the right form leaves the state as it is. -/
theorem Has.addBit_fits {e : Entry} (h : Has andOperation entries met c)
    (hall : ∀ e ∈ entries, Fits andOperation e) (he : Fits andOperation e) :
    (c.addBit e.value).state = stateOf andOperation false met ∧
      (c.addBit e.value).events = if andOperation then (c.addBit e.value).mask else 0 := by
  obtain ⟨hstate, hevents⟩ := h.fits hall
  rw [Fits] at he
  rw [Entry.value, he]
  cases andOperation with
  | true =>
    rw [if_pos rfl] at hevents
    rw [if_neg (by decide), addBit_positive, hevents, if_neg]
    · exact ⟨hstate, rfl⟩
    · rw [hstate, stateOf_and]
      simp
  | false =>
    rw [if_neg (by decide)] at hevents
    rw [if_pos (by decide), addBit_negative, hevents, hstate, stateOf_or, if_neg (by simp)]
    exact ⟨rfl, rfl⟩

/-- Another entry, or any entry behind one, is an error. -/
theorem Has.addBit_error {e : Entry} (h : Has andOperation entries met c)
    (hnot : ¬ ∀ e' ∈ entries ++ [e], Fits andOperation e') :
    (c.addBit e.value).state = stateError := by
  have hstate : (∀ e ∈ entries, Fits andOperation e) → ¬ Fits andOperation e := by
    intro hall he
    refine hnot fun e' he' => ?_
    rcases List.mem_append.mp he' with he' | he'
    · exact hall e' he'
    · exact List.mem_singleton.mp he' ▸ he
  rw [Entry.value]
  by_cases hall : ∀ e ∈ entries, Fits andOperation e
  · have hfit := hstate hall
    have hkind := (h.fits hall).1
    rw [Fits] at hfit
    cases andOperation <;> cases hnegative : e.negative <;> rw [hnegative] at hfit
    · rw [if_neg (by decide), addBit_positive, if_pos]
      rw [hkind, stateOf_or]
      exact .inr (by decide)
    · exact absurd rfl hfit
    · exact absurd rfl hfit
    · rw [if_pos rfl, addBit_negative, if_pos]
      rw [hkind, stateOf_and]
      exact .inr (by decide)
  · have herror : c.state = stateError := (h.error hall).trans (stateOf_error _)
    cases e.negative with
    | true =>
      rw [if_pos rfl, addBit_negative]
      exact ite_eq_left_iff.mpr fun _ => herror
    | false =>
      rw [if_neg (by decide), addBit_positive]
      split_ifs
      · rfl
      · exact herror

theorem Has.addBit (h : Has andOperation entries met c) (e : Entry) :
    Has andOperation (entries ++ [e]) met (c.addBit e.value) where
  mask i := by
    rw [addBit_mask, testBit_mark, h.mask]
    simp only [List.mem_append, List.mem_singleton, or_and_right, exists_or, exists_eq_left]
  fits hall :=
    h.addBit_fits (fun e' he' => hall e' (List.mem_append_left _ he')) (hall e (by simp))
  error hnot := (h.addBit_error hnot).trans (stateOf_error _).symm

theorem Has.addBits (h : Has andOperation entries met c) (input : List Entry) :
    Has andOperation (entries ++ input) met (c.addBits input) := by
  induction input generalizing c entries with
  | nil =>
    rw [List.append_nil]
    exact h
  | cons e input ih =>
    rw [← List.singleton_append, ← List.append_assoc]
    exact ih (h.addBit e)

theorem Has.mask_eq_zero (h : Has andOperation entries met c) : c.mask = 0 ↔ entries = [] := by
  constructor
  · intro hzero
    refine List.eq_nil_iff_forall_not_mem.mpr fun e he => ?_
    have hbit := (h.mask e.subsystem.bitNr).mpr ⟨e, he, rfl⟩
    rw [hzero, Nat.zero_testBit] at hbit
    cases hbit
  · rintro rfl
    refine Nat.eq_of_testBit_eq fun i => ?_
    rw [Nat.zero_testBit, ← Bool.not_eq_true, h.mask]
    simp

theorem stateOf_met (andOperation met : Bool) :
    stateOf andOperation false met ||| stateOk = stateOf andOperation false true := by
  cases andOperation <;> cases met <;> decide

theorem stateOf_notMet (andOperation error met : Bool) :
    stateOf andOperation error met &&& ~~~stateOk = stateOf andOperation error false := by
  cases andOperation <;> cases error <;> cases met <;> decide

/-- The state byte is written anew. -/
theorem Has.setState {met' : Bool} {state : UInt8} (h : Has andOperation entries met c)
    (hfits : (∀ e ∈ entries, Fits andOperation e) → state = stateOf andOperation false met')
    (herror : ¬ (∀ e ∈ entries, Fits andOperation e) → state = stateOf andOperation true false) :
    Has andOperation entries met' { c with state } :=
  ⟨h.mask, fun hall => ⟨hfits hall, (h.fits hall).2⟩, herror⟩

theorem new_has (andOperation : Bool) (input : List Entry) :
    ∃ met, Has andOperation input met (new andOperation input) ∧ (input = [] → met = true) := by
  have hempty : Has andOperation [] false ⟨0, 0, if andOperation then stateAnd else stateOr⟩ := by
    refine ⟨fun i => by simp, fun _ => ?_, fun hnot => absurd (by simp) hnot⟩
    cases andOperation <;> exact ⟨by decide, by decide⟩
  have h := hempty.addBits input
  rw [List.nil_append] at h
  rw [new]
  generalize Condition.addBits _ input = c at h ⊢
  split_ifs with hmask
  · obtain rfl := h.mask_eq_zero.mp hmask
    refine ⟨true, h.setState (fun hall => ?_) fun hnot => absurd (by simp) hnot, fun _ => rfl⟩
    rw [(h.fits hall).1, stateOf_met]
  · exact ⟨false, h, fun hnil => absurd (h.mask_eq_zero.mpr hnil) hmask⟩

theorem Has.load (h : Has andOperation entries met c) (input : List Entry) :
    ∃ met', Has andOperation (entries ++ input) met' (c.load input) ∧
      (entries ++ input = [] → met' = true) := by
  have hadded := h.addBits input
  rw [Condition.load]
  split_ifs with hmask
  · have hnil := hadded.mask_eq_zero.mp hmask
    rw [hnil] at hadded ⊢
    refine ⟨true, hadded.setState (fun hall => ?_) fun hnot => absurd (by simp) hnot, fun _ => rfl⟩
    rw [(hadded.fits hall).1, stateOf_met]
  · refine ⟨false, hadded.setState (fun hall => ?_) fun hnot => ?_,
      fun hnil => absurd (hadded.mask_eq_zero.mpr hnil) hmask⟩
    · rw [(hadded.fits hall).1, stateOf_notMet]
    · rw [hadded.error hnot, stateOf_notMet]

theorem ofLists_has (andOperation : Bool) (configured : List Entry) (loaded : List (List Entry)) :
    ∃ met, Has andOperation (configured ++ loaded.flatten) met
        (ofLists andOperation configured loaded) ∧
      (configured ++ loaded.flatten = [] → met = true) := by
  rw [ofLists]
  obtain ⟨met, h, hnil⟩ := new_has andOperation configured
  generalize new andOperation configured = c at h
  induction loaded generalizing c configured met with
  | nil =>
    rw [List.flatten_nil, List.append_nil]
    exact ⟨met, h, hnil⟩
  | cons input loaded ih =>
    obtain ⟨met', h', hnil'⟩ := h.load input
    rw [List.flatten_cons, ← List.append_assoc]
    exact ih _ _ hnil' _ h'

/-! ### The condition is evaluated -/

section

variable {c : Condition} {andOperation met : Bool} {entries : List Entry}

theorem stateOf_toggle (andOperation met : Bool) :
    stateOf andOperation false met ^^^ stateOk = stateOf andOperation false !met := by
  cases andOperation <;> cases met <;> decide

theorem isMet_stateOf (andOperation met : Bool) :
    (stateOf andOperation false met &&& stateOk ≠ 0) ↔ met = true := by
  cases andOperation <;> cases met <;> decide

theorem Has.isMet (h : Has andOperation entries met c) (hall : ∀ e ∈ entries, Fits andOperation e) :
    c.isMet = met := by
  rw [Bool.eq_iff_iff, Condition.isMet, decide_eq_true_eq, (h.fits hall).1]
  exact isMet_stateOf andOperation met

theorem Has.isMet_error (h : Has andOperation entries met c)
    (hnot : ¬ ∀ e ∈ entries, Fits andOperation e) : c.isMet = false := by
  rw [Condition.isMet, h.error hnot]
  cases andOperation <;> decide

theorem Has.isValid (h : Has andOperation entries met c) :
    c.isValid = true ↔ ∀ e ∈ entries, Fits andOperation e := by
  rw [Condition.isValid, decide_eq_true_eq]
  constructor
  · intro hvalid
    by_contra hnot
    refine hvalid ?_
    rw [h.error hnot]
    cases andOperation <;> decide
  · intro hall
    rw [(h.fits hall).1]
    cases andOperation <;> cases met <;> decide

/-- All the listed subsystems are active. -/
theorem Has.compliant_and (h : Has true entries met c) (hall : ∀ e ∈ entries, Fits true e)
    (flags : Nat) : c.compliant flags = true ↔ Meets flags entries := by
  obtain ⟨hstate, hevents⟩ := h.fits hall
  have hkind : c.state &&& 0x03 = stateAnd := by
    rw [hstate]
    cases met <;> decide
  rw [compliant, if_pos hkind, decide_eq_true_eq, hevents, if_pos rfl]
  constructor
  · intro hzero e he
    have hmask := (h.mask e.subsystem.bitNr).mpr ⟨e, he, rfl⟩
    have hbit := congrArg (Nat.testBit · e.subsystem.bitNr) hzero
    simpa [hmask] using hbit
  · intro hmeets
    refine Nat.eq_of_testBit_eq fun i => ?_
    rw [Nat.testBit_xor, Nat.testBit_and, Nat.zero_testBit]
    cases hmask : c.mask.testBit i with
    | false => rw [Bool.and_false]; rfl
    | true =>
      obtain ⟨e, he, rfl⟩ := (h.mask i).mp hmask
      rw [hmeets e he]
      rfl

/-- One of the listed subsystems is active. -/
theorem Has.compliant_or (h : Has false entries met c) (hall : ∀ e ∈ entries, Fits false e)
    (flags : Nat) :
    c.compliant flags = true ↔ ∃ e ∈ entries, flags.testBit e.subsystem.bitNr = true := by
  obtain ⟨hstate, hevents⟩ := h.fits hall
  have hkind : c.state &&& 0x03 = stateOr := by
    rw [hstate]
    cases met <;> decide
  rw [compliant, if_neg (by rw [hkind]; decide), if_pos hkind, decide_eq_true_eq, hevents,
    if_neg (by decide), Nat.xor_zero]
  constructor
  · intro hne
    obtain ⟨i, hi⟩ := Nat.exists_testBit_of_ne_zero hne
    rw [Nat.testBit_and, Bool.and_eq_true] at hi
    obtain ⟨e, he, rfl⟩ := (h.mask i).mp hi.2
    exact ⟨e, he, hi.1⟩
  · rintro ⟨e, he, hactive⟩ hzero
    have hmask := (h.mask e.subsystem.bitNr).mpr ⟨e, he, rfl⟩
    have hbit := congrArg (Nat.testBit · e.subsystem.bitNr) hzero
    rw [Nat.testBit_and, hactive, hmask, Nat.zero_testBit] at hbit
    cases hbit

theorem Has.compliant_error (h : Has andOperation entries met c)
    (hnot : ¬ ∀ e ∈ entries, Fits andOperation e) (flags : Nat) : c.compliant flags = false := by
  rw [compliant, h.error hnot, if_neg (by cases andOperation <;> decide),
    if_neg (by cases andOperation <;> decide)]

/-- An evaluation leaves the condition with what it found, and tells whether that is another value.
-/
theorem Has.evaluate (h : Has andOperation entries met c) (hempty : entries = [] → met = true)
    (flags : Nat) :
    ∃ met', Has andOperation entries met' (c.evaluate flags).2 ∧ (entries = [] → met' = true) ∧
      (entries ≠ [] → (∀ e ∈ entries, Fits andOperation e) → met' = c.compliant flags) ∧
      ((c.evaluate flags).1 = true ↔ c.isMet ≠ (c.evaluate flags).2.isMet) := by
  rw [Condition.evaluate]
  by_cases hchange : c.mask ≠ 0 ∧ c.compliant flags ≠ c.isMet
  · obtain ⟨hmask, hdiffers⟩ := hchange
    have hne : entries ≠ [] := fun hnil => hmask (h.mask_eq_zero.mpr hnil)
    rw [if_pos ⟨hmask, hdiffers⟩]
    by_cases hall : ∀ e ∈ entries, Fits andOperation e
    · have hstate := (h.fits hall).1
      have h' : Has andOperation entries (!met) { c with state := c.state ^^^ stateOk } :=
        h.setState (fun _ => by rw [hstate, stateOf_toggle]) fun hnot => absurd hall hnot
      rw [h.isMet hall] at hdiffers ⊢
      refine ⟨!met, h', fun hnil => absurd hnil hne, fun _ _ => ?_, ?_⟩
      · exact (Bool.eq_not.mpr hdiffers).symm
      · rw [h'.isMet hall]
        simp
    · rw [h.compliant_error hall, h.isMet_error hall] at hdiffers
      exact absurd rfl hdiffers
  · rw [if_neg hchange]
    refine ⟨met, h, hempty, fun hne hall => ?_, by simp⟩
    have hmask : c.mask ≠ 0 := fun hzero => hne (h.mask_eq_zero.mp hzero)
    have hsame : c.compliant flags = c.isMet := by
      by_contra hdiffers
      exact hchange ⟨hmask, hdiffers⟩
    rw [hsame, h.isMet hall]

theorem run_has {w : World} (changes : List Change) (h : Has andOperation entries met w.condition)
    (hempty : entries = [] → met = true) :
    ∃ met', Has andOperation entries met' (changes.foldl World.change w).condition ∧
      (entries = [] → met' = true) := by
  induction changes generalizing w met with
  | nil => exact ⟨met, h, hempty⟩
  | cons change changes ih =>
    cases change with
    | set type => exact ih (w := w.change (.set type)) h hempty
    | unset type => exact ih (w := w.change (.unset type)) h hempty
    | evaluate =>
      obtain ⟨met', h', hempty', -⟩ := h.evaluate hempty w.flags
      exact ih (w := w.change .evaluate) h' hempty'

/-- The lists that are honoured: those of preconditions, and those of terminations that name at
most one subsystem, as an absence, or that are not consistent. -/
theorem honoured_iff (andOperation : Bool) (configured : List Entry) (loaded : List (List Entry)) :
    Honoured andOperation configured loaded ↔
      (andOperation = false → Consistent false (configured ++ loaded.flatten) →
        (∀ e ∈ configured ++ loaded.flatten, e.negative = true) ∧
          ∀ e ∈ configured ++ loaded.flatten, ∀ e' ∈ configured ++ loaded.flatten,
            e.subsystem = e'.subsystem) := by
  obtain ⟨met, h, hempty⟩ := ofLists_has andOperation configured loaded
  rw [Honoured]
  generalize ofLists andOperation configured loaded = c at h ⊢
  generalize configured ++ loaded.flatten = entries at h hempty ⊢
  constructor
  · rintro hhonoured rfl hconsistent
    have hall : ∀ e ∈ entries, Fits false e := h.isValid.mp ((hhonoured 0 []).valid.mpr hconsistent)
    refine ⟨hall, fun e he e' he' => ?_⟩
    -- Only the first of the two is active.
    have hmet := (hhonoured (1 <<< e.subsystem.bitNr) []).met hconsistent
    obtain ⟨met', h', -, hcompliant, -⟩ := h.evaluate hempty (1 <<< e.subsystem.bitNr)
    have hactive : (1 <<< e.subsystem.bitNr).testBit e.subsystem.bitNr = true := by
      rw [Nat.one_shiftLeft, Nat.testBit_two_pow_self]
    have hfound := hcompliant (List.ne_nil_of_mem he) hall
    rw [(h.compliant_or hall _).mpr ⟨e, he, hactive⟩] at hfound
    have hmeets : (1 <<< e.subsystem.bitNr).testBit e'.subsystem.bitNr = true :=
      hmet.mp ((h'.isMet hall).trans hfound) e' he'
    rw [Nat.one_shiftLeft, Nat.testBit_two_pow, decide_eq_true_eq] at hmeets
    exact bitNr_injective hmeets
  · intro hlists flags changes
    obtain ⟨met', h', hempty'⟩ := run_has (w := ⟨flags, c⟩) changes h hempty
    generalize changes.foldl World.change ⟨flags, c⟩ = w at h' ⊢
    have hconsistent : Consistent andOperation entries ↔ ∀ e ∈ entries, Fits andOperation e := by
      cases andOperation with
      | true => exact Iff.rfl
      | false =>
        refine ⟨fun hconsistent => (hlists rfl hconsistent).1, fun hall e he e' he' _ => ?_⟩
        rw [show e.negative = true from hall e he, show e'.negative = true from hall e' he']
    obtain ⟨met'', h'', hempty'', hcompliant, hchanged⟩ := h'.evaluate hempty' w.flags
    refine ⟨h'.isValid.trans hconsistent.symm, fun hok => ?_, fun hnot => ?_, hchanged⟩
    · have hall := hconsistent.mp hok
      rw [h''.isMet hall]
      by_cases hne : entries = []
      · rw [hempty'' hne, hne]
        simp [Meets]
      · rw [hcompliant hne hall]
        cases andOperation with
        | true => exact h'.compliant_and hall w.flags
        | false =>
          obtain ⟨e, he⟩ := List.exists_mem_of_ne_nil entries hne
          rw [h'.compliant_or hall w.flags]
          refine ⟨fun ⟨e', he', hactive⟩ e'' he'' => ?_, fun hmeets => ⟨e, he, hmeets e he⟩⟩
          rw [(hlists rfl hok).2 e'' he'' e' he']
          exact hactive
    · exact h'.isMet_error fun hall => hnot (hconsistent.mpr hall)

/-- A list of terminations with two absences: it is violated only when both subsystems are
inactive. -/
theorem not_honoured_two :
    ¬ Honoured false [] [[⟨true, .network⟩, ⟨true, .internet⟩]] := by
  intro h
  have hconsistent : Consistent false [⟨true, .network⟩, ⟨true, .internet⟩] := by
    intro e he e' he' _
    revert e he e' he'
    decide
  have hmet := (h (1 <<< Subsystem.network.bitNr) []).met hconsistent
  exact absurd (hmet.mp (by decide) ⟨true, .internet⟩ (by decide)) (by decide)

end

end

end Condition

end Thunder.PluginHost
