import Thunder.Library.Run
import Mathlib.Data.BitVec
import Mathlib.Data.List.Basic
import Mathlib.Data.List.Count
import Mathlib.Data.List.Flatten
import Mathlib.Data.List.Nodup
import Mathlib.Logic.Function.Basic
import Mathlib.Tactic.SplitIfs

/-! `VirtualInput`: the keys of a client, mapped, wrapped into modifiers and looked up once more. -/

namespace Thunder.PluginHost

open Function

/-- `KeyMap::modifier` and `enumModifier`. -/
inductive Modifier
  | leftShift
  | rightShift
  | leftAlt
  | rightAlt
  | leftCtrl
  | rightCtrl
  deriving DecidableEq

namespace Modifier

/-- In the order of `ModifierKey`. -/
def all : List Modifier := [leftShift, rightShift, leftAlt, rightAlt, leftCtrl, rightCtrl]

def index : Modifier → Nat
  | leftShift => 0
  | rightShift => 1
  | leftAlt => 2
  | rightAlt => 3
  | leftCtrl => 4
  | rightCtrl => 5

/-- The bit in a set of modifiers. -/
def flag (m : Modifier) : BitVec 16 := 1 <<< m.index

/-- Where its reference count begins. -/
def mode (m : Modifier) : Nat := 4 * m.index

end Modifier

/-- `IVirtualInput::KeyData`. -/
inductive KeyAction
  | released
  | pressed
  | repeated
  | completed
  deriving DecidableEq

structure KeyData where
  action : KeyAction
  code : BitVec 16
  deriving DecidableEq

/-- The result of `KeyEvent`. -/
inductive KeyResult
  | none
  | unknownTable
  | unknownKey
  | alreadyReleased
  deriving DecidableEq

structure KeyMap.ConversionInfo where
  code : BitVec 16
  modifiers : BitVec 16

structure KeyMap where
  keyMap : BitVec 32 → Option KeyMap.ConversionInfo
  passThrough : Bool

/-- No code. -/
def noCode : BitVec 32 := BitVec.allOnes 32

/-- The code to send for an input code. -/
def KeyMap.convert (map : KeyMap) (code : BitVec 32) : KeyResult × BitVec 32 :=
  match map.keyMap code with
  | Option.none => if map.passThrough then (.none, code) else (.unknownKey, noCode)
  | some element => (.none, element.code.setWidth 32 ||| element.modifiers.setWidth 32 <<< 16)

/-- A `PostLookupTable::Conversion`, with what is set of it. -/
structure PostLookupTable.KeyCode where
  code : BitVec 16
  mods : List Modifier

structure PostLookupTable.Conversion where
  input : Option PostLookupTable.KeyCode
  output : Option PostLookupTable.KeyCode

namespace VirtualInput

/-- `Modifiers` of a JSON array. -/
def modifiersOf (mods : List Modifier) : BitVec 16 :=
  mods.foldl (fun result m => result ||| m.flag) 0

/-- An entry of `PostLookup`: the modifiers are those of the input in both codes. -/
def entryOf (conversion : PostLookupTable.Conversion) : Option (BitVec 32 × BitVec 32) :=
  conversion.input.map fun input =>
    let mods := (modifiersOf input.mods).setWidth 32 <<< 16
    (input.code.setWidth 32 ||| mods,
      match conversion.output with
      | none => noCode
      | some output => output.code.setWidth 32 ||| mods)

/-- The table that `PostLookup` makes of its conversions; the first entry of a code counts. -/
def postLookup (conversions : List PostLookupTable.Conversion) : List (BitVec 32 × BitVec 32) :=
  conversions.filterMap entryOf

/-- An input key. -/
structure Key where
  code : BitVec 32
  table : String
  deriving DecidableEq

/-- What a `VirtualInput` is set up with: the key maps, the conversions that were read for all
clients, the codes of the modifier keys, and the repeat timer. -/
structure Config where
  mappingTables : String → Option KeyMap
  defaultMap : Option KeyMap
  conversions : List PostLookupTable.Conversion
  key : Modifier → BitVec 16
  startTime : BitVec 16
  repeatLimit : BitVec 16

end VirtualInput

/-- The state, with `repeating` for the code of the timer, and what was sent, the last first.
`down` are the input keys that are pressed, `references` how often each modifier was pressed and not
released. -/
structure VirtualInput where
  modifiers : BitVec 32
  pressedCode : BitVec 32
  repeatCounter : BitVec 16
  repeating : BitVec 32
  sent : List KeyData
  down : List VirtualInput.Key
  references : Modifier → Int

namespace VirtualInput

inductive Action
  | keyEvent (pressed : Bool) (key : Key)
  | repeatKey

def new : VirtualInput where
  modifiers := 0
  pressedCode := noCode
  repeatCounter := 0
  repeating := noCode
  sent := []
  down := []
  references _ := 0

/-- The output code of a code, and its modifiers. -/
def low (code : BitVec 32) : BitVec 16 := code.setWidth 16

def high (code : BitVec 32) : BitVec 16 := (code >>> 16).setWidth 16

/-- `Modifier(code)`. -/
def Config.isModifier (c : Config) (code : BitVec 32) : Bool :=
  Modifier.all.any fun m => c.key m = low code

def wraps (code : BitVec 32) (m : Modifier) : Bool := high code &&& m.flag ≠ 0

def send (s : VirtualInput) (action : KeyAction) (code : BitVec 16) : VirtualInput :=
  { s with sent := ⟨action, code⟩ :: s.sent }

def count (s : VirtualInput) (m : Modifier) : Nat := ((s.modifiers >>> m.mode) &&& 0xF).toNat

/-- The count of a modifier is cleared and written again. -/
def write (s : VirtualInput) (m : Modifier) (value : BitVec 32) : VirtualInput :=
  { s with modifiers := (s.modifiers &&& ~~~((0xF : BitVec 32) <<< m.mode)) ||| value <<< m.mode }

/-- `SendModifier`. -/
def sendModifier (s : VirtualInput) (type : KeyAction) (m : Modifier) : Bool × VirtualInput :=
  match type with
  | .pressed =>
    (s.count m = 0,
      { s.write m (BitVec.ofNat 32 (s.count m) + 1) with
        references := update s.references m (s.references m + 1) })
  | .released =>
    (s.count m = 1,
      { s.write m (BitVec.ofNat 32 (s.count m) - 1) with
        references := update s.references m (s.references m - 1) })
  | _ => (false, s)

/-- One modifier of `ModifierKey`. -/
def modifierOne (c : Config) (type : KeyAction) (modifiers : BitVec 16) (s : VirtualInput)
    (m : Modifier) : VirtualInput :=
  if modifiers &&& m.flag ≠ 0 then
    let r := s.sendModifier type m
    if r.1 then r.2.send type (c.key m) else r.2
  else s

def modifierKey (c : Config) (s : VirtualInput) (type : KeyAction) (modifiers : BitVec 16) :
    VirtualInput :=
  Modifier.all.foldl (modifierOne c type modifiers) s

/-- What the parent table makes of a code. -/
def Config.lookedUp (c : Config) (code : BitVec 32) : BitVec 32 :=
  match (postLookup c.conversions).find? fun entry => entry.1 = code with
  | none => code
  | some entry => entry.2

/-- `DispatchRegisteredKey(PRESSED, code)`. -/
def dispatchPressed (c : Config) (s : VirtualInput) (code : BitVec 32) : VirtualInput :=
  let sendCode := c.lookedUp code
  if sendCode ≠ noCode then
    let s := { s with
      repeatCounter := c.repeatLimit
      repeating := if c.startTime ≠ 0 then sendCode else s.repeating
      pressedCode := code }
    let s := if high sendCode ≠ 0 then s.modifierKey c .pressed (high sendCode) else s
    (s.send .pressed (low sendCode)).send .completed (low sendCode)
  else s

/-- `DispatchRegisteredKey(RELEASED, code)`: no post look-up here. -/
def dispatchReleased (c : Config) (s : VirtualInput) (code : BitVec 32) : VirtualInput :=
  if code ≠ noCode then
    let s := { s with repeating := noCode, pressedCode := noCode }
    let s := s.send .released (low code)
    let s := if high code ≠ 0 then s.modifierKey c .released (high code) else s
    s.send .completed (low code)
  else s

/-- `KeyEvent`, but for the notifiers. -/
def keyEvent (c : Config) (s : VirtualInput) (pressed : Bool) (key : Key) :
    KeyResult × VirtualInput :=
  match (c.mappingTables key.table).or c.defaultMap with
  | none => (.unknownTable, s)
  | some conversionTable =>
    let (result, sendCode) := conversionTable.convert key.code
    if pressed = false ∧ s.pressedCode ≠ sendCode ∧ c.isModifier sendCode = false then
      (.alreadyReleased, s)
    else if sendCode ≠ noCode then
      if pressed then
        let s := if s.pressedCode ≠ noCode ∧ c.isModifier s.pressedCode = false then
          s.dispatchReleased c s.pressedCode else s
        (result, s.dispatchPressed c sendCode)
      else (result, s.dispatchReleased c sendCode)
    else (result, s)

/-- A turn of the timer: `RepeatKey` of its code. -/
def repeatKey (c : Config) (s : VirtualInput) : VirtualInput :=
  if s.repeating ≠ noCode then
    let s := s.send .repeated (low s.repeating)
    let s := { s with repeatCounter := s.repeatCounter - 1 }
    if s.repeatCounter = 0 then s.dispatchReleased c s.pressedCode else s
  else s

def step (c : Config) (s : VirtualInput) : Action → VirtualInput
  | .keyEvent pressed key =>
    { (s.keyEvent c pressed key).2 with
      down := if pressed then s.down.insert key else s.down.erase key }
  | .repeatKey => s.repeatKey c

/-! ### What is claimed of it -/

/-- How often an action was sent with an output code. -/
def sentCount (s : VirtualInput) (action : KeyAction) (code : BitVec 16) : Nat :=
  s.sent.count ⟨action, code⟩

/-- What an input key is mapped to. -/
def Config.sendCode (c : Config) (key : Key) : BitVec 32 :=
  match (c.mappingTables key.table).or c.defaultMap with
  | none => noCode
  | some conversionTable => (conversionTable.convert key.code).2

/-- The output codes of an input key: the one it is looked up to and those of its modifiers. -/
def Config.outputs (c : Config) (key : Key) : List (BitVec 16) :=
  let sendCode := c.lookedUp (c.sendCode key)
  if c.sendCode key = noCode ∨ sendCode = noCode then []
  else low sendCode :: (Modifier.all.filter (wraps sendCode)).map c.key

/-- What was pressed and not released is due to an input key that is pressed, a reference count is
how often its modifier was pressed and not released, and no modifier is left without an input key.
-/
structure Balanced (c : Config) (s : VirtualInput) : Prop where
  matched : ∀ code, s.sentCount .released code ≤ s.sentCount .pressed code ∧
    s.sentCount .pressed code ≤
      s.sentCount .released code + (s.down.flatMap c.outputs).count code
  counted : ∀ m, 0 ≤ s.references m ∧ s.references m ≤ 15 ∧ s.count m = s.references m
  ended : s.down = [] → s.modifiers = 0

/-- No key is looked up to another one, and none that is a modifier to nothing.  A modifier key is
not pressed twice, is only released when it is pressed and no other key is, and does not get to the
repeat limit; and of those that are pressed fewer than 15 are wrapped into a modifier of the next
key. -/
def Proper (c : Config) (s : VirtualInput) : Action → Prop
  | .keyEvent true key =>
    c.sendCode key ≠ noCode →
      (c.lookedUp (c.sendCode key) = c.sendCode key ∨
        c.lookedUp (c.sendCode key) = noCode ∧ c.isModifier (c.sendCode key) = false) ∧
      (c.isModifier (c.sendCode key) = true → key ∉ s.down) ∧
      (c.lookedUp (c.sendCode key) ≠ noCode → ∀ m, wraps (c.sendCode key) m = true →
        (s.down.filter fun key =>
          c.isModifier (c.sendCode key) ∧ wraps (c.sendCode key) m).length < 15)
  | .keyEvent false key =>
    c.sendCode key ≠ noCode → c.isModifier (c.sendCode key) = true →
      key ∈ s.down ∧ (s.pressedCode = noCode ∨ c.isModifier s.pressedCode = true)
  | .repeatKey =>
    s.repeating ≠ noCode → s.repeatCounter = 1 → c.isModifier s.pressedCode = false

/-! ### Reference counts -/

section

variable {c : Config} {s : VirtualInput} {m m' : Modifier} {value : BitVec 32}

theorem getLsbD_fifteen (i : Nat) : (0xF : BitVec 32).getLsbD i = decide (i < 4) :=
  Nat.testBit_two_pow_sub_one 4 i

theorem getLsbD_small (h : value.toNat < 16) {i : Nat} (hi : 4 ≤ i) : value.getLsbD i = false :=
  have hpow : 2 ^ 4 ≤ 2 ^ i := Nat.pow_le_pow_right (by decide) hi
  Nat.testBit_lt_two_pow (Nat.lt_of_lt_of_le h hpow)

theorem mode_le (m : Modifier) : m.mode + 4 ≤ 24 := by cases m <;> decide

theorem mode_apart (h : m' ≠ m) : m'.mode + 4 ≤ m.mode ∨ m.mode + 4 ≤ m'.mode := by
  cases m <;> cases m' <;> first | exact absurd rfl h | decide

theorem getLsbD_write (h : value.toNat < 16) (i : Nat) : (s.write m value).modifiers.getLsbD i =
    if m.mode ≤ i ∧ i < m.mode + 4 then value.getLsbD (i - m.mode)
    else s.modifiers.getLsbD i := by
  have hmode := mode_le m
  simp only [write, BitVec.getLsbD_or, BitVec.getLsbD_and, BitVec.getLsbD_not,
    BitVec.getLsbD_shiftLeft, getLsbD_fifteen]
  rcases Nat.lt_or_ge i 32 with hwidth | hwidth
  · by_cases hlow : i < m.mode
    · simp [hlow, hwidth, Nat.not_le.mpr hlow]
    · by_cases hhigh : i < m.mode + 4
      · have hi : i - m.mode < 4 := by omega
        simp [hlow, hwidth, hi, hhigh, Nat.not_lt.mp hlow]
      · have hi : ¬ i - m.mode < 4 := by omega
        have hvalue := getLsbD_small h (Nat.not_lt.mp hi)
        simp [hlow, hwidth, hi, hhigh, hvalue]
  · have hout : ¬ (m.mode ≤ i ∧ i < m.mode + 4) := by omega
    simp [hout, Nat.not_lt.mpr hwidth, BitVec.getLsbD_of_ge _ _ hwidth]

theorem getLsbD_count (s : VirtualInput) (m : Modifier) (i : Nat) :
    ((s.modifiers >>> m.mode) &&& 0xF).getLsbD i =
      (decide (i < 4) && s.modifiers.getLsbD (m.mode + i)) := by
  rw [BitVec.getLsbD_and, getLsbD_fifteen, BitVec.getLsbD_ushiftRight, Bool.and_comm]

theorem count_write_self (h : value.toNat < 16) : (s.write m value).count m = value.toNat := by
  have heq : ((s.write m value).modifiers >>> m.mode) &&& 0xF = value := by
    refine BitVec.eq_of_getLsbD_eq fun i _ => ?_
    rw [getLsbD_count, getLsbD_write h]
    by_cases hi : i < 4
    · simp [hi]
    · simp [hi, getLsbD_small h (Nat.not_lt.mp hi)]
  rw [count, heq]

theorem count_write_of_ne (h : value.toNat < 16) (hne : m' ≠ m) :
    (s.write m value).count m' = s.count m' := by
  have heq : ((s.write m value).modifiers >>> m'.mode) &&& 0xF =
      (s.modifiers >>> m'.mode) &&& 0xF := by
    refine BitVec.eq_of_getLsbD_eq fun i _ => ?_
    rw [getLsbD_count, getLsbD_count, getLsbD_write h]
    by_cases hi : i < 4
    · have hout : ¬ (m.mode ≤ m'.mode + i ∧ m'.mode + i < m.mode + 4) := by
        rcases mode_apart hne with hlt | hlt <;> omega
      rw [if_neg hout]
    · simp [hi]
  rw [count, heq, ← count]

/-- Only the counts are set. -/
def Upper (s : VirtualInput) : Prop := ∀ i, 24 ≤ i → s.modifiers.getLsbD i = false

theorem Upper.write (hupper : s.Upper) (h : value.toNat < 16) : (s.write m value).Upper := by
  intro i hi
  have hmode := mode_le m
  rw [getLsbD_write h, if_neg (by omega)]
  exact hupper i hi

/-- Each bit of the modifiers is one of a count. -/
theorem Upper.eq_zero (hupper : s.Upper) (hcount : ∀ m, s.count m = 0) : s.modifiers = 0 := by
  refine BitVec.eq_of_getLsbD_eq fun i _ => ?_
  rw [show (0 : BitVec 32).getLsbD i = false from BitVec.getLsbD_zero]
  rcases Nat.lt_or_ge i 24 with hlt | hge
  · have hm : ∃ m : Modifier, m.mode ≤ i ∧ i < m.mode + 4 := by
      have hi : i / 4 < 6 := by omega
      obtain ⟨m, hm⟩ : ∃ m : Modifier, m.index = i / 4 := by
        have hall : ∀ k < 6, ∃ m ∈ Modifier.all, m.index = k := by decide
        obtain ⟨m, -, hm⟩ := hall _ hi
        exact ⟨m, hm⟩
      refine ⟨m, ?_⟩
      rw [Modifier.mode]
      omega
    obtain ⟨m, hlow, hhigh⟩ := hm
    have hbits : ((s.modifiers >>> m.mode) &&& 0xF) = 0 := BitVec.eq_of_toNat_eq (hcount m)
    have hbit := getLsbD_count s m (i - m.mode)
    rw [hbits, Nat.add_sub_cancel' hlow, decide_eq_true (by omega : i - m.mode < 4),
      Bool.true_and, show (0 : BitVec 32).getLsbD (i - m.mode) = false from
        BitVec.getLsbD_zero] at hbit
    exact hbit.symm
  · exact hupper i hge

/-! ### Modifiers -/

section

variable {c : Config} {s s' : VirtualInput} {m : Modifier} {refs refs' : Modifier → Nat}
  {base : BitVec 16 → Nat} {modifiers : BitVec 16} {action : KeyAction} {code code' : BitVec 16}

/-- The reference counts, and the presses that wait for a release: those of `base` and one for each
modifier with a reference. -/
structure Counted (c : Config) (s : VirtualInput) (refs : Modifier → Nat)
    (base : BitVec 16 → Nat) : Prop where
  count : ∀ m, s.count m = refs m
  references : ∀ m, s.references m = refs m
  small : ∀ m, refs m ≤ 15
  upper : s.Upper
  balance : ∀ code, s.sentCount .pressed code = s.sentCount .released code + base code +
    Modifier.all.countP fun m => c.key m = code ∧ 0 < refs m

theorem sentCount_send (action' : KeyAction) : (s.send action code).sentCount action' code' =
    s.sentCount action' code' + if action = action' ∧ code = code' then 1 else 0 := by
  simp [sentCount, send, List.count_cons]

/-- The reference of one modifier, seen from an output code. -/
theorem countP_update (c : Config) (refs : Modifier → Nat) (m : Modifier) (code : BitVec 16)
    (n : Nat) :
    Modifier.all.countP (fun m' => c.key m' = code ∧ 0 < update refs m n m') +
      (if c.key m = code ∧ 0 < refs m then 1 else 0) =
    Modifier.all.countP (fun m' => c.key m' = code ∧ 0 < refs m') +
      if c.key m = code ∧ 0 < n then 1 else 0 := by
  cases m <;> simp [Modifier.all, List.countP_cons] <;> omega

/-- The count of one modifier is changed, and sent where it comes from nothing or goes to nothing.
-/
theorem Counted.set (h : Counted c s refs base) {n : Nat} (hn : n ≤ 15) (hself : s'.count m = n)
    (hothers : ∀ m', m' ≠ m → s'.count m' = s.count m')
    (hrefs : s'.references = update s.references m n) (hupper : s'.Upper)
    (hsent : ∀ code, s'.sentCount .pressed code + s.sentCount .released code +
        (if c.key m = code ∧ 0 < refs m then 1 else 0) =
      s'.sentCount .released code + s.sentCount .pressed code +
        if c.key m = code ∧ 0 < n then 1 else 0) :
    Counted c s' (update refs m n) base where
  count m' := by
    rcases eq_or_ne m' m with rfl | hne
    · rw [hself, update_self]
    · rw [hothers m' hne, update_of_ne hne, h.count]
  references m' := by
    rw [hrefs]
    rcases eq_or_ne m' m with rfl | hne
    · rw [update_self, update_self]
    · rw [update_of_ne hne, update_of_ne hne, h.references]
  small m' := by
    rcases eq_or_ne m' m with rfl | hne
    · rw [update_self]
      exact hn
    · rw [update_of_ne hne]
      exact h.small m'
  upper := hupper
  balance code := by
    have hbefore := h.balance code
    have hchange := countP_update c refs m code n
    have hstep := hsent code
    omega

theorem Counted.pressedOne (h : Counted c s refs base)
    (hroom : modifiers &&& m.flag ≠ 0 → refs m < 15) :
    Counted c (modifierOne c .pressed modifiers s m)
      (update refs m (refs m + if modifiers &&& m.flag ≠ 0 then 1 else 0)) base := by
  by_cases hflag : modifiers &&& m.flag = 0
  · rw [modifierOne, if_neg (not_not.mpr hflag), if_neg (not_not.mpr hflag), Nat.add_zero,
      update_eq_self]
    exact h
  · have hlt := hroom hflag
    have hvalue : (BitVec.ofNat 32 (s.count m) + 1).toNat = refs m + 1 := by
      rw [h.count, BitVec.toNat_add, BitVec.toNat_ofNat,
        show BitVec.toNat (1 : BitVec 32) = 1 from rfl]
      omega
    have hsmall : (BitVec.ofNat 32 (s.count m) + 1).toNat < 16 := by omega
    have hself := (count_write_self (s := s) (m := m) hsmall).trans hvalue
    have hrefs : s.references m + 1 = ((refs m + 1 : Nat) : Int) := by
      rw [h.references, Nat.cast_succ]
    rw [modifierOne, if_pos hflag, if_pos hflag]
    by_cases hfirst : refs m = 0
    · have htrigger : decide (s.count m = 0) = true := decide_eq_true ((h.count m).trans hfirst)
      simp only [sendModifier, htrigger, if_true]
      refine h.set (by omega) hself (fun m' hne => count_write_of_ne hsmall hne)
        (congrArg (update s.references m) hrefs) (h.upper.write hsmall) fun code => ?_
      rw [sentCount_send, sentCount_send]
      simp [sentCount, VirtualInput.write, hfirst]
      omega
    · have htrigger : decide (s.count m = 0) = false :=
        decide_eq_false fun hcount => hfirst ((h.count m).symm.trans hcount)
      simp only [sendModifier, htrigger]
      refine h.set (by omega) hself (fun m' hne => count_write_of_ne hsmall hne)
        (congrArg (update s.references m) hrefs) (h.upper.write hsmall) fun code => ?_
      simp [sentCount, VirtualInput.write, Nat.pos_of_ne_zero hfirst]
      omega

theorem Counted.releasedOne (h : Counted c s refs base)
    (hthere : modifiers &&& m.flag ≠ 0 → 0 < refs m) :
    Counted c (modifierOne c .released modifiers s m)
      (update refs m (refs m - if modifiers &&& m.flag ≠ 0 then 1 else 0)) base := by
  by_cases hflag : modifiers &&& m.flag = 0
  · rw [modifierOne, if_neg (not_not.mpr hflag), if_neg (not_not.mpr hflag), Nat.sub_zero,
      update_eq_self]
    exact h
  · have hpos := hthere hflag
    have hle := h.small m
    have hvalue : (BitVec.ofNat 32 (s.count m) - 1).toNat = refs m - 1 := by
      rw [h.count, BitVec.toNat_sub, BitVec.toNat_ofNat,
        show BitVec.toNat (1 : BitVec 32) = 1 from rfl]
      omega
    have hsmall : (BitVec.ofNat 32 (s.count m) - 1).toNat < 16 := by omega
    have hself := (count_write_self (s := s) (m := m) hsmall).trans hvalue
    have hrefs : s.references m - 1 = ((refs m - 1 : Nat) : Int) := by
      rw [h.references, Nat.cast_pred hpos]
    rw [modifierOne, if_pos hflag, if_pos hflag]
    by_cases hlast : refs m = 1
    · have htrigger : decide (s.count m = 1) = true := decide_eq_true ((h.count m).trans hlast)
      simp only [sendModifier, htrigger, if_true]
      refine h.set (by omega) hself (fun m' hne => count_write_of_ne hsmall hne)
        (congrArg (update s.references m) hrefs) (h.upper.write hsmall) fun code => ?_
      rw [sentCount_send, sentCount_send]
      simp [sentCount, VirtualInput.write, hlast]
      omega
    · have htrigger : decide (s.count m = 1) = false :=
        decide_eq_false fun hcount => hlast ((h.count m).symm.trans hcount)
      have hmore : 0 < refs m - 1 := by omega
      simp only [sendModifier, htrigger]
      refine h.set (by omega) hself (fun m' hne => count_write_of_ne hsmall hne)
        (congrArg (update s.references m) hrefs) (h.upper.write hsmall) fun code => ?_
      simp [sentCount, VirtualInput.write, hpos, hmore]
      omega

/-- What the modifiers leave alone. -/
def Same (s s' : VirtualInput) : Prop :=
  s'.pressedCode = s.pressedCode ∧ s'.repeating = s.repeating ∧ s'.down = s.down

theorem Same.refl (s : VirtualInput) : Same s s := ⟨rfl, rfl, rfl⟩

theorem Same.trans {s'' : VirtualInput} (h : Same s s') (h' : Same s' s'') : Same s s'' :=
  ⟨h'.1.trans h.1, h'.2.1.trans h.2.1, h'.2.2.trans h.2.2⟩

theorem same_sendModifier : Same s (s.sendModifier action m).2 := by
  cases action <;> exact ⟨rfl, rfl, rfl⟩

theorem same_modifierOne : Same s (modifierOne c action modifiers s m) := by
  rw [modifierOne]
  split_ifs with hflag
  · dsimp only
    split_ifs
    · exact same_sendModifier.trans ⟨rfl, rfl, rfl⟩
    · exact same_sendModifier
  · exact .refl s

theorem same_foldl (c : Config) (s : VirtualInput) (action : KeyAction) (modifiers : BitVec 16)
    (l : List Modifier) : Same s (l.foldl (modifierOne c action modifiers) s) := by
  induction l generalizing s with
  | nil => exact .refl s
  | cons m l ih => exact same_modifierOne.trans (ih _)

/-- The references of a code, added. -/
theorem Counted.pressedAll (h : Counted c s refs base) (modifiers : BitVec 16)
    {l : List Modifier} (hnodup : l.Nodup)
    (hroom : ∀ m ∈ l, modifiers &&& m.flag ≠ 0 → refs m < 15) :
    Counted c (l.foldl (modifierOne c .pressed modifiers) s)
      (fun m => refs m + if m ∈ l ∧ modifiers &&& m.flag ≠ 0 then 1 else 0) base := by
  induction l generalizing s refs with
  | nil => simpa using h
  | cons m l ih =>
    obtain ⟨hnotin, hnodup⟩ := List.nodup_cons.mp hnodup
    have hfirst := h.pressedOne (hroom m List.mem_cons_self)
    have hrest := ih hfirst hnodup fun m' hm' hflag => by
      have hne : m' ≠ m := fun heq => hnotin (heq ▸ hm')
      rw [update_of_ne hne]
      exact hroom m' (List.mem_cons_of_mem _ hm') hflag
    have hrefs : (fun m' => update refs m (refs m + if modifiers &&& m.flag ≠ 0 then 1 else 0) m' +
          if m' ∈ l ∧ modifiers &&& m'.flag ≠ 0 then 1 else 0) =
        fun m' => refs m' + if m' ∈ m :: l ∧ modifiers &&& m'.flag ≠ 0 then 1 else 0 := by
      funext m'
      rcases eq_or_ne m' m with rfl | hne
      · simp [hnotin]
      · simp [hne]
    rw [hrefs] at hrest
    exact hrest

/-- The references of a code, given back. -/
theorem Counted.releasedAll (h : Counted c s refs base) (modifiers : BitVec 16)
    {l : List Modifier} (hnodup : l.Nodup)
    (hthere : ∀ m ∈ l, modifiers &&& m.flag ≠ 0 → 0 < refs m) :
    Counted c (l.foldl (modifierOne c .released modifiers) s)
      (fun m => refs m - if m ∈ l ∧ modifiers &&& m.flag ≠ 0 then 1 else 0) base := by
  induction l generalizing s refs with
  | nil => simpa using h
  | cons m l ih =>
    obtain ⟨hnotin, hnodup⟩ := List.nodup_cons.mp hnodup
    have hfirst := h.releasedOne (hthere m List.mem_cons_self)
    have hrest := ih hfirst hnodup fun m' hm' hflag => by
      have hne : m' ≠ m := fun heq => hnotin (heq ▸ hm')
      rw [update_of_ne hne]
      exact hthere m' (List.mem_cons_of_mem _ hm') hflag
    have hrefs : (fun m' => update refs m (refs m - if modifiers &&& m.flag ≠ 0 then 1 else 0) m' -
          if m' ∈ l ∧ modifiers &&& m'.flag ≠ 0 then 1 else 0) =
        fun m' => refs m' - if m' ∈ m :: l ∧ modifiers &&& m'.flag ≠ 0 then 1 else 0 := by
      funext m'
      rcases eq_or_ne m' m with rfl | hne
      · simp [hnotin]
      · simp [hne]
    rw [hrefs] at hrest
    exact hrest

theorem all_nodup : Modifier.all.Nodup := by decide

theorem mem_all (m : Modifier) : m ∈ Modifier.all := by cases m <;> decide

theorem Counted.sendPressed (h : Counted c s refs base) (code : BitVec 16) :
    Counted c (s.send .pressed code) refs
      fun code' => base code' + if code = code' then 1 else 0 where
  count := h.count
  references := h.references
  small := h.small
  upper := h.upper
  balance code' := by
    have hbefore := h.balance code'
    rw [sentCount_send, sentCount_send]
    simp only [true_and, reduceCtorEq, false_and, if_false]
    omega

theorem Counted.sendReleased (h : Counted c s refs base) (code : BitVec 16)
    (hbase : 0 < base code) :
    Counted c (s.send .released code) refs
      fun code' => base code' - if code = code' then 1 else 0 where
  count := h.count
  references := h.references
  small := h.small
  upper := h.upper
  balance code' := by
    have hbefore := h.balance code'
    rw [sentCount_send, sentCount_send]
    simp only [true_and, reduceCtorEq, false_and, if_false]
    split_ifs with heq
    · subst heq
      omega
    · omega

theorem Counted.sendOther (h : Counted c s refs base) (action : KeyAction) (code : BitVec 16)
    (hpressed : action ≠ .pressed) (hreleased : action ≠ .released) :
    Counted c (s.send action code) refs base where
  count := h.count
  references := h.references
  small := h.small
  upper := h.upper
  balance code' := by
    rw [sentCount_send, sentCount_send, if_neg fun heq => hpressed heq.1,
      if_neg fun heq => hreleased heq.1]
    exact h.balance code'

end

/-! ### Codes that wait for their release -/

section

variable {c : Config} {s : VirtualInput} {out : List (BitVec 32)} {x : BitVec 32}

/-- The references and the presses of the codes that were pressed and not released. -/
def Ledger (c : Config) (s : VirtualInput) (out : List (BitVec 32)) : Prop :=
  Counted c s (fun m => out.countP fun x => wraps x m) fun code => out.countP fun x => low x = code

theorem modifierKey_eq (action : KeyAction) :
    (if high x ≠ 0 then s.modifierKey c action (high x) else s) =
    s.modifierKey c action (high x) := by
  split_ifs with hzero
  · rfl
  · have hone : ∀ (l : List Modifier) (s : VirtualInput),
        l.foldl (modifierOne c action (high x)) s = s := by
      intro l
      induction l with
      | nil => exact fun _ => rfl
      | cons m l ih =>
        intro s
        have hnone : ¬ (0 : BitVec 16) &&& m.flag ≠ 0 := not_not.mpr BitVec.zero_and
        rw [List.foldl_cons, ih, modifierOne, not_not.mp hzero, if_neg hnone]
    exact (hone _ s).symm

/-- The key that is pressed from now on. -/
def armed (c : Config) (s : VirtualInput) (x : BitVec 32) : VirtualInput :=
  { s with
    repeatCounter := c.repeatLimit
    repeating := if c.startTime ≠ 0 then x else s.repeating
    pressedCode := x }

theorem dispatchPressed_eq (hx : x ≠ noCode) (hlooked : c.lookedUp x = x) : s.dispatchPressed c x =
    ((((s.armed c x).modifierKey c .pressed (high x)).send .pressed (low x)).send .completed
      (low x)) := by
  simp only [dispatchPressed, hlooked, if_pos hx, modifierKey_eq]
  rfl

theorem dispatchReleased_eq (hx : x ≠ noCode) : s.dispatchReleased c x =
    ((({ s with repeating := noCode, pressedCode := noCode }.send .released (low x)).modifierKey c
      .released (high x)).send .completed (low x)) := by
  simp only [dispatchReleased, if_pos hx, modifierKey_eq]

theorem Ledger.pressed (h : Ledger c s out) (hx : x ≠ noCode) (hlooked : c.lookedUp x = x)
    (hroom : ∀ m, wraps x m = true → (out.countP fun x => wraps x m) < 15) :
    Ledger c (s.dispatchPressed c x) (x :: out) ∧ (s.dispatchPressed c x).pressedCode = x ∧
      (s.dispatchPressed c x).down = s.down := by
  rw [dispatchPressed_eq hx hlooked]
  have harmed : Ledger c (s.armed c x) out := ⟨h.count, h.references, h.small, h.upper, h.balance⟩
  have hmodifiers := harmed.pressedAll (high x) all_nodup fun m _ hflag =>
    hroom m (decide_eq_true hflag)
  have hsame := same_foldl c (s.armed c x) .pressed (high x) Modifier.all
  refine ⟨?_, hsame.1, hsame.2.2⟩
  have hsent := (hmodifiers.sendPressed (low x)).sendOther .completed (low x) nofun nofun
  have hrefs : (fun m => (x :: out).countP fun x => wraps x m) = fun m =>
      (out.countP fun x => wraps x m) +
        if m ∈ Modifier.all ∧ high x &&& m.flag ≠ 0 then 1 else 0 := by
    funext m
    simp [List.countP_cons, wraps, mem_all]
  have hbases : (fun code => (x :: out).countP fun x => low x = code) = fun code =>
      (out.countP fun x => low x = code) + if low x = code then 1 else 0 := by
    funext code
    simp [List.countP_cons]
  rw [Ledger, hrefs, hbases]
  exact hsent

theorem countP_erase {p : BitVec 32 → Bool} (hmem : x ∈ out) :
    out.countP p = (out.erase x).countP p + if p x = true then 1 else 0 := by
  rw [(List.perm_cons_erase hmem).countP_eq, List.countP_cons]

theorem dispatchReleased_fields (hx : x ≠ noCode) :
    (s.dispatchReleased c x).pressedCode = noCode ∧ (s.dispatchReleased c x).repeating = noCode ∧
      (s.dispatchReleased c x).down = s.down := by
  rw [dispatchReleased_eq hx]
  have hsame := same_foldl c
    ({ s with repeating := noCode, pressedCode := noCode }.send .released (low x)) .released
    (high x) Modifier.all
  exact ⟨hsame.1, hsame.2.1, hsame.2.2⟩

theorem Ledger.released (h : Ledger c s out) (hx : x ≠ noCode) (hmem : x ∈ out) :
    Ledger c (s.dispatchReleased c x) (out.erase x) := by
  rw [dispatchReleased_eq hx]
  have hset : Ledger c { s with repeating := noCode, pressedCode := noCode } out :=
    ⟨h.count, h.references, h.small, h.upper, h.balance⟩
  have hbase : 0 < out.countP fun y => low y = low x :=
    List.countP_pos_iff.mpr ⟨x, hmem, decide_eq_true rfl⟩
  have hmodifiers := (hset.sendReleased (low x) hbase).releasedAll (high x)
    all_nodup fun m _ hflag => List.countP_pos_iff.mpr ⟨x, hmem, decide_eq_true hflag⟩
  have hsent := hmodifiers.sendOther .completed (low x) nofun nofun
  have hrefs : (fun m => (out.erase x).countP fun x => wraps x m) = fun m =>
      (out.countP fun x => wraps x m) -
        if m ∈ Modifier.all ∧ high x &&& m.flag ≠ 0 then 1 else 0 := by
    funext m
    rw [countP_erase hmem]
    simp [wraps, mem_all]
  have hbases : (fun code => (out.erase x).countP fun x => low x = code) = fun code =>
      (out.countP fun x => low x = code) - if low x = code then 1 else 0 := by
    funext code
    rw [countP_erase hmem]
    simp
  rw [Ledger, hrefs, hbases]
  exact hsent

/-! ### Input keys that are pressed -/

section

variable {c : Config} {s s' : VirtualInput} {out out' : List (BitVec 32)} {key : Key}

/-- The modifier keys that are pressed. -/
def held (c : Config) (down : List Key) : List (BitVec 32) :=
  (down.filter fun key => c.sendCode key ≠ noCode ∧ c.isModifier (c.sendCode key)).map c.sendCode

/-- The other key that is pressed, if one is. -/
def waiting (c : Config) (s : VirtualInput) : List (BitVec 32) :=
  if s.pressedCode ≠ noCode ∧ c.isModifier s.pressedCode = false then [s.pressedCode] else []

structure Inv (c : Config) (s : VirtualInput) : Prop where
  ledger : Ledger c s (waiting c s ++ held c s.down)
  nodup : s.down.Nodup
  there : ∀ x ∈ waiting c s, ∃ key ∈ s.down, c.sendCode key = x
  repeating : s.repeating ≠ noCode → s.pressedCode ≠ noCode
  looked : ∀ x ∈ waiting c s ++ held c s.down, c.lookedUp x = x

theorem Ledger.perm (h : Ledger c s out) (hperm : out.Perm out') : Ledger c s out' := by
  have hcounts : ∀ p : BitVec 32 → Bool, out'.countP p = out.countP p :=
    fun p => hperm.symm.countP_eq p
  rw [Ledger]
  simp only [hcounts]
  exact h

/-- Neither the input keys nor the code of the timer are in the ledger. -/
theorem Ledger.of_eq (h : Ledger c s out) (hmodifiers : s'.modifiers = s.modifiers)
    (hsent : s'.sent = s.sent) (hrefs : s'.references = s.references) : Ledger c s' out where
  count m := by
    rw [VirtualInput.count, hmodifiers]
    exact h.count m
  references m := by
    rw [hrefs]
    exact h.references m
  small := h.small
  upper i hi := by
    rw [hmodifiers]
    exact h.upper i hi
  balance code := by
    rw [sentCount, sentCount, hsent]
    exact h.balance code

theorem held_cons_of_modifier {down : List Key} (hx : c.sendCode key ≠ noCode)
    (hmodifier : c.isModifier (c.sendCode key) = true) :
    held c (key :: down) = c.sendCode key :: held c down := by
  simp [held, hx, hmodifier]

theorem held_cons_of_other {down : List Key}
    (hother : c.sendCode key = noCode ∨ c.isModifier (c.sendCode key) = false) :
    held c (key :: down) = held c down := by
  rcases hother with hx | hx <;> simp [held, hx]

theorem held_insert_of_other {down : List Key}
    (hother : c.sendCode key = noCode ∨ c.isModifier (c.sendCode key) = false) :
    held c (down.insert key) = held c down := by
  by_cases hmem : key ∈ down
  · rw [List.insert_of_mem hmem]
  · rw [List.insert_of_not_mem hmem, held_cons_of_other hother]

theorem held_perm {down : List Key} (hmem : key ∈ down) :
    (held c down).Perm (held c (key :: down.erase key)) :=
  ((List.perm_cons_erase hmem).filter _).map _

theorem held_erase_of_other {down : List Key}
    (hother : c.sendCode key = noCode ∨ c.isModifier (c.sendCode key) = false) :
    (held c down).Perm (held c (down.erase key)) := by
  by_cases hmem : key ∈ down
  · have hperm := held_perm (c := c) hmem
    rw [held_cons_of_other hother] at hperm
    exact hperm
  · rw [List.erase_of_not_mem hmem]

theorem mem_held {down : List Key} {x : BitVec 32} : x ∈ held c down ↔
    ∃ key ∈ down, (c.sendCode key ≠ noCode ∧ c.isModifier (c.sendCode key) = true) ∧
      c.sendCode key = x := by
  simp only [held, List.mem_map, List.mem_filter, decide_eq_true_eq, and_assoc]

theorem waiting_eq (hx : s.pressedCode ≠ noCode) (hother : c.isModifier s.pressedCode = false) :
    waiting c s = [s.pressedCode] := if_pos ⟨hx, hother⟩

theorem waiting_nil (h : s.pressedCode = noCode ∨ c.isModifier s.pressedCode = true) :
    waiting c s = [] := by
  refine if_neg fun hboth => ?_
  rcases h with hx | hx
  · exact hboth.1 hx
  · cases hx.symm.trans hboth.2

/-- The input keys change, and neither a modifier key nor the key that is pressed is among them. -/
theorem Inv.withDown (h : Inv c s) {down : List Key} (hnodup : down.Nodup)
    (hheld : (held c s.down).Perm (held c down))
    (hthere : ∀ x ∈ waiting c s, ∃ key ∈ down, c.sendCode key = x) :
    Inv c { s with down := down } where
  ledger := (h.ledger.perm (hheld.append_left _)).of_eq rfl rfl rfl
  nodup := hnodup
  there := hthere
  repeating := h.repeating
  looked x hx := h.looked x ((hheld.append_left (waiting c s)).mem_iff.mpr hx)

/-- The key that is pressed is released, where that is no modifier key. -/
theorem Inv.cleared (h : Inv c s) (hx : s.pressedCode ≠ noCode)
    (hother : c.isModifier s.pressedCode = false) : Inv c (s.dispatchReleased c s.pressedCode) := by
  have hledger := h.ledger
  rw [waiting_eq hx hother, List.singleton_append] at hledger
  obtain ⟨hpressed, hrepeating, hdown⟩ := dispatchReleased_fields (c := c) (s := s) hx
  have hnew := hledger.released hx List.mem_cons_self
  rw [List.erase_cons_head] at hnew
  have hwaiting : waiting c (s.dispatchReleased c s.pressedCode) = [] := waiting_nil (.inl hpressed)
  refine ⟨?_, ?_, ?_, fun hne => absurd hrepeating hne, ?_⟩
  · rw [hwaiting, hdown]
    exact hnew
  · rw [hdown]
    exact h.nodup
  · rw [hwaiting]
    exact nofun
  · rw [hwaiting, hdown]
    exact fun x hx => h.looked x (List.mem_append_right _ hx)

/-- A key is pressed where no other one waits. -/
theorem Inv.press (h : Inv c s) (hfree : waiting c s = []) (hx : c.sendCode key ≠ noCode)
    (hlooked : c.lookedUp (c.sendCode key) = c.sendCode key)
    (hnew : c.isModifier (c.sendCode key) = true → key ∉ s.down)
    (hroom : ∀ m, wraps (c.sendCode key) m = true →
      ((held c s.down).countP fun x => wraps x m) < 15) :
    Inv c { s.dispatchPressed c (c.sendCode key) with down := s.down.insert key } := by
  have hledger := h.ledger
  rw [hfree, List.nil_append] at hledger
  obtain ⟨hsent, hpressed, -⟩ := hledger.pressed hx hlooked hroom
  have hlookedAll : ∀ x ∈ held c s.down, c.lookedUp x = x :=
    fun x hx => h.looked x (List.mem_append_right _ hx)
  have hwaiting :
      waiting c { s.dispatchPressed c (c.sendCode key) with down := s.down.insert key } =
        waiting c (s.dispatchPressed c (c.sendCode key)) := rfl
  cases hmodifier : c.isModifier (c.sendCode key) with
  | true =>
    have hnil : waiting c (s.dispatchPressed c (c.sendCode key)) = [] :=
      waiting_nil (.inr (by rw [hpressed]; exact hmodifier))
    have hheld : held c (s.down.insert key) = c.sendCode key :: held c s.down := by
      rw [List.insert_of_not_mem (hnew hmodifier), held_cons_of_modifier hx hmodifier]
    refine ⟨?_, h.nodup.insert, ?_, fun _ => by rw [hpressed]; exact hx, ?_⟩
    · rw [hwaiting, hnil, hheld]
      exact hsent.of_eq rfl rfl rfl
    · rw [hwaiting, hnil]
      exact nofun
    · rw [hwaiting, hnil, hheld]
      exact List.forall_mem_cons.mpr ⟨hlooked, hlookedAll⟩
  | false =>
    have hone : waiting c (s.dispatchPressed c (c.sendCode key)) = [c.sendCode key] := by
      have heq := waiting_eq (c := c) (s := s.dispatchPressed c (c.sendCode key))
        (by rw [hpressed]; exact hx) (by rw [hpressed]; exact hmodifier)
      rw [heq, hpressed]
    have hheld : held c (s.down.insert key) = held c s.down := held_insert_of_other (.inr hmodifier)
    refine ⟨?_, h.nodup.insert, ?_, fun _ => by rw [hpressed]; exact hx, ?_⟩
    · rw [hwaiting, hone, hheld]
      exact hsent.of_eq rfl rfl rfl
    · rw [hwaiting, hone]
      intro x hmem
      rw [List.mem_singleton.mp hmem]
      exact ⟨key, List.mem_insert_self, rfl⟩
    · rw [hwaiting, hone, hheld]
      exact List.forall_mem_cons.mpr ⟨hlooked, hlookedAll⟩

/-- A modifier key is released while no other key is pressed. -/
theorem Inv.releaseModifier (h : Inv c s) (hfree : waiting c s = []) (hmem : key ∈ s.down)
    (hx : c.sendCode key ≠ noCode) (hmodifier : c.isModifier (c.sendCode key) = true) :
    Inv c { s.dispatchReleased c (c.sendCode key) with down := s.down.erase key } := by
  have hperm := held_perm (c := c) hmem
  rw [held_cons_of_modifier hx hmodifier] at hperm
  have hledger := h.ledger
  rw [hfree, List.nil_append] at hledger
  obtain ⟨hpressed, hrepeating, -⟩ := dispatchReleased_fields (c := c) (s := s) hx
  have hsent := (hledger.perm hperm).released hx List.mem_cons_self
  rw [List.erase_cons_head] at hsent
  have hnil :
      waiting c { s.dispatchReleased c (c.sendCode key) with down := s.down.erase key } = [] :=
    waiting_nil (.inl hpressed)
  refine ⟨?_, h.nodup.erase key, ?_, fun hne => absurd hrepeating hne, ?_⟩
  · rw [hnil]
    exact hsent.of_eq rfl rfl rfl
  · rw [hnil]
    exact nofun
  · rw [hnil]
    intro x hmem'
    exact h.looked x (List.mem_append_right _ (hperm.mem_iff.mpr (List.mem_cons_of_mem _ hmem')))

/-- The other key that is pressed is released. -/
theorem Inv.releaseOther (h : Inv c s) (hx : c.sendCode key ≠ noCode)
    (hother : c.isModifier (c.sendCode key) = false) (heq : s.pressedCode = c.sendCode key) :
    Inv c { s.dispatchReleased c (c.sendCode key) with down := s.down.erase key } := by
  have hcleared := h.cleared (by rw [heq]; exact hx) (by rw [heq]; exact hother)
  rw [heq] at hcleared
  obtain ⟨hpressed, -, hdown⟩ := dispatchReleased_fields (c := c) (s := s) hx
  have hnil : waiting c (s.dispatchReleased c (c.sendCode key)) = [] := waiting_nil (.inl hpressed)
  refine hcleared.withDown (h.nodup.erase key) ?_ ?_
  · rw [hdown]
    exact held_erase_of_other (.inr hother)
  · rw [hnil]
    exact nofun

/-- The input key is not in the ledger. -/
theorem Inv.eraseOther (h : Inv c s)
    (hother : c.sendCode key = noCode ∨ c.isModifier (c.sendCode key) = false)
    (hne : s.pressedCode ≠ noCode → s.pressedCode ≠ c.sendCode key) :
    Inv c { s with down := s.down.erase key } := by
  refine h.withDown (h.nodup.erase key) (held_erase_of_other hother) fun x hx => ?_
  obtain ⟨key', hmem, heq⟩ := h.there x hx
  refine ⟨key', ?_, heq⟩
  have hpressed : s.pressedCode ≠ noCode ∧ x = s.pressedCode := by
    rw [waiting] at hx
    split_ifs at hx with hboth
    · exact ⟨hboth.1, List.mem_singleton.mp hx⟩
    · cases hx
  have hkey : key' ≠ key := by
    rintro rfl
    exact hne hpressed.1 (hpressed.2.symm.trans heq.symm)
  exact (List.mem_erase_of_ne hkey).mpr hmem

theorem Inv.insertOther (h : Inv c s)
    (hother : c.sendCode key = noCode ∨ c.isModifier (c.sendCode key) = false) :
    Inv c { s with down := s.down.insert key } := by
  refine h.withDown h.nodup.insert (by rw [held_insert_of_other hother]) fun x hx => ?_
  obtain ⟨key', hmem, heq⟩ := h.there x hx
  exact ⟨key', List.mem_insert_of_mem hmem, heq⟩

theorem countP_held {down : List Key} (p : BitVec 32 → Bool) :
    (held c down).countP p ≤ (down.filter fun key =>
      c.isModifier (c.sendCode key) ∧ p (c.sendCode key)).length := by
  rw [held, List.countP_map, List.countP_filter, ← List.countP_eq_length_filter]
  refine List.countP_mono_left fun key _ hkey => ?_
  simp only [Function.comp_apply, Bool.and_eq_true, decide_eq_true_eq] at hkey ⊢
  exact ⟨hkey.2.2, hkey.1⟩

/-- The other key that is pressed is released at a press. -/
def cleared (c : Config) (s : VirtualInput) : VirtualInput :=
  if s.pressedCode ≠ noCode ∧ c.isModifier s.pressedCode = false then
    s.dispatchReleased c s.pressedCode
  else s

theorem keyEvent_pressed : (s.keyEvent c true key).2 =
    if c.sendCode key ≠ noCode then (s.cleared c).dispatchPressed c (c.sendCode key) else s := by
  rw [keyEvent, Config.sendCode, VirtualInput.cleared]
  cases (c.mappingTables key.table).or c.defaultMap with
  | none => rfl
  | some conversionTable =>
    simp only [reduceCtorEq, false_and, if_false, if_true]
    split_ifs <;> rfl

theorem keyEvent_released : (s.keyEvent c false key).2 =
    if c.sendCode key ≠ noCode ∧
      (s.pressedCode = c.sendCode key ∨ c.isModifier (c.sendCode key) = true) then
      s.dispatchReleased c (c.sendCode key)
    else s := by
  rw [keyEvent, Config.sendCode]
  cases (c.mappingTables key.table).or c.defaultMap with
  | none => rfl
  | some conversionTable =>
    simp only [true_and, reduceCtorEq, if_false]
    split_ifs with hnot hsend hx hsend hsend
    · rcases hsend.2 with heq | hmodifier
      · exact absurd heq hnot.1
      · cases hmodifier.symm.trans hnot.2
    · rfl
    · rfl
    · by_cases heq : s.pressedCode = (conversionTable.convert key.code).2
      · exact absurd ⟨hx, .inl heq⟩ hsend
      · refine absurd ⟨hx, .inr (Bool.not_eq_false _ ▸ fun hother => hnot ⟨heq, hother⟩)⟩ hsend
    · exact absurd hsend.1 hx
    · rfl

theorem step_pressed : s.step c (.keyEvent true key) =
    { (if c.sendCode key ≠ noCode then (s.cleared c).dispatchPressed c (c.sendCode key) else s) with
      down := s.down.insert key } := by
  rw [step, keyEvent_pressed]
  rfl

theorem step_released : s.step c (.keyEvent false key) =
    { (if c.sendCode key ≠ noCode ∧
          (s.pressedCode = c.sendCode key ∨ c.isModifier (c.sendCode key) = true) then
        s.dispatchReleased c (c.sendCode key) else s) with down := s.down.erase key } := by
  rw [step, keyEvent_released]
  rfl

/-- What is left of the other key at a press. -/
theorem Inv.clear (h : Inv c s) :
    Inv c (s.cleared c) ∧ waiting c (s.cleared c) = [] ∧ (s.cleared c).down = s.down := by
  rw [VirtualInput.cleared]
  split_ifs with hwaits
  · obtain ⟨hpressed, -, hdown⟩ := dispatchReleased_fields (c := c) (s := s) hwaits.1
    exact ⟨h.cleared hwaits.1 hwaits.2, waiting_nil (.inl hpressed), hdown⟩
  · exact ⟨h, if_neg hwaits, rfl⟩

theorem Inv.keyPressed (h : Inv c s) (hok : s.Proper c (.keyEvent true key)) :
    Inv c (s.step c (.keyEvent true key)) := by
  rw [step_pressed]
  split_ifs with hx
  · obtain ⟨hcleared, hfree, hdown⟩ := h.clear
    obtain ⟨hlooked, hnew, hroom⟩ := hok hx
    rw [← hdown] at hnew ⊢
    rcases hlooked with hlooked | ⟨hlooked, hother⟩
    · refine hcleared.press hfree hx hlooked hnew fun m hm => ?_
      rw [hdown]
      exact Nat.lt_of_le_of_lt (countP_held _) (hroom (by rw [hlooked]; exact hx) m hm)
    · have hnone : (s.cleared c).dispatchPressed c (c.sendCode key) = s.cleared c := by
        simp [dispatchPressed, hlooked]
      rw [hnone]
      exact hcleared.insertOther (.inr hother)
  · exact h.insertOther (.inl (not_not.mp hx))

theorem Inv.keyReleased (h : Inv c s) (hok : s.Proper c (.keyEvent false key)) :
    Inv c (s.step c (.keyEvent false key)) := by
  rw [step_released]
  split_ifs with hsend
  · obtain ⟨hx, heq⟩ := hsend
    cases hmodifier : c.isModifier (c.sendCode key) with
    | true =>
      obtain ⟨hmem, hfree⟩ := hok hx hmodifier
      exact h.releaseModifier (waiting_nil hfree) hmem hx hmodifier
    | false =>
      rw [hmodifier, or_iff_left Bool.false_ne_true] at heq
      exact h.releaseOther hx hmodifier heq
  · by_cases hx : c.sendCode key = noCode
    · exact h.eraseOther (.inl hx) fun hne => by rw [hx]; exact hne
    · have hneither : ¬ (s.pressedCode = c.sendCode key ∨ c.isModifier (c.sendCode key) = true) :=
        fun heq => hsend ⟨hx, heq⟩
      rw [not_or, Bool.not_eq_true] at hneither
      exact h.eraseOther (.inr hneither.2) fun _ => hneither.1

theorem Inv.repeatKey (h : Inv c s) (hok : s.Proper c .repeatKey) :
    Inv c (s.step c .repeatKey) := by
  rw [step, VirtualInput.repeatKey]
  split_ifs with hrepeating
  · have hturn : Inv c { s.send .repeated (low s.repeating) with
        repeatCounter := s.repeatCounter - 1 } :=
      ⟨Ledger.of_eq (h.ledger.sendOther .repeated (low s.repeating) nofun nofun)
        rfl rfl rfl, h.nodup, h.there, h.repeating, h.looked⟩
    dsimp only
    split_ifs with hlimit
    · have hone : s.repeatCounter = 1 := by
        replace hlimit : s.repeatCounter - 1 = 0 := hlimit
        rw [← BitVec.sub_add_cancel s.repeatCounter 1, hlimit]
        rfl
      exact hturn.cleared (h.repeating hrepeating) (hok hrepeating hone)
    · exact hturn
  · exact h

theorem Inv.step {a : Action} (h : Inv c s) (hok : s.Proper c a) : Inv c (s.step c a) := by
  cases a with
  | keyEvent pressed key =>
    cases pressed with
    | true => exact h.keyPressed hok
    | false => exact h.keyReleased hok
  | repeatKey => exact h.repeatKey hok

theorem inv_new : Inv c new where
  ledger := by
    refine ⟨fun m => ?_, fun _ => rfl, fun _ => Nat.zero_le _, fun i _ => ?_, fun code => ?_⟩
    · cases m <;> rfl
    · exact BitVec.getLsbD_zero
    · simp [sentCount, new, waiting, held]
  nodup := List.nodup_nil
  there := by simp [waiting, new]
  repeating hne := absurd rfl hne
  looked := by simp [waiting, held, new]

/-- The output codes of a key that is in the ledger. -/
theorem outputs_eq (hx : c.sendCode key ≠ noCode)
    (hlooked : c.lookedUp (c.sendCode key) = c.sendCode key) :
    c.outputs key =
      low (c.sendCode key) :: (Modifier.all.filter (wraps (c.sendCode key))).map c.key := by
  simp [Config.outputs, hlooked, hx]

theorem countP_or_le (l : List Modifier) (p q : Modifier → Bool) :
    (l.countP fun m => p m || q m) ≤ l.countP p + l.countP q := by
  induction l with
  | nil => exact Nat.le_refl 0
  | cons m l ih =>
    simp only [List.countP_cons]
    cases p m <;> cases q m <;> simp <;> omega

/-- The presses that wait for a release are among the output codes of the input keys. -/
theorem count_outputs (code : BitVec 16) (keys : List Key)
    (hx : ∀ key ∈ keys, c.sendCode key ≠ noCode)
    (hlooked : ∀ key ∈ keys, c.lookedUp (c.sendCode key) = c.sendCode key) :
    ((keys.map c.sendCode).countP fun x => low x = code) +
      (Modifier.all.countP fun m =>
        c.key m = code ∧ 0 < (keys.map c.sendCode).countP fun x => wraps x m) ≤
      (keys.flatMap c.outputs).count code := by
  induction keys with
  | nil => simp
  | cons key keys ih =>
    have hrest := ih (fun key' hkey' => hx key' (List.mem_cons_of_mem _ hkey'))
      fun key' hkey' => hlooked key' (List.mem_cons_of_mem _ hkey')
    have hone := outputs_eq (hx key List.mem_cons_self) (hlooked key List.mem_cons_self)
    have hmodifiers : ((Modifier.all.filter (wraps (c.sendCode key))).map c.key).count code =
        Modifier.all.countP fun m => c.key m = code ∧ wraps (c.sendCode key) m = true := by
      rw [List.count, List.countP_map, List.countP_filter]
      refine congrArg (List.countP · _) (funext fun m => ?_)
      simp [beq_eq_decide]
    have hsplit : (Modifier.all.countP fun m =>
          c.key m = code ∧ 0 < ((key :: keys).map c.sendCode).countP fun x => wraps x m) ≤
        (Modifier.all.countP fun m => c.key m = code ∧ wraps (c.sendCode key) m = true) +
          Modifier.all.countP fun m =>
            c.key m = code ∧ 0 < (keys.map c.sendCode).countP fun x => wraps x m := by
      refine Nat.le_trans (List.countP_mono_left fun m _ hm => ?_) (countP_or_le _ _ _)
      simp only [List.map_cons, List.countP_cons, decide_eq_true_eq, Bool.or_eq_true] at hm ⊢
      by_cases hwraps : wraps (c.sendCode key) m = true
      · exact .inl ⟨hm.1, hwraps⟩
      · rw [if_neg hwraps] at hm
        exact .inr hm
    rw [List.flatMap_cons, hone, List.cons_append, List.count_cons, List.count_append, hmodifiers,
      List.map_cons, List.countP_cons]
    simp only [beq_iff_eq, decide_eq_true_eq]
    rw [List.map_cons] at hsplit
    omega

/-- The input keys of the ledger. -/
theorem Inv.keys (h : Inv c s) : ∃ keys : List Key, keys.Nodup ∧ keys ⊆ s.down ∧
    keys.map c.sendCode = waiting c s ++ held c s.down := by
  have hsub : (s.down.filter fun key =>
      c.sendCode key ≠ noCode ∧ c.isModifier (c.sendCode key)).Sublist s.down := List.filter_sublist
  by_cases hwaits : s.pressedCode ≠ noCode ∧ c.isModifier s.pressedCode = false
  · have hone : waiting c s = [s.pressedCode] := if_pos hwaits
    obtain ⟨key, hmem, heq⟩ := h.there s.pressedCode (by rw [hone]; exact List.mem_singleton_self _)
    refine ⟨key :: s.down.filter _, List.nodup_cons.mpr ⟨?_, h.nodup.sublist hsub⟩,
      List.cons_subset.mpr ⟨hmem, hsub.subset⟩, ?_⟩
    · intro hin
      have hmodifier := (List.mem_filter.mp hin).2
      rw [heq, decide_eq_true_eq] at hmodifier
      cases hmodifier.2.symm.trans hwaits.2
    · rw [List.map_cons, heq, hone]
      rfl
  · refine ⟨s.down.filter _, h.nodup.sublist hsub, hsub.subset, ?_⟩
    rw [waiting, if_neg hwaits]
    rfl

theorem Inv.matched (h : Inv c s) (code : BitVec 16) :
    s.sentCount .released code ≤ s.sentCount .pressed code ∧
      s.sentCount .pressed code ≤
        s.sentCount .released code + (s.down.flatMap c.outputs).count code := by
  have hbalance := h.ledger.balance code
  obtain ⟨keys, hnodup, hsubset, hkeys⟩ := h.keys
  have hnoCode : ∀ x ∈ waiting c s ++ held c s.down, x ≠ noCode := by
    intro x hx
    rcases List.mem_append.mp hx with hx | hx
    · rw [waiting] at hx
      split_ifs at hx with hwaits
      · rw [List.mem_singleton.mp hx]
        exact hwaits.1
      · cases hx
    · obtain ⟨key, -, hkey, rfl⟩ := mem_held.mp hx
      exact hkey.1
  have houtputs := count_outputs (c := c) code keys
    (fun key hkey => hnoCode _ (hkeys ▸ List.mem_map_of_mem hkey))
    fun key hkey => h.looked _ (hkeys ▸ List.mem_map_of_mem hkey)
  obtain ⟨keys', hperm, hsub⟩ := List.subperm_of_subset hnodup hsubset
  have hle : (keys.flatMap c.outputs).count code ≤ (s.down.flatMap c.outputs).count code := by
    rw [← (hperm.flatMap_right c.outputs).count_eq]
    exact (hsub.flatMap c.outputs).count_le code
  rw [hkeys] at houtputs
  omega

theorem Inv.balanced (h : Inv c s) : s.Balanced c where
  matched := h.matched
  counted m := by
    have hsmall := h.ledger.small m
    have hcount := h.ledger.count m
    have hrefs := h.ledger.references m
    omega
  ended hnone := by
    have hempty : waiting c s ++ held c s.down = [] := by
      rw [hnone, List.eq_nil_iff_forall_not_mem]
      intro x hx
      rcases List.mem_append.mp hx with hx | hx
      · obtain ⟨key, hmem, -⟩ := h.there x hx
        rw [hnone] at hmem
        cases hmem
      · cases hx
    refine h.ledger.upper.eq_zero fun m => ?_
    have hcount := h.ledger.count m
    rw [hempty] at hcount
    exact hcount

variable {ops : List Action}

/-- In every run of proper steps, keys balance. -/
theorem balanced_of_proper (h : Run.Meets (step c) (Proper c) new ops) :
    Run.Always (step c) (Balanced c) new ops :=
  (h.always (fun _ _ hinv hok => hinv.step hok) inv_new).mono fun _ hinv => hinv.balanced

/-- One key is mapped to the left shift, and one is wrapped into it. -/
def shiftTable : KeyMap where
  keyMap code := if code = 1 then some ⟨42, 0⟩ else if code = 2 then some ⟨30, 1⟩ else none
  passThrough := false

def shiftConfig : Config where
  mappingTables _ := some shiftTable
  defaultMap := none
  conversions := []
  key := fun
    | .leftShift => 42
    | .rightShift => 54
    | .leftAlt => 56
    | .rightAlt => 100
    | .leftCtrl => 29
    | .rightCtrl => 97
  startTime := 500
  repeatLimit := 2

/-- A shift key is held while another one is pressed twice and gets to the repeat limit. -/
theorem balanced_shift : Run.Always (step shiftConfig) (Balanced shiftConfig) new
    [.keyEvent true ⟨1, ""⟩, .keyEvent true ⟨2, ""⟩, .keyEvent true ⟨2, ""⟩, .repeatKey, .repeatKey,
      .keyEvent false ⟨2, ""⟩, .keyEvent false ⟨1, ""⟩] := by
  refine balanced_of_proper ⟨?_, ?_, ?_, ?_, ?_, ?_, ?_, trivial⟩
  · exact fun _ => ⟨.inl rfl, fun _ => by decide, fun _ m _ => by cases m <;> decide⟩
  · exact fun _ => ⟨.inl rfl, nofun, fun _ m _ => by cases m <;> decide⟩
  · exact fun _ => ⟨.inl rfl, nofun, fun _ m _ => by cases m <;> decide⟩
  · exact fun _ _ => by decide
  · exact fun _ _ => by decide
  · exact fun _ => nofun
  · exact fun _ _ => by decide

/-- The shift key is released first: the other one is not released any more. -/
theorem not_balanced_shift : ¬ Run.Always (step shiftConfig) (Balanced shiftConfig) new
    [.keyEvent true ⟨1, ""⟩, .keyEvent true ⟨2, ""⟩, .keyEvent false ⟨1, ""⟩,
      .keyEvent false ⟨2, ""⟩] := by
  intro h
  exact absurd (h.last.matched 30).2 (by decide)

end

end

end

end VirtualInput

end Thunder.PluginHost
