import Mathlib.Algebra.Order.BigOperators.Group.List
import Mathlib.Data.List.Nodup
import Thunder.Core.FrameType
import Thunder.Core.MessageCodec
import Thunder.Messaging.Settings

/-! The announced controls of a process, as `MessageUnit` hands them over.  The controls of a module
are packed one behind another as long as there is room, and whoever asks for them has only the
length.  The names of the modules are counted in a byte, and nobody asks whether there is room for
them. -/

namespace Thunder.Messaging

open Thunder.Core Bytes

/-- `std::find`, and `push_back` of what is not found. -/
def pushNew {α : Type} (same : α → α → Bool) (found : List α) (x : α) : List α :=
  if found.any (same x) then found else found ++ [x]

namespace Control

/-- Controls are compared as `Metadata`. -/
def same (control control' : Control) : Bool := control.metaData = control'.metaData

/-- `Control()`. -/
def fresh : Control := ⟨⟨.invalid, [], []⟩, false⟩

/-- The length, and the buffer afterwards. -/
def serialize (control : Control) (buffer : List UInt8) : Nat × List UInt8 :=
  let (length, filled) := control.metaData.serialize buffer
  if length = 0 ∨ buffer.length ≤ length then (0, filled)
  else (u16 (length + 1), overwrite filled length [if control.enabled then 1 else 0])

/-- There is no result where a text is read on behind the buffer. -/
def deserialize (control : Control) (buffer : List UInt8) : Option (Nat × Control) := do
  let (length, metaData) ← control.metaData.deserialize buffer
  if length = 0 ∨ buffer.length ≤ length then return (0, ⟨metaData, control.enabled⟩)
  else return (u16 (length + 1), ⟨metaData, buffer.getD length 0 ≠ 0⟩)

end Control

/-! ### The controls of a module -/

/-- The handler that packs them. -/
structure Handler where
  offset : Nat
  buffer : List UInt8

/-- `Handle`, for a control of the module. -/
def Handler.pack (handler : Handler) (control : Control) : Handler :=
  let (moved, filled) := control.serialize (handler.buffer.drop handler.offset)
  ⟨u16 (handler.offset + moved), handler.buffer.take handler.offset ++ filled⟩

def Handler.handle (module : Text) (handler : Handler) (control : Control) : Handler :=
  if module = control.metaData.module then handler.pack control else handler

/-- `MessageUnit::Serialize(buffer, length, module)`. -/
def serializeControls (buffer : List UInt8) (module : Text) (announced : List Control) : Handler :=
  announced.foldl (Handler.handle module) ⟨0, buffer⟩

/-- The loop of `Load` over what is left of the buffer. -/
def loadLoop : Nat → List UInt8 → List Control → Option (List Control)
  | 0, _, info => some info
  | turns + 1, buffer, info =>
    if buffer = [] then some info
    else (Control.fresh.deserialize buffer).bind fun (length, entry) =>
      if length = 0 then some info
      else loadLoop turns (buffer.drop length) (pushNew Control.same info entry)

/-- `Client::Load`, from the bytes that arrive; every turn takes at least one. -/
def load (buffer : List UInt8) : Option (List Control) := loadLoop buffer.length buffer []

/-! ### The modules -/

/-- `FrameType<0>`. -/
def frameConfig : FrameConfig := ⟨0, true, 2⟩

def collectModules (announced : List Control) : List Text :=
  announced.foldl (fun modules control => pushNew (· == ·) modules control.metaData.module) []

/-- `NullTerminatedText` without a `maxLength`. -/
def nameField (module : Text) : FrameType.Field := .nullTerminatedText module 65535

/-- `MessageUnit::Serialize(buffer, length)`; there is no writer behind a write out of the
buffer. -/
def serializeModules (buffer : List UInt8) (announced : List Control) : Option FrameType.Writer :=
  let modules := collectModules announced
  FrameType.Writer.writeAll frameConfig ⟨⟨buffer.length, buffer⟩, 0⟩
    (.number 1 (modules.length % 256) :: modules.map nameField)

def modulesLoop (frame : FrameType) : Nat → Nat → List Text → Option (List Text)
  | 0, _, modules => some modules
  | iterator + 1, offset, modules =>
    (frame.getNullTerminatedText frameConfig offset).bind fun (module, length) =>
      modulesLoop frame iterator (frameConfig.held (offset + length))
        (pushNew (· == ·) modules module)

/-- `Client::Modules`, from the bytes that arrive. -/
def loadModules (buffer : List UInt8) : Option (List Text) :=
  let frame : FrameType := ⟨buffer.length, buffer⟩
  (frame.getNumber frameConfig 1 0).bind fun (iterator, length) =>
    modulesLoop frame iterator length []

/-! ### What is to arrive -/

/-- A control on the wire. -/
def Control.encode (control : Control) : List UInt8 :=
  control.metaData.encode ++ [if control.enabled then 1 else 0]

/-- Names are free of zeros, and the type is one of its byte. -/
structure Control.Regular (control : Control) : Prop where
  nulFree : control.metaData.NulFree
  type : MetadataType.ofCode control.metaData.type.code = control.metaData.type

/-- Controls with the space that is left at their turn. -/
def turns : Nat → List Control → List (Nat × Control)
  | _, [] => []
  | space, control :: rest =>
    (space, control) ::
      turns (if control.encode.length ≤ space then space - control.encode.length else space) rest

/-- The controls that fit at their turn. -/
def fitted (turns : List (Nat × Control)) : List Control :=
  (turns.filter fun turn => turn.2.encode.length ≤ turn.1).map Prod.snd

/-- The turns of the controls of a module. -/
def turnsOf (module : Text) (length : Nat) (announced : List Control) : List (Nat × Control) :=
  turns length (announced.filter fun control => module = control.metaData.module)

def fitting (module : Text) (length : Nat) (announced : List Control) : List Control :=
  fitted (turnsOf module length announced)

/-- The announced modules, each once. -/
def modules (announced : List Control) : List Text :=
  (announced.map fun control => control.metaData.module).eraseDups

/-- The count and all names fit. -/
def AllFit (length : Nat) (announced : List Control) : Prop :=
  1 + ((modules announced).map fun module => module.length + 1).sum ≤ length

/-- What is loaded is what fitted, each control once. -/
def ControlsHandedOver (buffer : List UInt8) (module : Text) (announced : List Control) : Prop :=
  let handler := serializeControls buffer module announced
  load (handler.buffer.take handler.offset) =
    some ((fitting module buffer.length announced).eraseDupsBy Control.same)

/-- Nothing is written behind the buffer or read behind the reported length, and all modules arrive
if their names fit. -/
def ModulesHandedOver (buffer : List UInt8) (announced : List Control) : Prop :=
  ∃ writer, serializeModules buffer announced = some writer ∧
    ∃ arrived, loadModules (writer.frame.data.take writer.offset) = some arrived ∧
      (AllFit buffer.length announced → arrived = modules announced)

/-! ### When it arrives -/

/-- The type of a control says which module it is of, where it is not sent, and which category, if
it is an assert. -/
structure Control.Intact (control : Control) : Prop where
  module : control.metaData.type.sendsModule = true ∨
    control.metaData.module = control.metaData.type.fixedModule.getD []
  category : control.metaData.type = .assert → control.metaData.category = assertCategory

/-- A control that is too long for the space left is not taken for a short one, as it is where its
length does not fit in 16 bits. -/
def Unwrapped (module : Text) (length : Nat) (announced : List Control) : Prop :=
  ∀ turn ∈ turnsOf module length announced, turn.1 < turn.2.metaData.encode.length →
    turn.1 < turn.2.metaData.serializedLength

/-- There is room for what is written, which for a name is what a length of 16 bits says; a byte
counts the modules, if all names fit; and no more names are counted than have their zero. -/
structure ModulesFit (length : Nat) (announced : List Control) : Prop where
  room : 1 + ((modules announced).map fun module => u16 (module.length + 1)).sum ≤ length
  count : AllFit length announced → (modules announced).length < 256
  ended : (modules announced).length % 256 ≤
    (modules announced).countP fun module => module.length < 65535

/-! ### Finding and adding -/

section

variable {α : Type} (same : α → α → Bool)

theorem foldl_pushNew (found l : List α) :
    l.foldl (pushNew same) found =
      found ++ (l.filter fun x => !found.any (same x)).eraseDupsBy same := by
  induction l generalizing found with
  | nil => simp
  | cons x l ih =>
    rw [List.foldl_cons, ih, pushNew]
    by_cases hfound : found.any (same x) = true
    · rw [if_pos hfound, List.filter_cons_of_neg (by simpa using hfound)]
    · rw [if_neg hfound, List.filter_cons_of_pos (by simpa using hfound), List.eraseDupsBy_cons,
        List.filter_filter, List.append_assoc, List.singleton_append]
      congr 3
      apply List.filter_congr
      intro y _
      simp [Bool.and_comm]

/-- A loop that adds what it does not find keeps the first of each kind. -/
theorem foldl_pushNew_nil (l : List α) : l.foldl (pushNew same) [] = l.eraseDupsBy same := by
  simp [foldl_pushNew]

/-- What is kept is from the list, and there is something like each of its elements. -/
theorem mem_foldl_pushNew {x : α} (found l : List α) (h : x ∈ l.foldl (pushNew same) found) :
    x ∈ found ∨ x ∈ l := by
  induction l generalizing found with
  | nil => exact .inl h
  | cons y l ih =>
    rcases ih _ h with hfound | hrest
    · rw [pushNew] at hfound
      split_ifs at hfound
      · exact .inl hfound
      · rcases List.mem_append.mp hfound with hold | hnew
        · exact .inl hold
        · exact .inr (List.mem_cons.mpr (.inl (List.mem_singleton.mp hnew)))
    · exact .inr (List.mem_cons_of_mem y hrest)

theorem exists_same_of_mem {same : α → α → Bool} (hrefl : ∀ x, same x x = true) {x : α}
    (found l : List α) (h : x ∈ l ∨ ∃ y ∈ found, same x y = true) :
    ∃ y ∈ l.foldl (pushNew same) found, same x y = true := by
  induction l generalizing found with
  | nil => exact h.resolve_left List.not_mem_nil
  | cons z l ih =>
    apply ih
    -- what was found before is still there, and now there is something like `z`
    have hkept : ∀ y ∈ found, y ∈ pushNew same found z := by
      intro y hy
      rw [pushNew]
      split_ifs
      · exact hy
      · exact List.mem_append_left _ hy
    have hadded : ∃ y ∈ pushNew same found z, same z y = true := by
      by_cases hfound : found.any (same z) = true
      · obtain ⟨y, hy, hsame⟩ := List.any_eq_true.mp hfound
        exact ⟨y, hkept y hy, hsame⟩
      · rw [pushNew, if_neg hfound]
        exact ⟨z, by simp, hrefl z⟩
    rcases h with hmem | ⟨y, hy, hsame⟩
    · rcases List.mem_cons.mp hmem with rfl | hrest
      · exact .inr hadded
      · exact .inl hrest
    · exact .inr ⟨y, hkept y hy, hsame⟩

/-- A list without duplicates is kept as it is. -/
theorem eraseDups_of_nodup [BEq α] [LawfulBEq α] {l : List α} (h : l.Nodup) : l.eraseDups = l := by
  induction l with
  | nil => rfl
  | cons x l ih =>
    obtain ⟨hx, hrest⟩ := List.nodup_cons.mp h
    have hfilter : l.filter (fun y => !y == x) = l := by
      apply List.filter_eq_self.mpr
      intro y hy
      have hne : y ≠ x := fun heq => hx (heq ▸ hy)
      simpa using hne
    rw [List.eraseDups_cons, hfilter, ih hrest]

end

theorem nodup_foldl_pushNew (found l : List Text) (h : found.Nodup) :
    (l.foldl (pushNew (· == ·)) found).Nodup := by
  induction l generalizing found with
  | nil => exact h
  | cons x l ih =>
    apply ih
    rw [pushNew]
    split_ifs with hfound
    · exact h
    · apply h.append (List.nodup_singleton x)
      intro y hy hyx
      rw [List.mem_singleton.mp hyx] at hy
      exact hfound (List.any_eq_true.mpr ⟨x, hy, beq_self_eq_true x⟩)

theorem collectModules_eq (announced : List Control) :
    collectModules announced = modules announced := by
  rw [collectModules, modules, List.eraseDups, ← foldl_pushNew_nil, List.foldl_map]

theorem nodup_modules (announced : List Control) : (modules announced).Nodup := by
  rw [modules, List.eraseDups, ← foldl_pushNew_nil]
  exact nodup_foldl_pushNew [] _ List.nodup_nil

/-! ### One control -/

namespace Control

variable {control : Control} {buffer rest : List UInt8}

theorem length_encode (control : Control) :
    control.encode.length = control.metaData.encode.length + 1 := by
  rw [encode, List.length_append, List.length_singleton]

theorem serialize_of_fits (hbuffer : buffer.length ≤ 65535)
    (h : control.encode.length ≤ buffer.length) :
    control.serialize buffer =
      (control.encode.length, control.encode ++ buffer.drop control.encode.length) := by
  have hlength := control.length_encode
  have hpos := control.metaData.encode_pos
  have hshort : control.metaData.encode.length ≤ 65535 := by omega
  have hwrites := (Metadata.serializes hshort buffer hbuffer).1 (by omega)
  rw [serialize, hwrites]
  dsimp only
  rw [if_neg (by omega), u16_of_lt (by omega), overwrite_append, ← hlength, List.length_singleton,
    List.drop_drop, ← hlength, encode]

/-- A control that does not fit leaves no trace but in the room. -/
theorem serialize_of_long (hbuffer : buffer.length ≤ 65535)
    (h : buffer.length < control.encode.length)
    (hwrapped : buffer.length < control.metaData.encode.length →
      buffer.length < control.metaData.serializedLength) :
    ∃ filled, control.serialize buffer = (0, filled) ∧ filled.length = buffer.length := by
  have hlength := control.length_encode
  rcases Nat.lt_or_ge buffer.length control.metaData.encode.length with hlong | hflag
  · have hshort := hwrapped hlong
    refine ⟨buffer, ?_, rfl⟩
    rw [serialize, Metadata.serialize, if_neg (by omega)]
    exact if_pos (.inl rfl)
  · -- there is no room for the flag
    have hshort : control.metaData.encode.length ≤ 65535 := by omega
    have hwrites := (Metadata.serializes hshort buffer hbuffer).1 hflag
    refine ⟨control.metaData.encode ++ buffer.drop control.metaData.encode.length, ?_, ?_⟩
    · rw [serialize, hwrites]
      exact if_pos (.inr (by omega))
    · rw [List.length_append, List.length_drop]
      omega

/-- The control that is made of an encoding. -/
def arrived (control : Control) : Control := ⟨control.metaData.arrived [], control.enabled⟩

theorem deserialize_encode (h : control.Regular)
    (hsize : (control.encode ++ rest).length ≤ 65535) :
    fresh.deserialize (control.encode ++ rest) = some (control.encode.length, control.arrived) := by
  have hlength := control.length_encode
  have hpos := control.metaData.encode_pos
  have hsplit : control.encode ++ rest =
      control.metaData.encode ++ ((if control.enabled then 1 else 0) :: rest) := by
    rw [encode, List.append_assoc, List.singleton_append]
  have htotal : (control.encode ++ rest).length = control.encode.length + rest.length :=
    List.length_append
  have hmetaData := Metadata.deserialize_encode_arrived fresh.metaData h.type h.nulFree
    (hsplit ▸ hsize) (by rw [← hsplit]; omega)
  have hflag : (control.encode ++ rest).getD control.metaData.encode.length 0 =
      if control.enabled then 1 else 0 := by
    rw [hsplit]
    simp
  rw [← hsplit] at hmetaData
  rw [deserialize, hmetaData, Option.bind_eq_bind, Option.bind_some]
  dsimp only
  rw [if_neg (by omega), u16_of_lt (by omega), ← hlength, hflag, arrived]
  cases control.enabled <;> rfl

theorem arrived_intact_iff : control.arrived.metaData = control.metaData ↔ control.Intact := by
  obtain ⟨⟨type, category, module⟩, enabled⟩ := control
  constructor
  · intro h
    obtain ⟨-, hcategory, hmodule⟩ := Metadata.ext_iff.mp h
    simp only [arrived, Metadata.arrived] at hcategory hmodule
    refine ⟨?_, ?_⟩
    · by_cases hsends : type.sendsModule = true
      · exact .inl hsends
      · rw [if_neg hsends] at hmodule
        exact .inr hmodule.symm
    · intro hassert
      rw [if_pos hassert] at hcategory
      exact hcategory.symm
  · rintro ⟨hmodule, hcategory⟩
    refine Metadata.ext rfl ?_ ?_
    · change (if type = .assert then assertCategory else category) = category
      split_ifs with hassert
      · exact (hcategory hassert).symm
      · rfl
    · change (if type.sendsModule then module else type.fixedModule.getD []) = module
      split_ifs with hsends
      · rfl
      · exact (hmodule.resolve_left hsends).symm

/-- What has arrived is as it would arrive again. -/
theorem arrived_intact (control : Control) : control.arrived.Intact := by
  rw [← arrived_intact_iff]
  obtain ⟨⟨type, category, module⟩, enabled⟩ := control
  simp only [arrived, Metadata.arrived, Metadata.mk.injEq, true_and]
  constructor <;> split_ifs <;> rfl

theorem arrived_eq (h : control.Intact) : control.arrived = control := by
  rw [← arrived_intact_iff] at h
  cases control
  exact congrArg (Control.mk · _) h

theorem same_self (control : Control) : control.same control = true := decide_eq_true rfl

end Control

/-! ### Packing -/

/-- The bytes of a buffer up to an offset are `packed`, and the buffer has kept its length. -/
structure Packed (offset : Nat) (buffer : List UInt8) (length : Nat) (packed : List UInt8) :
    Prop where
  total : buffer.length = length
  size : offset = packed.length
  taken : buffer.take offset = packed

theorem Packed.le {offset length : Nat} {buffer packed : List UInt8}
    (h : Packed offset buffer length packed) : packed.length ≤ length := by
  have hlength := congrArg List.length h.taken
  rw [List.length_take, h.total, h.size] at hlength
  omega

theorem Packed.length_room {offset length : Nat} {buffer packed : List UInt8}
    (h : Packed offset buffer length packed) :
    (buffer.drop offset).length = length - packed.length := by
  rw [List.length_drop, h.total, h.size]

abbrev Handler.Holds (handler : Handler) : Nat → List UInt8 → Prop :=
  Packed handler.offset handler.buffer

section

variable {handler : Handler} {length : Nat} {packed : List UInt8} {control : Control}

/-- A control that fits is packed behind the others. -/
theorem Handler.Holds.pack (h : handler.Holds length packed) (hlength : length ≤ 65535)
    (hfits : control.encode.length ≤ length - packed.length) :
    (handler.pack control).Holds length (packed ++ control.encode) := by
  have hle := h.le
  have hroom := h.length_room
  have hserialize : control.serialize (handler.buffer.drop handler.offset) = _ :=
    Control.serialize_of_fits (by omega) (by omega)
  have hoffset : u16 (handler.offset + control.encode.length) =
      (packed ++ control.encode).length := by
    rw [h.size, List.length_append, u16_of_lt (by omega)]
  rw [Handler.pack, hserialize, h.taken]
  dsimp only
  rw [hoffset]
  refine ⟨?_, rfl, ?_⟩
  · simp only [List.length_append, List.length_drop, h.total, h.size]
    omega
  · dsimp only
    rw [← List.append_assoc, List.take_left]

/-- One that does not changes nothing that is packed. -/
theorem Handler.Holds.pass (h : handler.Holds length packed) (hlength : length ≤ 65535)
    (hlong : ¬ control.encode.length ≤ length - packed.length)
    (hwrapped : length - packed.length < control.metaData.encode.length →
      length - packed.length < control.metaData.serializedLength) :
    (handler.pack control).Holds length packed := by
  have hle := h.le
  have hroom := h.length_room
  rw [← hroom] at hwrapped
  obtain ⟨filled, hserialize, hfilled⟩ := Control.serialize_of_long (by omega) (by omega) hwrapped
  have hoffset : u16 (handler.offset + 0) = packed.length := by
    rw [h.size, Nat.add_zero, u16_of_lt (by omega)]
  rw [Handler.pack, hserialize, h.taken]
  dsimp only
  rw [hoffset]
  refine ⟨?_, rfl, List.take_left⟩
  rw [List.length_append, hfilled]
  omega

/-- A run over controls packs those that fit, each at its turn. -/
theorem Handler.Holds.foldl_pack (h : handler.Holds length packed) (hlength : length ≤ 65535)
    (controls : List Control)
    (hwrapped : ∀ turn ∈ turns (length - packed.length) controls,
      turn.1 < turn.2.metaData.encode.length → turn.1 < turn.2.metaData.serializedLength) :
    (controls.foldl Handler.pack handler).Holds length
      (packed ++ (fitted (turns (length - packed.length) controls)).flatMap Control.encode) := by
  induction controls generalizing handler packed with
  | nil => simpa [turns, fitted] using h
  | cons control rest ih =>
    rw [turns, List.forall_mem_cons] at hwrapped
    obtain ⟨hfirst, hrest⟩ := hwrapped
    rw [List.foldl_cons, turns, fitted]
    by_cases hfits : control.encode.length ≤ length - packed.length
    · have hspace : length - packed.length - control.encode.length =
          length - (packed ++ control.encode).length := by
        rw [List.length_append]
        omega
      rw [if_pos hfits, hspace] at hrest ⊢
      rw [List.filter_cons_of_pos (by simpa using hfits), List.map_cons, List.flatMap_cons,
        ← List.append_assoc]
      exact ih (h.pack hlength hfits) hrest
    · rw [if_neg hfits] at hrest ⊢
      rw [List.filter_cons_of_neg (by simpa using hfits)]
      exact ih (h.pass hlength hfits hfirst) hrest

end

/-- The reported bytes are those of the controls that fitted. -/
theorem serializeControls_eq {buffer : List UInt8} (hbuffer : buffer.length ≤ 65535)
    {module : Text} {announced : List Control}
    (hwrapped : Unwrapped module buffer.length announced) :
    (serializeControls buffer module announced).Holds buffer.length
      ((fitting module buffer.length announced).flatMap Control.encode) := by
  have hstart : Handler.Holds ⟨0, buffer⟩ buffer.length [] := ⟨rfl, rfl, List.take_zero⟩
  have hrun := hstart.foldl_pack hbuffer
    (announced.filter fun control => module = control.metaData.module) hwrapped
  rw [List.foldl_filter] at hrun
  simp only [decide_eq_true_eq] at hrun
  exact hrun

/-! ### Loading -/

/-- Encodings one behind another are taken apart, and nothing is read behind them. -/
theorem loadLoop_encodes {controls info : List Control} {count : Nat}
    (hregular : ∀ control ∈ controls, control.Regular)
    (hsize : (controls.flatMap Control.encode).length ≤ 65535)
    (hcount : (controls.flatMap Control.encode).length ≤ count) :
    loadLoop count (controls.flatMap Control.encode) info =
      some ((controls.map Control.arrived).foldl (pushNew Control.same) info) := by
  induction controls generalizing info count with
  | nil => cases count <;> rfl
  | cons control rest ih =>
    obtain ⟨hfirst, hrest⟩ := List.forall_mem_cons.mp hregular
    have hpos := control.length_encode
    rw [List.flatMap_cons] at hsize hcount ⊢
    have htotal : (control.encode ++ rest.flatMap Control.encode).length =
        control.encode.length + (rest.flatMap Control.encode).length := List.length_append
    obtain ⟨count, rfl⟩ : ∃ n, count = n + 1 := ⟨count - 1, by omega⟩
    have hne : control.encode ++ rest.flatMap Control.encode ≠ [] :=
      List.ne_nil_of_length_pos (by omega)
    rw [loadLoop, if_neg hne, Control.deserialize_encode hfirst hsize, Option.bind_some]
    dsimp only
    rw [if_neg (by omega), List.drop_left, ih hrest (by omega) (by omega), List.map_cons,
      List.foldl_cons]

/-- A list of controls arrives, each once and as it is, exactly if all of them are intact. -/
theorem foldl_arrived_iff (controls : List Control) :
    (controls.map Control.arrived).foldl (pushNew Control.same) [] =
      controls.eraseDupsBy Control.same ↔ ∀ control ∈ controls, control.Intact := by
  rw [← foldl_pushNew_nil]
  constructor
  · intro heq control hcontrol
    obtain ⟨kept, hkept, hsame⟩ :=
      exists_same_of_mem Control.same_self [] controls (.inl hcontrol)
    have hmetaData : control.metaData = kept.metaData := of_decide_eq_true hsame
    rw [← heq] at hkept
    -- what is kept has arrived, and so it is intact
    rcases mem_foldl_pushNew Control.same [] _ hkept with hnil | hmem
    · exact absurd hnil List.not_mem_nil
    · obtain ⟨sent, -, rfl⟩ := List.mem_map.mp hmem
      have hintact := sent.arrived_intact
      exact ⟨hmetaData ▸ hintact.module, hmetaData ▸ hintact.category⟩
  · intro hintact
    rw [List.map_congr_left fun control hcontrol => Control.arrived_eq (hintact control hcontrol),
      List.map_id']

theorem mem_of_mem_turns {space : Nat} {controls : List Control} {turn : Nat × Control}
    (h : turn ∈ turns space controls) : turn.2 ∈ controls := by
  induction controls generalizing space with
  | nil => exact absurd h List.not_mem_nil
  | cons control rest ih =>
    rcases List.mem_cons.mp h with rfl | hrest
    · exact List.mem_cons_self
    · exact List.mem_cons_of_mem _ (ih hrest)

theorem mem_of_mem_fitting {module : Text} {length : Nat} {announced : List Control}
    {control : Control} (h : control ∈ fitting module length announced) : control ∈ announced := by
  obtain ⟨turn, hturn, rfl⟩ := List.mem_map.mp h
  exact (List.mem_filter.mp (mem_of_mem_turns (List.mem_filter.mp hturn).1)).1

/-- The controls are handed over if and only if those that fit are intact. -/
theorem controlsHandedOver_iff {buffer : List UInt8} (hbuffer : buffer.length ≤ 65535)
    {module : Text} {announced : List Control} (hregular : ∀ control ∈ announced, control.Regular)
    (hwrapped : Unwrapped module buffer.length announced) :
    ControlsHandedOver buffer module announced ↔
      ∀ control ∈ fitting module buffer.length announced, control.Intact := by
  have hholds := serializeControls_eq hbuffer hwrapped
  have hle := hholds.le
  rw [ControlsHandedOver, hholds.taken, load,
    loadLoop_encodes (fun control hcontrol => hregular control (mem_of_mem_fitting hcontrol))
      (by omega) le_rfl, Option.some_inj]
  exact foldl_arrived_iff _

/-! ### Writing the modules -/

/-- The bytes of a name: as many as a length of 16 bits says. -/
def nameBytes (module : Text) : List UInt8 := (module ++ [0]).take (u16 (module.length + 1))

theorem length_nameBytes (module : Text) : (nameBytes module).length = u16 (module.length + 1) := by
  rw [nameBytes, List.length_take, List.length_append, List.length_singleton, u16]
  have hle := Nat.mod_le (module.length + 1) 65536
  omega

/-- A name has its zero, unless it is too long. -/
theorem count_nameBytes {module : Text} (h : 0 ∉ module) :
    (nameBytes module).count 0 = if module.length < 65535 then 1 else 0 := by
  have hcount : module.count 0 = 0 := List.count_eq_zero.mpr h
  rw [nameBytes]
  split_ifs with hshort
  · rw [u16_of_lt (by omega), List.take_of_length_le (by simp), List.count_append, hcount]
    rfl
  · have hcut : u16 (module.length + 1) ≤ module.length := by
      unfold u16
      omega
    rw [List.take_append_of_le_length hcut]
    exact List.count_eq_zero.mpr fun hmem => h (List.mem_of_mem_take hmem)

theorem nameBytes_of_short {module : Text} (h : module.length < 65535) :
    nameBytes module = module ++ [0] := by
  rw [nameBytes, u16_of_lt (by omega), List.take_of_length_le (by simp)]

/-- A buffer of the caller does not grow. -/
theorem grow_data (offset n : Nat) (frame : FrameType) :
    (frame.grow frameConfig offset n).data = frame.data := by
  rw [FrameType.grow]
  split_ifs <;> rfl

section

variable {writer : FrameType.Writer} {length : Nat} {packed : List UInt8}

/-- A field whose bytes are copied to the offset is written if it fits. -/
theorem Packed.write (h : Packed writer.offset writer.frame.data length packed)
    (hlength : length ≤ 65535) (n : Nat) (bytes : List UInt8) :
    let written := writer.moved frameConfig
      (((writer.frame.grow frameConfig writer.offset n).put writer.offset bytes).map
        fun frame => (bytes.length, frame))
    (bytes.length ≤ length - packed.length → ∃ writer', written = some writer' ∧
      Packed writer'.offset writer'.frame.data length (packed ++ bytes)) ∧
    (length - packed.length < bytes.length → written = none) := by
  have hle := h.le
  intro written
  constructor
  · intro hfits
    have hroom : writer.offset + bytes.length ≤ writer.frame.data.length := by
      rw [h.total, h.size]
      omega
    have hoffset : frameConfig.held (writer.offset + bytes.length) = (packed ++ bytes).length := by
      rw [h.size, List.length_append]
      exact Nat.mod_eq_of_lt (show packed.length + bytes.length < 65536 by omega)
    let frame : FrameType := { writer.frame.grow frameConfig writer.offset n with
      data := overwrite writer.frame.data writer.offset bytes }
    refine ⟨⟨frame, frameConfig.held (writer.offset + bytes.length)⟩, ?_, ?_⟩
    · simp only [written, FrameType.put, grow_data, if_pos hroom]
      rfl
    · have htake : (overwrite writer.frame.data writer.offset bytes).take
          (writer.offset + bytes.length) = writer.frame.data.take writer.offset ++ bytes :=
        take_overwrite bytes (by omega)
      rw [h.taken, h.size, ← List.length_append, ← h.size] at htake
      dsimp only
      rw [hoffset]
      exact ⟨(length_overwrite hroom).trans h.total, rfl, htake⟩
  · intro hlong
    have hroom : ¬ writer.offset + bytes.length ≤ writer.frame.data.length := by
      rw [h.total, h.size]
      omega
    simp only [written, FrameType.put, grow_data, if_neg hroom]
    rfl

theorem write_nameField (writer : FrameType.Writer) (module : Text) :
    writer.write frameConfig (nameField module) = writer.moved frameConfig
      (((writer.frame.grow frameConfig writer.offset (nameBytes module).length).put writer.offset
        (nameBytes module)).map fun frame => ((nameBytes module).length, frame)) := by
  rw [length_nameBytes]
  rfl

/-- Names are written one behind another until one does not fit. -/
theorem Packed.writeAll (h : Packed writer.offset writer.frame.data length packed)
    (hlength : length ≤ 65535) (names : List Text) :
    ((names.flatMap nameBytes).length ≤ length - packed.length →
      ∃ writer', writer.writeAll frameConfig (names.map nameField) = some writer' ∧
        Packed writer'.offset writer'.frame.data length (packed ++ names.flatMap nameBytes)) ∧
    (length - packed.length < (names.flatMap nameBytes).length →
      writer.writeAll frameConfig (names.map nameField) = none) := by
  induction names generalizing writer packed with
  | nil => exact ⟨fun _ => ⟨writer, rfl, by simpa using h⟩, fun hlt => absurd hlt (by simp)⟩
  | cons name rest ih =>
    obtain ⟨hfits, hlong⟩ := h.write hlength (nameBytes name).length (nameBytes name)
    rw [← write_nameField] at hfits hlong
    rw [List.flatMap_cons, List.length_append, List.map_cons, FrameType.Writer.writeAll]
    rcases Nat.lt_or_ge (length - packed.length) (nameBytes name).length with hlt | hge
    · rw [hlong hlt]
      exact ⟨fun hle => by omega, fun _ => rfl⟩
    · obtain ⟨writer', hwrite, hpacked⟩ := hfits hge
      have hrest := ih hpacked
      rw [List.length_append, List.append_assoc] at hrest
      rw [hwrite, Option.bind_some]
      exact ⟨fun hle => hrest.1 (by omega), fun hlt => hrest.2 (by omega)⟩

end

/-- The bytes that `Serialize` reports. -/
def modulesBytes (announced : List Control) : List UInt8 :=
  UInt8.ofNat ((modules announced).length % 256) :: (modules announced).flatMap nameBytes

theorem length_modulesBytes (announced : List Control) :
    (modulesBytes announced).length =
      1 + ((modules announced).map fun module => u16 (module.length + 1)).sum := by
  rw [modulesBytes, List.length_cons, List.length_flatMap, Nat.add_comm]
  simp only [length_nameBytes]

/-- All of them are written, or there is a write out of the buffer. -/
theorem serializeModules_spec {buffer : List UInt8} (hbuffer : buffer.length ≤ 65535)
    (announced : List Control) :
    ((modulesBytes announced).length ≤ buffer.length →
      ∃ writer, serializeModules buffer announced = some writer ∧
        writer.frame.data.take writer.offset = modulesBytes announced) ∧
    (buffer.length < (modulesBytes announced).length →
      serializeModules buffer announced = none) := by
  let start : FrameType.Writer := ⟨⟨buffer.length, buffer⟩, 0⟩
  let count := (modules announced).length % 256
  have hstart : Packed start.offset start.frame.data buffer.length [] := ⟨rfl, rfl, List.take_zero⟩
  obtain ⟨hfits, hlong⟩ := hstart.write hbuffer 1 [UInt8.ofNat count]
  have hnumber : start.write frameConfig (.number 1 count) = start.moved frameConfig
      (((start.frame.grow frameConfig start.offset 1).put start.offset [UInt8.ofNat count]).map
        fun frame => (1, frame)) := rfl
  rw [List.length_singleton, ← hnumber] at hfits hlong
  rw [modulesBytes, List.length_cons, serializeModules, collectModules_eq,
    FrameType.Writer.writeAll]
  simp only [List.length_nil, Nat.sub_zero] at hfits hlong
  rcases Nat.lt_or_ge buffer.length 1 with hlt | hge
  · rw [hlong hlt]
    exact ⟨fun hle => by omega, fun _ => rfl⟩
  · obtain ⟨writer, hwrite, hpacked⟩ := hfits hge
    obtain ⟨hrest, hout⟩ := hpacked.writeAll hbuffer (modules announced)
    rw [hwrite, Option.bind_some]
    simp only [List.nil_append, List.length_singleton] at hrest hout
    constructor
    · intro hle
      obtain ⟨writer', hall, hfinal⟩ := hrest (by omega)
      exact ⟨writer', hall, hfinal.taken⟩
    · intro hlt
      exact hout (by omega)

/-! ### Reading the modules -/

section

variable {data : List UInt8} {offset : Nat}

/-- A name up to its zero is read, and the next one begins behind it. -/
theorem modulesLoop_succ (iterator : Nat) (found : List Text) {module : Text} {rest : List UInt8}
    (hdata : data.length ≤ 65535) (hrest : data.drop offset = module ++ 0 :: rest)
    (hnul : 0 ∉ module) :
    modulesLoop ⟨data.length, data⟩ (iterator + 1) offset found =
        modulesLoop ⟨data.length, data⟩ iterator (offset + (module.length + 1))
          (pushNew (· == ·) found module) ∧
      data.drop (offset + (module.length + 1)) = rest := by
  have hlength := congrArg List.length hrest
  rw [List.length_drop, List.length_append, List.length_cons] at hlength
  have hheld : frameConfig.held (offset + frameConfig.held (module.length + 1)) =
      offset + (module.length + 1) := by
    rw [FrameConfig.held, FrameConfig.held]
    change (offset + (module.length + 1) % 65536) % 65536 = _
    omega
  constructor
  · rw [modulesLoop, FrameType.getNullTerminatedText, List.take_length, hrest,
      terminated_append hnul, Option.map_some, Option.bind_some]
    dsimp only
    rw [hheld]
  · rw [← List.drop_drop, hrest, List.drop_append, List.drop_of_length_le (by omega)]
    simp

/-- Names can be read as long as there is a zero for each of them. -/
theorem modulesLoop_isSome_iff (hdata : data.length ≤ 65535) (iterator : Nat) (found : List Text) :
    (modulesLoop ⟨data.length, data⟩ iterator offset found).isSome ↔
      iterator ≤ (data.drop offset).count 0 := by
  induction iterator generalizing offset found with
  | zero => simp [modulesLoop]
  | succ iterator ih =>
    by_cases hmem : 0 ∈ data.drop offset
    · obtain ⟨module, rest, hsplit, hnul⟩ := List.eq_append_cons_of_mem hmem
      obtain ⟨hloop, hdrop⟩ := modulesLoop_succ iterator found hdata hsplit hnul
      have hnone : module.count 0 = 0 := List.count_eq_zero.mpr hnul
      rw [hloop, ih, hdrop, hsplit, List.count_append, hnone, List.count_cons_self]
      omega
    · have hnone : terminated (data.drop offset) = none := if_neg hmem
      rw [modulesLoop, FrameType.getNullTerminatedText, List.take_length, hnone,
        List.count_eq_zero.mpr hmem]
      simp

/-- Names that stand one behind another are read. -/
theorem modulesLoop_names (hdata : data.length ≤ 65535) (names found : List Text)
    {rest : List UInt8} (hrest : data.drop offset = names.flatMap (· ++ [0]) ++ rest)
    (hnul : ∀ name ∈ names, 0 ∉ name) :
    modulesLoop ⟨data.length, data⟩ names.length offset found =
      some (names.foldl (pushNew (· == ·)) found) := by
  induction names generalizing offset found with
  | nil => rfl
  | cons name names ih =>
    obtain ⟨hfirst, hothers⟩ := List.forall_mem_cons.mp hnul
    have hsplit : data.drop offset = name ++ 0 :: (names.flatMap (· ++ [0]) ++ rest) := by
      rw [hrest, List.flatMap_cons]
      simp
    obtain ⟨hloop, hdrop⟩ := modulesLoop_succ names.length found hdata hsplit hfirst
    rw [List.length_cons, hloop, List.foldl_cons]
    exact ih _ hdrop hothers

end

theorem loadModules_cons {count : Nat} (hcount : count < 256) (rest : List UInt8) :
    loadModules (UInt8.ofNat count :: rest) =
      modulesLoop ⟨(UInt8.ofNat count :: rest).length, UInt8.ofNat count :: rest⟩ count 1 [] := by
  have hbyte : ofBigEndian [UInt8.ofNat count] = count := by
    simp [ofBigEndian, Nat.mod_eq_of_lt hcount]
  have hnumber : frameConfig.number [UInt8.ofNat count] = count := hbyte
  simp [loadModules, FrameType.getNumber, FrameType.get, hnumber]

theorem count_flatMap_nameBytes {names : List Text} (h : ∀ name ∈ names, 0 ∉ name) :
    (names.flatMap nameBytes).count 0 = names.countP fun name => name.length < 65535 := by
  induction names with
  | nil => rfl
  | cons name rest ih =>
    obtain ⟨hname, hrest⟩ := List.forall_mem_cons.mp h
    rw [List.flatMap_cons, List.count_append, count_nameBytes hname, ih hrest, List.countP_cons,
      Nat.add_comm]
    simp

/-- If all names fit, none is too long. -/
theorem AllFit.short {length : Nat} (hlength : length ≤ 65535) {announced : List Control}
    (h : AllFit length announced) {module : Text} (hmem : module ∈ modules announced) :
    module.length < 65535 := by
  have hone := List.single_le_sum (fun _ _ => Nat.zero_le _) _
    (List.mem_map_of_mem (f := fun module : Text => module.length + 1) hmem)
  rw [AllFit] at h
  omega

/-- If all names fit, as many arrive as the byte counts. -/
theorem loadModules_of_allFit {length : Nat} (hlength : length ≤ 65535) {announced : List Control}
    (hsize : (modulesBytes announced).length ≤ 65535)
    (hnul : ∀ module ∈ modules announced, 0 ∉ module) (h : AllFit length announced) :
    loadModules (modulesBytes announced) =
      some ((modules announced).take ((modules announced).length % 256)) := by
  have hlt : (modules announced).length % 256 < 256 := Nat.mod_lt _ (by decide)
  have hle : (modules announced).length % 256 ≤ (modules announced).length := Nat.mod_le _ _
  have hbytes : (modules announced).flatMap nameBytes = (modules announced).flatMap (· ++ [0]) := by
    apply List.flatMap_congr
    intro module hmem
    exact nameBytes_of_short (h.short hlength hmem)
  have hsplit : (modulesBytes announced).drop 1 =
      ((modules announced).take ((modules announced).length % 256)).flatMap (· ++ [0]) ++
        ((modules announced).drop ((modules announced).length % 256)).flatMap (· ++ [0]) := by
    rw [← List.flatMap_append, List.take_append_drop, ← hbytes]
    rfl
  have hloop := modulesLoop_names hsize _ [] hsplit
    fun module hmem => hnul module (List.mem_of_mem_take hmem)
  rw [List.length_take, Nat.min_eq_left hle, foldl_pushNew_nil] at hloop
  have hnodup := (nodup_modules announced).sublist
    (List.take_sublist ((modules announced).length % 256) (modules announced))
  rw [modulesBytes] at hloop ⊢
  rw [loadModules_cons hlt, hloop]
  exact congrArg some (eraseDups_of_nodup hnodup)

theorem loadModules_isSome_iff {announced : List Control}
    (hsize : (modulesBytes announced).length ≤ 65535)
    (hnul : ∀ module ∈ modules announced, 0 ∉ module) :
    (loadModules (modulesBytes announced)).isSome ↔ (modules announced).length % 256 ≤
      (modules announced).countP fun module => module.length < 65535 := by
  have hlt : (modules announced).length % 256 < 256 := Nat.mod_lt _ (by decide)
  rw [← count_flatMap_nameBytes hnul]
  rw [modulesBytes] at hsize ⊢
  rw [loadModules_cons hlt, modulesLoop_isSome_iff hsize, List.drop_succ_cons, List.drop_zero]

theorem modulesHandedOver_iff {buffer : List UInt8} (hbuffer : buffer.length ≤ 65535)
    {announced : List Control} (hregular : ∀ control ∈ announced, control.Regular) :
    ModulesHandedOver buffer announced ↔ ModulesFit buffer.length announced := by
  have hnul : ∀ module ∈ modules announced, 0 ∉ module := by
    intro module hmem
    obtain ⟨control, hcontrol, rfl⟩ := List.mem_map.mp (List.mem_eraseDups.mp hmem)
    exact (hregular control hcontrol).nulFree.2
  obtain ⟨hfits, hlong⟩ := serializeModules_spec hbuffer announced
  have hlength := length_modulesBytes announced
  constructor
  · rintro ⟨writer, hwriter, arrived, harrived, hall⟩
    have hle : (modulesBytes announced).length ≤ buffer.length := by
      by_contra hlt
      rw [hlong (by omega)] at hwriter
      contradiction
    obtain ⟨writer', hwriter', htaken⟩ := hfits hle
    obtain rfl := Option.some.inj (hwriter.symm.trans hwriter')
    rw [htaken] at harrived
    refine ⟨by omega, ?_, ?_⟩
    · intro hallFit
      rw [loadModules_of_allFit hbuffer (by omega) hnul hallFit, hall hallFit] at harrived
      have hcount := congrArg List.length (Option.some.inj harrived)
      rw [List.length_take] at hcount
      omega
    · exact (loadModules_isSome_iff (by omega) hnul).mp (by rw [harrived]; rfl)
  · rintro ⟨hroom, hcount, hended⟩
    obtain ⟨writer, hwriter, htaken⟩ := hfits (by omega)
    obtain ⟨arrived, harrived⟩ :=
      Option.isSome_iff_exists.mp ((loadModules_isSome_iff (by omega) hnul).mpr hended)
    refine ⟨writer, hwriter, arrived, by rw [htaken, harrived], ?_⟩
    intro hallFit
    rw [loadModules_of_allFit hbuffer (by omega) hnul hallFit,
      Nat.mod_eq_of_lt (hcount hallFit), List.take_length] at harrived
    exact (Option.some.inj harrived).symm

/-! ### The hand-over -/

/-- The controls of a module are handed over, and so are the modules. -/
def HandedOver (buffer : List UInt8) (module : Text) (announced : List Control) : Prop :=
  ControlsHandedOver buffer module announced ∧ ModulesHandedOver buffer announced

/-- The lists are handed over if the controls that fit are intact, no length wraps and the names
fit; and there is no other way for the modules, nor for the controls where no length wraps. -/
theorem handedOver_exact (buffer : List UInt8) (hbuffer : buffer.length ≤ 65535) (module : Text)
    (announced : List Control) (hregular : ∀ control ∈ announced, control.Regular) :
    (Unwrapped module buffer.length announced →
      (∀ control ∈ fitting module buffer.length announced, control.Intact) →
      ModulesFit buffer.length announced → HandedOver buffer module announced) ∧
    (HandedOver buffer module announced → ModulesFit buffer.length announced ∧
      (Unwrapped module buffer.length announced →
        ∀ control ∈ fitting module buffer.length announced, control.Intact)) := by
  have hmodules := modulesHandedOver_iff hbuffer hregular
  constructor
  · intro hunwrapped hintact hfit
    exact ⟨(controlsHandedOver_iff hbuffer hregular hunwrapped).mpr hintact, hmodules.mpr hfit⟩
  · rintro ⟨hcontrols, hnames⟩
    refine ⟨hmodules.mp hnames, ?_⟩
    intro hunwrapped
    exact (controlsHandedOver_iff hbuffer hregular hunwrapped).mp hcontrols

/-- Two controls of a module, of which there is room for one, and the name of the module. -/
theorem handedOver_exact_two :
    HandedOver (List.replicate 20 0) (text "Web")
      [⟨⟨.tracing, text "Request", text "Web"⟩, true⟩,
        ⟨⟨.tracing, text "Response", text "Web"⟩, false⟩] := by
  refine (handedOver_exact (List.replicate 20 0) (by decide) (text "Web") _ ?_).1 ?_ ?_ ?_
  · intro control hcontrol
    simp only [List.mem_cons, List.not_mem_nil, or_false] at hcontrol
    rcases hcontrol with rfl | rfl <;> exact ⟨⟨by decide, by decide⟩, by decide⟩
  · unfold Unwrapped
    decide
  · intro control hcontrol
    have hmem := mem_of_mem_fitting hcontrol
    simp only [List.mem_cons, List.not_mem_nil, or_false] at hmem
    rcases hmem with rfl | rfl <;> exact ⟨.inl rfl, (by rintro ⟨⟩)⟩
  · exact ⟨by decide, fun _ => by decide, by decide⟩

/-- The name of a module is written behind a buffer of three bytes. -/
theorem not_handedOver_three :
    ¬ HandedOver [0, 0, 0] (text "Plugin")
      [⟨⟨.tracing, text "Information", text "Plugin"⟩, true⟩] := by
  rintro ⟨-, writer, hwriter, -⟩
  have hnone : serializeModules [0, 0, 0]
      [⟨⟨.tracing, text "Information", text "Plugin"⟩, true⟩] = none := rfl
  rw [hnone] at hwriter
  contradiction

end Thunder.Messaging
