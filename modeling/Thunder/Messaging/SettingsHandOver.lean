import Thunder.Core.MessageStore
import Thunder.Core.Number
import Thunder.Core.TextSegmentIterator
import Thunder.Messaging.Settings

/-! The hand-over of the message settings to child processes.  `Save` joins all of them in one text
in the environment, `Load` takes that text apart.  `Load` leaves out entries that are not of a type
from TRACING to TELEMETRY, and a text in the environment ends at its first NUL. -/

namespace Thunder.Messaging

open Thunder.Core

/-- `MessageUnit::Settings`, as far as `Save` and `Load` go. -/
structure UnitSettings where
  path : Text
  identifier : Text
  socketPort : UInt16
  mode : UInt8
  dataSize : UInt16
  metadataBufferSize : UInt16
  metadataSize : UInt16
  messageSize : UInt16
  settings : Settings
  deriving DecidableEq, Repr

namespace UnitSettings

open NumberType (convert)

/-- `DELIMITER`. -/
def delimiter : UInt8 := 0x7C

/-- `mode::BACKGROUND | mode::DIRECT | mode::ABBREVIATED`. -/
def savedModes : UInt8 := 0x01 ||| 0x02 ||| 0x04

def saveControl (entry : Control) : Text :=
  [delimiter] ++ NumberType.text entry.metaData.type.code.toNat ++
    [delimiter] ++ entry.metaData.module ++
    [delimiter] ++ entry.metaData.category ++
    [delimiter] ++ [if entry.enabled then 0x31 else 0x30]

/-- The text that `Save` hands to the environment. -/
def save (unit : UnitSettings) : Text :=
  unit.path ++ [delimiter] ++
    unit.identifier ++ [delimiter] ++
    NumberType.text unit.socketPort.toNat ++ [delimiter] ++
    NumberType.text (unit.mode &&& savedModes).toNat ++ [delimiter] ++
    NumberType.text unit.dataSize.toNat ++ [delimiter] ++
    NumberType.text unit.metadataBufferSize.toNat ++ [delimiter] ++
    NumberType.text unit.metadataSize.toNat ++ [delimiter] ++
    NumberType.text unit.messageSize.toNat ++
    unit.settings.flatMap saveControl

/-- What `GetEnvironment` finds of a text given to `SetEnvironment`, which passes a C string. -/
def environment (value : Text) : Text := value.takeWhile (· ≠ 0)

def cleared : UnitSettings where
  path := []
  identifier := []
  socketPort := 0
  mode := 0
  dataSize := 0
  metadataBufferSize := 0
  metadataSize := 0
  messageSize := 0
  settings := []

def convert16 (segment : Text) : UInt16 := UInt16.ofNat (convert 65535 segment)

def convert8 (segment : Text) : UInt8 := UInt8.ofNat (convert 255 segment)

/-- The nested calls of `Next` in `Load`, each with what its segment is for. -/
def members : List (Text → UnitSettings → UnitSettings) :=
  [fun segment unit => { unit with path := segment },
   fun segment unit => { unit with identifier := segment },
   fun segment unit => { unit with socketPort := convert16 segment },
   fun segment unit => { unit with mode := convert8 segment },
   fun segment unit => { unit with dataSize := convert16 segment },
   fun segment unit => { unit with metadataBufferSize := convert16 segment },
   fun segment unit => { unit with metadataSize := convert16 segment },
   fun segment unit => { unit with messageSize := convert16 segment }]

/-- The members that there are segments for, and the segments that are left. -/
def loadMembers : List (Text → UnitSettings → UnitSettings) → List Text → UnitSettings →
    UnitSettings × List Text
  | member :: rest, segment :: segments, unit => loadMembers rest segments (member segment unit)
  | _, segments, unit => (unit, segments)

/-- The loop of `Load` over the entries. -/
def loadControls : List Text → Settings
  | type :: module :: category :: enabled :: segments =>
    if 1 ≤ convert8 type ∧ convert8 type ≤ 6 ∧ (enabled = [0x30] ∨ enabled = [0x31]) then
      ⟨⟨.ofCode (convert8 type), category, module⟩, enabled = [0x31]⟩ :: loadControls segments
    else loadControls segments
  | _ => []

def load (value : Text) : UnitSettings :=
  let iterator : TextSegmentIterator := ⟨value.take (value.length % 65536), delimiter, none⟩
  let (unit, segments) := loadMembers members iterator.segments cleared
  { unit with settings := loadControls segments }

/-- The settings of a child process. -/
def child (unit : UnitSettings) : UnitSettings := load (environment (save unit))

/-- The child has the settings of its parent, as far as they are saved, and answers like it. -/
def HandedOver (unit : UnitSettings) : Prop :=
  { unit.child with mode := unit.child.mode &&& savedModes } =
      { unit with mode := unit.mode &&& savedModes } ∧
    ∀ metaData, unit.child.settings.isEnabled metaData = unit.settings.isEnabled metaData

/-- The texts of the settings. -/
def texts (unit : UnitSettings) : List Text :=
  unit.path :: unit.identifier ::
    unit.settings.flatMap fun entry => [entry.metaData.module, entry.metaData.category]

/-- No text has the delimiter in it, and the joined text can be cast to 16 bits. -/
def Joinable (unit : UnitSettings) : Prop :=
  (∀ text ∈ unit.texts, delimiter ∉ text) ∧ (save unit).length < 65536

/-- What `Save` joins for an entry. -/
def controlFields (entry : Control) : List Text :=
  [NumberType.text entry.metaData.type.code.toNat, entry.metaData.module, entry.metaData.category,
    [if entry.enabled then 0x31 else 0x30]]

/-- What `Save` joins. -/
def fields (unit : UnitSettings) : List Text :=
  unit.path :: unit.identifier ::
    NumberType.text unit.socketPort.toNat :: NumberType.text (unit.mode &&& savedModes).toNat ::
    NumberType.text unit.dataSize.toNat :: NumberType.text unit.metadataBufferSize.toNat ::
    NumberType.text unit.metadataSize.toNat :: NumberType.text unit.messageSize.toNat ::
    unit.settings.flatMap controlFields

/-! ### The joined text -/

variable {unit : UnitSettings} {entry : Control} {c : UInt8}

theorem saveControl_eq (entry : Control) :
    saveControl entry = (controlFields entry).flatMap (delimiter :: ·) := by
  simp [saveControl, controlFields]

theorem save_eq (unit : UnitSettings) : save unit = [delimiter].intercalate (fields unit) := by
  have hentries : unit.settings.flatMap saveControl =
      (unit.settings.flatMap controlFields).flatMap (delimiter :: ·) := by
    rw [List.flatMap_assoc]
    exact List.flatMap_congr fun entry _ => saveControl_eq entry
  rw [fields, Text.intercalate_cons, save, hentries]
  simp

/-- A character that is no digit is in none of the numbers. -/
theorem not_mem_text (hc : ¬ (0x30 ≤ c ∧ c ≤ 0x39)) (value : Nat) : c ∉ NumberType.text value :=
  fun h => hc (NumberType.mem_text h)

theorem not_mem_controlFields (hc : ¬ (0x30 ≤ c ∧ c ≤ 0x39)) (hmodule : c ∉ entry.metaData.module)
    (hcategory : c ∉ entry.metaData.category) : ∀ field ∈ controlFields entry, c ∉ field := by
  intro field hfield
  simp only [controlFields, List.mem_cons, List.not_mem_nil, or_false] at hfield
  rcases hfield with rfl | rfl | rfl | rfl
  · exact not_mem_text hc _
  · exact hmodule
  · exact hcategory
  · intro hmem
    rw [List.mem_singleton] at hmem
    subst hmem
    split at hc <;> exact hc (by decide)

theorem not_mem_fields (hc : ¬ (0x30 ≤ c ∧ c ≤ 0x39)) (h : ∀ text ∈ unit.texts, c ∉ text) :
    ∀ field ∈ unit.fields, c ∉ field := by
  obtain ⟨hpath, hidentifier, hentries⟩ : c ∉ unit.path ∧ c ∉ unit.identifier ∧
      ∀ entry ∈ unit.settings, c ∉ entry.metaData.module ∧ c ∉ entry.metaData.category := by
    refine ⟨h _ (by simp [texts]), h _ (by simp [texts]), fun entry hentry => ⟨h _ ?_, h _ ?_⟩⟩
    · simp only [texts, List.mem_cons, List.mem_flatMap]
      exact .inr (.inr ⟨entry, hentry, by simp⟩)
    · simp only [texts, List.mem_cons, List.mem_flatMap]
      exact .inr (.inr ⟨entry, hentry, by simp⟩)
  intro field hfield
  simp only [fields, List.mem_cons, List.mem_flatMap] at hfield
  rcases hfield with rfl | rfl | rfl | rfl | rfl | rfl | rfl | rfl | ⟨entry, hentry, hfield⟩
  · exact hpath
  · exact hidentifier
  all_goals first
    | exact not_mem_text hc _
    | exact not_mem_controlFields hc (hentries entry hentry).1 (hentries entry hentry).2 _ hfield

/-- The last field is a number or the flag of an entry. -/
theorem getLast_fields (unit : UnitSettings) : unit.fields.getLast? ≠ some [] := by
  rcases List.eq_nil_or_concat unit.settings with hnil | ⟨before, entry, hlast⟩
  · simp [fields, hnil, NumberType.text_ne_nil]
  · simp [fields, hlast, controlFields, List.getLast?_cons]

/-- The environment and the iterator give the fields back. -/
theorem segments_save (hnul : ∀ text ∈ unit.texts, 0 ∉ text)
    (hjoinable : Joinable unit) :
    environment (save unit) = save unit ∧
      TextSegmentIterator.segments
        ⟨(save unit).take ((save unit).length % 65536), delimiter, none⟩ = unit.fields := by
  constructor
  · have hmem : ∀ c ∈ save unit, c ≠ 0 := by
      rintro c hc rfl
      rw [save_eq] at hc
      rcases Text.mem_intercalate hc with hc | ⟨field, hfield, hc⟩
      · exact absurd hc (by decide)
      · exact not_mem_fields (by decide) hnul field hfield hc
    exact List.takeWhile_eq_self_iff.mpr (by simpa using hmem)
  · rw [Nat.mod_eq_of_lt hjoinable.2, List.take_length, TextSegmentIterator.segments_eq, save_eq]
    exact Text.parts_intercalate (not_mem_fields (c := delimiter) (by decide) hjoinable.1)
      (getLast_fields unit)

/-! ### The members -/

theorem convert8_text (value : UInt8) : convert8 (NumberType.text value.toNat) = value := by
  have hlt := value.toNat_lt
  rw [convert8, NumberType.convert_text (by omega) (by omega), UInt8.ofNat_toNat]

theorem convert16_text (value : UInt16) : convert16 (NumberType.text value.toNat) = value := by
  have hlt := value.toNat_lt
  rw [convert16, NumberType.convert_text (by omega) (by omega), UInt16.ofNat_toNat]

theorem loadMembers_fields (unit : UnitSettings) :
    loadMembers members unit.fields cleared =
      ({ unit with mode := unit.mode &&& savedModes, settings := [] },
        unit.settings.flatMap controlFields) := by
  simp only [members, fields, loadMembers, convert8_text, convert16_text, cleared]

/-! ### The entries -/

/-- A type from TRACING to TELEMETRY. -/
def isTransferred (type : MetadataType) : Bool := 1 ≤ type.code ∧ type.code ≤ 6

theorem loadControls_fields {settings : Settings}
    (htype : ∀ entry ∈ settings,
      MetadataType.ofCode entry.metaData.type.code = entry.metaData.type) :
    loadControls (settings.flatMap controlFields) =
      settings.filter fun entry => isTransferred entry.metaData.type := by
  induction settings with
  | nil => rfl
  | cons entry rest ih =>
    obtain ⟨hentry, hrest⟩ := List.forall_mem_cons.mp htype
    have hflag : ([if entry.enabled then 0x31 else 0x30] : Text) = [0x30] ∨
        ([if entry.enabled then 0x31 else 0x30] : Text) = [0x31] := by
      cases entry.enabled <;> decide
    have henabled : decide (([if entry.enabled then 0x31 else 0x30] : Text) = [0x31]) =
        entry.enabled := by
      cases entry.enabled <;> decide
    have hkept : loadControls (controlFields entry ++ rest.flatMap controlFields) =
        if isTransferred entry.metaData.type then
          entry :: loadControls (rest.flatMap controlFields)
        else loadControls (rest.flatMap controlFields) := by
      simp only [controlFields, List.cons_append, List.nil_append, loadControls, convert8_text,
        hflag, and_true, henabled, hentry, isTransferred, decide_eq_true_eq]
    rw [List.flatMap_cons, List.filter_cons, hkept, ih hrest]

/-- Entries of other types count for no query of the transferred ones. -/
theorem isEnabledFrom_transferred {metaData : Metadata} (h : isTransferred metaData.type = true)
    (flag : Bool) (settings : Settings) :
    Settings.isEnabledFrom metaData flag
        (settings.filter fun entry => isTransferred entry.metaData.type) =
      Settings.isEnabledFrom metaData flag settings := by
  induction settings generalizing flag with
  | nil => rfl
  | cons entry rest ih =>
    by_cases hentry : isTransferred entry.metaData.type = true
    · rw [List.filter_cons, if_pos hentry, Settings.isEnabledFrom, Settings.isEnabledFrom, ih, ih]
    · have htype : metaData.type ≠ entry.metaData.type := fun heq => hentry (heq ▸ h)
      have hne : entry.metaData ≠ metaData := fun heq => htype (heq ▸ rfl)
      have hnot : ¬ entry.metaData.applicable metaData = true := by
        simp [Metadata.applicable, htype]
      rw [List.filter_cons, if_neg hentry, ih, Settings.isEnabledFrom, if_neg hne, if_neg hnot]

/-- Settings without a NUL and without the delimiter in their texts arrive, as far as they are
saved, less the entries of a type that `Load` does not take; every query of a type that it takes is
answered as before. -/
theorem handedOver_transferred (unit : UnitSettings)
    (htype : ∀ entry ∈ unit.settings,
      MetadataType.ofCode entry.metaData.type.code = entry.metaData.type)
    (hnul : ∀ text ∈ unit.texts, 0 ∉ text) (hjoinable : Joinable unit) :
    unit.child = { unit with
        mode := unit.mode &&& savedModes
        settings := unit.settings.filter fun entry => isTransferred entry.metaData.type } ∧
      ∀ metaData, isTransferred metaData.type = true →
        unit.child.settings.isEnabled metaData = unit.settings.isEnabled metaData := by
  have hchild : unit.child = { unit with
      mode := unit.mode &&& savedModes
      settings := unit.settings.filter fun entry => isTransferred entry.metaData.type } := by
    obtain ⟨henvironment, hsegments⟩ := segments_save hnul hjoinable
    rw [child, henvironment, load, hsegments, loadMembers_fields]
    exact congrArg
      (fun settings => { unit with mode := unit.mode &&& savedModes, settings := settings })
      (loadControls_fields htype)
  refine ⟨hchild, fun metaData h => ?_⟩
  rw [hchild]
  exact isEnabledFrom_transferred h _ _

/-- A parent with a wildcard, a category that is on and a path of one name. -/
def parent : UnitSettings where
  path := [0x2F, 0x74]
  identifier := [0x6D]
  socketPort := 0
  mode := 0x1B
  dataSize := 20480
  metadataBufferSize := 4096
  metadataSize := 256
  messageSize := 1024
  settings := [⟨⟨.tracing, [], [0x4D]⟩, true⟩, ⟨⟨.logging, [0x43], []⟩, false⟩]

theorem handedOver_parent : parent.child = { parent with mode := 0x03 } ∧
    parent.child.settings.isEnabled ⟨.tracing, [0x43], [0x4D]⟩ = true := by
  have h := handedOver_transferred parent (by decide) (by decide) ⟨by decide, by decide +kernel⟩
  exact ⟨h.1.trans (by decide), (h.2 _ (by decide)).trans (by decide)⟩

/-- The parent with one category of type INVALID off, as `Update` adds it. -/
def invalidEntry : UnitSettings :=
  { parent with settings := Settings.update [] ⟨.invalid, [0x43], [0x4D]⟩ false }

/-- The parent with a NUL in its path. -/
def nulPath : UnitSettings := { parent with path := [0x2F, 0, 0x74] }

/-- The entry does not arrive, and neither does what stands behind the NUL. -/
theorem not_handedOver :
    (Joinable invalidEntry ∧ ¬ HandedOver invalidEntry) ∧
      Joinable nulPath ∧ ¬ HandedOver nulPath := by
  refine ⟨⟨⟨by decide, by decide +kernel⟩, ?_⟩, ⟨by decide, by decide +kernel⟩, ?_⟩
  · rintro ⟨-, h⟩
    exact absurd (h ⟨.invalid, [0x43], [0x4D]⟩) (by decide +kernel)
  · rintro ⟨h, -⟩
    exact absurd (congrArg UnitSettings.identifier h) (by decide +kernel)

end UnitSettings

end Thunder.Messaging
