import Thunder.Core.JSONFile
import Thunder.Core.JSONVariant
import Thunder.Library.Run
import Thunder.Server.Startup
import Mathlib.Logic.Function.Basic
import Mathlib.Tactic.SplitIfs

/-! What is persisted of the settings of the services, and restored when the server starts. -/

namespace Thunder.PluginHost.Override

open Core Core.JSON Function Run Startup

/-- What can be changed of a service at runtime. -/
structure Settings where
  configuration : JSON.String
  systemRootPath : JSON.String
  startMode : StartMode
  resumed : Option Bool
  quoted : systemRootPath.quotedSerialize = true

/-- The members that are set when a file has been read. -/
structure Stored where
  configuration : Option Text
  systemRootPath : Option Text
  startMode : Option StartMode
  resumed : Option Bool

namespace Settings

variable (settings : Settings)

def configLine : Text := settings.configuration.getValue

def setConfigLine (text : Text) : Settings :=
  { settings with configuration := settings.configuration.assign text }

def getSystemRootPath : Text := settings.systemRootPath.getValue

def setSystemRootPath (text : Text) : Settings :=
  { settings with
    systemRootPath := settings.systemRootPath.assign text
    quoted := settings.quoted }

def setStartMode (mode : StartMode) : Settings := { settings with startMode := mode }

/-- `Resumed()`. -/
def resumedValue : Bool := settings.resumed.getD (settings.startMode = .ACTIVATED)

def setResumed (value : Bool) : Settings := { settings with resumed := some value }

/-- What `Load` does with a service whose file has been read. -/
def apply (stored : Stored) : Settings :=
  let settings := stored.configuration.elim settings settings.setConfigLine
  let settings := stored.systemRootPath.elim settings settings.setSystemRootPath
  let settings := stored.startMode.elim settings settings.setStartMode
  stored.resumed.elim settings settings.setResumed

end Settings

/-- What is put into the file of a service. -/
structure Entry where
  configuration : Variant
  systemRootPath : Text
  startMode : StartMode
  resumed : Bool

/-- What is read of an entry that is read as it was written: a text without its quotes, and nothing
of a configuration that is not set. -/
def Entry.stored (entry : Entry) : Stored where
  configuration :=
    let text := entry.configuration.string
    if text.set then some (if text.null then [] else JSON.String.cString text.value) else none
  systemRootPath := some entry.systemRootPath
  startMode := some entry.startMode
  resumed := some entry.resumed

/-- The part of the configuration that is the server's own. -/
structure PluginHostConfig where
  servicePrefix : Text
  idleTime : UInt16
  deriving DecidableEq

/-- Containers of JSON: the elements of a `VariantContainer` read from a text, `operator==` and
`IsValid` of Variants, and the files. -/
structure Codec where
  object : Text → List (Text × Variant)
  equal : Variant → Variant → Bool
  isValid : Variant → Bool
  toFile : Entry → Text
  fromFile : Text → Stored
  hostToFile : PluginHostConfig → Text
  hostFromFile : Text → Option Text × Option UInt16

/-- `configuration`. -/
def configurationLabel : Text :=
  [0x63, 0x6F, 0x6E, 0x66, 0x69, 0x67, 0x75, 0x72, 0x61, 0x74, 0x69, 0x6F, 0x6E]

/-- `PluginHost`. -/
def pluginHostCallsign : Text := [0x50, 0x6C, 0x75, 0x67, 0x69, 0x6E, 0x48, 0x6F, 0x73, 0x74]

/-- `Variant()`. -/
def emptyVariant : Variant := ⟨(JSON.String.new false).assign nullTag, .empty⟩

/-- `Variant(const string&)`. -/
def textVariant (text : Text) : Variant := ⟨(JSON.String.new true).assign text, .string⟩

namespace Codec

variable (codec : Codec)

/-- Nothing where the text is no JSON. -/
def parseAndUnwrap (json : Text) : Option Variant :=
  let (root, error) := IElement.fromString emptyVariant json
  if error.isSome then none
  else
    let inner := if root.type = .object then
      (codec.object root.string.getValue).lookup configurationLabel else none
    match inner with
    | some v => some v
    | none =>
      if root.type = .empty ∨ root.type = .string ∨ codec.isValid root then some root else none

/-- `operator==` of what `Object()` gives. -/
def equalObjects (v v' : Variant) : Bool :=
  let elements := codec.object v.string.getValue
  let elements' := codec.object v'.string.getValue
  elements.length = elements'.length && elements.all fun (key, value) =>
    match elements'.lookup key with
    | none => false
    | some value' => codec.equal value value'

/-- What `PersistOverride` puts into the file; nothing where the configuration is the default
one. -/
def difference (config readOnlyConfig : Text) : Option Variant :=
  match codec.parseAndUnwrap config with
  | none => if config ≠ readOnlyConfig then some (textVariant config) else none
  | some runtimeVariant =>
    let differs : Bool := match codec.parseAndUnwrap readOnlyConfig with
      | none => decide (config ≠ readOnlyConfig)
      | some defaultVariant =>
        if runtimeVariant.type = .object ∧ defaultVariant.type = .object then
          !codec.equalObjects runtimeVariant defaultVariant
        else decide (runtimeVariant.string.getValue ≠ defaultVariant.string.getValue)
    if differs = true then some runtimeVariant else none

def entry (configuration : Variant) (settings : Settings) : Entry where
  configuration := configuration
  systemRootPath := settings.getSystemRootPath
  startMode := settings.startMode
  resumed := settings.resumedValue

/-- What `Load` does with a service. -/
def load (settings : Settings) : Option Text → Settings
  | none => settings
  | some file => settings.apply (codec.fromFile file)

end Codec

inductive Change
  | configLine (text : Text)
  | systemRootPath (text : Text)
  | startMode (mode : StartMode)
  | resumed (value : Bool)

def Settings.change (settings : Settings) : Change → Settings
  | .configLine text => settings.setConfigLine text
  | .systemRootPath text => settings.setSystemRootPath text
  | .startMode mode => settings.setStartMode mode
  | .resumed value => settings.setResumed value

/-! ### The settings of one service -/

variable {β : Type} (value : Text → β)

/-- The settings are the same, and the configuration has the same value. -/
structure Same (settings settings' : Settings) : Prop where
  configLine : value settings.configLine = value settings'.configLine
  systemRootPath : settings.getSystemRootPath = settings'.getSystemRootPath
  startMode : settings.startMode = settings'.startMode
  resumed : settings.resumedValue = settings'.resumedValue

variable {codec : Codec} {value}

theorem Same.refl (settings : Settings) : Same value settings settings := ⟨rfl, rfl, rfl, rfl⟩

/-- Texts that differ in what can be assigned to them. -/
structure Alike (s s' : JSON.String) : Prop where
  default : s.default = s'.default
  null : s.null = s'.null

@[simp] theorem cString_cString (text : Text) :
    JSON.String.cString (JSON.String.cString text) = JSON.String.cString text :=
  List.takeWhile_idem

theorem Alike.assign {s s' : JSON.String} (h : Alike s s') (text : Text) :
    Alike s (s'.assign text) := ⟨h.default, h.null⟩

/-- The path of a service can be assigned as that of its defaults. -/
def Settings.AlikePath (defaults settings : Settings) : Prop :=
  Alike defaults.systemRootPath settings.systemRootPath

namespace Settings

variable {settings defaults : Settings}

theorem AlikePath.change (h : defaults.AlikePath settings) (change : Change) :
    defaults.AlikePath (settings.change change) := by
  cases change with
  | configLine text => exact h
  | systemRootPath text => exact Alike.assign h text
  | startMode mode => exact h
  | resumed value => exact h

@[simp] theorem apply_systemRootPath (stored : Stored) :
    (settings.apply stored).systemRootPath =
      stored.systemRootPath.elim settings.systemRootPath settings.systemRootPath.assign := by
  obtain ⟨configuration, systemRootPath, startMode, resumed⟩ := stored
  cases configuration <;> cases systemRootPath <;> cases startMode <;> cases resumed <;> rfl

theorem AlikePath.apply (h : defaults.AlikePath settings) (stored : Stored) :
    defaults.AlikePath (settings.apply stored) := by
  unfold AlikePath
  rw [apply_systemRootPath]
  cases stored.systemRootPath with
  | none => exact h
  | some text => exact Alike.assign h text

theorem AlikePath.load (h : defaults.AlikePath settings) (file : Option Text) :
    defaults.AlikePath (codec.load settings file) := by
  cases file with
  | none => exact h
  | some file => exact h.apply _

end Settings

/-- The services of a server and what it is configured with.  `readOnlyConfig` is the configuration
of a service among the plugins; there is none for extensions, for clones, and for the Controller
where it is not listed. -/
structure Services where
  callsigns : List Text
  controller : Text
  readOnlyConfig : Text → Option JSON.String
  defaults : Text → Settings
  host : PluginHostConfig
  nodup : callsigns.Nodup

/-- `files` are the files that can be read, and `saved` is what the services are to come back
with. -/
structure World where
  runtime : Text → Settings
  host : PluginHostConfig
  files : Text → Option Text
  saved : Text → Settings

/-- `restart` is the server starting anew, up to the `Load`. -/
inductive Event
  | change (callsign : Text) (change : Change)
  | save (callsign : Option Text)
  | destroy (callsign : Option Text)
  | restart
  | load

namespace Services

variable (r : Services) (codec : Codec)

/-- A loop over services that changes something of each. -/
def each {β : Type} (f : Text → β → β) (callsigns : List Text) (g : Text → β) : Text → β :=
  callsigns.foldl (fun g callsign => update g callsign (f callsign (g callsign))) g

theorem lawfulBEq_text : LawfulBEq Text := inferInstance

attribute [local instance] lawfulBEq_text

/-- The services that a call is about. -/
def addressed : Option Text → List Text
  | none => r.callsigns
  | some raw =>
    let target := if raw = [] then r.controller else raw
    if raw ≠ pluginHostCallsign ∧ target ∈ r.callsigns then [target] else []

/-- Whether a call is about the server itself. -/
def isAboutPluginHost (callsign : Option Text) : Bool :=
  callsign = none || callsign = some pluginHostCallsign

/-- `defaults` are the values that the `Override` took when it was constructed. -/
def savePluginHostConfig (defaults : PluginHostConfig) (w : World) : World :=
  { w with
    files := update w.files pluginHostCallsign
      (if w.host ≠ defaults then some (codec.hostToFile w.host) else none) }

def loadPluginHostConfig (w : World) : World :=
  match w.files pluginHostCallsign with
  | none => w
  | some file =>
    let (servicePrefix, idleTime) := codec.hostFromFile file
    { w with
      host := ⟨servicePrefix.getD w.host.servicePrefix, idleTime.getD w.host.idleTime⟩ }

/-- What becomes of the file of a service. -/
def persistOverride (settings : Settings) (callsign : Text) (file : Option Text) : Option Text :=
  match r.readOnlyConfig callsign with
  | none => file
  | some readOnlyConfig =>
    (codec.difference settings.configLine readOnlyConfig.getValue).map fun v =>
      codec.toFile (Codec.entry v settings)

/-- `Persist`: every call has an `Override` of its own. -/
def save (callsign : Option Text) (w : World) : World :=
  let w := if isAboutPluginHost callsign then savePluginHostConfig codec w.host w else w
  { w with
    files := each (fun target => r.persistOverride codec (w.runtime target) target)
      (r.addressed callsign) w.files
    saved := fun target => if target ∈ r.addressed callsign then w.runtime target
      else w.saved target }

def destroy (callsign : Option Text) (w : World) : World :=
  let files := if isAboutPluginHost callsign then update w.files pluginHostCallsign none
    else w.files
  { w with
    files := each (fun _ _ => none) (r.addressed callsign) files
    saved := fun target =>
      if target ∈ r.addressed callsign ∨
        callsign = some pluginHostCallsign ∧ target = pluginHostCallsign
      then r.defaults target else w.saved target }

/-- The Controller becomes one of the services only after this. -/
def load (w : World) : World :=
  let w := loadPluginHostConfig codec w
  { w with
    runtime := each (fun callsign settings =>
      if callsign = r.controller then settings else codec.load settings (w.files callsign))
      r.callsigns w.runtime }

def start : World where
  runtime := r.defaults
  host := r.host
  files _ := none
  saved := r.defaults

def step (w : World) : Event → World
  | .change callsign change =>
    { w with runtime := update w.runtime callsign ((w.runtime callsign).change change) }
  | .save callsign => r.save codec callsign w
  | .destroy callsign => r.destroy callsign w
  | .restart => { w with runtime := r.defaults, host := r.host }
  | .load => r.load codec w

/-! ### What is claimed of it -/

variable {β : Type} (value : Text → β)

/-- The configuration that is written for a service and loaded again. -/
def written (callsign : Text) (settings : Settings) : Option Variant :=
  if callsign = r.controller then none
  else (r.readOnlyConfig callsign).bind fun readOnlyConfig =>
    codec.difference settings.configLine readOnlyConfig.getValue

/-- What is written is the configuration of the service, and where nothing is, it has its
defaults. -/
def KeepsService (callsign : Text) (settings : Settings) : Prop :=
  match r.written codec callsign settings with
  | none => Same value (r.defaults callsign) settings
  | some v =>
    value ((r.defaults callsign).apply (Codec.entry v settings).stored).configLine =
      value settings.configLine

/-- A call for the server itself leaves a service of its callsign as it is to come back. -/
def Keeps (w : World) : Event → Prop
  | .save callsign =>
    (∀ target ∈ r.addressed callsign, r.KeepsService codec value target (w.runtime target)) ∧
    (callsign = some pluginHostCallsign → pluginHostCallsign ∈ r.callsigns →
      Same value (r.defaults pluginHostCallsign) (w.saved pluginHostCallsign))
  | _ => True

/-- The files are read as they were written. -/
def ReadsBack (w : World) : Event → Prop
  | .save callsign =>
    ∀ target ∈ r.addressed callsign, ∀ v ∈ r.written codec target (w.runtime target),
      codec.fromFile (codec.toFile (Codec.entry v (w.runtime target))) =
        (Codec.entry v (w.runtime target)).stored
  | _ => True

variable {r codec value}

/-! ### The loops -/

theorem each_apply {γ : Type} {f : Text → γ → γ} {callsigns : List Text}
    (hnodup : callsigns.Nodup) (g : Text → γ) (callsign : Text) :
    each f callsigns g callsign =
      if callsign ∈ callsigns then f callsign (g callsign) else g callsign := by
  induction callsigns generalizing g with
  | nil => rfl
  | cons first callsigns ih =>
    rw [List.nodup_cons] at hnodup
    have hcons : each f (first :: callsigns) g =
        each f callsigns (update g first (f first (g first))) := rfl
    rw [hcons, ih hnodup.2]
    by_cases hfirst : callsign = first
    · subst hfirst
      rw [if_neg hnodup.1, if_pos List.mem_cons_self, update_self]
    · simp only [List.mem_cons, hfirst, false_or, ne_eq, not_false_eq_true, update_of_ne]

theorem nodup_addressed (callsign : Option Text) : (r.addressed callsign).Nodup := by
  cases callsign with
  | none => exact r.nodup
  | some raw =>
    unfold addressed
    dsimp only
    generalize (if raw = [] then r.controller else raw) = target
    split_ifs
    · exact List.nodup_singleton _
    · exact List.nodup_nil

variable (r codec) in
/-- How a service comes back with a file. -/
def back (callsign : Text) (file : Option Text) : Settings :=
  if callsign = r.controller then r.defaults callsign
  else codec.load (r.defaults callsign) file

/-- The files when the server itself has been saved or destroyed. -/
def clearPluginHost (callsign : Option Text) (files : Text → Option Text) : Text → Option Text :=
  if isAboutPluginHost callsign then update files pluginHostCallsign none else files

theorem save_files (callsign : Option Text) (w : World) (target : Text) :
    (r.save codec callsign w).files target =
      if target ∈ r.addressed callsign then
        r.persistOverride codec (w.runtime target) target
          (clearPluginHost callsign w.files target)
      else clearPluginHost callsign w.files target := by
  have hhost : (if isAboutPluginHost callsign then savePluginHostConfig codec w.host w else w) =
      { w with files := clearPluginHost callsign w.files } := by
    unfold clearPluginHost
    split_ifs
    · -- nothing differs from what the `Override` has just taken
      simp [savePluginHostConfig]
    · rfl
  unfold save
  rw [hhost]
  exact each_apply (nodup_addressed callsign) _ _

theorem save_runtime (callsign : Option Text) (w : World) :
    (r.save codec callsign w).runtime = w.runtime := by
  unfold save
  cases isAboutPluginHost callsign <;> rfl

theorem destroy_files (callsign : Option Text) (w : World) (target : Text) :
    (r.destroy callsign w).files target =
      if target ∈ r.addressed callsign then none
      else clearPluginHost callsign w.files target := by
  unfold destroy clearPluginHost
  exact each_apply (f := fun _ _ => none) (nodup_addressed callsign) _ _

theorem clearPluginHost_eq_none {callsign : Option Text} {files : Text → Option Text}
    {target : Text} (h : files target = none) :
    clearPluginHost callsign files target = none := by
  unfold clearPluginHost
  split_ifs
  · by_cases htarget : target = pluginHostCallsign
    · rw [htarget, update_self]
    · rw [update_of_ne htarget, h]
  · exact h

/-! ### Runs -/

variable (r) in
/-- What holds of every state. -/
structure Holds (w : World) : Prop where
  alike : ∀ callsign, (r.defaults callsign).AlikePath (w.runtime callsign)
  unpersisted : ∀ callsign, r.readOnlyConfig callsign = none → w.files callsign = none

theorem holds_start : r.Holds r.start where
  alike _ := ⟨rfl, rfl⟩
  unpersisted _ _ := rfl

theorem Holds.step {w : World} (h : r.Holds w) (e : Event) : r.Holds (r.step codec w e) := by
  cases e with
  | change callsign change =>
    refine ⟨fun target => ?_, h.unpersisted⟩
    by_cases htarget : target = callsign
    · subst htarget
      simp only [Services.step, update_self]
      exact (h.alike target).change change
    · simp only [Services.step, update_of_ne htarget]
      exact h.alike target
  | save callsign =>
    refine ⟨fun target => ?_, fun target hnone => ?_⟩
    · simp only [Services.step, save_runtime]
      exact h.alike target
    · simp only [Services.step, save_files]
      have hclear : clearPluginHost callsign w.files target = none :=
        clearPluginHost_eq_none (h.unpersisted target hnone)
      split_ifs
      · simp only [persistOverride, hnone, hclear]
      · exact hclear
  | destroy callsign =>
    refine ⟨h.alike, fun target hnone => ?_⟩
    simp only [Services.step, destroy_files]
    split_ifs
    · rfl
    · exact clearPluginHost_eq_none (h.unpersisted target hnone)
  | restart => exact ⟨fun _ => ⟨rfl, rfl⟩, h.unpersisted⟩
  | load =>
    have hhost : (loadPluginHostConfig codec w).runtime = w.runtime ∧
        (loadPluginHostConfig codec w).files = w.files := by
      unfold loadPluginHostConfig
      split <;> exact ⟨rfl, rfl⟩
    refine ⟨fun target => ?_, ?_⟩
    · simp only [Services.step, Services.load]
      rw [each_apply r.nodup, hhost.1]
      split_ifs
      · exact h.alike target
      · exact (h.alike target).load _
      · exact h.alike target
    · simp only [Services.step, Services.load]
      rw [hhost.2]
      exact h.unpersisted

end Services

end Thunder.PluginHost.Override
