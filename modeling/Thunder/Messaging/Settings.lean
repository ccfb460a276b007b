import Mathlib.Data.List.TakeWhile
import Thunder.Library.Run
import Thunder.Core.Metadata

/-! The list of message settings.  `IsEnabled` answers with the first entry that is equal to the
query, and without one with the last entry that applies to it; `Update` takes an equal entry out and
adds a new one only when the rest of the list gives another answer. -/

namespace Thunder.Messaging

open Thunder.Core Run

/-- `Settings::Control`. -/
structure Control where
  metaData : Metadata
  enabled : Bool
  deriving DecidableEq, Repr

/-- `Config::Section::Entry`. -/
structure Entry where
  module : Text
  category : Text
  enabled : Bool
  deriving DecidableEq, Repr

/-- `Config::Section`, as far as `FromConfig` reads it. -/
structure Section where
  isSet : Bool
  settings : List Entry

structure Config where
  tracing : Section
  logging : Section
  reporting : Section
  assertion : Section
  telemetry : Section

abbrev Settings := List Control

namespace Settings

/-- The flag after a pass over entries, of which each applicable one sets it. -/
def lastApplicable (metaData : Metadata) (enabled : Bool) (entries : Settings) : Bool :=
  entries.foldl
    (fun flag index => if index.metaData.applicable metaData then index.enabled else flag) enabled

def update (settings : Settings) (metaData : Metadata) (isEnabled : Bool) : Settings :=
  let before := settings.takeWhile (fun index => index.metaData ≠ metaData)
  let enabled := lastApplicable metaData metaData.default before
  let (rest, enabled) :=
    match settings.dropWhile (fun index => index.metaData ≠ metaData) with
    | [] => (before, enabled)
    | _ :: after => (before ++ after, lastApplicable metaData enabled after)
  if enabled ≠ isEnabled then rest ++ [⟨metaData, isEnabled⟩] else rest

/-- The loop of `IsEnabled`, from the given result on. -/
def isEnabledFrom (metaData : Metadata) (result : Bool) : Settings → Bool
  | [] => result
  | index :: rest =>
    if index.metaData = metaData then index.enabled
    else if index.metaData.applicable metaData then isEnabledFrom metaData index.enabled rest
    else isEnabledFrom metaData result rest

def isEnabled (settings : Settings) (metaData : Metadata) : Bool :=
  isEnabledFrom metaData metaData.default settings

/-- The entries that `FromConfig` adds for a section; `all` is false where the code leaves out an
entry that says what the default says. -/
def fromSection (type : MetadataType) (all : Bool) (config : Section) : Settings :=
  if config.isSet then
    (config.settings.map fun entry =>
      Control.mk ⟨type, entry.category, entry.module⟩ entry.enabled).filter
        (fun control => all || control.metaData.default != control.enabled)
  else []

def fromConfig (config : Config) : Settings :=
  fromSection .tracing false config.tracing ++
  fromSection .logging false config.logging ++
  fromSection .reporting true config.reporting ++
  fromSection .assert true config.assertion ++
  fromSection .telemetry false config.telemetry

/-- The settings after a configuration and a sequence of updates. -/
def reached (config : Config) (updates : List (Metadata × Bool)) : Settings :=
  after (fun settings u => update settings u.1 u.2) (fromConfig config) updates

/-! ### Answers -/

/-- The entries that are not. -/
def others (settings : Settings) (metaData : Metadata) : Settings :=
  settings.filter (fun index => index.metaData ≠ metaData)

variable {metaData m : Metadata} {settings : Settings}

end Settings

end Thunder.Messaging
