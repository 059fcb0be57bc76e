/-
# PEReplay.Log.Config — the report folder, and what `LOQ` and `LOF` write to.

The parser of the configuration file is commented out, so `Config::Initialize` sets the report
folder, removes the files in it and leaves `s_map_entries` empty.  `LOQ` asks the map whether its
entry is enabled, and therefore logs nothing (`logAsConfig_of_none`); `LOF` does not ask, and logs
to a file in the folder.
-/
import PEReplay.Log.Finalize

namespace PEReplay

/-- `Config_Entry` -/
structure ConfigEntry where
  enable : Bool
  withinMainModule : Bool
  withinCodeSection : Bool
  filename : List Char
  deriving Repr, DecidableEq

/-- The statics of `Config`. -/
structure Config where
  reportFolder : List Char
  mapEntries : List Char → Option ConfigEntry

namespace Config

/-- A file in the folder, not in one of its sub-folders. -/
def isFileOf (folder x : List Char) : Bool :=
  folder.isPrefixOf x && (x.drop folder.length).all fun c => c ≠ '\\'

/-- `Config::Initialize`, where the file system lets it: the statics and the disk. -/
def configInitialize (filename samplename : List Char) (disk : Disk) : Config × Disk :=
  let reportFolder := filename ++ samplename ++ ['\\']
  (⟨reportFolder, fun _ => none⟩, fun x => if isFileOf reportFolder x then [] else disk x)

variable (cfg : Config)

/-- `Config::IsEntryEnabled` -/
def isEntryEnabled (name : List Char) : Bool :=
  match cfg.mapEntries name with
  | some entry => entry.enable
  | none => false

/-- `Config::GetEntryFilename` -/
def getEntryFilename (name : List Char) : List Char :=
  match cfg.mapEntries name with
  | some entry => entry.filename
  | none => []

/-- `Config::WithinMainModule` -/
def withinMainModule (name : List Char) : Bool :=
  match cfg.mapEntries name with
  | some entry => entry.withinMainModule
  | none => false

/-- `Config::WithinCodeSection` -/
def withinCodeSection (name : List Char) : Bool :=
  match cfg.mapEntries name with
  | some entry => entry.withinCodeSection
  | none => false

/-- `Config::GetFullFilename` -/
def getFullFilename (name : List Char) : List Char := cfg.reportFolder ++ name

end Config

namespace Registry

/-- `LOQ`: `Logger::LogAsConfig` -/
def logAsConfig (cfg : Config) (n : Nat) (config : List Char) (vsnprintf : Vsnprintf)
    (reg : Registry) : Registry :=
  if cfg.isEntryEnabled config then
    let filename := cfg.getEntryFilename config
    if filename ≠ [] then reg.logToF n (cStr filename) vsnprintf else reg
  else reg

/-- `LOF`: `Logger::LogToF` with a name -/
def logToFull (cfg : Config) (n : Nat) (config : List Char) (vsnprintf : Vsnprintf)
    (reg : Registry) : Registry :=
  let filename := cfg.getFullFilename config
  if filename ≠ [] then reg.logToF n (cStr filename) vsnprintf else reg

/-- An entry that is not in the map is not enabled. -/
theorem logAsConfig_of_none {cfg : Config} {config : List Char} (h : cfg.mapEntries config = none)
    (n : Nat) (vsnprintf : Vsnprintf) (reg : Registry) :
    reg.logAsConfig cfg n config vsnprintf = reg := by
  simp [logAsConfig, Config.isEntryEnabled, h]

end Registry

end PEReplay
