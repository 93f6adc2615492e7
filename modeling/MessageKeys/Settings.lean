import MessageKeys.Files.TextFile
import MessageKeys.Json.Reader
import MessageKeys.Json.Record
import MessageKeys.Json.Writer
import MessageKeys.Locale
import MessageKeys.Localization.Options

/-!
# Project settings

The settings of a project stand in a file `.ps-i18nrc.json` in its main folder. The file is looked
for from a folder upwards, no further than the folder of a repository; where there is none, and
for every member that the file leaves out, defaults hold.
-/
namespace MessageKeys

structure Settings where
  messageKeysDir : Text
  sourceLocale : Text
  backupDir : Text
  pluginManifest : Text
  languagesFile : Text
  testingMode : Bool
  requestDelay : Localization.Delay
  maxRetries : Nat
  timestampSuffix : Bool
  translateEndpoint : Text
  requestTimeoutSecs : Nat
  deriving DecidableEq, Repr

namespace Settings

def fileName : Text :=
  ".ps-i18nrc.json".toList

def defaults : Settings where
  messageKeysDir := "src/powerschool/MessageKeys".toList
  sourceLocale := "US_en".toList
  backupDir := "original_files_backup".toList
  pluginManifest := "plugin.xml".toList
  languagesFile := "languages.json".toList
  testingMode := false
  requestDelay := ⟨1000, 3000⟩
  maxRetries := 2
  timestampSuffix := false
  translateEndpoint := "https://translate.googleapis.com/translate_a/single".toList
  requestTimeoutSecs := 10

def delayToJson (delay : Localization.Delay) : Json :=
  .ofMembers [("minMs", .ofNat delay.least), ("maxMs", .ofNat delay.most)]

def toJson (settings : Settings) : Json :=
  .ofMembers
    [("messageKeysDir", .ofText settings.messageKeysDir),
      ("sourceLocale", .ofText settings.sourceLocale),
      ("backupDir", .ofText settings.backupDir),
      ("pluginManifest", .ofText settings.pluginManifest),
      ("languagesFile", .ofText settings.languagesFile),
      ("testingMode", .bool settings.testingMode),
      ("requestDelay", delayToJson settings.requestDelay),
      ("maxRetries", .ofNat settings.maxRetries),
      ("timestampSuffix", .bool settings.timestampSuffix),
      ("translateEndpoint", .ofText settings.translateEndpoint),
      ("requestTimeoutSecs", .ofNat settings.requestTimeoutSecs)]

/-- The largest number of 32 bits. -/
def maxWord32 : Nat := 4294967295

/-- The largest number of 64 bits. -/
def maxWord64 : Nat := 18446744073709551615

def delayOfJson? (value : Json) : Option Localization.Delay := do
  let record ← value.record? ["minMs".toList, "maxMs".toList]
  return {
    least := ← Json.member? record "minMs" defaults.requestDelay.least (Json.natural? maxWord64)
    most := ← Json.member? record "maxMs" defaults.requestDelay.most (Json.natural? maxWord64) }

/-- The members in the order in which an array has them. -/
def memberNames : List Text :=
  ["messageKeysDir".toList, "sourceLocale".toList, "backupDir".toList, "pluginManifest".toList,
    "languagesFile".toList, "testingMode".toList, "requestDelay".toList, "maxRetries".toList,
    "timestampSuffix".toList, "translateEndpoint".toList, "requestTimeoutSecs".toList]

def ofJson? (value : Json) : Option Settings := do
  let record ← value.record? memberNames
  let text := fun name default => Json.member? record name default Json.text?
  let flag := fun name default => Json.member? record name default Json.bool?
  return {
    messageKeysDir := ← text "messageKeysDir" defaults.messageKeysDir
    sourceLocale := ← text "sourceLocale" defaults.sourceLocale
    backupDir := ← text "backupDir" defaults.backupDir
    pluginManifest := ← text "pluginManifest" defaults.pluginManifest
    languagesFile := ← text "languagesFile" defaults.languagesFile
    testingMode := ← flag "testingMode" defaults.testingMode
    requestDelay := ← Json.member? record "requestDelay" defaults.requestDelay delayOfJson?
    maxRetries := ← Json.member? record "maxRetries" defaults.maxRetries (Json.natural? maxWord32)
    timestampSuffix := ← flag "timestampSuffix" defaults.timestampSuffix
    translateEndpoint := ← text "translateEndpoint" defaults.translateEndpoint
    requestTimeoutSecs := ← Json.member? record "requestTimeoutSecs" defaults.requestTimeoutSecs
      (Json.natural? maxWord64) }

def parse (document : Text) : Except Failure Settings :=
  match Json.parse? document >>= ofJson? with
  | some settings => .ok settings
  | none => .error (.ofCause (.malformed .json))

def locale (settings : Settings) : Except Failure Locale :=
  Locale.parse settings.sourceLocale

/-- The source locale has to be one, and the pause between calls a range. -/
def validate (settings : Settings) : Except Failure Unit :=
  match settings.locale with
  | .error failure => .error (failure.within "Invalid 'sourceLocale' in config".toList)
  | .ok _ =>
    let delay := settings.requestDelay
    if delay.most < delay.least then .error (.ofCause (.invertedDelay delay.least delay.most))
    else .ok ()

def options (settings : Settings) : Localization.Options :=
  { Localization.Options.defaults with
    testing := settings.testingMode
    delay := settings.requestDelay
    retries := settings.maxRetries
    timestamps := settings.timestampSuffix }

/-- The settings file that counts in the first of these folders, if any does. -/
def search : List Path → Program (Option Path)
  | [] => pure none
  | folder :: above => do
    let path := folder.join ⟨fileName⟩
    if ← TextFile.isThere path then return some path
    else if ← TextFile.isThere (folder.join ⟨".git".toList⟩) then return none
    else search above

structure Loaded where
  settings : Settings
  /-- Where the settings were read, or nothing if they are the defaults. -/
  path : Option Path
  deriving DecidableEq, Repr

/-- Loads the settings that hold in a folder. -/
def load (folder : Path) : Procedure Loaded := do
  match ← search folder.ancestors with
  | some path =>
    let document ← TextFile.read ("Failed to read config file: ".toList ++ path.text) path
    let settings ← Procedure.within ("Failed to parse config file: ".toList ++ path.text)
      (Procedure.ofExcept (parse document))
    Procedure.ofExcept settings.validate
    return ⟨settings, some path⟩
  | none => return ⟨defaults, none⟩

end Settings
end MessageKeys
