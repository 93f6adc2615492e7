import MessageKeys.CommandLine.Arguments
import MessageKeys.LanguageFile
import MessageKeys.Localization.File
import MessageKeys.Output
import MessageKeys.Project

/-!
# Localization of a project

All key files of the source locale are translated into all target languages. A file that cannot be
translated does not keep the others from it. The user is asked once, before anything is
translated, if one of the target files is there already.
-/
namespace MessageKeys.LocalizationRun

/-- The language codes that are asked for; without a wish they are those of the languages file. -/
def requestedCodes (languages : List Language) : List Text → Except Failure (List Text)
  | [] => .ok (languages.map Language.code)
  | wishes => wishes.mapM fun target =>
    match Language.resolve? languages target with
    | some code => .ok code
    | none => .error (.ofCause (.unknownLanguage target))

/-- The target locales, in the region of the source: each once, and the source itself never. -/
def targetLocales (source : Locale) (codes : List Text) : List Locale :=
  codes.foldl (fun targets code =>
    let target := source.withLanguage code
    if code = source.language || target ∈ targets then targets else targets ++ [target]) []

/-- What the names of a locale's key files end in. -/
def keyFileEnding (locale : Locale) : Text :=
  locale.segment ++ "properties".toList

/-- The key files of a locale that stand in the folder itself, in the order of their names. -/
def keyFiles (folder : Path) (locale : Locale) : Program (List Path) := do
  let children ← Program.perform (.children folder)
  let names := children.filterMap fun (name, kind) =>
    if kind = .file && (keyFileEnding locale).isSuffixOf name then some name else none
  return (names.mergeSort fun a b => String.ofList a ≤ String.ofList b).map fun name =>
    folder.join ⟨name⟩

/-- Every file with every target, all targets of a file one after the other. -/
def pairs (files : List Path) (targets : List Locale) : List (Path × Locale) :=
  files.flatMap fun file => targets.map fun target => (file, target)

def anyThere : List Path → Program Bool
  | [] => pure false
  | path :: rest => do
    if ← TextFile.isThere path then return true else anyThere rest

/-- The progress of a run and the number of files that could not be translated. -/
structure Tally where
  tracker : Tracker
  failed : Nat
  deriving DecidableEq

/-- Translates every file into its target; each failure is shown when it happens. -/
def translateAll (colors : Bool) (translator : Localization.Translator) (source : Locale)
    (tally : Tally) : List (Path × Locale) → Program Tally
  | [] => pure tally
  | (file, target) :: rest => do
    let path := Localization.targetPath file source target
    let attempt ← translator.translateFile file target path
    let tracker := tally.tracker.replay attempt.journal
    match attempt.result with
    | .ok _ => translateAll colors translator source ⟨tracker, tally.failed⟩ rest
    | .error failure =>
      Program.perform (.print (Output.failure colors ("Failed to translate ".toList ++ file.text ++
        " to ".toList ++ target.toText ++ ": ".toList ++ failure.message)))
      translateAll colors translator source ⟨tracker, tally.failed + 1⟩ rest

def updateQuestion : Text :=
  "Existing translation files will be updated. Proceed?".toList

/-- Whether the target files may be written; the user is asked only if one of them is there. -/
def mayUpdate (agreed : Bool) (source : Locale) (pairs : List (Path × Locale)) :
    Program Bool := do
  if ← anyThere (pairs.map fun (file, target) => Localization.targetPath file source target) then
    confirm agreed updateQuestion
  else return true

/-- Translates the files and shows how far it came. -/
def translateFiles (colors : Bool) (options : Localization.Options) (source : Locale)
    (files : List Path) (targets : List Locale) : Procedure ExitStatus := do
  let tally ← translateAll colors ⟨.builtin, options⟩ source ⟨.empty, 0⟩ (pairs files targets)
  Procedure.print (Output.progressTable colors tally.tracker)
  if tally.failed = 0 then
    Procedure.print (Output.success colors ("Translated ".toList ++ Text.ofNat files.length ++
      " file(s) into ".toList ++ Text.ofNat targets.length ++ " language(s)".toList))
    return .success
  else
    Procedure.print (Output.failure colors (Text.ofNat tally.failed ++ " of ".toList ++
      Text.ofNat (files.length * targets.length) ++ " translation(s) failed".toList))
    return .failure

/-- The settings with what the command line says instead. -/
def override (settings : Settings) (arguments : Translate) : Settings :=
  { settings with
    sourceLocale := arguments.sourceLocale.getD settings.sourceLocale
    testingMode := arguments.testMode || settings.testingMode }

/-- The command that translates. -/
def run (colors : Bool) (arguments : Translate) : Procedure ExitStatus := do
  let project ← Project.load arguments.messageKeysDir
  let settings := override project.settings arguments
  let source ← Procedure.ofExcept settings.locale
  let languages ← LanguageFile.load (project.path settings.languagesFile)
  let codes ← Procedure.ofExcept (requestedCodes languages arguments.targets)
  let targets := targetLocales source codes
  let folder := project.keysFolder
  let files ← keyFiles folder source
  if files.isEmpty then
    Procedure.print (Output.failure colors ("No *.".toList ++ source.toText ++
      ".properties files found in ".toList ++ folder.text))
    return .failure
  else if targets.isEmpty then
    Procedure.print (Output.failure colors "No target languages to translate to".toList)
    return .failure
  else
    if ← mayUpdate arguments.yes source (pairs files targets) then
      translateFiles colors settings.options source files targets
    else
      Procedure.print cancelledLine
      return .success

end MessageKeys.LocalizationRun
