import MessageKeys.Backup
import MessageKeys.CommandLine.Arguments
import MessageKeys.KeyFile
import MessageKeys.Markup.Preparation
import MessageKeys.Output
import MessageKeys.Project
import MessageKeys.SourceFiles

/-!
# From sources to key files

For each source its messages go into the key file, and references take their places in the source.
Both files are backed up first, and nothing is touched before the user agrees. The key file is
written before the source, so no text leaves the source that is not in the key file.
-/
namespace MessageKeys.KeyExtraction

/-- What all sources of a run have in common. -/
structure Setup where
  plugin : Plugin
  locale : Locale
  keysFolder : Path
  backupFolder : Path
  /-- Whether every question is answered with yes beforehand. -/
  agreed : Bool
  deriving DecidableEq, Repr

/-- Where the messages of a source went. -/
structure Extracted where
  destination : Path
  stats : KeyFile.Stats
  deriving DecidableEq, Repr

def modifyQuestion : Text :=
  "Warning: This operation will modify both the source and destination files. Proceed?".toList

/-- The key file that belongs to a source. -/
def Setup.destination (setup : Setup) (source : Path) : Path :=
  KeyFile.path setup.keysFolder (KeyFile.baseName source) setup.locale

/-- Whether the keys of a document are to be re-indexed. The user is asked only if one of them
stands twice. -/
def mayReindex (agreed : Bool) (document : Text) : Program Bool :=
  if (Markup.scan document).duplicates.isEmpty then return false
  else confirm agreed Markup.reindexQuestion

/-- Extracts the messages of one source, or does nothing if the user declines. -/
def extractFile (setup : Setup) (source : Path) : Procedure (Option Extracted) := do
  let document ← TextFile.read ("Failed to read source file: ".toList ++ source.text) source
  let prepared := Markup.prepare document (← mayReindex setup.agreed document)
  let destination := setup.destination source
  if ← confirm setup.agreed modifyQuestion then
    let _ ← Backup.save setup.backupFolder [source, destination]
    let stats ← KeyFile.write setup.plugin destination (KeyFile.baseName source) setup.locale
      prepared.messages
    TextFile.write ("Failed to write file: ".toList ++ source.text) source prepared.materialized
    return some ⟨destination, stats⟩
  else return none

/-- Extracts the messages of one source after the other, until the user declines. -/
def extractFiles (colors : Bool) (setup : Setup) : List Path → Procedure ExitStatus
  | [] => return .success
  | source :: rest => do
    match ← extractFile setup source with
    | none =>
      Procedure.print cancelledLine
      return .success
    | some extracted =>
      Procedure.print
        (Output.keysWritten colors source.text extracted.destination.text extracted.stats)
      extractFiles colors setup rest

/-- The command that creates keys. -/
def run (colors : Bool) (arguments : CreateKeys) : Procedure ExitStatus := do
  let project ← Project.load arguments.messageKeysDir
  let locale ← Procedure.ofExcept (Locale.parse arguments.locale)
  let plugin ← Plugin.load (project.path project.settings.pluginManifest)
  let sources ← SourceFiles.expand arguments.sources
  extractFiles colors
    { plugin, locale, keysFolder := project.keysFolder,
      backupFolder := project.path project.settings.backupDir, agreed := arguments.yes } sources

end MessageKeys.KeyExtraction
