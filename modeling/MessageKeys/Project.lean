import MessageKeys.Confirmation
import MessageKeys.Settings

/-!
# Projects

A project is its settings and the folder that relative paths in them start from: the folder of the
settings file, or the working folder where there is no such file.
-/
namespace MessageKeys

structure Project where
  settings : Settings
  root : Path
  deriving DecidableEq, Repr

namespace Project

/-- Where a path written in the settings leads. -/
def path (project : Project) (written : Text) : Path :=
  project.root.join ⟨written⟩

def keysFolder (project : Project) : Path :=
  project.path project.settings.messageKeysDir

/-- Loads the project of the working folder. A keys folder given on the command line counts from
the working folder and wins over the one in the settings. -/
def load (keysFolder : Option Text) : Procedure Project := do
  let working ← Procedure.perform .workingFolder
  let loaded ← Settings.load working
  let settings := match keysFolder with
    | some folder => { loaded.settings with messageKeysDir := (working.join ⟨folder⟩).text }
    | none => loaded.settings
  return ⟨settings, (loaded.path.bind Path.parent?).getD working⟩

end Project

/-- How a command ended. -/
inductive ExitStatus where
  /-- The work is done, or the user declined it. -/
  | success
  /-- There was nothing to do, or not all could be done. -/
  | failure
  /-- The work broke off. -/
  | error
  deriving DecidableEq, Repr

def ExitStatus.code : ExitStatus → Nat
  | success => 0
  | failure => 1
  | error => 2

namespace Procedure

def print (text : Text) : Procedure Unit :=
  perform (.print text)

end Procedure

/-- Puts a question to the user, unless everything was agreed to beforehand. -/
def confirm (agreed : Bool) (prompt : Text) : Program Bool := do
  if agreed then return true
  else
    Program.perform (.print (Confirmation.question prompt))
    return Confirmation.accepts (← Program.perform .nextLine)

def cancelledLine : Text :=
  "Operation cancelled by user.\n".toList

end MessageKeys
