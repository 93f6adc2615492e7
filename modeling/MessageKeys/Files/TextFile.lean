import MessageKeys.Program
import MessageKeys.Text.Bytes

/-!
# Text files

A text file is read as UTF-8; a file that is not UTF-8 is a fault of the step that reads it.
-/
namespace MessageKeys.TextFile

def read (step : Text) (path : Path) : Procedure Text := do
  let bytes ← Procedure.inStep step (.read path)
  match Text.ofBytes? bytes with
  | some text => pure text
  | none => throw ⟨[step], .file .notText⟩

def write (step : Text) (path : Path) (content : Text) : Procedure Unit :=
  Procedure.inStep step (.write path content.toBytes)

/-- Whether anything, a file or a folder, stands at a path. -/
def isThere (path : Path) : Program Bool := do
  return (← Program.perform (.kind path)).isSome

def isFile (path : Path) : Program Bool := do
  return (← Program.perform (.kind path)) = some .file

def isFolder (path : Path) : Program Bool := do
  return (← Program.perform (.kind path)) = some .folder

/-- Makes the folder that a file is to stand in. -/
def makeParent (path : Path) : Procedure Unit :=
  match path.parent? with
  | some parent =>
    Procedure.inStep ("Failed to create directory: ".toList ++ parent.text) (.createFolders parent)
  | none => pure ()

end MessageKeys.TextFile
