import MessageKeys.LanguageFile
import MessageKeys.Output
import MessageKeys.Project

/-!
# Setting up a project

The working folder gets a settings file with all defaults, and a languages file unless it has one.
A settings file that is there already is left alone.
-/
namespace MessageKeys.ProjectSetup

/-- The text of a settings file with all defaults. -/
def settingsText : Text :=
  Settings.defaults.toJson.toText

/-- The command that sets up a project. -/
def run (colors : Bool) : Procedure ExitStatus := do
  let path : Path := ⟨Settings.fileName⟩
  if ← TextFile.isThere path then
    Procedure.perform (.printError ("Error: ".toList ++ path.text ++ " already exists\n".toList))
    return .failure
  else
    TextFile.write ("Failed to write file: ".toList ++ path.text) path (settingsText ++ ['\n'])
    Procedure.print (Output.success colors ("Created ".toList ++ path.text))
    let languages : Path := ⟨Settings.defaults.languagesFile⟩
    if !(← TextFile.isThere languages) then
      LanguageFile.write languages Language.defaults
      Procedure.print (Output.success colors ("Created ".toList ++ languages.text))
    return .success

end MessageKeys.ProjectSetup
