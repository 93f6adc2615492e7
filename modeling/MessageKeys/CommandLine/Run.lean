import MessageKeys.CommandLine.Arguments
import MessageKeys.KeyExtraction
import MessageKeys.LocalizationRun
import MessageKeys.ProjectSetup

/-!
# The program

The program reads its arguments and carries out the command they name. A failure of the command is
written to the error output. Help is shown on demand, and where no command is named.
-/
namespace MessageKeys.CommandLine

/-- What the program takes from its surroundings besides its arguments. -/
structure Surroundings where
  testMode : Option Text
  noColor : Option Text
  forceColor : Option Text
  color : Option Text
  terminal : Bool
  deriving DecidableEq, Repr

/-- Whether to write colours: a wish to force them wins over a wish to have none, and where
neither is made they go to terminals only. -/
def Surroundings.colors (surroundings : Surroundings) : Bool :=
  if surroundings.forceColor.any (· != ['0']) then true
  else if surroundings.noColor.isSome then false
  else surroundings.color.all (· != ['0']) && surroundings.terminal

def helpText : Text :=
  ("Extract message keys from templates and translate them\n\n" ++
    "Usage: ps-i18n [OPTIONS] [COMMAND]\n\n" ++
    "Commands:\n" ++
    "  create-keys <SOURCE>... <LOCALE>  Create message keys from a source HTML file\n" ++
    "  translate [SOURCE_LOCALE]         Translate message key files into the target languages\n" ++
    "  init                              Initialize the configuration and languages file\n" ++
    "  help                              Print this message\n\n" ++
    "Options:\n" ++
    "  -d, --debug                       Enable debug output\n" ++
    "  -Y, --yes                         Bypass the \"yes\" prompt for confirmation\n" ++
    "      --message-keys-dir <DIR>      Message keys directory (overrides config file)\n" ++
    "      --to <LANG>                   Target language code or name\n" ++
    "      --test-mode                   Translate only the first entry of each file\n" ++
    "  -h, --help                        Print help\n" ++
    "  -V, --version                     Print version\n").toList

def versionText : Text :=
  "ps-i18n 0.4.0\n".toList

/-- What is said of arguments that cannot be understood. -/
def complaint : Arguments.Refusal → Text
  | .helpWanted | .versionWanted => []
  | .unknownArgument => "error: unexpected argument\n".toList
  | .repeatedArgument => "error: an argument cannot be used multiple times\n".toList
  | .missingValue => "error: a value is required for an argument but none was supplied\n".toList
  | .unwantedValue => "error: unexpected value for an argument\n".toList
  | .missingArgument => "error: a required argument was not provided\n".toList
  | .unknownCommand => "error: unrecognized subcommand\n".toList

def runCommand (colors : Bool) : Command → Procedure ExitStatus
  | .createKeys arguments => KeyExtraction.run colors arguments
  | .translate arguments => LocalizationRun.run colors arguments
  | .init => ProjectSetup.run colors

/-- The whole program; its result is the exit status. -/
def program (surroundings : Surroundings) (words : List Text) : Program ExitStatus := do
  match Arguments.parse words surroundings.testMode with
  | .error .helpWanted | .ok ⟨_, none⟩ =>
    Program.perform (.print helpText)
    return .success
  | .error .versionWanted =>
    Program.perform (.print versionText)
    return .success
  | .error refusal =>
    Program.perform (.printError (complaint refusal))
    return .error
  | .ok ⟨_, some command⟩ =>
    match ← (runCommand surroundings.colors command).run with
    | .ok status => return status
    | .error failure =>
      Program.perform (.printError ("Error: ".toList ++ failure.message ++ ['\n']))
      return .error

end MessageKeys.CommandLine
