import MessageKeys.Files.TextFile
import MessageKeys.Json.Reader
import MessageKeys.Json.Record
import MessageKeys.Json.Writer
import MessageKeys.Language

/-!
# The languages file

A project keeps the languages it translates into in a file. Where the file is missing, it is
written with the default languages first.
-/
namespace MessageKeys.LanguageFile

def languageToJson (language : Language) : Json :=
  .ofMembers [("Language Code", .ofText language.code), ("Language", .ofText language.name)]

def languageOfJson? (value : Json) : Option Language := do
  let record ← value.record? ["Language Code".toList, "Language".toList]
  return ⟨← Json.required? record "Language Code" Json.text?,
    ← Json.required? record "Language" Json.text?⟩

def parse (document : Text) : Except Failure (List Language) :=
  let languages? := do
    match ← Json.parse? document with
    | .array items => items.mapM languageOfJson?
    | _ => none
  match languages? with
  | some languages => .ok languages
  | none => .error (.ofCause (.malformed .json))

def render (languages : List Language) : Text :=
  (Json.array (languages.map languageToJson)).toText ++ ['\n']

/-- Writes the file, and the folder it stands in if that is named and missing. -/
def write (path : Path) (languages : List Language) : Procedure Unit := do
  if (path.parent?.map Path.text).any fun parent => !parent.isEmpty then
    TextFile.makeParent path
  TextFile.write ("Failed to write languages file: ".toList ++ path.text) path (render languages)

def load (path : Path) : Procedure (List Language) := do
  if !(← TextFile.isThere path) then write path Language.defaults
  let document ← TextFile.read ("Failed to read languages file: ".toList ++ path.text) path
  Procedure.within ("Failed to parse languages file: ".toList ++ path.text)
    (Procedure.ofExcept (parse document))

end MessageKeys.LanguageFile
