import MessageKeys.Files.Path
import MessageKeys.Locale

/-!
# Names that tell a locale

What is translated from `home.US_en.properties` into `US_es` stands beside it as
`home.US_es.properties`. Its progress is shown as `home (US_es)`.
-/
namespace MessageKeys.Localization

/-- The file name with the first source segment replaced by the target's. -/
def targetName (name : Text) (source target : Locale) : Text :=
  name.replaceFirst source.segment target.segment

def targetPath (file : Path) (source target : Locale) : Path :=
  file.withFileName (targetName (file.fileName?.getD []) source target)

/-- What progress is counted under: the file name up to its first dot, and the target locale. -/
def progressLabel (file : Path) (target : Locale) : Text :=
  ((file.fileName?.getD []).takeWhile (· != '.')) ++ " (".toList ++ target.toText ++ [')']

end MessageKeys.Localization
