import MessageKeys.Files.TextFile
import MessageKeys.Properties

/-!
# Property files on disk
-/
namespace MessageKeys.PropertyFile

def read (path : Path) : Procedure (List Properties.Line) := do
  let content ← TextFile.read ("Failed to read properties file: ".toList ++ path.text) path
  return Properties.parse content

def read? (path : Path) : Procedure (Option (List Properties.Line)) := do
  if ← TextFile.isThere path then return some (← read path) else return none

/-- The pairs of a property file; a file that is not there has none. -/
def readEntries (path : Path) : Procedure (OrderedMap Text Text) := do
  return ((← read? path).map Properties.entries).getD .empty

/-- Writes the lines, and makes the folder for them if it is missing. -/
def write (path : Path) (lines : List Properties.Line) : Procedure Unit := do
  TextFile.makeParent path
  TextFile.write ("Failed to write file: ".toList ++ path.text) path (Properties.render lines)

end MessageKeys.PropertyFile
