import MessageKeys.Files.PropertyFile
import MessageKeys.Locale
import MessageKeys.Markup.Extraction
import MessageKeys.Plugin

/-!
# Key files

The messages of a source document are kept in a property file named after the document and the
locale. Two comment lines at its head name the plugin and the document. Writing lays the new
messages over the pairs that the file has; nothing else of the earlier file is kept.
-/
namespace MessageKeys.KeyFile

structure Stats where
  /-- Keys in the file. -/
  written : Nat
  /-- Keys of the earlier file that the new messages do not have. -/
  retained : Nat
  /-- Keys that the earlier file did not have. -/
  added : Nat
  deriving DecidableEq, Repr

/-- The name of a document without its extension. -/
def baseName (source : Path) : Text :=
  (source.fileName?.map Path.stemOf).getD []

def name (base : Text) (locale : Locale) : Text :=
  base ++ '.' :: locale.toText ++ ".properties".toList

def path (folder : Path) (base : Text) (locale : Locale) : Path :=
  folder.join ⟨name base locale⟩

def header (plugin : Plugin) (base : Text) (locale : Locale) : List Text :=
  ["# ".toList ++ plugin.name ++ " - Version: ".toList ++ plugin.version,
    "# MessageKeys for: ".toList ++ base ++ " (".toList ++ locale.toText ++ [')']]

def render (plugin : Plugin) (base : Text) (locale : Locale) (entries : Messages) : Text :=
  Properties.render ((header plugin base locale).map .comment ++ .blank [] ::
    Properties.ofEntries entries)

def stats (earlier messages : Messages) : Stats where
  written := (earlier.merge messages).size
  retained := (earlier.keys.filter fun key => !messages.contains key).length
  added := (messages.keys.filter fun key => !earlier.contains key).length

/-- Merges the messages into the key file at `path`. -/
def write (plugin : Plugin) (path : Path) (base : Text) (locale : Locale) (messages : Messages) :
    Procedure Stats := do
  TextFile.makeParent path
  let earlier ← PropertyFile.readEntries path
  TextFile.write ("Failed to write file: ".toList ++ path.text) path
    (render plugin base locale (earlier.merge messages))
  return stats earlier messages

end MessageKeys.KeyFile
