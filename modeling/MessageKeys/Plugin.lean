import MessageKeys.Files.TextFile
import MessageKeys.Program
import MessageKeys.Xml.Attribute

/-!
# The plugin manifest

Every key file names the plugin it belongs to. Name and version stand as attributes of the first
`plugin` element of the manifest; what follows that element is not read.
-/
namespace MessageKeys

structure Plugin where
  name : Text
  version : Text
  deriving DecidableEq, Repr

namespace Plugin

/-- Reads at most `count` attributes; of an attribute that stands twice the last one counts. -/
def readAttributes (count : Nat) (text : Text) (name version : Option Text) :
    Except Failure (Option Text × Option Text) :=
  match count, Xml.nextAttribute text with
  | _, .error _ => .error (.ofCause .invalidAttribute)
  | 0, _ | _, .ok none => .ok (name, version)
  | count + 1, .ok (some (attr, rest)) =>
    let value : Except Failure Text :=
      match attr.value? with
      | some value => .ok value
      | none => .error (.ofCause (.malformed .xml))
    if attr.name = "name".toList then do
      readAttributes count rest (some (← value)) version
    else if attr.name = "version".toList then do
      readAttributes count rest name (some (← value))
    else readAttributes count rest name version

/-- Reads a manifest. -/
def parse (document : Text) : Except Failure Plugin :=
  match Xml.firstElement "plugin".toList document with
  | .malformed => .error (.ofCause (.malformed .xml))
  | .absent => .error (.ofCause .noPluginElement)
  | .found content => do
    let attributes := content.drop (Xml.elementName content).length
    let (name, version) ← readAttributes attributes.length attributes none none
    match name, version with
    | none, _ => .error (.ofCause (.missingAttribute "name".toList))
    | _, none => .error (.ofCause (.missingAttribute "version".toList))
    | some name, some version => .ok ⟨name, version⟩

def load (path : Path) : Procedure Plugin := do
  let document ← TextFile.read ("Failed to read plugin manifest: ".toList ++ path.text) path
  Procedure.within ("Failed to parse plugin manifest: ".toList ++ path.text)
    (Procedure.ofExcept (parse document))

end Plugin
end MessageKeys
