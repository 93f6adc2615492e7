import MessageKeys.OrderedMap
import MessageKeys.Text.Blank

/-!
# Property files

A property file is a sequence of lines: blank lines, `#` comments, `key=value` pairs and others.
The first `=` divides a pair and nothing is escaped. Lines that are not pairs are kept letter by
letter; of a pair, key and value are kept without the white space around them.
-/
namespace MessageKeys

namespace Properties

inductive Line where
  | blank (raw : Text)
  | comment (raw : Text)
  | pair (key value : Text)
  | other (raw : Text)
  deriving DecidableEq, Repr

/-- Divides at the first `=`, unless there is none or no key in front of it. -/
def splitPair? (text : Text) : Option (Text × Text) := do
  let (key, value) ← text.cut? ['=']
  if key.trim.isEmpty then none else some (key.trim, value.trim)

namespace Line

def parse (raw : Text) : Line :=
  match raw.trim with
  | [] => blank raw
  | '#' :: _ => comment raw
  | text =>
    match splitPair? text with
    | some (key, value) => pair key value
    | none => other raw

def toText : Line → Text
  | blank raw | comment raw | other raw => raw
  | pair key value => key ++ '=' :: value

def pair? : Line → Option (Text × Text)
  | pair key value => some (key, value)
  | _ => none

end Line

/-- A line feed at the end of the content closes the last line and opens no other. -/
def parse (content : Text) : List Line :=
  let lines := content.pieces '\n'
  (if content.getLast? = some '\n' then lines.dropLast else lines).map Line.parse

/-- Every line is closed by a line feed. -/
def render (lines : List Line) : Text :=
  lines.flatMap fun line => line.toText ++ ['\n']

/-- The pairs; a repeated key keeps its first place and its last value. -/
def entries (lines : List Line) : OrderedMap Text Text :=
  .ofList (lines.filterMap Line.pair?)

def ofEntries (entries : OrderedMap Text Text) : List Line :=
  entries.entries.map fun (key, value) => .pair key value

end Properties
end MessageKeys
