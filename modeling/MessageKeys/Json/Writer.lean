import MessageKeys.Json.Value

/-!
# Writing JSON

Values are written over several lines, every level indented by two blanks, or on one line without
any blanks. Only the quote, the backslash and the control characters are escaped.
-/
namespace MessageKeys.Json

def hexDigit (n : Nat) : Char :=
  Nat.digitChar (n % 16)

def escapeChar (c : Char) : Text :=
  match c with
  | '"' => "\\\"".toList
  | '\\' => "\\\\".toList
  | '\n' => "\\n".toList
  | '\r' => "\\r".toList
  | '\t' => "\\t".toList
  | '\x08' => "\\b".toList
  | '\x0c' => "\\f".toList
  | _ =>
    if c.toNat < 0x20 then "\\u00".toList ++ [hexDigit (c.toNat / 16), hexDigit c.toNat] else [c]

/-- A string value that spells a text. -/
def ofText (text : Text) : Json :=
  .string (text.map .char)

def ofNat (n : Nat) : Json :=
  .number (Text.ofNat n)

def ofMembers (members : List (String × Json)) : Json :=
  .object (members.map fun (name, value) => (name.toList.map .char, value))

def writeUnit : StringUnit → Text
  | .char c => escapeChar c
  | .unit code => "\\u".toList ++
      [hexDigit (code / 4096), hexDigit (code / 256), hexDigit (code / 16), hexDigit code]

def writeString (units : List StringUnit) : Text :=
  '"' :: units.flatMap writeUnit ++ ['"']

/-- A new line at a level of indentation. -/
def newLine (level : Nat) : Text :=
  '\n' :: List.replicate (2 * level) ' '

mutual

def write (level : Nat) : Json → Text
  | .null => "null".toList
  | .bool true => "true".toList
  | .bool false => "false".toList
  | .number written => written
  | .string units => writeString units
  | .array [] => "[]".toList
  | .array (item :: items) =>
    '[' :: newLine (level + 1) ++ write (level + 1) item ++ writeItems (level + 1) items ++
      newLine level ++ [']']
  | .object [] => ['\x7b', '\x7d']
  | .object ((key, value) :: members) =>
    '\x7b' :: newLine (level + 1) ++ writeString key ++ ": ".toList ++ write (level + 1) value ++
      writeMembers (level + 1) members ++ newLine level ++ ['\x7d']

def writeItems (level : Nat) : List Json → Text
  | [] => []
  | item :: items => ',' :: newLine level ++ write level item ++ writeItems level items

def writeMembers (level : Nat) : List (List StringUnit × Json) → Text
  | [] => []
  | (key, value) :: members =>
    ',' :: newLine level ++ writeString key ++ ": ".toList ++ write level value ++
      writeMembers level members

end

def toText (value : Json) : Text :=
  write 0 value

mutual

/-- Writes a value on one line. -/
def toLine : Json → Text
  | .array [] => "[]".toList
  | .array (item :: items) => '[' :: toLine item ++ itemsToLine items ++ [']']
  | .object [] => ['\x7b', '\x7d']
  | .object ((key, value) :: members) =>
    '\x7b' :: writeString key ++ ':' :: toLine value ++ membersToLine members ++ ['\x7d']
  | value => write 0 value

def itemsToLine : List Json → Text
  | [] => []
  | item :: items => ',' :: toLine item ++ itemsToLine items

def membersToLine : List (List StringUnit × Json) → Text
  | [] => []
  | (key, value) :: members =>
    ',' :: writeString key ++ ':' :: toLine value ++ membersToLine members

end

end MessageKeys.Json
