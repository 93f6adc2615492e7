import MessageKeys.Text.Basic

/-!
# JSON values

A value keeps numbers and strings as they are written, for what they mean is a question of its
own: a number may be too large for its place, and an escaped string may spell no text. Who passes
over a value asks neither question.
-/
namespace MessageKeys

/-- What a JSON string is written with: characters, and UTF-16 units written as `\u` escapes. -/
inductive StringUnit where
  | char (c : Char)
  | unit (code : Nat)
  deriving DecidableEq, Repr

inductive Json where
  | null
  | bool (value : Bool)
  | number (written : Text)
  | string (written : List StringUnit)
  | array (items : List Json)
  | object (members : List (List StringUnit × Json))

namespace Json

/-- The characters that JSON counts as white space. -/
def isSpace (c : Char) : Bool :=
  c == ' ' || c == '\n' || c == '\t' || c == '\r'

def isHighSurrogate (code : Nat) : Bool :=
  0xD800 ≤ code && code < 0xDC00

def isLowSurrogate (code : Nat) : Bool :=
  0xDC00 ≤ code && code < 0xE000

/-- The text that the units spell. A high surrogate and the low one behind it spell one
character; a surrogate alone spells none. -/
def spelled? : List StringUnit → Option Text
  | [] => some []
  | .char c :: rest => (spelled? rest).map (c :: ·)
  | .unit high :: .unit low :: rest =>
    if isHighSurrogate high then
      if isLowSurrogate low then
        (spelled? rest).map
          (Char.ofNat (0x10000 + (high - 0xD800) * 0x400 + (low - 0xDC00)) :: ·)
      else none
    else if isLowSurrogate high then none
    else (spelled? (.unit low :: rest)).map (Char.ofNat high :: ·)
  | .unit code :: rest =>
    if isHighSurrogate code || isLowSurrogate code then none
    else (spelled? rest).map (Char.ofNat code :: ·)

/-- The natural number that digits alone write; a sign, a point or an exponent makes it none. -/
def writtenNatural? (written : Text) : Option Nat :=
  if written.isEmpty then none
  else written.foldlM (fun n c => if c.isDigit then some (10 * n + (c.toNat - 48)) else none) 0

end Json
end MessageKeys
