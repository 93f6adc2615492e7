import MessageKeys.Json.Value

/-!
# Reading JSON

Each reader takes what it knows from the front of a text and gives the rest. A document is one
value with white space around it and nothing else.
-/
namespace MessageKeys.Json

def skipSpace (text : Text) : Text :=
  text.dropWhile isSpace

def hexDigit? (c : Char) : Option Nat :=
  if '0' ≤ c && c ≤ '9' then some (c.toNat - 48)
  else if 'a' ≤ c && c ≤ 'f' then some (c.toNat - 87)
  else if 'A' ≤ c && c ≤ 'F' then some (c.toNat - 55)
  else none

/-- The letters that may follow a backslash, apart from `u`, and what they stand for. -/
def escapes : List (Char × Char) :=
  [('"', '"'), ('\\', '\\'), ('/', '/'), ('b', '\x08'), ('f', '\x0c'), ('n', '\n'), ('r', '\r'),
    ('t', '\t')]

/-- Reads a string behind its opening quote. Control characters have to be escaped. -/
def readString? : Text → Option (List StringUnit × Text)
  | [] => none
  | '"' :: rest => some ([], rest)
  | '\\' :: 'u' :: a :: b :: c :: d :: rest => do
    let code := ((← hexDigit? a) * 16 + (← hexDigit? b)) * 256 + (← hexDigit? c) * 16 +
      (← hexDigit? d)
    (readString? rest).map fun (units, more) => (.unit code :: units, more)
  | '\\' :: letter :: rest => do
    let meant ← escapes.lookup letter
    (readString? rest).map fun (units, more) => (.char meant :: units, more)
  | c :: rest =>
    if c.toNat < 0x20 then none
    else (readString? rest).map fun (units, more) => (.char c :: units, more)

/-- Reads at least one digit. -/
def readDigits? (text : Text) : Option (Text × Text) :=
  let digits := text.takeWhile Char.isDigit
  if digits.isEmpty then none else some (digits, text.dropWhile Char.isDigit)

/-- Reads the integer part of a number, which is zero or begins with another digit. -/
def readInteger? (text : Text) : Option (Text × Text) :=
  match text with
  | '0' :: rest => some (['0'], rest)
  | _ => readDigits? text

def readFraction? (text : Text) : Option (Text × Text) :=
  match text with
  | '.' :: rest => (readDigits? rest).map fun (digits, more) => ('.' :: digits, more)
  | _ => some ([], text)

def readExponent? (text : Text) : Option (Text × Text) :=
  let body := fun (e : Char) (rest : Text) =>
    match rest with
    | '+' :: more => (readDigits? more).map fun (digits, more) => (e :: '+' :: digits, more)
    | '-' :: more => (readDigits? more).map fun (digits, more) => (e :: '-' :: digits, more)
    | _ => (readDigits? rest).map fun (digits, more) => (e :: digits, more)
  match text with
  | 'e' :: rest => body 'e' rest
  | 'E' :: rest => body 'E' rest
  | _ => some ([], text)

def readNumber? (text : Text) : Option (Text × Text) := do
  let (sign, unsigned) := match text with
    | '-' :: rest => (['-'], rest)
    | _ => ([], text)
  let (integer, rest) ← readInteger? unsigned
  let (fraction, rest) ← readFraction? rest
  let (exponent, rest) ← readExponent? rest
  return (sign ++ integer ++ fraction ++ exponent, rest)

mutual

/-- Reads a value; `depth` bounds the number of readers that may be under way. -/
def readValue? (depth : Nat) (text : Text) : Option (Json × Text) :=
  match depth, skipSpace text with
  | 0, _ => none
  | _, 'n' :: 'u' :: 'l' :: 'l' :: rest => some (.null, rest)
  | _, 't' :: 'r' :: 'u' :: 'e' :: rest => some (.bool true, rest)
  | _, 'f' :: 'a' :: 'l' :: 's' :: 'e' :: rest => some (.bool false, rest)
  | _, '"' :: rest => (readString? rest).map fun (units, more) => (.string units, more)
  | depth + 1, '[' :: rest =>
    match skipSpace rest with
    | ']' :: more => some (.array [], more)
    | _ => (readItems? depth rest).map fun (items, more) => (.array items, more)
  | depth + 1, '\x7b' :: rest =>
    match skipSpace rest with
    | '\x7d' :: more => some (.object [], more)
    | _ => (readMembers? depth rest).map fun (members, more) => (.object members, more)
  | _, rest => (readNumber? rest).map fun (written, more) => (.number written, more)

/-- Reads the items of an array through its closing bracket. -/
def readItems? (depth : Nat) (text : Text) : Option (List Json × Text) :=
  match depth with
  | 0 => none
  | depth + 1 => do
    let (item, rest) ← readValue? depth text
    match skipSpace rest with
    | ',' :: more => (readItems? depth more).map fun (items, more) => (item :: items, more)
    | ']' :: more => some ([item], more)
    | _ => none

/-- Reads the members of an object through its closing brace. -/
def readMembers? (depth : Nat) (text : Text) :
    Option (List (List StringUnit × Json) × Text) :=
  match depth with
  | 0 => none
  | depth + 1 =>
    match skipSpace text with
    | '"' :: rest => do
      let (key, rest) ← readString? rest
      match skipSpace rest with
      | ':' :: rest =>
        let (value, rest) ← readValue? depth rest
        match skipSpace rest with
        | ',' :: more =>
          (readMembers? depth more).map fun (members, more) => ((key, value) :: members, more)
        | '\x7d' :: more => some ([(key, value)], more)
        | _ => none
      | _ => none
    | _ => none

end

/-- Reads a document. A reader under way has a character of its own, or the one before it has. -/
def parse? (document : Text) : Option Json := do
  let (value, rest) ← readValue? (2 * document.length + 2) document
  if (skipSpace rest).isEmpty then some value else none

end MessageKeys.Json
