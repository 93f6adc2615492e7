import MessageKeys.Xml.Markup

/-!
# XML attributes

The attributes of a start tag are read one after the other, and their values unescaped on demand.
Five entities and the numbers of characters stand for characters; no other entity is known.
-/
namespace MessageKeys.Xml

structure Attribute where
  name : Text
  /-- The value as it is written between the quotes. -/
  written : Text
  deriving DecidableEq, Repr

/-- Reads one attribute behind white space. No attribute is left when only white space is; an
attribute without `=` or without quotes is an error. -/
def nextAttribute (text : Text) : Except Unit (Option (Attribute × Text)) :=
  match text.dropWhile isSpace with
  | [] => .ok none
  | first :: rest =>
    let ends := fun c => c == '=' || isSpace c
    let name := first :: rest.takeWhile fun c => !ends c
    match (rest.dropWhile fun c => !ends c).dropWhile isSpace with
    | '=' :: value =>
      match value.dropWhile isSpace with
      | quote :: body =>
        if quote = '"' || quote = '\'' then
          match Text.cut? body [quote] with
          | some (written, more) => .ok (some (⟨name, written⟩, more))
          | none => .error ()
        else .error ()
      | [] => .error ()
    | _ => .error ()

def digitValue? (base : Nat) (c : Char) : Option Nat :=
  let value? :=
    if '0' ≤ c && c ≤ '9' then some (c.toNat - 48)
    else if 'a' ≤ c && c ≤ 'f' then some (c.toNat - 87)
    else if 'A' ≤ c && c ≤ 'F' then some (c.toNat - 55)
    else none
  value?.filter (· < base)

/-- The number that digits write in a base; no digits write none. -/
def number? (base : Nat) (digits : Text) : Option Nat :=
  if digits.isEmpty then none
  else digits.foldlM (fun n c => (digitValue? base c).map (base * n + ·)) 0

def charOfNumber? (n : Nat) : Option Char :=
  if h : n.isValidChar then if n = 0 then none else some (Char.ofNatAux n h) else none

/-- The character that an entity stands for, given what is written between `&` and `;`. -/
def entity? (name : Text) : Option Char :=
  match name with
  | '#' :: 'x' :: digits => number? 16 digits >>= charOfNumber?
  | '#' :: digits => number? 10 digits >>= charOfNumber?
  | _ =>
    [("lt".toList, '<'), ("gt".toList, '>'), ("amp".toList, '&'), ("apos".toList, '\''),
      ("quot".toList, '"')].lookup name

/-- Replaces the entities; `entity` is what was read of an entity that has begun, backwards. -/
def unescapeFrom? (entity : Option Text) : Text → Option Text
  | [] => if entity.isNone then some [] else none
  | c :: rest =>
    match entity with
    | none =>
      if c = '&' then unescapeFrom? (some []) rest
      else (unescapeFrom? none rest).map (c :: ·)
    | some name =>
      if c = ';' then do
        let char ← entity? name.reverse
        (unescapeFrom? none rest).map (char :: ·)
      else if c = '&' then none
      else unescapeFrom? (some (c :: name)) rest

def Attribute.value? (attr : Attribute) : Option Text :=
  unescapeFrom? none attr.written

end MessageKeys.Xml
