import MessageKeys.Text.Basic

/-!
# XML markup, one piece at a time

A document is read as a sequence of pieces: start tags, end tags and what is passed over, which is
text, comments, character data, processing instructions and a document type. Markup is taken as it
is written; what it says is not checked further than to find its end, except that end tags have to
match the start tags that are open.
-/
namespace MessageKeys.Xml

/-- The characters that XML counts as white space. -/
def isSpace (c : Char) : Bool :=
  c == ' ' || c == '\t' || c == '\r' || c == '\n'

inductive Piece where
  /-- A start tag: what stands between its angle brackets, without the slash of an empty one. -/
  | opening (content : Text) (isEmpty : Bool)
  | closing (name : Text)
  | passed
  deriving DecidableEq, Repr

/-- Reads up to the first `>` outside quotes; `quote` is the quote that is open. -/
def takeTag? (quote : Option Char) : Text → Option (Text × Text)
  | [] => none
  | c :: rest =>
    let within := fun quote => (takeTag? quote rest).map fun (tag, more) => (c :: tag, more)
    match quote with
    | some q => within (if c = q then none else some q)
    | none =>
      if c = '>' then some ([], rest)
      else within (if c = '"' || c = '\'' then some c else none)

/-- Reads up to the `>` that closes `depth` open angle brackets and one more. -/
def takeBalanced? (depth : Nat) : Text → Option (Text × Text)
  | [] => none
  | c :: rest =>
    let within := fun depth => (takeBalanced? depth rest).map fun (body, more) => (c :: body, more)
    if c = '<' then within (depth + 1)
    else if c = '>' then
      match depth with
      | 0 => some ([], rest)
      | depth + 1 => within depth
    else within depth

def trimSpaceEnd (text : Text) : Text :=
  (text.reverse.dropWhile isSpace).reverse

/-- What follows a leading mark, upper and lower case taken as equal. -/
def dropLeading? (mark text : Text) : Option Text :=
  if Text.sameLetters mark (text.take mark.length) then some (text.drop mark.length) else none

/-- Reads `<!…`, given what stands behind the exclamation mark. -/
def readDeclaration? (text : Text) : Option Text :=
  match text with
  | '-' :: '-' :: body => (Text.cut? body "-->".toList).map Prod.snd
  | '[' :: 'C' :: 'D' :: 'A' :: 'T' :: 'A' :: '[' :: body =>
    (Text.cut? body "]]>".toList).map Prod.snd
  | _ => do
    let body ← dropLeading? "DOCTYPE".toList text
    let (name, rest) ← takeBalanced? 0 body
    if name.all isSpace then none else some rest

/-- Reads one piece of markup, given what stands behind its `<`. -/
def readMarkup? (text : Text) : Option (Piece × Text) :=
  match text with
  | '!' :: body => (readDeclaration? body).map fun rest => (.passed, rest)
  | '?' :: _ => do
    let (content, rest) ← text.cut? "?>".toList
    if content.isEmpty then none else some (.passed, rest)
  | '/' :: body => do
    let (content, rest) ← takeTag? none body
    let name := trimSpaceEnd content
    some (.closing (if name.isEmpty then content else name), rest)
  | _ => do
    let (content, rest) ← takeTag? none text
    if content.getLast? = some '/' then some (.opening content.dropLast true, rest)
    else some (.opening content false, rest)

/-- The name of an element, which is what its tag begins with. -/
def elementName (content : Text) : Text :=
  content.takeWhile fun c => !isSpace c

inductive Search where
  | found (content : Text)
  | absent
  | malformed
  deriving DecidableEq, Repr

/-- Looks through at most `pieces` pieces for a start tag of a name; `opened` are the names of the
elements that are open, the innermost first. -/
def findElement (name : Text) : Nat → List Text → Text → Search
  | 0, _, _ => .absent
  | pieces + 1, opened, text =>
    match text.dropWhile (· != '<') with
    | [] => .absent
    | _ :: markup =>
      match readMarkup? markup with
      | none => .malformed
      | some (.passed, rest) => findElement name pieces opened rest
      | some (.closing closed, rest) =>
        match opened with
        | innermost :: outer =>
          if closed = innermost then findElement name pieces outer rest else .malformed
        | [] => .malformed
      | some (.opening content isEmpty, rest) =>
        let element := elementName content
        if element = name then .found content
        else findElement name pieces (if isEmpty then opened else element :: opened) rest

/-- The first start tag of that name. Every piece takes a character at least, so no document has
more pieces than characters. -/
def firstElement (name document : Text) : Search :=
  findElement name (document.length + 1) [] document

end MessageKeys.Xml
