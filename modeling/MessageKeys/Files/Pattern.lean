import MessageKeys.Files.TextFile

/-!
# Path patterns

A pattern names files by wildcards, step by step: `*` stands for any characters of a name, `?` for
one, `[..]` for one out of a class and `[!..]` for one outside it. A step `**` stands for any
folders below the one reached. Names match with their letter case, and a leading dot is a character
like any other, except that only a pattern with a leading dot finds `.` and `..`.
-/
namespace MessageKeys

namespace Pattern

/-- A stretch of characters in a class, from the first through the last. -/
structure CharRange where
  first : Char
  last : Char
  deriving DecidableEq, Repr

inductive Token where
  | char (c : Char)
  | anyChar
  | anySequence
  /-- The wildcard that fills a whole step. -/
  | anyFolders
  | oneOf (ranges : List CharRange)
  | noneOf (ranges : List CharRange)
  deriving DecidableEq, Repr

/-- Reads what stands in a class; a dash between two characters makes a range. -/
def classRanges : Text → List CharRange
  | first :: '-' :: last :: rest => ⟨first, last⟩ :: classRanges rest
  | c :: rest => ⟨c, c⟩ :: classRanges rest
  | [] => []

/-- Reads the characters of a class through its closing bracket. The first of them belongs to the
class whatever it is. -/
def readRanges? : Text → Option (List CharRange × Text)
  | [] => none
  | first :: rest => do
    let (more, after) ← Text.cut? rest [']']
    return (classRanges (first :: more), after)

/-- Reads a class behind its opening bracket. -/
def readClass? (text : Text) : Option (Token × Text) :=
  match text with
  | '!' :: rest => (readRanges? rest).map fun (ranges, after) => (.noneOf ranges, after)
  | _ => (readRanges? text).map fun (ranges, after) => (.oneOf ranges, after)

/-- Reads at most `count` tokens. `**` has to fill a step, so only a slash or an end may stand
next to it; `previous` is the character in front. -/
def readTokens? (count : Nat) (previous : Option Char) (text : Text) : Option (List Token) :=
  match count, text with
  | _, [] => some []
  | 0, _ => none
  | _, '*' :: '*' :: '*' :: _ => none
  | count + 1, '*' :: '*' :: rest =>
    if (previous.all (· == '/')) && (rest.head?.all (· == '/')) then
      (readTokens? count (some '*') rest).map (.anyFolders :: ·)
    else none
  | count + 1, '*' :: rest => (readTokens? count (some '*') rest).map (.anySequence :: ·)
  | count + 1, '?' :: rest => (readTokens? count (some '?') rest).map (.anyChar :: ·)
  | count + 1, '[' :: rest => do
    let (token, after) ← readClass? rest
    (readTokens? count (some ']') after).map (token :: ·)
  | count + 1, c :: rest => (readTokens? count (some c) rest).map (.char c :: ·)

def tokens? (text : Text) : Option (List Token) :=
  readTokens? text.length none text

def inRanges (ranges : List CharRange) (c : Char) : Bool :=
  ranges.any fun range => range.first ≤ c && c ≤ range.last

/-- Whether a token that stands for one character stands for this one. -/
def Token.admits (token : Token) (c : Char) : Bool :=
  match token with
  | .char d => d == c
  | .anyChar => true
  | .oneOf ranges => inRanges ranges c
  | .noneOf ranges => !inRanges ranges c
  | .anySequence | .anyFolders => false

/-- A text and what is left of it after each of its characters, the longest first. -/
def suffixes : Text → List Text
  | [] => [[]]
  | c :: rest => (c :: rest) :: suffixes rest

/-- What a token can leave of a name, if what stands in front of it can leave `rests`, the longest
first. -/
def advance (rests : List Text) (token : Token) : List Text :=
  match token with
  | .anySequence | .anyFolders =>
    match rests with
    | longest :: _ => suffixes longest
    | [] => []
  | _ => rests.filterMap fun rest =>
    match rest with
    | c :: after => if token.admits c then some after else none
    | [] => none

/-- Whether the tokens match a whole name. -/
def matchesName (tokens : List Token) (name : Text) : Bool :=
  (tokens.foldl advance [name]).any List.isEmpty

/-- The name that tokens without wildcards spell. -/
def literal? : List Token → Option Text
  | [] => some []
  | .char c :: rest => (literal? rest).map (c :: ·)
  | _ :: _ => none

end Pattern

/-- A pattern taken apart: one list of tokens for each step. -/
structure Pattern where
  absolute : Bool
  steps : List (List Pattern.Token)
  /-- A slash at the end asks for folders only. -/
  foldersOnly : Bool
  deriving DecidableEq, Repr

namespace Pattern

/-- Whether a text is a pattern and not just a path. -/
def hasWildcard (text : Text) : Bool :=
  text.any fun c => c == '*' || c == '?' || c == '['

/-- Reads a pattern; both the whole of it and each of its steps have to be well formed. -/
def parse? (text : Text) : Option Pattern := do
  let _ ← tokens? text
  let absolute := text.head? = some '/'
  let relative := if absolute then text.drop 1 else text
  let pieces := Text.pieces '/' relative
  let steps ← (if pieces.getLast? = some [] then pieces.dropLast else pieces).mapM tokens?
  return ⟨absolute, steps, text.getLast? = some '/'⟩

/-- The names in a folder in their order. -/
def sortedChildren (path : Path) : Program (List (Text × Kind)) := do
  let children ← Program.perform (.children path)
  return children.mergeSort fun a b => String.ofList a.1 ≤ String.ofList b.1

/-- A name as seen from the folder a search has reached; the folder it began in is not named. -/
def child (path : Path) (name : Text) : Path :=
  if path.sameAs ⟨['.']⟩ then ⟨name⟩ else path.join ⟨name⟩

def isRecursive (step : List Token) : Bool :=
  step == [.anyFolders]

/-- A path all steps of which are matched. -/
def found (foldersOnly : Bool) (path : Path) : Program (List Path) := do
  if foldersOnly then
    return if ← TextFile.isFolder path then [path] else []
  else return [path]

mutual

/-- The paths below the folder `path` that match the steps, in the order of their names. At most
`depth` steps are taken. -/
def below (foldersOnly : Bool) (depth : Nat) (steps : List (List Token)) (path : Path) :
    Program (List Path) :=
  match depth, steps with
  | 0, _ | _, [] => pure []
  | depth + 1, step :: rest => do
    let add := fun next =>
      if rest.isEmpty then found foldersOnly next else below foldersOnly depth rest next
    match literal? step with
    | some name =>
      let next := child path name
      let reached ←
        if name = ['.'] || name = ['.', '.'] then TextFile.isFolder path
        else TextFile.isThere next
      if reached then add next else return []
    | none =>
      if ← TextFile.isFolder path then
        let children ← sortedChildren path
        let specials := if step.head? = some (.char '.') then
            [['.', '.'], ['.']].filter fun name => matchesName step name
          else []
        let special ← specials.mapM fun name => add (path.join ⟨name⟩)
        let inside ← children.mapM fun (name, _) =>
          candidate foldersOnly depth (step :: rest) (child path name) name
        return special.flatten ++ inside.flatten
      else return []

/-- The matches of the steps at a path that was reached by its name, and below it. -/
def candidate (foldersOnly : Bool) (depth : Nat) (steps : List (List Token)) (path : Path)
    (name : Text) : Program (List Path) :=
  match depth with
  | 0 => pure []
  | depth + 1 => do
    let matched := fun (steps : List (List Token)) =>
      match steps with
      | [] => pure []
      | step :: rest =>
        if matchesName step name then
          if rest.isEmpty then found foldersOnly path else below foldersOnly depth rest path
        else pure []
    match steps with
    | step :: rest =>
      if isRecursive step then
        let after := rest.dropWhile isRecursive
        if ← TextFile.isFolder path then
          let own ← if after.isEmpty then pure [path] else matched after
          return own ++ (← below foldersOnly depth (step :: after) path)
        else if after.isEmpty then return [] else matched after
      else matched steps
    | [] => return []

end

/-- The paths that match a pattern. No path has more steps than bytes. -/
def expand (pattern : Pattern) : Program (List Path) :=
  let start : Path := ⟨if pattern.absolute then ['/'] else ['.']⟩
  below pattern.foldersOnly (2 * (Tree.longestPath + pattern.steps.length)) pattern.steps start

end Pattern
end MessageKeys
