import MessageKeys.Text.Basic

/-!
# Paths

A path is kept as it is written. Its steps stand between slashes; a step that is empty or a single
dot stays where it is. Such steps at the end of a path do not count, and one in front counts only
as a leading dot or as the slash of an absolute path.
-/
namespace MessageKeys

structure Path where
  text : Text
  deriving DecidableEq, Repr

namespace Path

def isAbsolute (path : Path) : Bool :=
  path.text.head? = some '/'

/-- A step that stays where it is. -/
def isStill (step : Text) : Bool :=
  step.isEmpty || step == ['.']

def withoutTrailing (steps : List Text) : List Text :=
  (steps.reverse.dropWhile isStill).reverse

/-- The path of `other` as seen from the folder `path`. -/
def join (path other : Path) : Path :=
  if other.isAbsolute || path.text.isEmpty then other
  else if path.text.getLast? = some '/' then ⟨path.text ++ other.text⟩
  else ⟨path.text ++ '/' :: other.text⟩

/-- The first step, and the others up to the last one that moves. -/
def steps (path : Path) : Text × List Text :=
  match path.text.pieces '/' with
  | [] => ([], [])
  | first :: rest => (first, withoutTrailing rest)

/-- The path without its last step; an empty path and a root have no parent. -/
def parent? (path : Path) : Option Path :=
  match path.steps with
  | ([], []) => none
  | (_, []) => some ⟨[]⟩
  | (first, rest) =>
    let kept := withoutTrailing rest.dropLast
    if first.isEmpty && kept.isEmpty then some ⟨['/']⟩
    else some ⟨Text.join ['/'] (first :: kept)⟩

/-- The last step, if it is a name and neither `.` nor `..`. -/
def fileName? (path : Path) : Option Text :=
  let (first, rest) := path.steps
  let last := rest.getLast?.getD first
  if isStill last || last == ['.', '.'] then none else some last

/-- A name without its extension, which begins at the last dot; a leading dot begins none. -/
def stemOf (name : Text) : Text :=
  let before := ((name.reverse.dropWhile (· != '.')).drop 1).reverse
  if before.isEmpty then name else before

/-- The path with another name in the place of its last step, if that step is a name. -/
def withFileName (path : Path) (name : Text) : Path :=
  if path.fileName?.isSome then (path.parent?.getD path).join ⟨name⟩ else path.join ⟨name⟩

/-- Whether two paths take the same steps; nothing is looked up for this. -/
def sameAs (a b : Path) : Bool :=
  let normal := fun (path : Path) =>
    let (first, rest) := path.steps
    (path.isAbsolute, first, rest.filter fun step => !isStill step)
  normal a == normal b

/-- The path and the folders above it, `depth` of them at most. -/
def chain : Nat → Path → List Path
  | 0, path => [path]
  | depth + 1, path =>
    match path.parent? with
    | some parent => path :: chain depth parent
    | none => [path]

def ancestors (path : Path) : List Path :=
  chain path.text.length path

end Path
end MessageKeys
