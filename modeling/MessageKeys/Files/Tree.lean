import MessageKeys.Failure
import MessageKeys.Files.Path
import MessageKeys.OrderedMap
import MessageKeys.Text.Bytes

/-!
# File trees

A tree says what stands at which location. A location is the list of names from the innermost
folder up, so the folder around it is its tail; the empty location is the root and always a
folder. Paths are followed one step at a time, and every step but the last has to lead through a
folder that is there. Names and paths have a greatest length, which counts bytes. A place may also be
one that the system refuses to write to, whatever stands there.
-/
namespace MessageKeys

abbrev Location := List Text

inductive Node where
  | file (content : ByteArray)
  | folder

inductive Kind where
  | file
  | folder
  deriving DecidableEq, Repr

def Node.kind : Node → Kind
  | .file _ => .file
  | .folder => .folder

/-- Why nothing can be written at a place. -/
structure Refusal where
  code : Nat
  /-- The words that the system has for it. -/
  reason : Text
  /-- What a file there holds afterwards, if it was opened before it could not be written. -/
  left : Option ByteArray

def Refusal.fault (refusal : Refusal) : FileFault :=
  .refused refusal.code refusal.reason

/-- The places that a system refuses to write to. -/
class Refusals where
  at? : Location → Option Refusal

/-- Where nothing is said of it, nothing is refused. -/
instance : Refusals where
  at? _ := none

structure Tree where
  nodes : OrderedMap Location Node
  [refusals : Refusals]

namespace Tree

def empty : Tree := ⟨.empty⟩

def node? (tree : Tree) : Location → Option Node
  | [] => some .folder
  | location => tree.nodes.get? location

def kindAt? (tree : Tree) (location : Location) : Option Kind :=
  (tree.node? location).map Node.kind

/-- Puts a node at a location, whatever stood there. -/
def put (tree : Tree) (location : Location) (node : Node) : Tree :=
  { tree with nodes := tree.nodes.insert location node }

def refusal? (tree : Tree) (location : Location) : Option Refusal :=
  tree.refusals.at? location

/-- Puts a node at a location, unless that is refused. -/
def tryPut (tree : Tree) (location : Location) (node : Node) : Except FileFault Tree :=
  match tree.refusal? location with
  | none => .ok (tree.put location node)
  | some refusal => .error refusal.fault

/-- The most bytes that a name can have. -/
def longestName : Nat := 255

/-- The most bytes that a path can have. -/
def longestPath : Nat := 4095

/-- Whether a path can be followed at all; this is asked before anything is looked up. -/
def checkPath (path : Path) : Except FileFault Unit :=
  if path.text.contains '\x00' then .error .nulInName
  else if longestPath < path.text.byteLength then .error .nameTooLong
  else if path.text.isEmpty then .error .missing
  else .ok ()

/-- One step of a path, taken at a location. -/
def step (tree : Tree) (location : Location) (name : Text) : Except FileFault Location :=
  match tree.node? location with
  | none => .error .missing
  | some (.file _) => .error .notFolder
  | some .folder =>
    if Path.isStill name then .ok location
    else if name = ['.', '.'] then .ok location.tail
    else if longestName < name.byteLength then .error .nameTooLong
    else .ok (name :: location)

/-- Where steps lead from the working folder or, for an absolute path, from the root. -/
def follow (tree : Tree) (working : Location) (path : Path) : Except FileFault Location :=
  (path.text.pieces '/').foldlM tree.step (if path.isAbsolute then [] else working)

/-- Where a path leads from the working folder; nothing needs to stand there. -/
def locate (tree : Tree) (working : Location) (path : Path) : Except FileFault Location := do
  checkPath path
  tree.follow working path

def lookup (tree : Tree) (working : Location) (path : Path) : Except FileFault Node := do
  let location ← tree.locate working path
  match tree.node? location with
  | some node => .ok node
  | none => .error .missing

def kind? (tree : Tree) (working : Location) (path : Path) : Option Kind :=
  (tree.lookup working path).toOption.map Node.kind

def read (tree : Tree) (working : Location) (path : Path) : Except FileFault ByteArray := do
  match ← tree.lookup working path with
  | .file content => .ok content
  | .folder => .error .isFolder

/-- Where a path leads that names a place for something new. It may end in slashes, which are left
out of account. -/
def locateNew (tree : Tree) (working : Location) (path : Path) : Except FileFault Location := do
  checkPath path
  let bare := (path.text.reverse.dropWhile (· == '/')).reverse
  tree.follow working (if bare.isEmpty then path else ⟨bare⟩)

/-- Where a file can stand, a new one or an old one. A path that ends in a slash names no file. -/
def locateFile (tree : Tree) (working : Location) (path : Path) : Except FileFault Location := do
  let location ← tree.locateNew working path
  if tree.kindAt? location = some .folder || path.text.getLast? = some '/' then .error .isFolder
  else .ok location

/-- Writes a file, a new one or over an old one. -/
def write (tree : Tree) (working : Location) (path : Path) (content : ByteArray) :
    Except FileFault Tree := do
  let location ← tree.locateFile working path
  tree.tryPut location (.file content)

/-- What a write leaves that has failed: all as it was, but for a file that was opened before the
write was refused. -/
def spoil (tree : Tree) (working : Location) (path : Path) : Tree :=
  match tree.locateFile working path with
  | .error _ => tree
  | .ok location =>
    match (tree.refusal? location).bind Refusal.left with
    | none => tree
    | some left => tree.put location (.file left)

/-- Makes one folder in a folder that is there. -/
def createFolder (tree : Tree) (working : Location) (path : Path) : Except FileFault Tree := do
  let location ← tree.locateNew working path
  if (tree.node? location).isSome then .error .alreadyThere
  else tree.tryPut location .folder

/-- Makes the first folder of the list, and before it those further on that it needs. What was
made stays, also when a later step fails. -/
def createFrom (tree : Tree) (working : Location) : List Path → Except FileFault Unit × Tree
  | [] => (.ok (), tree)
  | path :: above =>
    if path.text.isEmpty then (.ok (), tree)
    else match tree.createFolder working path with
      | .ok made => (.ok (), made)
      | .error .missing =>
        match createFrom tree working above with
        | (.error fault, grown) => (.error fault, grown)
        | (.ok _, grown) =>
          match grown.createFolder working path with
          | .ok made => (.ok (), made)
          | .error fault =>
            if grown.kind? working path = some .folder then (.ok (), grown)
            else (.error fault, grown)
      | .error fault =>
        if tree.kind? working path = some .folder then (.ok (), tree) else (.error fault, tree)

/-- Makes a folder and all folders above it that are missing. -/
def createFolders (tree : Tree) (working : Location) (path : Path) :
    Except FileFault Unit × Tree :=
  tree.createFrom working path.ancestors

/-- Copies a file. The target is emptied before the source is read, so a file copied onto itself
ends up empty; a target that is refused is not opened. -/
def copy (tree : Tree) (working : Location) (source target : Path) : Except FileFault Tree := do
  let _ ← tree.read working source
  let emptied ← tree.write working target .empty
  let content ← emptied.read working source
  emptied.write working target content

/-- The names in a folder and what they name, in no particular order. -/
def children (tree : Tree) (working : Location) (path : Path) : List (Text × Kind) :=
  match tree.locate working path with
  | .ok location =>
    tree.nodes.entries.filterMap fun (place, node) =>
      match place with
      | name :: folder => if folder = location then some (name, node.kind) else none
      | [] => none
  | .error _ => []

end Tree
end MessageKeys
