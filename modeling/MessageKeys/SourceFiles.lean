import MessageKeys.Files.Pattern

/-!
# Source files

The sources of a run are named by paths and by patterns. A path has to be that of a file, and a
pattern has to match one. A file that is named again in the same way is taken once.
-/
namespace MessageKeys.SourceFiles

/-- The files that match a pattern. -/
def matching (written : Text) : Procedure (List Path) := do
  match Pattern.parse? written with
  | none => Procedure.fail (.invalidPattern written)
  | some pattern =>
    let paths ← pattern.expand
    let files ← paths.filterMapM fun path => do
      return if ← TextFile.isFile path then some path else none
    if files.isEmpty then Procedure.fail (.unmatchedPattern written) else return files

/-- The files that a word names. -/
def named (written : Text) : Procedure (List Path) := do
  if Pattern.hasWildcard written then matching written
  else if ← TextFile.isFile ⟨written⟩ then return [⟨written⟩]
  else Procedure.fail (.missingSource written)

/-- Adds the paths that the list does not have. -/
def addNew (paths : List Path) : List Path → List Path
  | [] => paths
  | path :: rest =>
    addNew (if paths.any fun other => other.sameAs path then paths else paths ++ [path]) rest

/-- Adds the files that the words name to those that were found. -/
def expandFrom (paths : List Path) : List Text → Procedure (List Path)
  | [] => return paths
  | written :: rest => do expandFrom (addNew paths (← named written)) rest

def expand (words : List Text) : Procedure (List Path) :=
  expandFrom [] words

end MessageKeys.SourceFiles
