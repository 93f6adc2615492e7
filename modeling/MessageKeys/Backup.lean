import MessageKeys.Files.TextFile

/-!
# Backups

Before a file is overwritten it is copied into the backup folder under its own name, so that of two
files with the same name the later one's copy stays. A copy that fails is passed over: a backup
never stands in the way of the work.
-/
namespace MessageKeys.Backup

/-- Copies one file into the folder; the path of the copy, if there is one. -/
def saveOne (folder file : Path) : Program (Option Path) := do
  match ← Program.perform (.kind file) with
  | none => return none
  | some _ =>
    match ← Program.perform (.createFolders folder), file.fileName? with
    | .ok _, some name =>
      let target := folder.join ⟨name⟩
      match ← Program.perform (.copy file target) with
      | .ok _ => return some target
      | .error _ => return none
    | _, _ => return none

/-- Copies the files that are there, one after the other; the paths of the copies. -/
def save (folder : Path) : List Path → Program (List Path)
  | [] => pure []
  | file :: rest => do
    let saved ← saveOne folder file
    return saved.toList ++ (← save folder rest)

end MessageKeys.Backup
