import MessageKeys.Backup
import MessageKeys.Proofs.Files.TextFile

/-!
# What backups leave alone

A backup writes the copies of its files and makes folders, whether it succeeds or not.
-/
namespace MessageKeys.Backup

variable {folder file : Path}

/-- Where the copy of a file goes, if the file has a name. -/
def copyOf (folder file : Path) : List Path :=
  file.fileName?.toList.map fun name => folder.join ⟨name⟩

theorem kept_perform_copy (world : World) (source target : Path) :
    World.Kept [target.place world.working] world (world.perform (.copy source target)).2 := by
  simp only [World.perform]
  split
  · next tree ht => exact ⟨rfl, Tree.kept_copy ht⟩
  · exact .refl world

theorem kept_saveOne (folder file : Path) (world : World) :
    World.Kept ((copyOf folder file).map (Path.place world.working)) world
      ((saveOne folder file).run world).2 := by
  have hfolders := TextFile.kept_createFolders world folder
  unfold saveOne
  rw [Program.run_bind, Program.run_perform]
  split
  · exact .refl world
  · rw [Program.run_bind, Program.run_perform]
    split
    · next name _ hname =>
      have hcopy := kept_perform_copy (world.perform (.createFolders folder)).2 file
        (folder.join ⟨name⟩)
      rw [Program.run_bind, Program.run_perform, copyOf, hname]
      have hboth := hfolders.trans hcopy
      rw [hfolders.working] at hboth
      split <;> exact hboth
    · exact ⟨hfolders.working, hfolders.tree.folder, fun _ => hfolders.tree.file (by simp)⟩

theorem kept_save (folder : Path) (files : List Path) (world : World) :
    World.Kept ((files.flatMap (copyOf folder)).map (Path.place world.working)) world
      ((save folder files).run world).2 := by
  induction files generalizing world with
  | nil => exact .refl world
  | cons file rest ih =>
    have hone := kept_saveOne folder file world
    have hrest := ih ((saveOne folder file).run world).2
    rw [hone.working] at hrest
    rw [List.flatMap_cons, List.map_append]
    have hall := hone.trans hrest
    simp only [save, Program.run_bind]
    exact hall

end MessageKeys.Backup
