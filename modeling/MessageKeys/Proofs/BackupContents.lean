import MessageKeys.Proofs.Files.Contents
import MessageKeys.Proofs.Files.Path

/-!
# What backups leave in the files

A copy stands in the backup folder under the name of its file. So the copy of one file can meet
another file only if that one stands in the backup folder itself, and no copy meets a file that was
copied, except its own. Each copy then holds what the last copied file of its name held before; but a
file that is copied onto itself is emptied.
-/
namespace MessageKeys.Backup

variable {before after : World} {folder file path : Path} {name : Text}

/-- What the copy of a file leaves in a place: what the file held, and nothing if it stood there. -/
def leaves (world : World) (location : Location) (file : Path) : Option ByteArray :=
  if file.place world.working = location then some .empty
  else world.tree.content? (file.place world.working)

/-- The files that a run copies. -/
def copied (folder : Path) : List Path → World → List Path
  | [], _ => []
  | file :: rest, world =>
    let ran := (saveOne folder file).run world
    if ran.1.isSome then file :: copied folder rest ran.2 else copied folder rest ran.2

/-- The last of the files that have a name. -/
def lastNamed (name : Text) (files : List Path) : Option Path :=
  files.reverse.find? fun file => file.fileName? = some name

theorem lastNamed_cons (name : Text) (file : Path) (rest : List Path) :
    lastNamed name (file :: rest) =
      (lastNamed name rest).or (if file.fileName? = some name then some file else none) := by
  rw [lastNamed, List.reverse_cons, List.find?_append, lastNamed]
  congr 1
  by_cases h : file.fileName? = some name <;> simp [h]

theorem fileName?_of_lastNamed {files : List Path} (h : lastNamed name files = some file) :
    file.fileName? = some name := by
  simpa using List.find?_some h

theorem mem_of_lastNamed {files : List Path} (h : lastNamed name files = some file) :
    file ∈ files :=
  List.mem_reverse.mp (List.mem_of_find?_eq_some h)

/-- How the backup of one file ends. -/
inductive Saves (folder file : Path) (before after : World) : Option Path → Prop where
  | passed (working : after.working = before.working)
      (same : ∀ location, after.tree.content? location = before.tree.content? location) :
      Saves folder file before after none
  | copied {name : Text} {bytes : ByteArray} (named : file.fileName? = some name)
      (working : after.working = before.working)
      (read : after.tree.read after.working (folder.join ⟨name⟩) = .ok bytes)
      (left : leaves before (name :: folder.place before.working) file = some bytes)
      (others : ∀ location, location ≠ name :: folder.place before.working →
        after.tree.content? location = before.tree.content? location) :
      Saves folder file before after (some (folder.join ⟨name⟩))

theorem perform_copy_eq_ok {source target : Path}
    (h : before.perform (.copy source target) = (.ok (), after)) :
    after.working = before.working ∧
      before.tree.copy before.working source target = .ok after.tree := by
  simp only [World.perform] at h
  split at h
  · next tree htree =>
    obtain ⟨-, rfl⟩ := Prod.mk.inj h
    exact ⟨rfl, htree⟩
  · simp at h

theorem perform_copy_eq_error {source target : Path} {fault : FileFault}
    (h : before.perform (.copy source target) = (.error fault, after)) : after = before := by
  simp only [World.perform] at h
  split at h
  · simp at h
  · exact (Prod.mk.inj h).2.symm

/-- Making the backup folder changes no content, so the copy finds what the backup found. -/
theorem saveOne_ran (folder file : Path) (before : World) :
    Saves folder file before ((saveOne folder file).run before).2
      ((saveOne folder file).run before).1 := by
  unfold saveOne
  rw [Program.run_bind, Program.run_perform]
  split
  · exact .passed rfl fun _ => rfl
  · have hfolders : ∀ location,
        (before.perform (.createFolders folder)).2.tree.content? location =
          before.tree.content? location :=
      Tree.content?_createFolders before.tree before.working folder
    have hworking : (before.perform (.createFolders folder)).2.working = before.working := rfl
    rw [show (before.perform (.kind file)).2 = before from rfl, Program.run_bind,
      Program.run_perform]
    generalize before.perform (.createFolders folder) = made at hfolders hworking
    split
    · next name _ hname =>
      rw [Program.run_bind, Program.run_perform]
      have hplace := Path.place_join (Path.isName_of_fileName? hname) folder before.working
      cases hcopied : made.2.perform (.copy file (folder.join ⟨name⟩)) with
      | mk result after =>
        cases result with
        | error fault =>
          rw [perform_copy_eq_error hcopied]
          exact .passed hworking hfolders
        | ok _ =>
          obtain ⟨hafter, hcopy⟩ := perform_copy_eq_ok hcopied
          rw [hworking] at hafter hcopy
          obtain ⟨bytes, hread, hleft⟩ := Tree.read_copy hcopy
          rw [hplace, hfolders] at hleft
          refine .copied hname hafter (hafter ▸ hread) hleft fun location hl => ?_
          exact (Tree.content?_copy hcopy (hplace ▸ hl)).trans (hfolders location)
    · exact .passed hworking hfolders

namespace Saves

variable {saved : Option Path}

theorem working_eq (h : Saves folder file before after saved) : after.working = before.working := by
  cases h <;> assumption

/-- A copy changes no file that is copied, but for one that stands where its own copy goes. -/
theorem leaves_eq {last : Path} (h : Saves folder file before after saved)
    (hlast : last.fileName? = some name) :
    leaves after (name :: folder.place before.working) last =
      leaves before (name :: folder.place before.working) last := by
  rw [leaves, leaves, h.working_eq]
  split
  · rfl
  · next hne =>
    cases h with
    | passed _ same => exact same _
    | copied _ _ _ _ others =>
      refine others _ fun hmeets => hne ?_
      have hhead := Path.head?_place hlast before.working
      rw [hmeets] at hhead
      rw [hmeets, Option.some.inj hhead]

end Saves

/-- What a run leaves in the files. Under each name the backup folder holds what the last copied file
of that name left there, and nothing else has changed. -/
structure Saved (folder : Path) (made : List Path) (before after : World) : Prop where
  working : after.working = before.working
  held : ∀ file ∈ made, ∃ name, file.fileName? = some name ∧
    (leaves before (name :: folder.place before.working) file).isSome = true
  named : ∀ name, after.tree.content? (name :: folder.place before.working) =
    match lastNamed name made with
    | some last => leaves before (name :: folder.place before.working) last
    | none => before.tree.content? (name :: folder.place before.working)
  others : ∀ location, (∀ name, location ≠ name :: folder.place before.working) →
    after.tree.content? location = before.tree.content? location

namespace Saved

variable {made : List Path} {between : World} {saved : Option Path}

/-- The files that are copied later held the same in the beginning. -/
theorem held_before (hone : Saves folder file before between saved)
    (hrest : Saved folder made between after) :
    ∀ other ∈ made, ∃ name, other.fileName? = some name ∧
      (leaves before (name :: folder.place before.working) other).isSome = true := by
  intro other hother
  obtain ⟨name, hname, hthere⟩ := hrest.held other hother
  rw [hone.working_eq, hone.leaves_eq hname] at hthere
  exact ⟨name, hname, hthere⟩

theorem named_before (hone : Saves folder file before between saved)
    (hrest : Saved folder made between after) (name : Text) :
    after.tree.content? (name :: folder.place before.working) =
      match lastNamed name made with
      | some last => leaves before (name :: folder.place before.working) last
      | none => between.tree.content? (name :: folder.place before.working) := by
  rw [← hone.working_eq, hrest.named name, hone.working_eq]
  cases hlast : lastNamed name made with
  | none => rfl
  | some last => exact hone.leaves_eq (fileName?_of_lastNamed hlast)

/-- One more file in front. Where later files have its name, their last copy stays; else its own does. -/
theorem cons (hone : Saves folder file before between saved)
    (hrest : Saved folder made between after) :
    Saved folder (if saved.isSome then file :: made else made) before after := by
  have hworking := hrest.working.trans hone.working_eq
  have hheld := held_before hone hrest
  have hnamed := named_before hone hrest
  have hothers := hrest.others
  rw [hone.working_eq] at hothers
  cases hone with
  | passed _ same =>
    refine ⟨hworking, hheld, fun name => ?_, fun location hl => ?_⟩
    · rw [hnamed, same]
      rfl
    · exact (hothers location hl).trans (same location)
  | @copied name bytes hname hbetween hread hleft others =>
    refine ⟨hworking, ?_, fun other => ?_, fun location hl => ?_⟩
    · exact List.forall_mem_cons.mpr ⟨⟨name, hname, by rw [hleft]; rfl⟩, hheld⟩
    · rw [hnamed, Option.isSome_some, if_pos rfl, lastNamed_cons]
      cases lastNamed other made with
      | some last => rfl
      | none =>
        by_cases hother : other = name
        · have hcontent := Tree.content?_of_read hread
          rw [hbetween, Path.place_join (Path.isName_of_fileName? hname)] at hcontent
          simp [hother, hname, hcontent, hleft]
        · have hkept := others (other :: folder.place before.working) (by simpa using hother)
          simp [hname, Ne.symm hother, hkept]
    · exact (hothers location hl).trans (others location (hl name))

end Saved

theorem save_cons (folder file : Path) (rest : List Path) (world : World) :
    (save folder (file :: rest)).run world =
      (((saveOne folder file).run world).1.toList ++
          ((save folder rest).run ((saveOne folder file).run world).2).1,
        ((save folder rest).run ((saveOne folder file).run world).2).2) := by
  simp only [save, Program.run_bind, Program.run_pure]

theorem saved_save (folder : Path) (files : List Path) (before : World) :
    Saved folder (copied folder files before) before ((save folder files).run before).2 := by
  induction files generalizing before with
  | nil => exact ⟨rfl, by simp [copied], fun _ => rfl, fun _ _ => rfl⟩
  | cons file rest ih =>
    rw [save_cons]
    exact .cons (saveOne_ran folder file before) (ih _)

theorem sublist_copied (folder : Path) (files : List Path) (before : World) :
    (copied folder files before).Sublist files := by
  induction files generalizing before with
  | nil => exact .slnil
  | cons file rest ih =>
    unfold copied
    dsimp only
    split
    · exact (ih _).cons_cons file
    · exact (ih _).cons file

/-- The paths that a run returns are those of its copies. -/
theorem fst_save (folder : Path) (files : List Path) (before : World) :
    ((save folder files).run before).1 =
      (copied folder files before).flatMap (copyOf folder) := by
  induction files generalizing before with
  | nil => rfl
  | cons file rest ih =>
    have hone := saveOne_ran folder file before
    rw [save_cons, ih, copied]
    generalize (saveOne folder file).run before = ran at hone
    obtain ⟨saved, next⟩ := ran
    cases hone with
    | passed => rfl
    | copied hname => simp [copyOf, hname]

/-- Folders stay, so that a copy that was written is found again. -/
theorem locate_of_mem_save {files : List Path} (h : path ∈ ((save folder files).run before).1) :
    ((save folder files).run before).2.tree.locate before.working path =
      .ok (path.place before.working) := by
  induction files generalizing before with
  | nil => cases h
  | cons file rest ih =>
    have hone := saveOne_ran folder file before
    rw [save_cons] at h ⊢
    generalize (saveOne folder file).run before = ran at h hone ⊢
    obtain ⟨saved, next⟩ := ran
    have hworking : next.working = before.working := hone.working_eq
    rcases List.mem_append.mp h with hfirst | hlater
    · cases hone with
      | passed => cases hfirst
      | @copied name bytes _ _ hread =>
        obtain rfl : path = folder.join ⟨name⟩ := by simpa using hfirst
        obtain ⟨location, hlocate, -⟩ := Tree.read_eq_ok_iff.mp hread
        rw [Tree.place_of_locate hlocate, hworking] at hlocate
        exact (kept_save folder rest next).tree.locate hlocate
    · rw [← hworking]
      exact ih hlater

namespace Saved

variable {made : List Path}

/-- A content stays exactly where the last copy that goes there leaves what was there. -/
theorem content?_eq_iff (h : Saved folder made before after) (location : Location) :
    after.tree.content? location = before.tree.content? location ↔
      ∀ name last, location = name :: folder.place before.working →
        lastNamed name made = some last →
          leaves before location last = before.tree.content? location := by
  by_cases hin : ∃ name, location = name :: folder.place before.working
  · obtain ⟨name, rfl⟩ := hin
    have hnamed := h.named name
    constructor
    · rintro hsame other last hl hlast
      obtain ⟨rfl, -⟩ := List.cons.inj hl
      rw [hlast] at hnamed
      exact hnamed.symm.trans hsame
    · intro hleaves
      rw [hnamed]
      split
      · next last hlast => exact hleaves name last rfl hlast
      · rfl
  · refine iff_of_true (h.others location fun name hl => hin ⟨name, hl⟩) fun name _ hl => ?_
    exact absurd ⟨name, hl⟩ hin

/-- Where a copy stands, the last copied file of its name has left something. -/
theorem exists_last (h : Saved folder made before after)
    (hpath : path ∈ made.flatMap (copyOf folder)) :
    ∃ name last bytes, path = folder.join ⟨name⟩ ∧ lastNamed name made = some last ∧
      leaves before (path.place before.working) last = some bytes ∧
      after.tree.content? (path.place before.working) = some bytes := by
  obtain ⟨file, hfile, hcopy⟩ := List.mem_flatMap.mp hpath
  obtain ⟨name, hname, -⟩ := h.held file hfile
  obtain rfl : path = folder.join ⟨name⟩ := by simpa [copyOf, hname] using hcopy
  have hplace := Path.place_join (Path.isName_of_fileName? hname) folder before.working
  cases hlast : lastNamed name made with
  | none =>
    simp only [lastNamed, List.find?_eq_none, List.mem_reverse, decide_eq_true_eq] at hlast
    exact absurd hname (hlast file hfile)
  | some last =>
    obtain ⟨other, hother, hthere⟩ := h.held last (mem_of_lastNamed hlast)
    obtain rfl : name = other :=
      Option.some.inj ((fileName?_of_lastNamed hlast).symm.trans hother)
    obtain ⟨bytes, hbytes⟩ := Option.isSome_iff_exists.mp hthere
    have hnamed := h.named name
    rw [hlast] at hnamed
    exact ⟨name, last, bytes, rfl, hlast, hplace ▸ hbytes, hplace ▸ hnamed.trans hbytes⟩

end Saved

/-- What backups leave. The paths returned are those of the files that were copied. Each listed file is
left as it was, whether it was copied or not, unless it stands in the backup folder and a copy that
goes to its place brings other bytes; and no copy changes any other file. Each path returned holds what
the last copied file of its name held before, but it is empty if that file stood there itself. -/
theorem save_contents (folder : Path) (files : List Path) (before : World) :
    let ran := (save folder files).run before
    let made := copied folder files before
    made.Sublist files ∧ ran.1 = made.flatMap (copyOf folder) ∧
      (∀ file ∈ files, ran.2.tree.content? (file.place before.working) =
          before.tree.content? (file.place before.working) ↔
        ∀ name last, file.place before.working = name :: folder.place before.working →
          lastNamed name made = some last →
            leaves before (file.place before.working) last =
              before.tree.content? (file.place before.working)) ∧
      (∀ location, location ∉ ran.1.map (Path.place before.working) →
        ran.2.tree.content? location = before.tree.content? location) ∧
      ∀ path ∈ ran.1, ∃ name last bytes, path = folder.join ⟨name⟩ ∧
        lastNamed name made = some last ∧
        ran.2.tree.read ran.2.working path = .ok bytes ∧
        if last.place before.working = path.place before.working then bytes = .empty
        else before.tree.content? (last.place before.working) = some bytes := by
  intro ran made
  have hsaved : Saved folder made before ran.2 := saved_save folder files before
  have hpaths : ran.1 = made.flatMap (copyOf folder) := fst_save folder files before
  refine ⟨sublist_copied folder files before, hpaths, fun file _ => hsaved.content?_eq_iff _,
    fun location hl => (hsaved.content?_eq_iff location).mpr ?_, fun path hpath => ?_⟩
  · rintro name last rfl hlast
    refine absurd (List.mem_map.mpr ⟨folder.join ⟨name⟩, ?_, ?_⟩) hl
    · rw [hpaths]
      exact List.mem_flatMap.mpr
        ⟨last, mem_of_lastNamed hlast, by simp [copyOf, fileName?_of_lastNamed hlast]⟩
    · exact Path.place_join (Path.isName_of_fileName? (fileName?_of_lastNamed hlast)) _ _
  · obtain ⟨name, last, bytes, hname, hlast, hleft, hcontent⟩ :=
      hsaved.exists_last (hpaths ▸ hpath)
    have hlocate : ran.2.tree.locate before.working path = _ := locate_of_mem_save hpath
    refine ⟨name, last, bytes, hname, hlast, ?_, ?_⟩
    · rw [hsaved.working]
      exact Tree.read_eq_ok_iff.mpr ⟨_, hlocate, Tree.content?_eq_some_iff.mp hcontent⟩
    · unfold leaves at hleft
      split at hleft
      · next hsame => rw [if_pos hsame]; exact (Option.some.inj hleft).symm
      · next hother => rw [if_neg hother]; exact hleft

section sample

/-- A machine with two files of one name in the folders `a` and `b`, and one in the folder `c`. -/
def pagesWorld : World where
  tree := ⟨.ofList [(["a".toList], .folder), (["b".toList], .folder), (["c".toList], .folder),
    (["p".toList, "a".toList], .file "1".toUTF8),
    (["p".toList, "b".toList], .file "2".toUTF8),
    (["q".toList, "c".toList], .file "3".toUTF8)]⟩
  working := []
  input := []
  output := []
  errors := []
  service := fun _ _ _ => .error .network
  calls := []
  time := ⟨0⟩

end sample

theorem save_contents_pages :
    let before := pagesWorld
    let ran := (save ⟨"c".toList⟩ [⟨"a/p".toList⟩, ⟨"b/p".toList⟩]).run before
    ran.2.tree.content? ["p".toList, "a".toList] = some "1".toUTF8 ∧
      ran.2.tree.content? ["q".toList, "c".toList] = some "3".toUTF8 ∧
      ran.2.tree.read ran.2.working ⟨"c/p".toList⟩ = .ok "2".toUTF8 := by
  intro before ran
  have hpaths : ran.1 = [⟨"c/p".toList⟩, ⟨"c/p".toList⟩] := by decide +kernel
  have hplaces : (⟨"a/p".toList⟩ : Path).place before.working = ["p".toList, "a".toList] ∧
      (⟨"c".toList⟩ : Path).place before.working = ["c".toList] ∧
      ran.1.map (Path.place before.working) =
        [["p".toList, "c".toList], ["p".toList, "c".toList]] := by
    rw [hpaths]
    decide
  obtain ⟨ha, hc, hwritten⟩ := hplaces
  have hall := save_contents ⟨"c".toList⟩ [⟨"a/p".toList⟩, ⟨"b/p".toList⟩] before
  -- From here on the run is known by what was proved of it only.
  rw [show (save ⟨"c".toList⟩ [⟨"a/p".toList⟩, ⟨"b/p".toList⟩]).run before = ran from rfl] at hall
  clear_value ran
  obtain ⟨-, -, hfiles, hothers, hcopies⟩ := hall
  have hfirst := hfiles ⟨"a/p".toList⟩ List.mem_cons_self
  rw [ha, hc] at hfirst
  have hq := hothers ["q".toList, "c".toList] (by rw [hwritten]; decide)
  obtain ⟨name, last, bytes, hname, hlast, hread, hbytes⟩ :=
    hcopies ⟨"c/p".toList⟩ (hpaths ▸ List.mem_cons_self)
  have hp : ⟨"c/p".toList⟩ = (⟨"c".toList⟩ : Path).join ⟨"p".toList⟩ := by decide
  have hslash : '/' ∉ name :=
    (Path.isName_of_fileName? (fileName?_of_lastNamed hlast)).no_slash
  obtain rfl : "p".toList = name := Path.join_inj (by decide) hslash (hp.symm.trans hname)
  have hb : lastNamed "p".toList (copied ⟨"c".toList⟩ [⟨"a/p".toList⟩, ⟨"b/p".toList⟩] before) =
      some ⟨"b/p".toList⟩ := by decide +kernel
  obtain rfl : ⟨"b/p".toList⟩ = last := Option.some.inj (hb.symm.trans hlast)
  rw [if_neg (by decide)] at hbytes
  obtain rfl : "2".toUTF8 = bytes := Option.some.inj hbytes
  have hkept : ran.2.tree.content? ["p".toList, "a".toList] = _ :=
    hfirst.mpr fun name last hl => absurd (List.cons.inj hl).2 (by decide)
  have hone : before.tree.content? ["p".toList, "a".toList] = some "1".toUTF8 := rfl
  have hthree : before.tree.content? ["q".toList, "c".toList] = some "3".toUTF8 := rfl
  exact ⟨hkept.trans hone, hq.trans hthree, hread⟩

/-- A file in the backup folder is copied onto itself and emptied. -/
theorem save_empties :
    let page : Path := ⟨"c/q".toList⟩
    let ran := (save ⟨"c".toList⟩ [page]).run pagesWorld
    pagesWorld.text? page = some "3".toList ∧ ran.1 = [page] ∧ ran.2.text? page = some [] := by
  decide +kernel

end MessageKeys.Backup
