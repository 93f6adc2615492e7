import MessageKeys.KeyFile
import MessageKeys.Proofs.Backup

/-!
# What work on files leaves alone

Looking at files changes nothing. Writing them changes nothing but the file tree, successful or not:
the input is left to the questions and the service is not asked. Of the files only those named by
the paths that are written can change.
-/
namespace MessageKeys

variable {α γ : Type} {view : World → γ}

/-- Whether an effect only looks at the machine. -/
def Effect.looks : Effect α → Bool
  | .workingFolder | .kind _ | .read _ | .children _ | .now => true
  | _ => false

/-- Whether an effect is on files. -/
def Effect.onFiles : Effect α → Bool
  | .kind _ | .read _ | .write _ _ | .createFolders _ | .copy _ _ | .children _ => true
  | _ => false

/-- The files that an effect writes. -/
def Effect.targets : Effect α → List Path
  | .write path _ => [path]
  | .copy _ target => [target]
  | _ => []

namespace World

/-- Whether the file tree has no say in what `view` shows of a world. -/
def OffTree (view : World → γ) : Prop :=
  ∀ world tree, view { world with tree } = view world

/-- Whether work on files that writes no others than these leaves what `view` shows of a world. -/
def Spared (view : World → γ) (paths : List Path) : Prop :=
  ∀ {β : Type} (effect : Effect β), effect.onFiles = true → effect.targets ⊆ paths →
    Program.Keeps view (Program.perform effect)

theorem OffTree.spared (h : OffTree view) (paths : List Path) : Spared view paths := by
  intro β effect hfiles _ world
  rw [Program.run_perform]
  cases effect with
  | kind path => rfl
  | read path => rfl
  | children path => rfl
  | createFolders path => exact h world _
  | write path content =>
    simp only [World.perform]
    split <;> exact h world _
  | copy source target =>
    simp only [World.perform]
    split
    · exact h world _
    · rfl
  | _ => cases hfiles

theorem Spared.mono {paths more : List Path} (h : Spared view more) (hp : paths ⊆ more) :
    Spared view paths :=
  fun effect hfiles ht => h effect hfiles (List.Subset.trans ht hp)

end World

theorem Program.Keeps.looking {effect : Effect α} (h : effect.looks = true) :
    Keeps view (Program.perform effect) := by
  intro world
  cases effect with
  | workingFolder => rfl
  | kind path => rfl
  | read path => rfl
  | children path => rfl
  | now => rfl
  | _ => cases h

namespace Backup

theorem keeps_saveOne (folder file : Path) (hview : World.Spared view (copyOf folder file)) :
    Program.Keeps view (saveOne folder file) := by
  refine .bind (.looking rfl) fun kind => ?_
  cases kind with
  | none => exact .pure _
  | some kind =>
    refine .bind (hview _ rfl (by simp [Effect.targets])) fun made => ?_
    split
    · next name _ hname =>
      refine .bind (hview _ rfl (by simp [Effect.targets, copyOf, hname])) fun copied => ?_
      split <;> exact .pure _
    · exact .pure _

theorem keeps_save (folder : Path) (files : List Path)
    (hview : World.Spared view (files.flatMap (copyOf folder))) :
    Program.Keeps view (save folder files) := by
  induction files with
  | nil => exact .pure _
  | cons file rest ih =>
    rw [List.flatMap_cons] at hview
    exact .bind (keeps_saveOne folder file (hview.mono (List.subset_append_left _ _))) fun _ =>
      .bind (ih (hview.mono (List.subset_append_right _ _))) fun _ => .pure _

end Backup

namespace TextFile

theorem keeps_isThere (path : Path) : Program.Keeps view (isThere path) :=
  .bind (.looking rfl) fun _ => .pure _

theorem keeps_read (step : Text) (path : Path) : Program.Keeps view (read step path).run := by
  refine .bindRun (.inStep (.looking rfl)) fun bytes => ?_
  split <;> exact .pure _

theorem keeps_write {path : Path} (hview : World.Spared view [path]) (step content : Text) :
    Program.Keeps view (write step path content).run :=
  .inStep (hview _ rfl (by simp [Effect.targets]))

theorem keeps_makeParent (hview : World.Spared view []) (path : Path) :
    Program.Keeps view (makeParent path).run := by
  unfold makeParent
  split
  · exact .inStep (hview _ rfl (by simp [Effect.targets]))
  · exact .pure _

end TextFile

namespace PropertyFile

theorem keeps_read (path : Path) : Program.Keeps view (read path).run :=
  .bindRun (TextFile.keeps_read _ path) fun _ => .pure _

theorem keeps_read? (path : Path) : Program.Keeps view (read? path).run := by
  refine .bindRun (.bind (TextFile.keeps_isThere path) fun _ => .pure _) fun there => ?_
  split
  · exact .bindRun (keeps_read path) fun _ => .pure _
  · exact .pure _

theorem keeps_readEntries (path : Path) : Program.Keeps view (readEntries path).run :=
  .bindRun (keeps_read? path) fun _ => .pure _

theorem keeps_write {path : Path} (hview : World.Spared view [path])
    (lines : List Properties.Line) : Program.Keeps view (write path lines).run :=
  .bindRun (TextFile.keeps_makeParent (hview.mono (List.nil_subset _)) path) fun _ =>
    TextFile.keeps_write hview _ _

end PropertyFile

theorem KeyFile.keeps_write {path : Path} (hview : World.Spared view [path]) (plugin : Plugin)
    (base : Text) (locale : Locale) (messages : Messages) :
    Program.Keeps view (write plugin path base locale messages).run :=
  .bindRun (TextFile.keeps_makeParent (hview.mono (List.nil_subset _)) path) fun _ =>
    .bindRun (PropertyFile.keeps_readEntries path) fun _ =>
      .bindRun (TextFile.keeps_write hview _ _) fun _ => .pure _

end MessageKeys
