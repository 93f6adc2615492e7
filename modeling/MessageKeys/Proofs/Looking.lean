import MessageKeys.Plugin
import MessageKeys.Project
import MessageKeys.Proofs.FileWork
import MessageKeys.SourceFiles

/-!
# What only looks

Before a command works on files it finds the settings, the plugin and the sources. All of this only
looks at the machine, so a run that breaks off there has changed nothing.
-/
namespace MessageKeys

variable {γ : Type} {view : World → γ}

namespace TextFile

theorem keeps_isFile (path : Path) : Program.Keeps view (isFile path) :=
  .bind (.looking rfl) fun _ => .pure _

theorem keeps_isFolder (path : Path) : Program.Keeps view (isFolder path) :=
  .bind (.looking rfl) fun _ => .pure _

end TextFile

namespace Settings

theorem keeps_search (folders : List Path) : Program.Keeps view (search folders) := by
  induction folders with
  | nil => exact .pure _
  | cons folder above ih =>
    refine .bind (TextFile.keeps_isThere _) fun there => ?_
    split
    · exact .pure _
    · refine .bind (TextFile.keeps_isThere _) fun top => ?_
      split
      · exact .pure _
      · exact ih

theorem keeps_load (folder : Path) : Program.Keeps view (load folder).run := by
  refine .bindRun (.lift (keeps_search _)) fun found => ?_
  cases found with
  | none => exact .pure _
  | some path =>
    exact .bindRun (TextFile.keeps_read _ path) fun document =>
      .bindRun (.within (.ofExcept _)) fun settings =>
        .bindRun (.ofExcept _) fun _ => .pure _

end Settings

theorem Project.keeps_load (keysFolder : Option Text) : Program.Keeps view (load keysFolder).run :=
  .bindRun (.lift (.looking rfl)) fun working =>
    .bindRun (Settings.keeps_load working) fun _ => .pure _

theorem Plugin.keeps_load (path : Path) : Program.Keeps view (load path).run :=
  .bindRun (TextFile.keeps_read _ path) fun _ => .within (.ofExcept _)

namespace Pattern

theorem keeps_found (foldersOnly : Bool) (path : Path) :
    Program.Keeps view (found foldersOnly path) := by
  unfold found
  split
  · exact .bind (TextFile.keeps_isFolder path) fun _ => .pure _
  · exact .pure _

theorem keeps_sortedChildren (path : Path) : Program.Keeps view (sortedChildren path) :=
  .bind (.looking rfl) fun _ => .pure _

/-- Both halves of the search only look; the induction is on the steps that may still be taken. -/
theorem keeps_search (foldersOnly : Bool) (depth : Nat) :
    (∀ steps path, Program.Keeps view (below foldersOnly depth steps path)) ∧
      ∀ steps path name, Program.Keeps view (candidate foldersOnly depth steps path name) := by
  induction depth with
  | zero =>
    refine ⟨fun steps path => ?_, fun steps path name => ?_⟩
    · rw [below]
      exact .pure _
    · rw [candidate]
      exact .pure _
  | succ depth ih =>
    obtain ⟨hbelow, hcandidate⟩ := ih
    have hadd (rest : List (List Token)) (next : Path) : Program.Keeps view
        (if rest.isEmpty then found foldersOnly next else below foldersOnly depth rest next) :=
      .ite (keeps_found foldersOnly next) (hbelow rest next)
    refine ⟨fun steps path => ?_, fun steps path name => ?_⟩
    · cases steps with
      | nil => exact fun _ => rfl
      | cons step rest =>
        rw [below]
        dsimp only
        split
        · next known _ =>
          have hreached (reached : Bool) : Program.Keeps view
              (if reached then (if rest.isEmpty then found foldersOnly (child path known)
                else below foldersOnly depth rest (child path known)) else pure []) :=
            .ite (hadd rest _) (.pure _)
          exact .ite (.bind (TextFile.keeps_isFolder path) hreached)
            (.bind (TextFile.keeps_isThere _) hreached)
        · refine .bind (TextFile.keeps_isFolder path) fun folder => .ite ?_ (.pure _)
          exact .bind (keeps_sortedChildren path) fun children =>
            .bind (.mapM (fun name => hadd rest _) _) fun special =>
              .bind (.mapM (fun child => hcandidate _ _ _) _) fun inside => .pure _
    · cases steps with
      | nil => exact fun _ => rfl
      | cons step rest =>
        have hmatched (step : List Token) (rest : List (List Token)) : Program.Keeps view
            (if matchesName step name then
              (if rest.isEmpty then found foldersOnly path else below foldersOnly depth rest path)
              else pure []) :=
          .ite (hadd rest path) (.pure _)
        rw [candidate]
        refine .ite ?_ (hmatched step rest)
        generalize rest.dropWhile isRecursive = after
        have hinside (own : List Path) : Program.Keeps view (do
            return own ++ (← below foldersOnly depth (step :: after) path)) :=
          .bind (hbelow _ path) fun inside => .pure _
        refine .bind (TextFile.keeps_isFolder path) fun folder => ?_
        cases after with
        | nil =>
          exact .ite (.ite (.bind (.pure _) hinside) (.bind (.pure _) hinside))
            (.ite (.pure _) (.pure _))
        | cons next others =>
          exact .ite (.ite (.bind (.pure _) hinside) (.bind (hmatched next others) hinside))
            (.ite (.pure _) (hmatched next others))

theorem keeps_expand (pattern : Pattern) : Program.Keeps view pattern.expand :=
  (keeps_search pattern.foldersOnly _).1 _ _

end Pattern

namespace SourceFiles

theorem keeps_matching (written : Text) : Program.Keeps view (matching written).run := by
  unfold matching
  split
  · exact .pure _
  · next pattern _ =>
    refine .bindRun (.lift (Pattern.keeps_expand pattern)) fun paths => .bindRun (.filterMapM
      (fun path => .bindRun (.lift (TextFile.keeps_isFile path)) fun _ => .pure _) paths) fun files => ?_
    split <;> exact .pure _

theorem keeps_named (written : Text) : Program.Keeps view (named written).run := by
  unfold named
  split
  · exact keeps_matching written
  · refine .bindRun (.lift (TextFile.keeps_isFile _)) fun file => ?_
    split <;> exact .pure _

theorem keeps_expand (words : List Text) : Program.Keeps view (expand words).run := by
  have hfrom (paths : List Path) : Program.Keeps view (expandFrom paths words).run := by
    induction words generalizing paths with
    | nil => exact .pure _
    | cons written rest ih => exact .bindRun (keeps_named written) fun _ => ih _
  exact hfrom []

end SourceFiles

end MessageKeys
