import MessageKeys.LanguageFile
import MessageKeys.Proofs.Files.Contents

/-!
# What loading the languages file changes

Where the path of the languages file leads to something, loading only looks at it. Else the file with
the default languages is written before it is read. That the path leads to nothing does not mean
that its place is empty: it may lead through a folder that is missing and is made for the write.
-/
namespace MessageKeys.LanguageFile

variable {γ : Type} {view : World → γ} {path : Path} {before after : World} {location : Location}

/-- Reads the languages of a file that is there. -/
def read (path : Path) : Procedure (List Language) := do
  let document ← TextFile.read ("Failed to read languages file: ".toList ++ path.text) path
  Procedure.within ("Failed to parse languages file: ".toList ++ path.text)
    (Procedure.ofExcept (parse document))

theorem keeps_read (path : Path) : Program.Keeps view (read path).run :=
  .bindRun (TextFile.keeps_read _ path) fun _ => .within (.ofExcept _)

theorem keeps_write (hview : World.Spared view [path]) (languages : List Language) :
    Program.Keeps view (write path languages).run := by
  unfold write
  split
  · exact .bindRun (TextFile.keeps_makeParent (hview.mono (List.nil_subset _)) path) fun _ =>
      TextFile.keeps_write hview _ _
  · exact TextFile.keeps_write hview _ _

theorem keeps_load (hview : World.Spared view [path]) : Program.Keeps view (load path).run := by
  refine .bindRun (.lift (TextFile.keeps_isThere path)) fun there => ?_
  split
  · exact .bindRun (keeps_write hview _) fun _ => keeps_read path
  · exact keeps_read path

/-- Whether the default languages were put at a location because the path of the languages file led to
nothing. What was at the location is lost only where the path could not be followed at all. -/
structure Created (path : Path) (before after : World) (location : Location) : Prop where
  place : location = path.place before.working
  missing : before.tree.kind? before.working path = none
  earlier : before.tree.content? location = none ∨
    ∃ fault, before.tree.locate before.working path = .error fault
  content : after.tree.content? location = some (render Language.defaults).toBytes

/-- Writing the languages changes no content but that of their file, if a failing write leaves the
files. -/
theorem content?_of_write {languages : List Language} {result : Except Failure Unit}
    (hran : (write path languages).runOn before = (result, after))
    (hclean : before.tree.FailsCleanly)
    (hchange : after.tree.content? location ≠ before.tree.content? location) :
    location = path.place before.working ∧
      after.tree.content? location = some (render languages).toBytes := by
  unfold write at hran
  split at hran
  · exact (TextFile.content?_of_prepared (TextFile.writesOnly_makeParent path) hran hclean hchange).2
  · have hnothing : Program.WritesOnly [] (pure () : Procedure Unit).run := fun _ => .pure _
    exact (TextFile.content?_of_prepared hnothing hran hclean hchange).2

/-- A file that was written can be read, and holds the languages. -/
theorem text?_of_write {languages : List Language}
    (h : (write path languages).runOn before = (.ok (), after)) :
    after.text? path = some (render languages) ∧
      after.tree.content? (path.place before.working) = some (render languages).toBytes := by
  have htext : after.text? path = some (render languages) := by
    unfold write at h
    split at h
    · obtain ⟨_, made, -, hwrote⟩ := Procedure.runOn_bind_eq_ok.mp h
      exact (TextFile.write_eq_ok hwrote).2
    · exact (TextFile.write_eq_ok h).2
  have hwrites : Program.WritesOnly [path] (write path languages).run :=
    fun location => keeps_write (World.spared_aside [path] location) languages
  refine ⟨htext, ?_⟩
  rw [← (hwrites.ran h).1]
  exact World.content?_of_text? htext

theorem parse_render_defaults : parse (render Language.defaults) = .ok Language.defaults := by
  decide +kernel

/-- Where the file is missing and can be made, the default languages are loaded. -/
theorem load_of_missing (hmissing : before.tree.kind? before.working path = none)
    (hwrite : (write path Language.defaults).runOn before = (.ok (), after)) :
    (load path).runOn before = (.ok Language.defaults, after) := by
  rw [load, Procedure.runOn_liftM_bind, TextFile.isThere_run, hmissing]
  refine Procedure.runOn_bind_eq_ok.mpr ⟨(), after, hwrite, ?_⟩
  refine Procedure.runOn_bind_eq_ok.mpr ⟨_, after,
    TextFile.read_eq_ok.mpr ⟨rfl, (text?_of_write hwrite).1⟩, ?_⟩
  rw [parse_render_defaults]
  rfl

/-- Whatever comes of it, loading the languages changes no content but by making their file, if a
failing write leaves the files. -/
theorem created_of_load {result : Except Failure (List Language)}
    (hran : (load path).runOn before = (result, after)) (hclean : before.tree.FailsCleanly)
    (hchange : after.tree.content? location ≠ before.tree.content? location) :
    Created path before after location := by
  have hlooks : Program.Looks (read path).run := keeps_read path
  rw [load, Procedure.runOn_liftM_bind, TextFile.isThere_run] at hran
  cases hkind : before.tree.kind? before.working path with
  | some kind =>
    rw [hkind] at hran
    exact absurd (by rw [hlooks.ran hran]) hchange
  | none =>
    rw [hkind] at hran
    change (write path Language.defaults >>= fun _ => read path).runOn before = _ at hran
    obtain rfl : after = ((write path Language.defaults).runOn before).2 := by
      rw [← Procedure.snd_runOn_bind_of_looks (fun _ => hlooks), hran]
    obtain ⟨hplace, hcontent⟩ := content?_of_write (Prod.eta _).symm hclean hchange
    refine ⟨hplace, hkind, ?_, hcontent⟩
    cases hl : before.tree.locate before.working path with
    | error fault => exact .inr ⟨fault, rfl⟩
    | ok found =>
      rw [hplace, ← Tree.place_of_locate hl]
      exact .inl (Tree.content?_of_missing hl hkind)

end MessageKeys.LanguageFile
