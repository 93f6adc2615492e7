import MessageKeys.Proofs.FileWork
import MessageKeys.Proofs.Files.Tree

/-!
# What the files of a tree hold

A location has a content if a file stands there. Making folders changes no content, and writing a
file changes the content of its own place only. So a program changes only the contents at the places
of the files it writes, however it ends.
-/
namespace MessageKeys

variable {α : Type} {tree before after : Tree} {working location : Location} {path : Path}
  {content : ByteArray} {paths : List Path}

namespace Tree

/-- The content of the file at a location, if there is one. -/
def content? (tree : Tree) (location : Location) : Option ByteArray :=
  match tree.node? location with
  | some (.file content) => some content
  | _ => none

theorem content?_eq_some_iff :
    tree.content? location = some content ↔ tree.node? location = some (.file content) := by
  unfold content?
  cases tree.node? location with
  | none => simp
  | some node => cases node <;> simp

theorem content?_congr (h : after.node? location = before.node? location) :
    after.content? location = before.content? location := by
  rw [content?, content?, h]

theorem content?_of_read (h : tree.read working path = .ok content) :
    tree.content? (path.place working) = some content := by
  obtain ⟨location, hl, hn⟩ := read_eq_ok_iff.mp h
  rw [place_of_locate hl] at hn
  exact content?_eq_some_iff.mpr hn

/-- Where a path leads to nothing, nothing is lost. -/
theorem content?_of_missing (hl : tree.locate working path = .ok location)
    (hmissing : tree.kind? working path = none) : tree.content? location = none := by
  cases hn : tree.node? location with
  | none => simp [content?, hn]
  | some node => simp [kind?, lookup, hl, hn, bind, Except.bind, Except.toOption] at hmissing

theorem content?_put_file {other : Location} (h : other ≠ location) :
    (tree.put location (.file content)).content? other = tree.content? other := by
  apply content?_congr
  rw [node?_put, if_neg]
  exact fun hc => h hc.1

/-- Where nothing stands, a folder has no content either. -/
theorem content?_put_folder (h : tree.node? location = none) (other : Location) :
    (tree.put location .folder).content? other = tree.content? other := by
  by_cases hc : other = location ∧ location ≠ []
  · obtain ⟨rfl, hne⟩ := hc
    rw [content?, node?_put, if_pos ⟨rfl, hne⟩, content?, h]
  · apply content?_congr
    rw [node?_put, if_neg hc]

theorem content?_write (h : before.write working path content = .ok after)
    (hl : location ≠ path.place working) : after.content? location = before.content? location := by
  obtain ⟨place, hp, -, rfl⟩ := write_eq_ok h
  rw [← place_of_locate hp] at hl
  exact content?_put_file hl

theorem content?_spoil (tree : Tree) (hl : location ≠ path.place working) :
    (tree.spoil working path).content? location = tree.content? location := by
  rcases spoil_cases tree working path with h | ⟨refusal, left, -, -, h⟩
  · rw [h]
  · rw [h]
    exact content?_put_file hl

theorem content?_createFolder (h : before.createFolder working path = .ok after)
    (location : Location) : after.content? location = before.content? location := by
  obtain ⟨place, hn, rfl⟩ := createFolder_eq_ok h
  exact content?_put_folder hn location

theorem content?_createFolders (tree : Tree) (working : Location) (path : Path)
    (location : Location) :
    (tree.createFolders working path).2.content? location = tree.content? location :=
  createFrom_keeps (fun ht hm => (content?_createFolder hm location).trans ht) rfl path.ancestors

theorem content?_copy {source target : Path} (h : before.copy working source target = .ok after)
    (hl : location ≠ target.place working) :
    after.content? location = before.content? location := by
  obtain ⟨emptied, content, he, -, hw⟩ := copy_eq_ok h
  exact (content?_write hw hl).trans (content?_write he hl)

/-- A copy holds what its source held, unless both stand in one place. -/
theorem read_copy {source target : Path} (h : before.copy working source target = .ok after) :
    ∃ content, after.read working target = .ok content ∧
      (if source.place working = target.place working then some .empty
        else before.content? (source.place working)) = some content := by
  obtain ⟨emptied, content, he, hc, hw⟩ := copy_eq_ok h
  refine ⟨content, read_write hw, ?_⟩
  have hsource := content?_of_read hc
  split
  · next hsame =>
    rw [hsame, content?_of_read (read_write he)] at hsource
    exact hsource
  · next hother => rw [← hsource, content?_write he hother]

end Tree

/-- A text is spelled by one sequence of bytes only. -/
theorem Text.toBytes_of_ofBytes? {bytes : ByteArray} {text : Text} (h : ofBytes? bytes = some text) :
    bytes = text.toBytes := by
  unfold ofBytes? String.fromUTF8? at h
  split at h
  · next hv =>
    obtain rfl : (String.fromUTF8 bytes hv).toList = text := Option.some.inj h
    rw [toBytes, String.ofList_toList]
    rfl
  · cases h

namespace World

theorem content?_of_text? {world : World} {text : Text} (h : world.text? path = some text) :
    world.tree.content? (path.place world.working) = some text.toBytes := by
  obtain ⟨location, bytes, hl, hn, hb⟩ := text?_eq_some_iff.mp h
  rw [Tree.place_of_locate hl, Text.toBytes_of_ofBytes? hb] at hn
  exact Tree.content?_eq_some_iff.mpr hn

/-- What a world holds at a location, unless one of the paths leads there. The working folder stays
in view, for the places of the paths depend on it. -/
def aside (paths : List Path) (location : Location) (world : World) :
    Location × Option ByteArray :=
  (world.working,
    if (paths.map (Path.place world.working)).contains location then none
    else world.tree.content? location)

theorem aside_congr {world : World} {after : Tree}
    (h : location ∉ paths.map (Path.place world.working) →
      after.content? location = world.tree.content? location) :
    aside paths location { world with tree := after } = aside paths location world := by
  unfold aside
  split
  · rfl
  · next hl => rw [h (by simpa using hl)]

theorem content?_of_aside {before after : World}
    (h : aside paths location after = aside paths location before)
    (hl : location ∉ paths.map (Path.place before.working)) :
    after.tree.content? location = before.tree.content? location := by
  have hworking : after.working = before.working := congrArg Prod.fst h
  have hcontent := congrArg Prod.snd h
  unfold aside at hcontent
  rw [hworking] at hcontent
  simpa [hl] using hcontent

/-- Work on files leaves what stands aside from the files that it writes. -/
theorem spared_aside (paths : List Path) (location : Location) :
    Spared (aside paths location) paths := by
  intro β effect hfiles htargets world
  rw [Program.run_perform]
  cases effect with
  | kind path => rfl
  | read path => rfl
  | children path => rfl
  | createFolders path =>
    exact aside_congr fun _ => Tree.content?_createFolders world.tree world.working path location
  | write path content =>
    have hpath : path ∈ paths := htargets (by simp [Effect.targets])
    have hplace (hl : location ∉ paths.map (Path.place world.working)) :
        location ≠ path.place world.working := fun he => hl (he ▸ List.mem_map_of_mem hpath)
    simp only [World.perform]
    split
    · next tree ht => exact aside_congr fun hl => Tree.content?_write ht (hplace hl)
    · exact aside_congr fun hl => Tree.content?_spoil world.tree (hplace hl)
  | copy source target =>
    have hpath : target ∈ paths := htargets (by simp [Effect.targets])
    simp only [World.perform]
    split
    · next tree ht =>
      refine aside_congr fun hl => Tree.content?_copy ht fun he => hl ?_
      exact he ▸ List.mem_map_of_mem hpath
    · rfl
  | _ => cases hfiles

end World

/-- Whether a program changes the contents of no other files than these. -/
def Program.WritesOnly (paths : List Path) (program : Program α) : Prop :=
  ∀ location, Program.Keeps (World.aside paths location) program

namespace Program.WritesOnly

variable {program : Program α}

theorem working_eq (h : WritesOnly paths program) (world : World) :
    (program.run world).2.working = world.working :=
  congrArg Prod.fst (h [] world)

theorem content? (h : WritesOnly paths program) (world : World)
    (hl : location ∉ paths.map (Path.place world.working)) :
    (program.run world).2.tree.content? location = world.tree.content? location :=
  World.content?_of_aside (h location world) hl

theorem ran {procedure : Procedure α} {result : Except Failure α} {world after : World}
    (h : WritesOnly paths procedure.run) (hran : procedure.runOn world = (result, after)) :
    after.working = world.working ∧
      ∀ location, location ∉ paths.map (Path.place world.working) →
        after.tree.content? location = world.tree.content? location := by
  obtain rfl : (procedure.runOn world).2 = after := by rw [hran]
  exact ⟨h.working_eq world, fun location hl => h.content? world hl⟩

end Program.WritesOnly

namespace TextFile

variable {before after : World} {step content : Text} {failure : Failure}

/-- A write that fails changes nothing, if it leaves the file as it is. -/
theorem write_eq_error (h : (write step path content).runOn before = (.error failure, after))
    (hclean : before.tree.FailsCleanly) : after = before := by
  obtain ⟨fault, hran, -⟩ := Procedure.runOn_inStep_eq_error.mp h
  rw [World.perform] at hran
  split at hran
  · cases hran
  · rw [Tree.spoil_of_failsCleanly hclean] at hran
    exact (Prod.mk.inj hran).2.symm

theorem writesOnly_write (step : Text) (path : Path) (content : Text) :
    Program.WritesOnly [path] (write step path content).run :=
  fun location => keeps_write (World.spared_aside [path] location) step content

theorem writesOnly_makeParent (path : Path) : Program.WritesOnly [] (makeParent path).run :=
  fun location => keeps_makeParent (World.spared_aside [] location) path

/-- Behind a step that leaves all contents, a write changes a content only if it succeeds, and then it
is that of the file that is written. -/
theorem content?_of_prepared {first : Procedure Unit} {result : Except Failure Unit}
    {location : Location} (hfirst : Program.WritesOnly [] first.run)
    (hran : (first >>= fun _ => write step path content).runOn before = (result, after))
    (hclean : before.tree.FailsCleanly)
    (hchange : after.tree.content? location ≠ before.tree.content? location) :
    result = .ok () ∧ location = path.place before.working ∧
      after.tree.content? location = some content.toBytes := by
  cases result with
  | error failure =>
    rcases Procedure.runOn_bind_eq_error.mp hran with h | ⟨_, between, h, hwrite⟩
    · exact absurd ((hfirst.ran h).2 location (by simp)) hchange
    · rw [write_eq_error hwrite (Procedure.failsCleanly h hclean)] at hchange
      exact absurd ((hfirst.ran h).2 location (by simp)) hchange
  | ok _ =>
    obtain ⟨_, between, h, hwrite⟩ := Procedure.runOn_bind_eq_ok.mp hran
    obtain ⟨hworking, hcontents⟩ := hfirst.ran h
    obtain ⟨hwritten, htext⟩ := write_eq_ok hwrite
    have hplace : location = path.place before.working := by
      by_contra hl
      have hothers := ((writesOnly_write step path content).ran hwrite).2 location
        (by simpa [hworking] using hl)
      exact hchange (hothers.trans (hcontents location (by simp)))
    refine ⟨rfl, hplace, ?_⟩
    have hnew := World.content?_of_text? htext
    rwa [hwritten.working, hworking, ← hplace] at hnew

end TextFile

/-- A property file that cannot be written leaves all contents. -/
theorem PropertyFile.content?_of_write_eq_error {before after : World} {failure : Failure}
    {lines : List Properties.Line}
    (h : (write path lines).runOn before = (.error failure, after))
    (hclean : before.tree.FailsCleanly) (location : Location) :
    after.tree.content? location = before.tree.content? location := by
  by_contra hchange
  cases (TextFile.content?_of_prepared (TextFile.writesOnly_makeParent path) h hclean hchange).1

end MessageKeys
