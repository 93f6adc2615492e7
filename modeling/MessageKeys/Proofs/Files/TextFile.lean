import MessageKeys.Files.PropertyFile
import MessageKeys.Proofs.Files.Tree
import MessageKeys.Proofs.Program
import MessageKeys.Proofs.Properties

/-!
# Files in runs

A run that succeeds read what stood in its files, changed only those that it wrote, and left in them
what it wrote last. A failure names the file that could not be read or written, or the folder that
could not be made for it.
-/
namespace MessageKeys

variable {α : Type} {world before after : World} {path : Path} {step content : Text}
  {written : List Location} {failure : Failure}

section refusals

theorem World.refusals_perform (world : World) (effect : Effect α) :
    (world.perform effect).2.tree.refusals = world.tree.refusals := by
  cases effect with
  | write path content =>
    simp only [perform]
    split
    · next tree ht => exact Tree.refusals_write ht
    · exact Tree.refusals_spoil world.tree world.working path
  | createFolders path => exact Tree.refusals_createFolders world.tree world.working path
  | copy source target =>
    simp only [perform]
    split
    · next tree ht => exact Tree.refusals_copy ht
    · rfl
  | _ => rfl

/-- What is refused stays refused, and nothing else is, whatever a program does. -/
theorem Program.keeps_refusals (program : Program α) :
    Keeps (fun world => world.tree.refusals) program := by
  intro world
  induction program generalizing world with
  | pure value => rfl
  | request effect next ih => exact (ih _ _).trans (world.refusals_perform effect)

theorem Procedure.refusal?_eq {procedure : Procedure α} {result : Except Failure α}
    (hran : procedure.runOn before = (result, after)) (location : Location) :
    after.tree.refusal? location = before.tree.refusal? location :=
  Tree.refusal?_congr (procedure.run.keeps_refusals.ran hran) location

/-- If failing writes leave the files, they do so behind each step. -/
theorem Procedure.failsCleanly {procedure : Procedure α} {result : Except Failure α}
    (hran : procedure.runOn before = (result, after)) (h : before.tree.FailsCleanly) :
    after.tree.FailsCleanly :=
  h.congr (procedure.run.keeps_refusals.ran hran)

end refusals

namespace World

/-- The same working folder, and a tree that has only the given places written over. -/
structure Kept (written : List Location) (before after : World) : Prop where
  working : after.working = before.working
  tree : Tree.Kept written before.tree after.tree

/-- The text of a file, if it is there and is UTF-8. -/
def text? (world : World) (path : Path) : Option Text :=
  (world.tree.read world.working path).toOption.bind Text.ofBytes?

namespace Kept

variable {more : List Location}

theorem refl (world : World) : Kept written world world :=
  ⟨rfl, .refl world.tree⟩

theorem trans {between : World} (ha : Kept written before between) (hb : Kept more between after) :
    Kept (written ++ more) before after :=
  ⟨hb.working.trans ha.working, ha.tree.trans hb.tree⟩

theorem text? (h : Kept written before after) (ht : before.text? path = some content)
    (hp : path.place before.working ∉ written) : after.text? path = some content := by
  obtain ⟨bytes, hr, hb⟩ := Option.bind_eq_some_iff.mp ht
  have hread : before.tree.read before.working path = .ok bytes := by
    cases hc : before.tree.read before.working path with
    | error fault => simp [hc, Except.toOption] at hr
    | ok other => simpa [hc, Except.toOption] using hr
  have hafter := h.tree.read hread hp
  rw [World.text?, h.working, hafter]
  exact hb

end Kept

theorem text?_eq_some_iff :
    world.text? path = some content ↔ ∃ location bytes,
      world.tree.locate world.working path = .ok location ∧
        world.tree.node? location = some (.file bytes) ∧ Text.ofBytes? bytes = some content := by
  unfold World.text?
  rw [Option.bind_eq_some_iff]
  constructor
  · rintro ⟨bytes, hr, hb⟩
    cases hc : world.tree.read world.working path with
    | error fault => simp [hc, Except.toOption] at hr
    | ok other =>
      obtain rfl : other = bytes := by simpa [hc, Except.toOption] using hr
      obtain ⟨location, hl, hn⟩ := Tree.read_eq_ok_iff.mp hc
      exact ⟨location, other, hl, hn, hb⟩
  · rintro ⟨location, bytes, hl, hn, hb⟩
    exact ⟨bytes, by rw [Tree.read_eq_ok_iff.mpr ⟨location, hl, hn⟩]; rfl, hb⟩

theorem text?_of_read (h : world.tree.read world.working path = .ok content.toBytes) :
    world.text? path = some content := by
  rw [text?, h]
  exact Text.ofBytes?_toBytes content

/-- Paths that lead to one place name one file. -/
theorem text?_of_place {other : Path} {location : Location} (ht : world.text? path = some content)
    (hl : world.tree.locate world.working other = .ok location)
    (hp : other.place world.working = path.place world.working) :
    world.text? other = some content := by
  obtain ⟨place, bytes, hlocate, hn, hb⟩ := text?_eq_some_iff.mp ht
  have he : location = place := by
    rw [Tree.place_of_locate hl, hp, Tree.place_of_locate hlocate]
  exact text?_eq_some_iff.mpr ⟨location, bytes, hl, he ▸ hn, hb⟩

/-- A file that was there is found changed under every path that leads to it. -/
theorem Kept.text?_of_place {other : Path} {earlier : Text} (h : Kept written before after)
    (ho : before.text? other = some earlier) (ht : after.text? path = some content)
    (hp : other.place before.working = path.place before.working) :
    after.text? other = some content := by
  obtain ⟨location, -, hl, -⟩ := text?_eq_some_iff.mp ho
  have hlocate := h.tree.locate hl
  rw [← h.working] at hlocate hp
  exact World.text?_of_place ht hlocate hp

end World

namespace TextFile

theorem read_eq_ok :
    (read step path).runOn world = (.ok content, after) ↔
      after = world ∧ world.text? path = some content := by
  have hperform : world.perform (.read path) = (world.tree.read world.working path, world) := rfl
  unfold read World.text?
  rw [Procedure.runOn_bind_eq_ok]
  constructor
  · rintro ⟨bytes, between, hran, hc⟩
    rw [Procedure.runOn_inStep_eq_ok, hperform] at hran
    obtain ⟨hr, rfl⟩ := Prod.mk.inj hran
    rw [hr]
    cases hb : Text.ofBytes? bytes with
    | none =>
      rw [hb] at hc
      cases hc
    | some text =>
      rw [hb] at hc
      obtain ⟨rfl, rfl⟩ := Procedure.runOn_pure_eq_ok.mp hc
      exact ⟨rfl, hb⟩
  · rintro ⟨rfl, ht⟩
    cases hr : after.tree.read after.working path with
    | error fault => simp [hr, Except.toOption] at ht
    | ok bytes =>
      refine ⟨bytes, after, ?_, ?_⟩
      · rw [Procedure.runOn_inStep_eq_ok, hperform, hr]
      · have hb : Text.ofBytes? bytes = some content := by simpa [hr, Except.toOption] using ht
        rw [hb]
        rfl

theorem read_eq_error (h : (read step path).runOn world = (.error failure, after)) :
    world.text? path = none ∧ ∃ cause, failure = ⟨[step], cause⟩ := by
  constructor
  · cases ht : world.text? path with
    | none => rfl
    | some content => cases (read_eq_ok.mpr ⟨rfl, ht⟩).symm.trans h
  · rcases Procedure.runOn_bind_eq_error.mp h with h | ⟨bytes, between, -, h⟩
    · obtain ⟨fault, -, rfl⟩ := Procedure.runOn_inStep_eq_error.mp h
      exact ⟨_, rfl⟩
    · split at h
      · cases h
      · exact ⟨_, (Except.error.inj (Prod.mk.inj h).1).symm⟩

theorem isThere_run (path : Path) (world : World) :
    (isThere path).run world = ((world.tree.kind? world.working path).isSome, world) :=
  rfl

/-- A file that was written has its new text, and all others are as before. -/
theorem write_eq_ok (h : (write step path content).runOn before = (.ok (), after)) :
    World.Kept [path.place before.working] before after ∧ after.text? path = some content := by
  rw [write, Procedure.runOn_inStep_eq_ok] at h
  simp only [World.perform] at h
  split at h
  · next tree ht =>
    obtain ⟨-, rfl⟩ := Prod.mk.inj h
    exact ⟨⟨rfl, Tree.kept_write ht⟩, World.text?_of_read (Tree.read_write ht)⟩
  · simp at h

theorem read_of_write (h : (write step path content).runOn before = (.ok (), after)) :
    after.tree.read after.working path = .ok content.toBytes := by
  rw [write, Procedure.runOn_inStep_eq_ok] at h
  simp only [World.perform] at h
  split at h
  · next tree ht =>
    obtain ⟨-, rfl⟩ := Prod.mk.inj h
    exact Tree.read_write ht
  · simp at h

/-- What is written over can be read before, under the path that it is written to. -/
theorem text?_of_write {other : Path} {earlier : Text}
    (h : (write step path content).runOn before = (.ok (), after))
    (ht : before.text? other = some earlier)
    (hp : path.place before.working = other.place before.working) :
    before.text? path = some earlier := by
  rw [write, Procedure.runOn_inStep_eq_ok] at h
  simp only [World.perform] at h
  split at h
  · next tree hw =>
    obtain ⟨location, hl, -⟩ := Tree.write_eq_ok hw
    exact World.text?_of_place ht hl hp
  · simp at h

theorem kept_createFolders (world : World) (path : Path) :
    World.Kept [] world (world.perform (.createFolders path)).2 :=
  ⟨rfl, Tree.kept_createFolders world.tree world.working path⟩

theorem kept_makeParent (h : (makeParent path).runOn before = (.ok (), after)) :
    World.Kept [] before after := by
  unfold makeParent at h
  split at h
  · rw [Procedure.runOn_inStep_eq_ok] at h
    have hk := kept_createFolders before
    rw [← show (before.perform _).2 = after from congrArg Prod.snd h]
    exact hk _
  · obtain ⟨rfl, -⟩ := Procedure.runOn_pure_eq_ok.mp h
    exact .refl after

end TextFile

namespace PropertyFile

open Properties (entries parse)

/-- A failure to read a file. -/
inductive Unread (path : Path) : Failure → Prop where
  | read {cause : Cause} :
      Unread path ⟨["Failed to read properties file: ".toList ++ path.text], cause⟩

/-- A failure to write a file, or to make the folder for it. -/
inductive Unwritten (path : Path) : Failure → Prop where
  | folder {parent : Path} {cause : Cause} (h : path.parent? = some parent) :
      Unwritten path ⟨["Failed to create directory: ".toList ++ parent.text], cause⟩
  | file {cause : Cause} :
      Unwritten path ⟨["Failed to write file: ".toList ++ path.text], cause⟩

theorem read_eq_ok {lines : List Properties.Line} :
    (read path).runOn world = (.ok lines, after) ↔
      after = world ∧ ∃ content, world.text? path = some content ∧ lines = parse content := by
  unfold read
  rw [Procedure.runOn_bind_eq_ok]
  constructor
  · rintro ⟨content, between, hr, hp⟩
    obtain ⟨rfl, ht⟩ := TextFile.read_eq_ok.mp hr
    obtain ⟨rfl, hl⟩ := Procedure.runOn_pure_eq_ok.mp hp
    exact ⟨rfl, content, ht, hl⟩
  · rintro ⟨rfl, content, ht, rfl⟩
    exact ⟨content, after, TextFile.read_eq_ok.mpr ⟨rfl, ht⟩, rfl⟩

theorem read_eq_error (h : (read path).runOn world = (.error failure, after)) :
    world.text? path = none ∧ Unread path failure := by
  rcases Procedure.runOn_bind_eq_error.mp h with h | ⟨content, between, -, h⟩
  · obtain ⟨hnone, cause, rfl⟩ := TextFile.read_eq_error h
    exact ⟨hnone, .read⟩
  · cases h

theorem kind?_of_text? (h : world.text? path = some content) :
    (world.tree.kind? world.working path).isSome = true := by
  obtain ⟨bytes, hr, -⟩ := Option.bind_eq_some_iff.mp h
  unfold Tree.read at hr
  unfold Tree.kind?
  cases hl : world.tree.lookup world.working path with
  | error fault => simp [hl, bind, Except.bind, Except.toOption] at hr
  | ok node => rfl

theorem read?_eq_ok {lines : Option (List Properties.Line)} :
    (read? path).runOn world = (.ok lines, after) ↔
      after = world ∧
        ((world.tree.kind? world.working path).isSome = false ∧ lines = none ∨
          ∃ content, world.text? path = some content ∧ lines = some (parse content)) := by
  unfold read?
  rw [Procedure.runOn_liftM_bind, TextFile.isThere_run]
  constructor
  · intro hr
    split at hr
    · obtain ⟨found, between, hread, hp⟩ := Procedure.runOn_bind_eq_ok.mp hr
      obtain ⟨rfl, content, hc, rfl⟩ := read_eq_ok.mp hread
      obtain ⟨rfl, hl⟩ := Procedure.runOn_pure_eq_ok.mp hp
      exact ⟨rfl, .inr ⟨content, hc, hl⟩⟩
    · next hk =>
      obtain ⟨rfl, hl⟩ := Procedure.runOn_pure_eq_ok.mp hr
      exact ⟨rfl, .inl ⟨by simpa using hk, hl⟩⟩
  · rintro ⟨rfl, ⟨hk, rfl⟩ | ⟨content, hc, rfl⟩⟩
    · rw [hk]
      rfl
    · rw [kind?_of_text? hc, if_pos rfl]
      exact Procedure.runOn_bind_eq_ok.mpr ⟨_, _, read_eq_ok.mpr ⟨rfl, content, hc, rfl⟩, rfl⟩

/-- A file that is not there has no entries. -/
theorem readEntries_eq_ok {found : OrderedMap Text Text} :
    (readEntries path).runOn world = (.ok found, after) ↔
      after = world ∧
        ((world.tree.kind? world.working path).isSome = false ∧ found = .empty ∨
          ∃ content, world.text? path = some content ∧ found = entries (parse content)) := by
  unfold readEntries
  rw [Procedure.runOn_bind_eq_ok]
  constructor
  · rintro ⟨lines, between, hr, hp⟩
    obtain ⟨rfl, hlines⟩ := read?_eq_ok.mp hr
    obtain ⟨rfl, rfl⟩ := Procedure.runOn_pure_eq_ok.mp hp
    refine ⟨rfl, ?_⟩
    rcases hlines with ⟨hk, rfl⟩ | ⟨content, hc, rfl⟩
    · exact .inl ⟨hk, rfl⟩
    · exact .inr ⟨content, hc, rfl⟩
  · rintro ⟨rfl, ⟨hk, rfl⟩ | ⟨content, hc, rfl⟩⟩
    · exact ⟨none, _, read?_eq_ok.mpr ⟨rfl, .inl ⟨hk, rfl⟩⟩, rfl⟩
    · exact ⟨some _, _, read?_eq_ok.mpr ⟨rfl, .inr ⟨content, hc, rfl⟩⟩, rfl⟩

/-- Only a file that is there can keep its entries from being read. -/
theorem readEntries_eq_error (h : (readEntries path).runOn world = (.error failure, after)) :
    (world.tree.kind? world.working path).isSome = true ∧ world.text? path = none ∧
      Unread path failure := by
  rcases Procedure.runOn_bind_eq_error.mp h with h | ⟨lines, between, -, h⟩
  · rw [read?, Procedure.runOn_liftM_bind, TextFile.isThere_run] at h
    split at h
    · next hthere =>
      rcases Procedure.runOn_bind_eq_error.mp h with h | ⟨lines, between, -, h⟩
      · exact ⟨hthere, read_eq_error h⟩
      · cases h
    · cases h
  · cases h

/-- Entries that were read could be written so that they are read again. -/
theorem writable_of_readEntries {found : OrderedMap Text Text}
    (h : (readEntries path).runOn world = (.ok found, after)) : Properties.Writable found := by
  rcases (readEntries_eq_ok.mp h).2 with ⟨-, rfl⟩ | ⟨content, -, rfl⟩
  · exact Properties.writable_empty
  · exact Properties.writable_entries content

theorem write_eq_ok {lines : List Properties.Line}
    (h : (write path lines).runOn before = (.ok (), after)) :
    World.Kept [path.place before.working] before after ∧
      after.tree.read after.working path = .ok (Properties.render lines).toBytes := by
  obtain ⟨_, made, hmade, hwrote⟩ := Procedure.runOn_bind_eq_ok.mp h
  have hmaking := TextFile.kept_makeParent hmade
  have hall := hmaking.trans (TextFile.write_eq_ok hwrote).1
  rw [hmaking.working] at hall
  exact ⟨hall, TextFile.read_of_write hwrote⟩

theorem write_eq_error {lines : List Properties.Line}
    (h : (write path lines).runOn before = (.error failure, after)) : Unwritten path failure := by
  rcases Procedure.runOn_bind_eq_error.mp h with h | ⟨_, made, -, h⟩
  · unfold TextFile.makeParent at h
    split at h
    · next parent hparent =>
      obtain ⟨fault, -, rfl⟩ := Procedure.runOn_inStep_eq_error.mp h
      exact .folder hparent
    · cases h
  · obtain ⟨fault, -, rfl⟩ := Procedure.runOn_inStep_eq_error.mp h
    exact .file

end PropertyFile

end MessageKeys
