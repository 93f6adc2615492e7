import MessageKeys.Proofs.Files.Path
import MessageKeys.Proofs.Files.TextFile

/-!
# Files that can be written

A file can be written where a path leads through folders that are there to a place where no folder
stands, if the place is not refused; so a file that can be read can be written over, unless that is
refused. Making the folder around it beforehand changes nothing, for that folder is there already.
-/
namespace MessageKeys

variable {world : World} {tree : Tree} {working location : Location} {path parent : Path}
  {content old : ByteArray} {text : Text}

namespace Tree

theorem foldlM_step_of_still {names : List Text} {start : Location}
    (hn : ∀ name ∈ names, Path.isStill name = true)
    (h : names.foldlM tree.step start = .ok location) : location = start := by
  rw [foldlM_step_eq_ok h, Path.foldl_stride_of_still hn]

theorem foldlM_append_eq_ok {names more : List Text} {start : Location}
    (h : (names ++ more).foldlM tree.step start = .ok location) :
    ∃ between, names.foldlM tree.step start = .ok between ∧
      more.foldlM tree.step between = .ok location := by
  rw [List.foldlM_append] at h
  cases hb : names.foldlM tree.step start with
  | error fault => simp [hb, bind, Except.bind] at h
  | ok between => exact ⟨between, rfl, by simpa [hb, bind, Except.bind] using h⟩

/-- A step can be taken in a folder only. -/
theorem folder_of_foldlM_step {names : List Text} {start : Location} (hn : names ≠ [])
    (h : names.foldlM tree.step start = .ok location) : tree.node? start = some .folder := by
  obtain ⟨name, names, rfl⟩ := List.exists_cons_of_ne_nil hn
  rw [List.foldlM_cons] at h
  cases hs : tree.step start name with
  | error fault => simp [hs, bind, Except.bind] at h
  | ok next => exact (step_eq_ok hs).1

theorem follow_eq {first : Text} {rest : List Text} (h : path.text.pieces '/' = first :: rest) :
    tree.follow working path = (first :: rest).foldlM tree.step (Path.origin working first rest) := by
  rw [follow, h, Path.origin_eq h]

theorem isStill_of_mem_pieces {slashes : Text} (hs : ∀ c ∈ slashes, c = '/') :
    ∀ name ∈ Text.pieces '/' slashes, Path.isStill name = true := by
  induction slashes with
  | nil => simp [Text.pieces, Path.isStill]
  | cons c slashes ih =>
    obtain ⟨rfl, hmore⟩ := List.forall_mem_cons.mp hs
    rw [Text.pieces_cons_self]
    exact List.forall_mem_cons.mpr ⟨rfl, ih hmore⟩

/-- Slashes at the end of a path take no step. -/
theorem follow_bare {bare slashes : Text} (hb : bare ≠ []) (hs : ∀ c ∈ slashes, c = '/')
    (h : tree.follow working ⟨bare ++ slashes⟩ = .ok location) :
    tree.follow working ⟨bare⟩ = .ok location := by
  cases slashes with
  | nil => simpa using h
  | cons c slashes =>
    obtain ⟨rfl, hmore⟩ := List.forall_mem_cons.mp hs
    have habsolute : Path.isAbsolute ⟨bare ++ '/' :: slashes⟩ = Path.isAbsolute ⟨bare⟩ := by
      obtain ⟨d, bare, rfl⟩ := List.exists_cons_of_ne_nil hb
      rfl
    rw [follow, Text.pieces_append, habsolute] at h
    obtain ⟨between, hbare, hrest⟩ := foldlM_append_eq_ok h
    rw [foldlM_step_of_still (isStill_of_mem_pieces hmore) hrest]
    exact hbare

/-- What a path leads to can be named as a place for something new, even if the path ends in
slashes. -/
theorem locateNew_of_locate (h : tree.locate working path = .ok location) :
    tree.locateNew working path = .ok location := by
  obtain ⟨hcheck, hfollow⟩ := locate_eq_ok_iff.mp h
  have hslashes : path.text = (path.text.reverse.dropWhile (· == '/')).reverse ++
      (path.text.reverse.takeWhile (· == '/')).reverse := by
    rw [← List.reverse_append, List.takeWhile_append_dropWhile, List.reverse_reverse]
  rw [locateNew, hcheck]
  dsimp only [bind, Except.bind]
  split
  · exact hfollow
  · next hbare =>
    have hs : ∀ c ∈ (path.text.reverse.takeWhile (· == '/')).reverse, c = '/' := fun c hc => by
      simpa using List.mem_takeWhile_imp (List.mem_reverse.mp hc)
    refine follow_bare (by simpa using hbare) hs ?_
    rw [← hslashes]
    exact hfollow

theorem checkPath_of_beginning (h : checkPath path = .ok ()) (hp : parent.text <+: path.text)
    (hne : parent.text ≠ []) : checkPath parent = .ok () := by
  have hlength : parent.text.byteLength ≤ path.text.byteLength := by
    obtain ⟨more, hmore⟩ := hp
    rw [← hmore, Text.byteLength_append]
    exact Nat.le_add_right _ _
  unfold checkPath at h ⊢
  split at h
  · cases h
  · next hnul =>
    split at h
    · cases h
    · next hlong =>
      rw [if_neg, if_neg (by omega), if_neg (by simpa using hne)]
      intro hc
      exact hnul (by simpa using hp.subset (by simpa using hc))

/-- The folder that something stands in can be found by the parent of its path. -/
theorem locate_parent (h : tree.locate working path = .ok location)
    (hp : path.parent? = some parent) (hne : parent.text ≠ []) :
    ∃ around, tree.locate working parent = .ok around ∧ tree.node? around = some .folder := by
  obtain ⟨first, rest, hpieces⟩ := Path.exists_pieces path
  obtain ⟨hcheck, hfollow⟩ := locate_eq_ok_iff.mp h
  rcases Path.parent?_eq_some hpieces hp with ⟨-, -, hempty⟩ |
      ⟨kept, stills, last, more, hrest, -, -, -, htext⟩
  · exact absurd hempty hne
  · by_cases hroot : first = [] ∧ kept = []
    · obtain ⟨text⟩ := parent
      rw [if_pos hroot] at htext
      obtain rfl : text = ['/'] := htext
      exact ⟨[], rfl, rfl⟩
    · have hsteps : parent.text.pieces '/' = first :: kept := by
        rw [Path.pieces_of_parent (hrest ▸ hpieces) htext, if_neg hroot]
      have horigin : Path.origin working first rest = Path.origin working first kept :=
        Path.origin_congr fun hf => iff_of_true (by simp [hrest]) fun hk => hroot ⟨hf, hk⟩
      rw [follow_eq hpieces, horigin, hrest, ← List.cons_append] at hfollow
      obtain ⟨around, haround, hmore⟩ := foldlM_append_eq_ok hfollow
      refine ⟨around, locate_eq_ok_iff.mpr ⟨checkPath_of_beginning hcheck ?_ hne, ?_⟩, ?_⟩
      · rw [htext, if_neg hroot, ← Text.join_pieces '/' path.text, hpieces, hrest,
          ← List.cons_append]
        exact Text.join_begins '/' (first :: kept) _
      · rw [follow_eq hsteps, haround]
      · exact folder_of_foldlM_step (by simp) hmore

/-- Making a folder that is there leaves everything as it is. -/
theorem createFolders_of_folder (h : tree.locate working path = .ok location)
    (hn : tree.node? location = some .folder) :
    tree.createFolders working path = (.ok (), tree) := by
  have hmake : tree.createFolder working path = .error .alreadyThere := by
    rw [createFolder, locateNew_of_locate h]
    simp [bind, Except.bind, hn]
  have hkind : tree.kind? working path = some .folder := by
    simp [kind?, lookup, h, hn, bind, Except.bind, Except.toOption, Node.kind]
  have hchain : ∃ above, path.ancestors = path :: above := by
    unfold Path.ancestors Path.chain
    split
    · exact ⟨_, rfl⟩
    · split <;> exact ⟨_, rfl⟩
  obtain ⟨above, habove⟩ := hchain
  rw [createFolders, habove, createFrom, hmake]
  simp [hkind]

/-- A path that leads to a file does not end in a slash. -/
theorem not_slash_of_file (hl : tree.locate working path = .ok location)
    (hn : tree.node? location = some (.file old)) : path.text.getLast? ≠ some '/' := by
  intro hlast
  obtain ⟨front, hfront⟩ := List.getLast?_eq_some_iff.mp hlast
  have hfollow := (locate_eq_ok_iff.mp hl).2
  rw [follow, hfront, Text.pieces_append] at hfollow
  obtain ⟨between, -, hstep⟩ := foldlM_append_eq_ok hfollow
  have hfolder := folder_of_foldlM_step (Text.pieces_ne_nil '/' []) hstep
  rw [← foldlM_step_of_still (by decide) hstep, hn] at hfolder
  cases hfolder

end Tree

/-- Whether a file can be written at a path. -/
structure World.CanWrite (world : World) (path : Path) : Prop where
  leads : world.tree.locate world.working path = .ok (path.place world.working)
  no_folder : world.tree.kindAt? (path.place world.working) ≠ some .folder
  no_slash : path.text.getLast? ≠ some '/'
  allowed : world.tree.refusal? (path.place world.working) = none

namespace World

theorem CanWrite.locateFile (h : world.CanWrite path) :
    world.tree.locateFile world.working path = .ok (path.place world.working) :=
  Tree.locateFile_eq_ok_iff.mpr ⟨h.leads, h.no_folder, h.no_slash⟩

theorem locateFile_of_text? (h : world.text? path = some text) :
    world.tree.locateFile world.working path = .ok (path.place world.working) := by
  obtain ⟨location, bytes, hl, hn, -⟩ := text?_eq_some_iff.mp h
  obtain rfl := Tree.place_of_locate hl
  refine Tree.locateFile_eq_ok_iff.mpr ⟨hl, ?_, Tree.not_slash_of_file hl hn⟩
  rw [Tree.kindAt?, hn]
  simp [Node.kind]

/-- A file that can be read can be written over, if that is not refused. -/
theorem canWrite_of_text? (h : world.text? path = some text)
    (ha : world.tree.refusal? (path.place world.working) = none) : world.CanWrite path := by
  obtain ⟨hleads, hfolder, hslash⟩ := Tree.locateFile_eq_ok_iff.mp (locateFile_of_text? h)
  exact ⟨hleads, hfolder, hslash, ha⟩

section sample

/-- The machine with one place that may only be read. -/
def readOnly (world : World) (location : Location) : World :=
  { world with
    tree := { world.tree with
      refusals := ⟨fun place =>
        if place = location then some ⟨13, "Permission denied".toList, none⟩ else none⟩ } }

theorem failsCleanly_readOnly (world : World) (location : Location) :
    (world.readOnly location).tree.FailsCleanly := by
  intro place refusal hm
  obtain ⟨-, hsome⟩ := Option.ite_none_right_eq_some.mp hm
  obtain rfl := Option.some.inj hsome
  rfl

end sample

end World

namespace TextFile

/-- The folder that a file can be written in is there already. -/
theorem makeParent_of_canWrite (h : world.CanWrite path) :
    (makeParent path).runOn world = (.ok (), world) := by
  unfold makeParent
  split
  · next parent hp =>
    rw [Procedure.runOn_inStep_eq_ok]
    have hmade : world.tree.createFolders world.working parent = (.ok (), world.tree) := by
      by_cases hne : parent.text = []
      · obtain ⟨written⟩ := parent
        obtain rfl : written = [] := hne
        rfl
      · obtain ⟨around, haround, hn⟩ := Tree.locate_parent h.leads hp hne
        exact Tree.createFolders_of_folder haround hn
    rw [World.perform, hmade]
  · rfl

/-- Writing puts the text at the place that the path leads to. -/
theorem write_of_canWrite (h : world.CanWrite path) (step content : Text) :
    (write step path content).runOn world =
      (.ok (), { world with tree := world.tree.put (path.place world.working) (.file content.toBytes) }) := by
  have htree : world.tree.write world.working path content.toBytes =
      .ok (world.tree.put (path.place world.working) (.file content.toBytes)) :=
    Tree.write_eq_ok_iff.mpr ⟨_, h.locateFile, h.allowed, rfl⟩
  rw [write, Procedure.runOn_inStep_eq_ok, World.perform, htree]

theorem exists_write_of_canWrite (h : world.CanWrite path) (step content : Text) :
    ∃ after, (write step path content).runOn world = (.ok (), after) :=
  ⟨_, write_of_canWrite h step content⟩

/-- Where a file that is there is refused, writing says why, and the file may be spoiled. -/
theorem write_of_refusal {refusal : Refusal} (ht : world.text? path = some text)
    (hr : world.tree.refusal? (path.place world.working) = some refusal) (step content : Text) :
    (write step path content).runOn world = (.error ⟨[step], .file refusal.fault⟩,
      { world with tree := world.tree.spoil world.working path }) := by
  have htree : world.tree.write world.working path content.toBytes = .error refusal.fault := by
    simp [Tree.write, World.locateFile_of_text? ht, bind, Except.bind, Tree.tryPut, hr]
  rw [write, Procedure.runOn_inStep_eq_error, World.perform, htree]
  exact ⟨_, rfl, rfl⟩

/-- A file that is there and cannot be written is refused. -/
theorem refused_of_write_eq_error {after : World} {step content : Text} {failure : Failure}
    (ht : world.text? path = some text)
    (h : (write step path content).runOn world = (.error failure, after)) :
    ∃ refusal, world.tree.refusal? (path.place world.working) = some refusal ∧
      failure = ⟨[step], .file refusal.fault⟩ ∧
      after = { world with tree := world.tree.spoil world.working path } := by
  cases hr : world.tree.refusal? (path.place world.working) with
  | none =>
    obtain ⟨_, hok⟩ := exists_write_of_canWrite (World.canWrite_of_text? ht hr) step content
    cases hok.symm.trans h
  | some refusal =>
    obtain ⟨hfailure, rfl⟩ := Prod.mk.inj ((write_of_refusal ht hr step content).symm.trans h)
    exact ⟨refusal, rfl, (Except.error.inj hfailure).symm, rfl⟩

/-- Whether a file can be written does not depend on its text, nor does what a failure leaves. -/
theorem canWrite_or_fails (world : World) (step : Text) (path : Path) :
    world.CanWrite path ∨
      ∃ failure after, ∀ content, (write step path content).runOn world = (.error failure, after) := by
  have hfails {fault : FileFault}
      (h : ∀ content, world.tree.write world.working path content = .error fault) :
      ∃ failure after, ∀ content,
        (write step path content).runOn world = (.error failure, after) := by
    refine ⟨⟨[step], .file fault⟩, { world with tree := world.tree.spoil world.working path },
      fun content => ?_⟩
    rw [write, Procedure.runOn_inStep_eq_error, World.perform, h]
    exact ⟨fault, rfl, rfl⟩
  cases hl : world.tree.locateFile world.working path with
  | error fault => exact .inr (hfails fun content => by rw [Tree.write, hl]; rfl)
  | ok location =>
    obtain rfl := Tree.place_of_locateFile hl
    obtain ⟨hleads, hfolder, hslash⟩ := Tree.locateFile_eq_ok_iff.mp hl
    cases hr : world.tree.refusal? (path.place world.working) with
    | none => exact .inl ⟨hleads, hfolder, hslash, hr⟩
    | some refusal =>
      have hrefused (content : ByteArray) :
          world.tree.write world.working path content = .error refusal.fault := by
        simp [Tree.write, hl, bind, Except.bind, Tree.tryPut, hr]
      exact .inr (hfails hrefused)

/-- Where a file was written, none is refused. -/
theorem allowed_of_write {before after : World} {step content : Text}
    (h : (write step path content).runOn before = (.ok (), after)) :
    before.tree.refusal? (path.place before.working) = none := by
  rw [write, Procedure.runOn_inStep_eq_ok, World.perform] at h
  split at h
  · next tree hw =>
    obtain ⟨location, hl, ha, -⟩ := Tree.write_eq_ok_iff.mp hw
    exact Tree.place_of_locateFile hl ▸ ha
  · simp at h

/-- Nor where a file was written behind the folder for it. -/
theorem allowed_of_prepared {before made after : World} {step content : Text}
    (hmade : (makeParent path).runOn before = (.ok (), made))
    (hwrote : (write step path content).runOn made = (.ok (), after)) :
    before.tree.refusal? (path.place before.working) = none := by
  have hallowed := allowed_of_write hwrote
  rwa [Procedure.refusal?_eq hmade, (kept_makeParent hmade).working] at hallowed

end TextFile

theorem PropertyFile.exists_write_of_canWrite (h : world.CanWrite path)
    (lines : List Properties.Line) :
    ∃ after, (write path lines).runOn world = (.ok (), after) := by
  obtain ⟨after, hwrote⟩ := TextFile.exists_write_of_canWrite h
    ("Failed to write file: ".toList ++ path.text) (Properties.render lines)
  exact ⟨after, Procedure.runOn_bind_eq_ok.mpr ⟨(), world, TextFile.makeParent_of_canWrite h, hwrote⟩⟩

theorem PropertyFile.allowed_of_write {before after : World} {lines : List Properties.Line}
    (h : (write path lines).runOn before = (.ok (), after)) :
    before.tree.refusal? (path.place before.working) = none := by
  obtain ⟨_, made, hmade, hwrote⟩ := Procedure.runOn_bind_eq_ok.mp h
  exact TextFile.allowed_of_prepared hmade hwrote

/-- A file whose entries could be read is missing or refused if it cannot be written. -/
theorem PropertyFile.missing_or_refused_of_write_eq_error {before after : World} {failure : Failure}
    {lines : List Properties.Line} {entries : OrderedMap Text Text}
    (hread : (readEntries path).runOn before = (.ok entries, before))
    (h : (write path lines).runOn before = (.error failure, after)) :
    (before.tree.kind? before.working path).isSome = false ∨
      (before.tree.refusal? (path.place before.working)).isSome = true := by
  rcases (readEntries_eq_ok.mp hread).2 with ⟨hmissing, -⟩ | ⟨content, ht, -⟩
  · exact .inl hmissing
  · refine .inr (Option.isSome_iff_ne_none.mpr fun ha => ?_)
    obtain ⟨_, hok⟩ := exists_write_of_canWrite (World.canWrite_of_text? ht ha) lines
    cases hok.symm.trans h

end MessageKeys
