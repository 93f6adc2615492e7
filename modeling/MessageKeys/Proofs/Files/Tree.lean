import MessageKeys.Files.Tree
import MessageKeys.Proofs.OrderedMap

/-!
# What stays when a tree changes

Where a path leads does not depend on the tree, only whether it can be followed does. Every change
that a program makes to a tree leaves the folders, and all files but the one it writes. So a file
that could be read can be read again until its own place is written. No change has a say in what is
refused.
-/
namespace MessageKeys

variable {tree before after : Tree} {working location : Location} {path : Path}
  {content : ByteArray}

/-- Where one step of a path leads. -/
def Path.stride (location : Location) (name : Text) : Location :=
  if Path.isStill name then location
  else if name = ['.', '.'] then location.tail
  else name :: location

/-- Where a path leads. -/
def Path.place (working : Location) (path : Path) : Location :=
  (path.text.pieces '/').foldl Path.stride (if path.isAbsolute then [] else working)

namespace Tree

theorem node?_put (tree : Tree) (location : Location) (node : Node) (other : Location) :
    (tree.put location node).node? other =
      if other = location ∧ location ≠ [] then some node else tree.node? other := by
  cases other with
  | nil => cases location <;> simp [node?]
  | cons name other =>
    by_cases h : name :: other = location
    · subst h
      simp [node?, put, OrderedMap.get?_insert]
    · simp [node?, put, OrderedMap.get?_insert, h]

@[simp] theorem refusals_put (tree : Tree) (location : Location) (node : Node) :
    (tree.put location node).refusals = tree.refusals :=
  rfl

theorem refusal?_congr (h : after.refusals = before.refusals) (location : Location) :
    after.refusal? location = before.refusal? location := by
  rw [refusal?, refusal?, h]

/-- Of two nodes that are put at one location the last one stays. -/
theorem put_put (tree : Tree) (location : Location) (node later : Node) :
    (tree.put location node).put location later = tree.put location later :=
  congrArg (fun nodes => { tree with nodes }) (OrderedMap.insert_insert tree.nodes location node later)

theorem step_eq_ok {name : Text} {next : Location} (h : tree.step location name = .ok next) :
    tree.node? location = some .folder ∧ next = Path.stride location name := by
  unfold step at h
  split at h
  · cases h
  · cases h
  · next hn =>
    refine ⟨hn, ?_⟩
    unfold Path.stride
    split at h
    · next hs => simpa [hs] using h.symm
    · next hs =>
      split at h
      · next hd =>
        rw [if_neg hs, if_pos hd]
        exact (Except.ok.inj h).symm
      · next hd =>
        split at h
        · cases h
        · rw [if_neg hs, if_neg hd]
          exact (Except.ok.inj h).symm

theorem step_eq_of_folder {other : Tree} {name : Text} (h : tree.node? location = some .folder)
    (ho : other.node? location = some .folder) : other.step location name = tree.step location name := by
  rw [step, step, h, ho]

theorem foldlM_step_eq_ok {names : List Text} {start : Location}
    (h : names.foldlM tree.step start = .ok location) :
    location = names.foldl Path.stride start := by
  induction names generalizing start with
  | nil => exact (Except.ok.inj h).symm
  | cons name names ih =>
    rw [List.foldlM_cons] at h
    cases hs : tree.step start name with
    | error fault => simp [hs, bind, Except.bind] at h
    | ok next =>
      rw [List.foldl_cons, ← (step_eq_ok hs).2]
      exact ih (by simpa [hs, bind, Except.bind] using h)

/-- Folders stay, and so do all files but those at the places that are written. -/
structure Kept (written : List Location) (before after : Tree) : Prop where
  folder : ∀ {location}, before.node? location = some .folder → after.node? location = some .folder
  file : ∀ {location content}, location ∉ written → before.node? location = some (.file content) →
    after.node? location = some (.file content)

namespace Kept

variable {written more : List Location}

theorem refl (tree : Tree) : Kept written tree tree :=
  ⟨fun h => h, fun _ h => h⟩

theorem trans {between : Tree} (ha : Kept written before between) (hb : Kept more between after) :
    Kept (written ++ more) before after := by
  refine ⟨fun h => hb.folder (ha.folder h), fun hl h => ?_⟩
  simp only [List.mem_append, not_or] at hl
  exact hb.file hl.2 (ha.file hl.1 h)

theorem foldlM_step (h : Kept written before after) {names : List Text} {start : Location}
    (hs : names.foldlM before.step start = .ok location) :
    names.foldlM after.step start = .ok location := by
  induction names generalizing start with
  | nil => exact hs
  | cons name names ih =>
    rw [List.foldlM_cons] at hs ⊢
    cases hn : before.step start name with
    | error fault => simp [hn, bind, Except.bind] at hs
    | ok next =>
      have hfolder := (step_eq_ok hn).1
      rw [step_eq_of_folder hfolder (h.folder hfolder), hn]
      exact ih (by simpa [hn, bind, Except.bind] using hs)

end Kept

theorem locate_eq_ok_iff :
    tree.locate working path = .ok location ↔
      checkPath path = .ok () ∧ tree.follow working path = .ok location := by
  unfold locate
  cases checkPath path with
  | error fault => simp [bind, Except.bind]
  | ok value => simp [bind, Except.bind]

theorem place_of_locate (h : tree.locate working path = .ok location) :
    location = path.place working :=
  foldlM_step_eq_ok (locate_eq_ok_iff.mp h).2

theorem Kept.locate {written : List Location} (h : Kept written before after)
    (hl : before.locate working path = .ok location) : after.locate working path = .ok location := by
  obtain ⟨hc, hf⟩ := locate_eq_ok_iff.mp hl
  exact locate_eq_ok_iff.mpr ⟨hc, h.foldlM_step hf⟩

theorem read_eq_ok_iff :
    tree.read working path = .ok content ↔
      ∃ location, tree.locate working path = .ok location ∧
        tree.node? location = some (.file content) := by
  unfold read lookup
  cases hl : tree.locate working path with
  | error fault => simp [bind, Except.bind]
  | ok location =>
    cases hn : tree.node? location with
    | none => simp [bind, Except.bind, hn]
    | some node => cases node <;> simp [bind, Except.bind, hn]

theorem kind?_of_locate (h : tree.locate working path = .ok location) :
    tree.kind? working path = (tree.node? location).map Node.kind := by
  rw [kind?, lookup, h]
  cases hn : tree.node? location <;> simp [bind, Except.bind, Except.toOption, hn]

theorem exists_locate_of_kind? {kind : Kind} (h : tree.kind? working path = some kind) :
    ∃ location node, tree.locate working path = .ok location ∧ tree.node? location = some node ∧
      node.kind = kind := by
  cases hl : tree.locate working path with
  | error fault => simp [kind?, lookup, hl, bind, Except.bind, Except.toOption] at h
  | ok location =>
    rw [kind?_of_locate hl] at h
    obtain ⟨node, hnode, hkind⟩ := Option.map_eq_some_iff.mp h
    exact ⟨location, node, rfl, hnode, hkind⟩

/-- A file that is not written over is read as before. -/
theorem Kept.read {written : List Location} (h : Kept written before after)
    (hr : before.read working path = .ok content) (hp : path.place working ∉ written) :
    after.read working path = .ok content := by
  obtain ⟨location, hl, hn⟩ := read_eq_ok_iff.mp hr
  refine read_eq_ok_iff.mpr ⟨location, h.locate hl, h.file ?_ hn⟩
  exact place_of_locate hl ▸ hp

theorem kept_put_file (h : tree.node? location ≠ some .folder) :
    Kept [location] tree (tree.put location (.file content)) := by
  refine ⟨fun {other} ho => ?_, fun {other _} hl ho => ?_⟩
  · rw [node?_put, if_neg]
    · exact ho
    · rintro ⟨rfl, -⟩
      exact h ho
  · rw [node?_put, if_neg]
    · exact ho
    · rintro ⟨rfl, -⟩
      simp at hl

theorem kept_put_folder (h : tree.node? location = none) :
    Kept [] tree (tree.put location .folder) := by
  refine ⟨fun {other} ho => ?_, fun {other _} _ ho => ?_⟩
  · rw [node?_put]
    split
    · rfl
    · exact ho
  · rw [node?_put, if_neg]
    · exact ho
    · rintro ⟨rfl, -⟩
      simp [h] at ho

/-- A path that does not end in a slash leads to the same place, whether something is to be there or
not. -/
theorem locateNew_eq_locate (h : path.text.getLast? ≠ some '/') :
    tree.locateNew working path = tree.locate working path := by
  have hbare : (path.text.reverse.dropWhile (· == '/')).reverse = path.text := by
    have hd : path.text.reverse.dropWhile (· == '/') = path.text.reverse := by
      cases hr : path.text.reverse with
      | nil => rfl
      | cons c rest =>
        have hc : c ≠ '/' := by
          rintro rfl
          apply h
          rw [← List.head?_reverse, hr]
          rfl
        simp [hc]
    rw [hd, List.reverse_reverse]
  have hpath : (if path.text.isEmpty then path else ⟨path.text⟩) = path := by
    split <;> rfl
  simp only [locateNew, locate, hbare, hpath]

theorem tryPut_eq_ok_iff {node : Node} :
    before.tryPut location node = .ok after ↔
      before.refusal? location = none ∧ after = before.put location node := by
  unfold tryPut
  cases before.refusal? location with
  | none => simp [eq_comm]
  | some refusal => simp

theorem locateFile_eq_ok_iff :
    tree.locateFile working path = .ok location ↔
      tree.locate working path = .ok location ∧ tree.kindAt? location ≠ some .folder ∧
        path.text.getLast? ≠ some '/' := by
  unfold locateFile
  by_cases hslash : path.text.getLast? = some '/'
  · cases tree.locateNew working path <;> simp [bind, Except.bind, hslash]
  · rw [locateNew_eq_locate hslash]
    cases tree.locate working path with
    | error fault => simp [bind, Except.bind]
    | ok found =>
      by_cases hfolder : tree.kindAt? found = some .folder
      · simp only [bind, Except.bind, hfolder, decide_true, Bool.true_or, if_true, Except.ok.injEq,
          reduceCtorEq, false_iff, not_and]
        rintro rfl hno
        exact absurd hfolder hno
      · simp only [bind, Except.bind, hfolder, hslash, decide_false, Bool.or_false, Bool.false_eq_true,
          if_false, Except.ok.injEq, not_false_eq_true, ne_eq, and_true]
        exact (and_iff_left_of_imp fun h => h ▸ hfolder).symm

theorem not_folder_of_locateFile (h : tree.locateFile working path = .ok location) :
    tree.node? location ≠ some .folder := fun hn =>
  (locateFile_eq_ok_iff.mp h).2.1 (by simp [kindAt?, hn, Node.kind])

theorem place_of_locateFile (h : tree.locateFile working path = .ok location) :
    location = path.place working :=
  place_of_locate (locateFile_eq_ok_iff.mp h).1

theorem write_eq_ok_iff :
    before.write working path content = .ok after ↔
      ∃ location, before.locateFile working path = .ok location ∧
        before.refusal? location = none ∧ after = before.put location (.file content) := by
  unfold write
  cases before.locateFile working path with
  | error fault => simp [bind, Except.bind]
  | ok location => simp [bind, Except.bind, tryPut_eq_ok_iff]

theorem write_eq_ok (h : before.write working path content = .ok after) :
    ∃ location, before.locate working path = .ok location ∧ before.node? location ≠ some .folder ∧
      after = before.put location (.file content) := by
  obtain ⟨location, hl, -, rfl⟩ := write_eq_ok_iff.mp h
  exact ⟨location, (locateFile_eq_ok_iff.mp hl).1, not_folder_of_locateFile hl, rfl⟩

/-- A write that fails leaves all as it was, or opened the file at its place. -/
theorem spoil_cases (tree : Tree) (working : Location) (path : Path) :
    tree.spoil working path = tree ∨ ∃ refusal left,
      tree.refusal? (path.place working) = some refusal ∧ refusal.left = some left ∧
        tree.spoil working path = tree.put (path.place working) (.file left) := by
  unfold spoil
  split
  · exact .inl rfl
  · next location hl =>
    obtain rfl := place_of_locateFile hl
    split
    · exact .inl rfl
    · next left hleft =>
      obtain ⟨refusal, hrefusal, hleft⟩ := Option.bind_eq_some_iff.mp hleft
      exact .inr ⟨refusal, left, hrefusal, hleft, rfl⟩

/-- Whether a write that fails leaves every file as it is. -/
def FailsCleanly (tree : Tree) : Prop :=
  ∀ location, ∀ refusal ∈ tree.refusal? location, refusal.left = none

theorem failsCleanly_of_allowed (h : ∀ location, tree.refusal? location = none) :
    tree.FailsCleanly := fun location refusal hm => by
  simp [h location] at hm

theorem FailsCleanly.congr (h : before.FailsCleanly) (hr : after.refusals = before.refusals) :
    after.FailsCleanly := fun location refusal hm =>
  h location refusal (by rwa [refusal?_congr hr] at hm)

theorem spoil_of_failsCleanly (h : tree.FailsCleanly) (working : Location) (path : Path) :
    tree.spoil working path = tree := by
  rcases spoil_cases tree working path with hs | ⟨refusal, left, hrefusal, hleft, -⟩
  · exact hs
  · simp [h _ refusal hrefusal] at hleft

theorem kept_write (h : before.write working path content = .ok after) :
    Kept [path.place working] before after := by
  obtain ⟨location, hl, hn, rfl⟩ := write_eq_ok h
  rw [← place_of_locate hl]
  exact kept_put_file hn

/-- What was written is read. -/
theorem read_write (h : before.write working path content = .ok after) :
    after.read working path = .ok content := by
  have hk := kept_write h
  obtain ⟨location, hl, hn, rfl⟩ := write_eq_ok h
  refine read_eq_ok_iff.mpr ⟨location, hk.locate hl, ?_⟩
  rw [node?_put, if_pos]
  refine ⟨rfl, ?_⟩
  rintro rfl
  exact hn rfl

/-- A folder is made where nothing stands. -/
theorem createFolder_eq_ok (h : before.createFolder working path = .ok after) :
    ∃ location, before.node? location = none ∧ after = before.put location .folder := by
  unfold createFolder at h
  cases hl : before.locateNew working path with
  | error fault => simp [hl, bind, Except.bind] at h
  | ok location =>
    simp only [hl, bind, Except.bind] at h
    split at h
    · cases h
    · next hn => exact ⟨location, by simpa using hn, (tryPut_eq_ok_iff.mp h).2⟩

theorem kept_createFolder (h : before.createFolder working path = .ok after) :
    Kept [] before after := by
  obtain ⟨location, hn, rfl⟩ := createFolder_eq_ok h
  exact kept_put_folder hn

/-- What making one folder keeps, making folders keeps, whether it succeeds or not. -/
theorem createFrom_keeps {P : Tree → Prop}
    (hmake : ∀ {tree made : Tree} {path : Path}, P tree →
      tree.createFolder working path = .ok made → P made)
    (h : P tree) (paths : List Path) : P (tree.createFrom working paths).2 := by
  induction paths with
  | nil => exact h
  | cons path above ih =>
    unfold createFrom
    split
    · exact h
    · split
      · next made hm => exact hmake h hm
      · split
        · next fault grown hg => simpa [hg] using ih
        · next grown hg =>
          have hgrown : P grown := by simpa [hg] using ih
          split
          · next made hm => exact hmake hgrown hm
          · split <;> exact hgrown
      · split <;> exact h

theorem kept_createFolders (tree : Tree) (working : Location) (path : Path) :
    Kept [] tree (tree.createFolders working path).2 :=
  createFrom_keeps (fun hk hm => hk.trans (kept_createFolder hm)) (.refl tree) path.ancestors

/-- A copy is two writes, and what is written last is read between them. -/
theorem copy_eq_ok {source target : Path} (h : before.copy working source target = .ok after) :
    ∃ emptied content, before.write working target .empty = .ok emptied ∧
      emptied.read working source = .ok content ∧
      emptied.write working target content = .ok after := by
  unfold copy at h
  simp only [bind, Except.bind] at h
  split at h
  · cases h
  · split at h
    · cases h
    · next emptied he =>
      split at h
      · cases h
      · next content hc => exact ⟨emptied, content, he, hc, h⟩

theorem kept_copy {source target : Path} (h : before.copy working source target = .ok after) :
    Kept [target.place working] before after := by
  obtain ⟨emptied, content, he, -, hw⟩ := copy_eq_ok h
  have hk := (kept_write he).trans (kept_write hw)
  exact ⟨hk.folder, fun hl => hk.file (by simpa using hl)⟩

section refusals

theorem refusals_write (h : before.write working path content = .ok after) :
    after.refusals = before.refusals := by
  obtain ⟨location, -, -, rfl⟩ := write_eq_ok_iff.mp h
  exact refusals_put _ _ _

theorem refusals_spoil (tree : Tree) (working : Location) (path : Path) :
    (tree.spoil working path).refusals = tree.refusals := by
  rcases spoil_cases tree working path with h | ⟨refusal, left, -, -, h⟩
  · rw [h]
  · rw [h, refusals_put]

theorem refusals_createFolder (h : before.createFolder working path = .ok after) :
    after.refusals = before.refusals := by
  obtain ⟨location, -, rfl⟩ := createFolder_eq_ok h
  exact refusals_put _ _ _

theorem refusals_createFolders (tree : Tree) (working : Location) (path : Path) :
    (tree.createFolders working path).2.refusals = tree.refusals :=
  createFrom_keeps (fun ht hm => (refusals_createFolder hm).trans ht) rfl path.ancestors

theorem refusals_copy {source target : Path} (h : before.copy working source target = .ok after) :
    after.refusals = before.refusals := by
  obtain ⟨emptied, content, he, -, hw⟩ := copy_eq_ok h
  exact (refusals_write hw).trans (refusals_write he)

end refusals

/-- The names in a folder are different. -/
theorem nodup_children (tree : Tree) (working : Location) (path : Path) :
    ((tree.children working path).map Prod.fst).Nodup := by
  unfold children
  split
  · next location _ =>
    refine List.pairwise_map.mpr (List.pairwise_filterMap.mpr
      ((List.pairwise_map.mp tree.nodes.nodup).imp ?_))
    rintro ⟨_ | ⟨name, folder⟩, node⟩ ⟨_ | ⟨otherName, otherFolder⟩, otherNode⟩ hne child hchild
      other hother hsame
    · cases hchild
    · cases hchild
    · cases hother
    · obtain ⟨hfolder, hnamed⟩ := Option.ite_none_right_eq_some.mp hchild
      obtain ⟨hotherFolder, hotherNamed⟩ := Option.ite_none_right_eq_some.mp hother
      rw [← Option.some.inj hnamed, ← Option.some.inj hotherNamed] at hsame
      obtain rfl : name = otherName := hsame
      exact hne (congrArg (name :: ·) (hfolder.trans hotherFolder.symm))
  · exact List.nodup_nil

end Tree

end MessageKeys
