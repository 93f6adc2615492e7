import MessageKeys.Proofs.Files.Contents
import MessageKeys.Proofs.Files.Writing
import MessageKeys.Proofs.Localization.File

/-!
# Localizations that fail

A localization fails where one of its inputs cannot be read, before anything is done, or where its
target cannot be written, after every value was treated: there is no place for a target that was
missing, or it may not be written to. No file changes in either way, if a write that fails leaves the
file as it is. But progress is recorded value by value, and no record is ever taken back: in the second
way the row says that all is done.
-/
namespace MessageKeys.Localization

open Properties (Line entries parse)

variable {translator : Translator} {source target : Path} {locale : Locale} {before after : World}
  {failure : Failure}

/-- Whether a failure is one of reading the source, or the target that is there. -/
def InputUnread (before : World) (source target : Path) (failure : Failure) : Prop :=
  before.text? source = none ∧ PropertyFile.Unread source failure ∨
    (∃ content, before.text? source = some content) ∧
      (before.tree.kind? before.working target).isSome = true ∧ before.text? target = none ∧
      PropertyFile.Unread target failure

/-- A localization that recorded nothing did not get beyond its inputs. -/
theorem inputUnread_of_no_journal
    (hrun : (translator.translateFile source locale target).run before =
      (⟨[], .error failure⟩, after)) : InputUnread before source target failure := by
  let inputs : Procedure (List Line × OrderedMap Text Text) := do
    return (← PropertyFile.read source, ← PropertyFile.readEntries target)
  cases hread : inputs.runOn before with
  | mk result opened =>
    cases result with
    | ok found =>
      obtain ⟨content, earlier, -, hcontent, hearlier⟩ := readInputs_eq_ok hread
      obtain ⟨outcomes, requests, written, -, -, hattempt⟩ :=
        translateFile_of_inputs hcontent hearlier hrun
      simp [journal] at hattempt
    | error fault =>
      have hsame : fault = failure := by
        have hinputs := hread
        rw [Procedure.runOn] at hinputs
        rw [Translator.translateFile, Program.run_bind, hinputs] at hrun
        exact Except.error.inj (congrArg Attempt.result (Prod.mk.inj hrun).1)
      subst hsame
      rcases Procedure.runOn_bind_eq_error.mp hread with h | ⟨lines, between, hlines, h⟩
      · exact .inl (PropertyFile.read_eq_error h)
      · obtain ⟨rfl, content, hcontent, -⟩ := PropertyFile.read_eq_ok.mp hlines
        rcases Procedure.runOn_bind_eq_error.mp h with h | ⟨earlier, _, -, h⟩
        · exact .inr ⟨⟨content, hcontent⟩, PropertyFile.readEntries_eq_error h⟩
        · cases h

/-- A localization that fails changes no file, if a failing write leaves the file as it is. Where an
input cannot be read, nothing else was done either. In all other cases every value was treated as in a
localization that succeeds, and the target is missing or may not be written to: it could not be written,
or the folder for it could not be made. The row of the file is then at the total already, so the tracker
is as before exactly if it was there before. -/
theorem translateFile_fails (translator : Translator) (source : Path) (locale : Locale)
    (target : Path) (before : World) {failure : Failure}
    (hfail : ((translator.translateFile source locale target).run before).1.result =
      .error failure) :
    let attempt := ((translator.translateFile source locale target).run before).1
    let after := ((translator.translateFile source locale target).run before).2
    (before.tree.FailsCleanly → ∀ location,
      after.tree.content? location = before.tree.content? location) ∧
    (InputUnread before source target failure ∧ after = before ∧
        (∀ tracker : Tracker, tracker.replay attempt.journal = tracker) ∨
      ∃ content outcomes requests, before.text? source = some content ∧
        ((before.tree.kind? before.working target).isSome = false ∨
          (before.tree.refusal? (target.place before.working)).isSome = true) ∧
        PropertyFile.Unwritten target failure ∧
        TreatedAll translator before.service before.clock locale.language ⟨false, before.calls⟩
          (entries (parse content)).entries outcomes requests ∧
        after.calls = requests.calls ∧
        let total := (entries (parse content)).size
        let label := progressLabel source locale
        attempt.journal = journal label total ∧
        ∀ tracker : Tracker,
          (tracker.replay attempt.journal).rows = tracker.rows.insert label ⟨total, total⟩ ∧
          ((tracker.replay attempt.journal).rows = tracker.rows ↔
            tracker.rows.get? label = some ⟨total, total⟩)) := by
  intro attempt after
  have hrun : (translator.translateFile source locale target).run before = (attempt, after) := rfl
  change attempt.result = .error failure at hfail
  clear_value attempt after
  rcases translateFile_ends hrun with ⟨fault, rfl, rfl⟩ |
    ⟨content, earlier, outcomes, requests, written, hcontent, hearlier, htreated, hwrote, rfl⟩
  · obtain rfl := Except.error.inj hfail
    exact ⟨fun _ _ => rfl, .inl ⟨inputUnread_of_no_journal hrun, rfl, fun _ => rfl⟩⟩
  cases written with
  | ok value => cases hfail
  | error fault =>
    obtain rfl := Except.error.inj hfail
    have hcontents := PropertyFile.content?_of_write_eq_error hwrote
    -- the calls that were made have no say in what is read of the files
    have hread : (PropertyFile.readEntries target).runOn { before with calls := requests.calls } =
        (.ok earlier, { before with calls := requests.calls }) :=
      PropertyFile.readEntries_eq_ok.mpr ⟨rfl, (PropertyFile.readEntries_eq_ok.mp hearlier).2⟩
    have hkept := PropertyFile.missing_or_refused_of_write_eq_error hread hwrote
    have hoff : World.OffTree World.calls := fun _ _ => rfl
    have hcalls := (PropertyFile.keeps_write (hoff.spared [target]) _).ran hwrote
    refine ⟨hcontents, .inr ⟨content, outcomes, requests, hcontent, hkept,
      PropertyFile.write_eq_error hwrote, htreated, hcalls, rfl, fun tracker => ?_⟩⟩
    rw [rows_replay_journal]
    exact ⟨rfl, OrderedMap.insert_eq_self_iff⟩

/-- A target below a file, where no folder can be made, and one that may only be read. -/
theorem translateFile_fails_blocked :
    let before := sampleWorld "k=Hello\n".toList "k=old\n".toList (failingService "t".toList)
    let below : Path := ⟨"/p.US_es.properties/t".toList⟩
    let guarded := before.readOnly ["p.US_es.properties".toList]
    (∀ location, ((sampleTranslator.translateFile sampleSource spanish below).run
        before).2.tree.content? location = before.tree.content? location) ∧
      let ran := (sampleTranslator.translateFile sampleSource spanish sampleTarget).run guarded
      (∀ location, ran.2.tree.content? location = guarded.tree.content? location) ∧
        ∃ total, ∀ tracker : Tracker, (tracker.replay ran.1.journal).rows =
          tracker.rows.insert (progressLabel sampleSource spanish) ⟨total, total⟩ := by
  intro before below guarded
  have hbelow : ((sampleTranslator.translateFile sampleSource spanish below).run before).1.result =
      .error ⟨["Failed to create directory: /p.US_es.properties".toList], .file .alreadyThere⟩ := by
    decide +kernel
  have hguarded : ((sampleTranslator.translateFile sampleSource spanish sampleTarget).run
      guarded).1.result = .error ⟨["Failed to write file: /p.US_es.properties".toList],
        .file (.refused 13 "Permission denied".toList)⟩ := by
    decide +kernel
  have hallowed : before.tree.FailsCleanly := Tree.failsCleanly_of_allowed fun _ => rfl
  have hclean : guarded.tree.FailsCleanly := before.failsCleanly_readOnly _
  have hsource : guarded.text? sampleSource ≠ none := by decide +kernel
  have htarget : guarded.text? sampleTarget ≠ none := by decide +kernel
  clear_value before guarded
  refine ⟨(translateFile_fails sampleTranslator sampleSource spanish below before hbelow).1 hallowed,
    ?_⟩
  obtain ⟨hcontents, ⟨hunread, -⟩ | ⟨content, outcomes, requests, -, -, -, -, -, -, hrows⟩⟩ :=
    translateFile_fails sampleTranslator sampleSource spanish sampleTarget guarded hguarded
  · rcases hunread with ⟨hnone, -⟩ | ⟨-, -, hnone, -⟩
    · exact absurd hnone hsource
    · exact absurd hnone htarget
  · exact ⟨hcontents hclean, _, fun tracker => (hrows tracker).1⟩

/-- The row says that all is done, and the file could not be written. -/
theorem translateFile_fails_completed :
    let before := sampleWorld "k=Hello\n".toList "k=old\n".toList (failingService "t".toList)
    let below : Path := ⟨"/p.US_es.properties/t".toList⟩
    let attempt := ((sampleTranslator.translateFile sampleSource spanish below).run before).1
    attempt.result =
        .error ⟨["Failed to create directory: /p.US_es.properties".toList], .file .alreadyThere⟩ ∧
      (Tracker.empty.replay attempt.journal).rows.entries = [("p (US_es)".toList, ⟨1, 1⟩)] ∧
      Tracker.empty.rows.entries = [] := by
  decide +kernel

end MessageKeys.Localization
