import Mathlib.Data.Finset.Card
import MessageKeys.Proofs.FileWork
import MessageKeys.Proofs.Files.TextFile
import MessageKeys.Proofs.Localization.Lines
import MessageKeys.Proofs.Localization.Outcomes

/-!
# The result of localizing a file

A localization that succeeds is told by what became of each value: the bytes of the target, the
report and the progress all follow from that.
-/
namespace MessageKeys.Localization

open OrderedMap (firsts)
open Properties (Line entries parse render)

variable {translator : Translator} {source target : Path} {locale : Locale} {before after : World}

/-- The lines that are written for a source, an earlier target and what became of the values. -/
def linesFor (lines : List Line) (earlier : OrderedMap Text Text)
    (outcomes : OrderedMap Text Outcome) : List Line :=
  withValues (newValue (entries lines) earlier outcomes) lines ++
    (retained lines earlier).map fun (key, value) => .pair key value

/-- How many values came about in a way. -/
def countOf (outcomes : OrderedMap Text Outcome) (way : Outcome → Bool) : Nat :=
  outcomes.values.countP way

theorem targetLines_eq (lines : List Line) (earlier : OrderedMap Text Text)
    {outcomes : OrderedMap Text Outcome} (hk : outcomes.keys = (entries lines).keys) :
    targetLines lines earlier outcomes.entries = linesFor lines earlier outcomes := by
  rw [targetLines, replaceValues_eq, retainedEntries_eq, linesFor]
  congr 1
  refine withValues_congr fun key hm => get?_newValues ?_
  rw [hk, keys_entries, OrderedMap.mem_firsts]
  exact hm

theorem countOf_eq (outcomes : OrderedMap Text Outcome) (way : Outcome → Bool) :
    countOf outcomes way = (outcomes.entries.filter fun entry => way entry.2).length := by
  rw [countOf, OrderedMap.values, List.countP_map, List.countP_eq_length_filter]
  rfl

/-- The entries are as many as there are different keys. -/
theorem size_entries (lines : List Line) :
    (entries lines).size = (pairKeys lines).toFinset.card := by
  have hsame : (pairKeys lines).toFinset = (entries lines).keys.toFinset := by
    ext key
    rw [List.mem_toFinset, List.mem_toFinset, keys_entries, OrderedMap.mem_firsts]
  have hnodup : (entries lines).keys.Nodup := (entries lines).nodup
  rw [hsame, List.toFinset_card_of_nodup hnodup, OrderedMap.keys, List.length_map, OrderedMap.size]

/-- Each value came about in one way. -/
theorem countOf_add (outcomes : OrderedMap Text Outcome) :
    countOf outcomes Outcome.isTranslated + countOf outcomes Outcome.isFallback +
      countOf outcomes Outcome.isUntranslated = outcomes.keys.length := by
  have hall (values : List Outcome) : values.countP Outcome.isTranslated +
      values.countP Outcome.isFallback + values.countP Outcome.isUntranslated = values.length := by
    induction values with
    | nil => rfl
    | cons outcome values ih =>
      rw [List.countP_cons, List.countP_cons, List.countP_cons, List.length_cons]
      cases outcome <;> simp [Outcome.isTranslated, Outcome.isFallback, Outcome.isUntranslated] <;>
        omega
  rw [countOf, countOf, countOf, hall, OrderedMap.values, OrderedMap.keys, List.length_map,
    List.length_map]

/-- Of counts made for one file only the last one counts. -/
theorem rows_replay (tracker : Tracker) {recordings : List Recording} {label : Text}
    (h : ∀ recording ∈ recordings, recording.file = label) (last : Progress) :
    (tracker.replay (recordings ++ [⟨label, last⟩])).rows = tracker.rows.insert label last := by
  induction recordings generalizing tracker with
  | nil => rfl
  | cons recording rest ih =>
    obtain ⟨rfl, hrest⟩ := List.forall_mem_cons.mp h
    refine (ih (tracker.record recording) hrest).trans ?_
    rw [Tracker.record, OrderedMap.insert_insert]

/-- The last count of a file is that of all its entries. -/
theorem rows_replay_journal (tracker : Tracker) (label : Text) (total : Nat) :
    (tracker.replay (journal label total)).rows = tracker.rows.insert label ⟨total, total⟩ := by
  rw [journal, List.range_succ, List.map_append]
  refine rows_replay tracker (fun recording hr => ?_) _
  obtain ⟨processed, -, rfl⟩ := List.mem_map.mp hr
  rfl

theorem readInputs_eq_ok {found : List Line × OrderedMap Text Text}
    (h : (do return (← PropertyFile.read source, ← PropertyFile.readEntries target) :
      Procedure (List Line × OrderedMap Text Text)).runOn before = (.ok found, after)) :
    ∃ content earlier, found = (parse content, earlier) ∧ before.text? source = some content ∧
      (PropertyFile.readEntries target).runOn before = (.ok earlier, before) := by
  obtain ⟨lines, _, hlines, h⟩ := Procedure.runOn_bind_eq_ok.mp h
  obtain ⟨earlier, _, hearlier, h⟩ := Procedure.runOn_bind_eq_ok.mp h
  obtain ⟨rfl, rfl⟩ := Procedure.runOn_pure_eq_ok.mp h
  obtain ⟨rfl, content, hcontent, rfl⟩ := PropertyFile.read_eq_ok.mp hlines
  obtain rfl := (PropertyFile.readEntries_eq_ok.mp hearlier).1
  exact ⟨content, earlier, rfl, hcontent, hearlier⟩

theorem readInputs_of_text? {content : Text} {earlier : OrderedMap Text Text}
    (hcontent : before.text? source = some content)
    (hearlier : (PropertyFile.readEntries target).runOn before = (.ok earlier, before)) :
    (do return (← PropertyFile.read source, ← PropertyFile.readEntries target) :
      Procedure (List Line × OrderedMap Text Text)).runOn before =
        (.ok (parse content, earlier), before) :=
  Procedure.runOn_bind_eq_ok.mpr ⟨parse content, before,
    PropertyFile.read_eq_ok.mpr ⟨rfl, content, hcontent, rfl⟩,
    Procedure.runOn_bind_eq_ok.mpr ⟨earlier, before, hearlier, rfl⟩⟩

/-- Where the inputs can be read, every value is treated, and the localization ends as the writing of
the lines for that does. -/
theorem translateFile_of_inputs {attempt : Attempt} {content : Text}
    {earlier : OrderedMap Text Text} (hcontent : before.text? source = some content)
    (hearlier : (PropertyFile.readEntries target).runOn before = (.ok earlier, before))
    (hrun : (translator.translateFile source locale target).run before = (attempt, after)) :
    ∃ outcomes requests written,
      TreatedAll translator before.service before.clock locale.language ⟨false, before.calls⟩
        (entries (parse content)).entries outcomes requests ∧
      (PropertyFile.write target (targetLines (parse content) earlier outcomes)).runOn
        { before with calls := requests.calls } = (written, after) ∧
      attempt = ⟨journal (progressLabel source locale) (entries (parse content)).size,
        written.map fun _ => report target (entries (parse content)) earlier outcomes⟩ := by
  have hinputs := readInputs_of_text? hcontent hearlier
  obtain ⟨requests, htreated, hworld⟩ := translateEntries_run translator locale.language false
    (entries (parse content)).entries before
  rw [Procedure.runOn] at hinputs
  rw [Translator.translateFile, Program.run_bind, hinputs] at hrun
  dsimp only at hrun
  rw [Program.run_bind, hworld, Program.run_bind] at hrun
  generalize ((translator.translateEntries locale.language false
    (entries (parse content)).entries).run before).1 = outcomes at hrun htreated
  cases hwrote : (PropertyFile.write target (targetLines (parse content) earlier outcomes)).runOn
      { before with calls := requests.calls } with
  | mk written ended =>
    rw [Procedure.runOn] at hwrote
    rw [hwrote] at hrun
    obtain ⟨rfl, rfl⟩ := Prod.mk.inj hrun
    exact ⟨outcomes, requests, written, htreated, hwrote, rfl⟩

/-- The ways in which a localization ends: it breaks off where the inputs cannot be read, or every
value is treated and it ends as the writing of the lines for that does. -/
theorem translateFile_ends {attempt : Attempt}
    (hrun : (translator.translateFile source locale target).run before = (attempt, after)) :
    (∃ failure, attempt = ⟨[], .error failure⟩ ∧ after = before) ∨
      ∃ content earlier outcomes requests written, before.text? source = some content ∧
        (PropertyFile.readEntries target).runOn before = (.ok earlier, before) ∧
        TreatedAll translator before.service before.clock locale.language ⟨false, before.calls⟩
          (entries (parse content)).entries outcomes requests ∧
        (PropertyFile.write target (targetLines (parse content) earlier outcomes)).runOn
          { before with calls := requests.calls } = (written, after) ∧
        attempt = ⟨journal (progressLabel source locale) (entries (parse content)).size,
          written.map fun _ => report target (entries (parse content)) earlier outcomes⟩ := by
  let inputs : Procedure (List Line × OrderedMap Text Text) := do
    return (← PropertyFile.read source, ← PropertyFile.readEntries target)
  have hlooks : Program.Looks inputs.run :=
    .bindRun (PropertyFile.keeps_read source) fun _ =>
      .bindRun (PropertyFile.keeps_readEntries target) fun _ => .pure _
  cases hread : inputs.runOn before with
  | mk result opened =>
    obtain rfl : opened = before := hlooks.ran hread
    cases result with
    | error failure =>
      rw [Procedure.runOn] at hread
      rw [Translator.translateFile, Program.run_bind, hread] at hrun
      obtain ⟨rfl, rfl⟩ := Prod.mk.inj hrun
      exact .inl ⟨failure, rfl, rfl⟩
    | ok found =>
      obtain ⟨content, earlier, rfl, hcontent, hearlier⟩ := readInputs_eq_ok hread
      obtain ⟨outcomes, requests, written, hends⟩ := translateFile_of_inputs hcontent hearlier hrun
      exact .inr ⟨content, earlier, outcomes, requests, written, hcontent, hearlier, hends⟩

/-- A localization that succeeds: the source and the earlier target were read, every value was
treated, and the lines for that were written. -/
theorem translateFile_eq_ok {attempt : Attempt} {report : Report}
    (hrun : (translator.translateFile source locale target).run before = (attempt, after))
    (hok : attempt.result = .ok report) :
    ∃ content earlier outcomes requests, before.text? source = some content ∧
      (PropertyFile.readEntries target).runOn before = (.ok earlier, before) ∧
      TreatedAll translator before.service before.clock locale.language ⟨false, before.calls⟩
        (entries (parse content)).entries outcomes requests ∧
      after.calls = requests.calls ∧
      World.Kept [target.place before.working] before after ∧
      after.tree.read after.working target =
        .ok (render (targetLines (parse content) earlier outcomes)).toBytes ∧
      attempt.journal = journal (progressLabel source locale) (entries (parse content)).size ∧
      report = Localization.report target (entries (parse content)) earlier outcomes := by
  rcases translateFile_ends hrun with ⟨failure, rfl, -⟩ |
    ⟨content, earlier, outcomes, requests, written, hcontent, hearlier, htreated, hwrote, rfl⟩
  · cases hok
  cases written with
  | error failure => cases hok
  | ok value =>
    obtain ⟨hkept, hbytes⟩ := PropertyFile.write_eq_ok hwrote
    have hoff : World.OffTree World.calls := fun _ _ => rfl
    have hcalls := (PropertyFile.keeps_write (hoff.spared [target]) _).ran hwrote
    exact ⟨content, earlier, outcomes, requests, hcontent, hearlier, htreated, hcalls,
      ⟨hkept.working, hkept.tree⟩, hbytes, rfl, (Except.ok.inj hok).symm⟩

/-- Localizing a file does exactly this if it succeeds: what becomes of each value, in the order of
the keys, is what service, phrasebook and clock make of it, and no empty value is sent. A time that is
written behind a value is the one that the clock shows after the last call for it. The target gets the
lines for that, byte by byte. The report counts each way in which a value came about, and the tracker's
row for the file ends with all entries done. -/
theorem translateFile_exact (translator : Translator) (source : Path) (locale : Locale)
    (target : Path) (before : World) {report : Report}
    (hok : ((translator.translateFile source locale target).run before).1.result = .ok report) :
    let attempt := ((translator.translateFile source locale target).run before).1
    let after := ((translator.translateFile source locale target).run before).2
    ∃ content earlier requests, ∃ outcomes : OrderedMap Text Outcome,
      before.text? source = some content ∧
      (PropertyFile.readEntries target).runOn before = (.ok earlier, before) ∧
      let lines := parse content
      TreatedAll translator before.service before.clock locale.language ⟨false, before.calls⟩
        (entries lines).entries outcomes.entries requests ∧
      (∃ sent, after.calls = before.calls ++ sent ∧
        ∀ call ∈ sent, call.1 ∈ (entries lines).values ∧ call.1 ≠ [] ∧ call.2 = locale.language) ∧
      after.tree.read after.working target =
        .ok (render (linesFor lines earlier outcomes)).toBytes ∧
      report.target = target ∧
      report.total = (pairKeys lines).toFinset.card ∧
      report.translated = countOf outcomes Outcome.isTranslated ∧
      report.fallback = countOf outcomes Outcome.isFallback ∧
      report.untranslated = countOf outcomes Outcome.isUntranslated ∧
      report.translated + report.fallback + report.untranslated = report.total ∧
      report.retained = (retained lines earlier).length ∧
      ∀ tracker : Tracker, (tracker.replay attempt.journal).rows.get? (progressLabel source locale) =
        some ⟨report.total, report.total⟩ := by
  intro attempt after
  obtain ⟨content, earlier, outcomes, requests, hcontent, hearlier, htreated, hcalls, -, hbytes,
    hjournal, rfl⟩ := translateFile_eq_ok (Prod.eta _).symm hok
  have hkeys := htreated.map_fst
  have hnodup : (outcomes.map Prod.fst).Nodup := hkeys ▸ (entries (parse content)).nodup
  have hsize : outcomes.length = (entries (parse content)).size := by
    simpa [OrderedMap.size] using congrArg List.length hkeys
  have hcount (way : Outcome → Bool) : (outcomes.filter fun entry => way entry.2).length =
      countOf ⟨outcomes, hnodup⟩ way := (countOf_eq ⟨outcomes, hnodup⟩ way).symm
  refine ⟨content, earlier, requests, ⟨outcomes, hnodup⟩, hcontent, hearlier, htreated, ?_, ?_, rfl,
    size_entries _, hcount _, hcount _, hcount _, ?_, ?_, ?_⟩
  · obtain ⟨sent, hsent, hvalues⟩ := htreated.sent
    exact ⟨sent, hcalls.trans hsent, hvalues⟩
  · have hlines := @targetLines_eq (parse content) earlier ⟨outcomes, hnodup⟩ hkeys
    rw [hbytes, ← hlines]
  · have hall := countOf_add ⟨outcomes, hnodup⟩
    rw [countOf_eq, countOf_eq, countOf_eq, OrderedMap.keys, List.length_map] at hall
    exact hall.trans hsize
  · exact congrArg List.length (retainedEntries_eq (parse content) earlier)
  · intro tracker
    rw [show attempt.journal = _ from hjournal]
    rw [rows_replay_journal, OrderedMap.get?_insert, if_pos rfl]
    rfl

section sample

def sampleSource : Path := ⟨"/p.US_en.properties".toList⟩

def sampleTarget : Path := ⟨"/p.US_es.properties".toList⟩

def spanish : Locale := ⟨"US".toList, "es".toList⟩

/-- A machine with a source, an earlier target and a service. -/
def sampleWorld (content earlier : Text) (service : Service) : World where
  tree := ⟨.ofList [(["p.US_en.properties".toList], .file content.toBytes),
    (["p.US_es.properties".toList], .file earlier.toBytes)]⟩
  working := []
  input := []
  output := []
  errors := []
  service
  calls := []
  time := ⟨0⟩

/-- A translator without a phrasebook. -/
def sampleTranslator : Translator where
  phrasebook := .empty
  options := { Options.defaults with retries := 1 }

/-- A service that answers once and then fails for good. -/
def failingService (answer : Text) : Service
  | 0, _, _ => .error (.status 503)
  | 1, _, _ => .ok answer
  | _, _, _ => .error (.status 404)

end sample

/-- Two values are translated, the first one when it is asked for again, and a third one is found in the
phrasebook; the clock stands at another time behind each of them. Of the others one is empty, and one
has an earlier translation that stays. -/
theorem translateFile_exact_page :
    let service : Service := fun calls _ _ =>
      [.error (.status 503), .ok " t ".toList, .ok "u".toList].getD calls (.error (.status 404))
    let world := sampleWorld "# c\nk=a\n\nk=b\nm=c\nz\n=\ne=\nn=Yes\no=f\n".toList
      "m=d\nx=y\no=d\n".toList service
    let before := { world with
      time := ⟨1767225600000000000⟩
      pace := ⟨fun calls => 1500000000 * calls⟩ }
    let translator : Translator :=
      ⟨Phrasebook.empty.insert "es".toList "Yes".toList "Sí".toList,
        { sampleTranslator.options with timestamps := true }⟩
    let ran := (translator.translateFile sampleSource spanish sampleTarget).run before
    ran.2.text? sampleTarget = some ("# c\nk=t - 2026-01-01T00:00:03Z\n\n".toList ++
        "m=u - 2026-01-01T00:00:04.5Z\nz\n=\ne=\nn=Sí - 2026-01-01T00:00:06Z\no=d\nx=y\n".toList) ∧
      ∃ report : Report, report.translated = 2 ∧ report.fallback = 1 ∧ report.untranslated = 2 ∧
        report.retained = 1 ∧ ∀ tracker : Tracker, (tracker.replay ran.1.journal).rows.get?
          (progressLabel sampleSource spanish) = some ⟨report.total, report.total⟩ := by
  intro service world before translator ran
  have hok : ran.1.result = .ok ⟨sampleTarget, 5, 2, 1, 2, 1⟩ := by decide +kernel
  have hbytes : ran.2.text? sampleTarget = some ("# c\nk=t - 2026-01-01T00:00:03Z\n\n".toList ++
      "m=u - 2026-01-01T00:00:04.5Z\nz\n=\ne=\nn=Sí - 2026-01-01T00:00:06Z\no=d\nx=y\n".toList) := by
    decide +kernel
  clear_value translator before
  obtain ⟨_, _, _, _, -, -, -, -, -, -, -, -, -, -, -, -, htracker⟩ :=
    translateFile_exact translator sampleSource spanish sampleTarget before hok
  exact ⟨hbytes, _, rfl, rfl, rfl, rfl, htracker⟩

end MessageKeys.Localization
