import Mathlib.Algebra.Ring.Nat
import MessageKeys.Proofs.Localization.File
import MessageKeys.Proofs.Localization.Target

/-!
# The progress of many localizations

Localizations that share a tracker leave one row for each label, and in it the total of the last of
them under that label. A label tells a file by its name up to the first dot. So nothing is lost
exactly if no two localizations into one locale are of files with names alike so far. A run of the
command in which none fails is a sequence of such localizations.
-/
namespace MessageKeys

theorem Tracker.overall_total (tracker : Tracker) :
    tracker.overall.total = (tracker.rows.values.map Progress.total).sum := by
  rw [overall]
  induction tracker.rows.values with
  | nil => rfl
  | cons progress rest ih => rw [List.foldr_cons, Progress.add, ih, List.map_cons, List.sum_cons]

namespace Localization

open LocalizationRun (keyFileEnding)

/-- The part of a file's name that its label shows. -/
def baseName (file : Path) : Text :=
  (file.fileName?.getD []).takeWhile (· != '.')

/-- A locale that can be told from what is written of it behind a name. -/
structure Plain (locale : Locale) : Prop where
  region : '_' ∉ locale.region
  text : '(' ∉ locale.toText

theorem Plain.toText_inj {a b : Locale} (ha : Plain a) (hb : Plain b) (h : a.toText = b.toText) :
    a = b := by
  have hcut (locale : Locale) (hl : Plain locale) :
      locale.toText.cut? ['_'] = some (locale.region, locale.language) := by
    rw [show locale.toText = locale.region ++ (['_'] ++ locale.language) from rfl]
    exact Text.cut?_of_clear (Text.clear_of_head_not_mem rfl hl.region)
  have hsame := (hcut a ha).symm.trans (h ▸ hcut b hb)
  obtain ⟨hregion, hlanguage⟩ := Prod.mk.inj (Option.some.inj hsame)
  obtain ⟨region, language⟩ := a
  exact congrArg₂ Locale.mk hregion hlanguage

/-- Labels are alike if what they show of the files and the locales are. -/
theorem progressLabel_inj {file other : Path} {a b : Locale} (ha : Plain a) (hb : Plain b) :
    progressLabel file a = progressLabel other b ↔ baseName file = baseName other ∧ a = b := by
  have hlabel (file : Path) (locale : Locale) : progressLabel file locale =
      (baseName file ++ [' ']) ++ '(' :: (locale.toText ++ [')']) := by
    simp [progressLabel, baseName]
  have hbehind {locale : Locale} (hl : Plain locale) : '(' ∉ locale.toText ++ [')'] := by
    simpa using hl.text
  rw [hlabel, hlabel, Text.append_separator_inj (hbehind ha) (hbehind hb), List.append_left_inj,
    List.append_left_inj]
  exact and_congr_right fun _ => ⟨ha.toText_inj hb, congrArg Locale.toText⟩

/-- A localization that is asked for. -/
structure Call where
  translator : Translator
  source : Path
  locale : Locale
  target : Path

namespace Call

def attempt (call : Call) (before : World) : Attempt :=
  ((call.translator.translateFile call.source call.locale call.target).run before).1

def label (call : Call) : Text :=
  progressLabel call.source call.locale

/-- The row that a localization leaves by itself. -/
def row (done : Call × Report) : Text × Progress :=
  (done.1.label, ⟨done.2.total, done.2.total⟩)

end Call

/-- Localizations that succeed one after the other and share a tracker. Anything may happen to the
machine between two of them. -/
inductive Tracked : Tracker → List (Call × Report) → Tracker → Prop
  | nil (tracker : Tracker) : Tracked tracker [] tracker
  | cons {call : Call} {before : World} {report : Report} {tracker after : Tracker}
      {rest : List (Call × Report)} (hok : (call.attempt before).result = .ok report)
      (hrest : Tracked (tracker.replay (call.attempt before).journal) rest after) :
      Tracked tracker ((call, report) :: rest) after

/-- Each localization has its row, and the total is that of all of them. -/
structure NothingLost (calls : List (Call × Report)) (tracker : Tracker) : Prop where
  rows : tracker.rows.entries = calls.map Call.row
  total : tracker.overall.total = (calls.map fun done => done.2.total).sum

variable {calls : List (Call × Report)} {tracker after : Tracker}

/-- A localization that succeeds puts its total under its label. -/
theorem rows_replay_attempt {call : Call} {before : World} {report : Report}
    (hok : (call.attempt before).result = .ok report) (tracker : Tracker) :
    (tracker.replay (call.attempt before).journal).rows =
      tracker.rows.insert call.label ⟨report.total, report.total⟩ := by
  obtain ⟨content, earlier, outcomes, requests, -, -, -, -, -, -, hjournal, rfl⟩ :=
    translateFile_eq_ok (Prod.eta _).symm hok
  rw [show (call.attempt before).journal = _ from hjournal]
  exact rows_replay_journal tracker _ _

theorem Tracked.rows (h : Tracked tracker calls after) :
    after.rows = tracker.rows.insertAll (calls.map Call.row) := by
  induction h with
  | nil tracker => rfl
  | cons hok hrest ih => rw [ih, rows_replay_attempt hok, List.map_cons, OrderedMap.insertAll_cons,
      Call.row]

theorem map_fst_row (calls : List (Call × Report)) :
    (calls.map Call.row).map Prod.fst = calls.map fun done => done.1.label := by
  rw [List.map_map]
  rfl

/-- Nothing is lost if and only if the labels are different. -/
theorem Tracked.nothingLost_iff (h : Tracked .empty calls after) :
    NothingLost calls after ↔ (calls.map fun done => done.1.label).Nodup := by
  rw [← map_fst_row]
  have hrows : after.rows = .ofList (calls.map Call.row) := h.rows
  constructor
  · intro hn
    rw [← hn.rows]
    exact after.rows.nodup
  · intro hn
    have hentries : after.rows.entries = calls.map Call.row := by
      rw [hrows, OrderedMap.entries_ofList_of_nodup _ hn]
    refine ⟨hentries, ?_⟩
    rw [Tracker.overall_total, OrderedMap.values, hentries, List.map_map, List.map_map]
    rfl

/-- Labels tell all localizations apart if and only if no two of them are into one locale and of
files with one base name. -/
theorem nodup_labels_iff (hplain : ∀ done ∈ calls, Plain done.1.locale) :
    (calls.map fun done => done.1.label).Nodup ↔
      (calls.map fun done => (baseName done.1.source, done.1.locale)).Nodup := by
  rw [List.Nodup, List.Nodup, List.pairwise_map, List.pairwise_map]
  refine List.Pairwise.iff_of_mem fun {a b} ha hb => not_congr ?_
  rw [Call.label, Call.label, progressLabel_inj (hplain a ha) (hplain b hb), Prod.mk.injEq]

theorem baseName_keyFile {base : Text} {source : Locale} (hdot : '.' ∉ base)
    (hslash : '/' ∉ base ++ keyFileEnding source) (folder : Path) :
    baseName (keyFile folder source base) = base := by
  rw [baseName, keyFile, Path.fileName?_join (isName_keyFile hslash), Option.getD_some,
    List.takeWhile_append_of_pos]
  · simp [keyFileEnding, Locale.segment]
  · intro c hc
    simpa using fun (h : c = '.') => hdot (h ▸ hc)

/-- The localizations of a run of the command, one for each pair of a file and a locale. -/
def callsOf (translator : Translator) (source : Locale) (pairs : List (Path × Locale)) : List Call :=
  pairs.map fun (file, locale) => ⟨translator, file, locale, targetPath file source locale⟩

/-- A run of the command in which nothing fails is a sequence of localizations that succeed. -/
theorem tracked_translateAll {colors : Bool} {translator : Translator} {source : Locale}
    {pairs : List (Path × Locale)} {tally done : LocalizationRun.Tally} {before ended : World}
    (hrun : (LocalizationRun.translateAll colors translator source tally pairs).run before =
      (done, ended)) :
    tally.failed ≤ done.failed ∧ (done.failed = tally.failed → ∃ reports : List Report,
      reports.length = pairs.length ∧
        Tracked tally.tracker ((callsOf translator source pairs).zip reports) done.tracker) := by
  induction pairs generalizing tally before with
  | nil =>
    obtain ⟨rfl, rfl⟩ := Prod.mk.inj hrun
    exact ⟨le_rfl, fun _ => ⟨[], rfl, .nil _⟩⟩
  | cons pair rest ih =>
    obtain ⟨file, locale⟩ := pair
    rw [LocalizationRun.translateAll, Program.run_bind] at hrun
    cases hresult : ((translator.translateFile file locale
        (targetPath file source locale)).run before).1.result with
    | ok report =>
      simp only [hresult] at hrun
      obtain ⟨hle, hrest⟩ := ih hrun
      refine ⟨hle, fun hnone => ?_⟩
      obtain ⟨reports, hlength, htracked⟩ := hrest hnone
      have hok : (Call.attempt ⟨translator, file, locale, targetPath file source locale⟩
        before).result = .ok report := hresult
      exact ⟨report :: reports, congrArg (· + 1) hlength, .cons hok htracked⟩
    | error failure =>
      simp only [hresult] at hrun
      rw [Program.run_bind] at hrun
      have hle := (ih hrun).1
      exact ⟨by simp only at hle; omega, fun hnone => by simp only at hle; omega⟩

/-- After localizations that succeed and share a tracker that was empty, each label has one row, in
the order of the first of them under it, with the total of the last. Nothing is lost if and only if
the labels are different, and for plain locales, if and only if no two localizations are into one
locale and of files with one base name. So nothing is lost of the key files of a locale in a folder
that have no dot in front of the locale, if no file is localized twice into one locale. Such
localizations are those of a run of the command in which none fails. -/
theorem rows_of_calls (colors : Bool) :
    (∀ (calls : List (Call × Report)) (after : Tracker), Tracked .empty calls after →
      after.rows = .ofList (calls.map Call.row) ∧
        (NothingLost calls after ↔ (calls.map fun done => done.1.label).Nodup) ∧
        ((∀ done ∈ calls, Plain done.1.locale) →
          (NothingLost calls after ↔
            (calls.map fun done => (baseName done.1.source, done.1.locale)).Nodup)) ∧
        ∀ (folder : Path) (source : Locale),
          (∀ done ∈ calls, Plain done.1.locale ∧ ∃ base, '.' ∉ base ∧
            '/' ∉ base ++ keyFileEnding source ∧ done.1.source = keyFile folder source base) →
          (calls.map fun done => (done.1.source, done.1.locale)).Nodup → NothingLost calls after) ∧
    ∀ translator source pairs before,
      let done := ((LocalizationRun.translateAll colors translator source ⟨.empty, 0⟩ pairs).run
        before).1
      done.failed = 0 → ∃ reports : List Report, reports.length = pairs.length ∧
        Tracked .empty ((callsOf translator source pairs).zip reports) done.tracker := by
  refine ⟨fun calls after h => ?_, ?_⟩
  swap
  · intro translator source pairs before done hnone
    exact (tracked_translateAll (Prod.eta _).symm).2 hnone
  have hbases (hplain : ∀ done ∈ calls, Plain done.1.locale) : NothingLost calls after ↔
      (calls.map fun done => (baseName done.1.source, done.1.locale)).Nodup :=
    h.nothingLost_iff.trans (nodup_labels_iff hplain)
  refine ⟨h.rows, h.nothingLost_iff, hbases, fun folder source hfiles hpairs => ?_⟩
  refine (hbases fun done hd => (hfiles done hd).1).mpr ?_
  rw [List.Nodup, List.pairwise_map] at hpairs ⊢
  refine hpairs.imp_of_mem fun {a b} ha hb hne hsame => hne ?_
  obtain ⟨-, base, hdot, hslash, ha⟩ := hfiles a ha
  obtain ⟨-, other, hdot', hslash', hb⟩ := hfiles b hb
  obtain ⟨hbase, hlocale⟩ := Prod.mk.inj hsame
  rw [ha, hb, baseName_keyFile hdot hslash, baseName_keyFile hdot' hslash'] at hbase
  rw [ha, hb, hbase, hlocale]

section sample

/-- The localization of a key file into another language of its region. -/
def sampleCall (base language : Text) : Call where
  translator := sampleTranslator
  source := keyFile sampleFolder english base
  locale := english.withLanguage language
  target := targetPath (keyFile sampleFolder english base) english (english.withLanguage language)

def homeAndShop : World :=
  folderOf [("home.US_en.properties".toList, "x=a\n".toList),
    ("shop.US_en.properties".toList, "y=b\nz=c\n".toList)]

end sample

/-- A run over two files and two languages, one of them for one file only. -/
theorem rows_of_calls_home_shop :
    let file := fun base : String => keyFile sampleFolder english base.toList
    let pairs := [(file "home", spanish), (file "shop", spanish),
      (file "home", english.withLanguage "de".toList)]
    let done := ((LocalizationRun.translateAll false sampleTranslator english ⟨.empty, 0⟩ pairs).run
      homeAndShop).1
    done.tracker.rows.entries = [("home (US_es)".toList, ⟨1, 1⟩), ("shop (US_es)".toList, ⟨2, 2⟩),
        ("home (US_de)".toList, ⟨1, 1⟩)] ∧
      ∃ reports, NothingLost ((callsOf sampleTranslator english pairs).zip reports) done.tracker := by
  intro file pairs done
  have hrows : done.tracker.rows.entries = [("home (US_es)".toList, ⟨1, 1⟩),
      ("shop (US_es)".toList, ⟨2, 2⟩), ("home (US_de)".toList, ⟨1, 1⟩)] := by decide +kernel
  have hnone : done.failed = 0 := by decide +kernel
  have hcalls : ∀ call ∈ callsOf sampleTranslator english pairs, Plain call.locale ∧ ∃ base,
      '.' ∉ base ∧ '/' ∉ base ++ keyFileEnding english ∧
        call.source = keyFile sampleFolder english base := by
    simp only [callsOf, pairs, List.map_cons, List.map_nil, List.forall_mem_cons, List.not_mem_nil,
      false_implies, implies_true, and_true]
    exact ⟨⟨⟨by decide, by decide⟩, "home".toList, by decide, by decide, rfl⟩,
      ⟨⟨by decide, by decide⟩, "shop".toList, by decide, by decide, rfl⟩,
      ⟨by decide, by decide⟩, "home".toList, by decide, by decide, rfl⟩
  have hpairs : ((callsOf sampleTranslator english pairs).map fun call =>
      (call.source, call.locale)).Nodup := by decide +kernel
  obtain ⟨reports, hlength, htracked⟩ :=
    (rows_of_calls false).2 sampleTranslator english pairs homeAndShop hnone
  refine ⟨hrows, reports, ?_⟩
  obtain ⟨-, -, -, hkept⟩ := (rows_of_calls false).1 _ _ htracked
  refine hkept sampleFolder english (fun call hc => hcalls call.1 (List.of_mem_zip hc).1) ?_
  have hfirst : ((callsOf sampleTranslator english pairs).zip reports).map Prod.fst =
      callsOf sampleTranslator english pairs :=
    List.map_fst_zip (by rw [hlength, callsOf, List.length_map])
  rw [← hfirst, List.map_map] at hpairs
  exact hpairs

/-- Two files of one folder whose names have dots in them may share a row: `a.b.US_en.properties`
and `a.c.US_en.properties` are both shown as `a`. -/
theorem progress_lost : ∃ calls after, Tracked .empty calls after ∧
    (calls.map fun done => done.1.source) =
      ["a.b", "a.c"].map (fun base => keyFile sampleFolder english base.toList) ∧
    (calls.map fun done => done.2.total) = [1, 2] ∧
    after.rows.entries = [("a (US_es)".toList, ⟨2, 2⟩)] ∧ after.overall.total = 2 := by
  have hb : ((sampleCall "a.b".toList "es".toList).attempt
      (folderOf [("a.b.US_en.properties".toList, "x=a\n".toList)])).result =
      .ok ⟨⟨"/k/a.b.US_es.properties".toList⟩, 1, 0, 0, 1, 0⟩ := by decide +kernel
  have hc : ((sampleCall "a.c".toList "es".toList).attempt
      (folderOf [("a.c.US_en.properties".toList, "y=b\nz=c\n".toList)])).result =
      .ok ⟨⟨"/k/a.c.US_es.properties".toList⟩, 2, 0, 0, 2, 0⟩ := by decide +kernel
  exact ⟨_, _, .cons hb (.cons hc (.nil _)), rfl, rfl, by decide +kernel, by decide +kernel⟩

end Localization
end MessageKeys
