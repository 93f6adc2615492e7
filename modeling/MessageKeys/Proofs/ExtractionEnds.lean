import MessageKeys.Proofs.Dialogue
import MessageKeys.Proofs.ExtractionRun
import MessageKeys.Proofs.Files.Contents
import MessageKeys.Proofs.Files.Writing

/-!
# How the work on a source ends

Work on a source ends in one of five ways: the source cannot be read, the user declines, the key file
or then the source cannot be written, or the messages are extracted. Up to the question about the
modification nothing but the dialogue changes. The key file is the first of both files to be
written; so if a write that fails leaves the file as it is, each text is still in the source or
already in the key file. It is in both if the source is refused: it could be read, and was not to be
written.
-/
namespace MessageKeys

variable {γ : Type} {view : World → γ} {before after : World} {path : Path} {failure : Failure}

/-- The pairs of the property file at a location: none where no file stands. A file that is not text
has no pairs that could be told. -/
def World.entriesAt? (world : World) (location : Location) : Option (OrderedMap Text Text) :=
  match world.tree.content? location with
  | none => some .empty
  | some bytes => (Text.ofBytes? bytes).map fun content => Properties.entries (Properties.parse content)

theorem World.entriesAt?_of_text? {content : Text} (h : before.text? path = some content) :
    before.entriesAt? (path.place before.working) =
      some (Properties.entries (Properties.parse content)) := by
  rw [entriesAt?, content?_of_text? h]
  simp [Text.ofBytes?_toBytes]

namespace TextFile

variable {step content : Text}

/-- Nothing stands where a file is written and was not there. -/
theorem content?_of_write (h : (write step path content).runOn before = (.ok (), after))
    (hk : before.tree.kind? before.working path = none) :
    before.tree.content? (path.place before.working) = none := by
  rw [write, Procedure.runOn_inStep_eq_ok, World.perform] at h
  split at h
  · next tree hw =>
    obtain ⟨location, hl, -⟩ := Tree.write_eq_ok hw
    rw [← Tree.place_of_locate hl]
    exact Tree.content?_of_missing hl hk
  · simp at h

end TextFile

namespace KeyFile

variable {plugin : Plugin} {base : Text} {locale : Locale} {messages : Messages}

/-- Where a key file cannot be written, no file changes, if failing writes leave the files. -/
theorem content?_of_write_eq_error
    (h : (write plugin path base locale messages).runOn before = (.error failure, after))
    (hclean : before.tree.FailsCleanly) (location : Location) : after.tree.content? location = before.tree.content? location := by
  have hmaking := TextFile.writesOnly_makeParent path
  have hlooks : Program.Looks (PropertyFile.readEntries path).run :=
    PropertyFile.keeps_readEntries path
  rcases Procedure.runOn_bind_eq_error.mp h with h | ⟨_, opened, hopened, h⟩
  · exact (hmaking.ran h).2 location (by simp)
  rw [← (hmaking.ran hopened).2 location (by simp)]
  rcases Procedure.runOn_bind_eq_error.mp h with h | ⟨earlier, read, hread, h⟩
  · rw [hlooks.ran h]
  rcases Procedure.runOn_bind_eq_error.mp h with h | ⟨_, wrote, -, h⟩
  · have hstill := Procedure.failsCleanly hread (Procedure.failsCleanly hopened hclean)
    rw [TextFile.write_eq_error h hstill, hlooks.ran hread]
  · cases h

/-- Where a key file was written, none is refused. -/
theorem allowed_of_write {counted : Stats}
    (h : (write plugin path base locale messages).runOn before = (.ok counted, after)) :
    before.tree.refusal? (path.place before.working) = none := by
  obtain ⟨earlier, made, hmade, -, hwrote, -⟩ := write_ran h
  exact TextFile.allowed_of_prepared hmade hwrote

/-- A key file that is written holds the messages laid over the pairs that were at its place, and the
keys are counted against these pairs. -/
theorem entriesAt?_of_write_eq_ok {counted : Stats}
    (h : (write plugin path base locale messages).runOn before = (.ok counted, after)) :
    ∃ earlier, before.entriesAt? (path.place before.working) = some earlier ∧
      World.Kept [path.place before.working] before after ∧
      after.text? path = some (render plugin base locale (earlier.merge messages)) ∧
      counted = stats earlier messages := by
  obtain ⟨earlier, made, hmade, hread, hwrote, hcounted⟩ := write_ran h
  have hcontent := ((TextFile.writesOnly_makeParent path).ran hmade).2
    (path.place before.working) (by simp)
  have hkept := TextFile.kept_makeParent hmade
  obtain ⟨-, hearlier⟩ := PropertyFile.readEntries_eq_ok.mp hread
  obtain ⟨hwritten, htext⟩ := TextFile.write_eq_ok hwrote
  have hall := hkept.trans hwritten
  rw [hkept.working] at hall
  have hsame : before.entriesAt? (path.place before.working) =
      made.entriesAt? (path.place made.working) := by
    rw [World.entriesAt?, World.entriesAt?, hkept.working, hcontent]
  refine ⟨earlier, ?_, hall, htext, hcounted⟩
  rw [hsame]
  rcases hearlier with ⟨hkind, rfl⟩ | ⟨content, hc, rfl⟩
  · rw [World.entriesAt?, TextFile.content?_of_write hwrote (by simpa using hkind)]
  · exact World.entriesAt?_of_text? hc

end KeyFile

namespace KeyExtraction

open Markup (prepare)

variable {setup : Setup} {source : Path} {document : Text}

/-- The answer about the modification of a document, and the world after it. -/
def asked (setup : Setup) (document : Text) (world : World) : Bool × World :=
  (confirm setup.agreed modifyQuestion).run ((mayReindex setup.agreed document).run world).2

/-- The world in which source and key file have been copied. -/
def copied (setup : Setup) (source : Path) (document : Text) (world : World) : World :=
  ((Backup.save setup.backupFolder [source, setup.destination source]).run
    (asked setup document world).2).2

/-- What the messages of a document and the document itself become after the answer about its
keys. -/
def preparation (setup : Setup) (document : Text) (world : World) : Markup.Prepared :=
  prepare document ((mayReindex setup.agreed document).run world).1

/-- Lays the messages over the key file of a source. -/
def mergeKeys (setup : Setup) (source : Path) (messages : Messages) : Procedure KeyFile.Stats :=
  KeyFile.write setup.plugin (setup.destination source) (KeyFile.baseName source) setup.locale messages

/-- The text of the key file of a source after that. -/
def mergedText (setup : Setup) (source : Path) (earlier messages : Messages) : Text :=
  KeyFile.render setup.plugin (KeyFile.baseName source) setup.locale (earlier.merge messages)

def rewriteSource (source : Path) (content : Text) : Procedure Unit :=
  TextFile.write ("Failed to write file: ".toList ++ source.text) source content

/-- The ways in which work on a source can end. -/
inductive Ends (setup : Setup) (source : Path) (before : World) :
    Except Failure (Option Extracted) → World → Prop where
  | unread {failure : Failure} (hnone : before.text? source = none) :
      Ends setup source before (.error failure) before
  | declined {document : Text} (hdocument : before.text? source = some document)
      (hno : (asked setup document before).1 = false) :
      Ends setup source before (.ok none) (asked setup document before).2
  | unmerged {document : Text} {failure : Failure} {after : World}
      (hdocument : before.text? source = some document)
      (hyes : (asked setup document before).1 = true)
      (hmerge : (mergeKeys setup source (preparation setup document before).messages).runOn
        (copied setup source document before) = (.error failure, after)) :
      Ends setup source before (.error failure) after
  | unwritten {document : Text} {stats : KeyFile.Stats} {failure : Failure} {merged after : World}
      (hdocument : before.text? source = some document)
      (hyes : (asked setup document before).1 = true)
      (hmerge : (mergeKeys setup source (preparation setup document before).messages).runOn
        (copied setup source document before) = (.ok stats, merged))
      (hwrite : (rewriteSource source (preparation setup document before).materialized).runOn merged =
        (.error failure, after)) :
      Ends setup source before (.error failure) after
  | extracted {document : Text} {stats : KeyFile.Stats} {merged after : World}
      (hdocument : before.text? source = some document)
      (hyes : (asked setup document before).1 = true)
      (hmerge : (mergeKeys setup source (preparation setup document before).messages).runOn
        (copied setup source document before) = (.ok stats, merged))
      (hwrite : (rewriteSource source (preparation setup document before).materialized).runOn merged =
        (.ok (), after)) :
      Ends setup source before (.ok (some ⟨setup.destination source, stats⟩)) after

theorem extractFile_ends (setup : Setup) (source : Path) (before : World) :
    Ends setup source before ((extractFile setup source).runOn before).1
      ((extractFile setup source).runOn before).2 := by
  generalize hran : (extractFile setup source).runOn before = ran
  unfold extractFile at hran
  have hlooks : Program.Looks (TextFile.read ("Failed to read source file: ".toList ++ source.text)
    source).run := TextFile.keeps_read _ source
  rcases Procedure.runOn_bind_eq hran with ⟨document, opened, hread, hask⟩ | ⟨failure, after, hread, rfl⟩
  · obtain ⟨rfl, hdocument⟩ := TextFile.read_eq_ok.mp hread
    rw [Procedure.runOn_liftM_bind, Procedure.runOn_liftM_bind] at hask
    change (if (asked setup document opened).1 = true then _ else _ : Procedure _).runOn
      (asked setup document opened).2 = _ at hask
    split at hask
    · next hyes =>
      rw [Procedure.runOn_liftM_bind] at hask
      rcases Procedure.runOn_bind_eq hask with ⟨stats, merged, hmerge, hclose⟩ |
        ⟨failure, after, hmerge, rfl⟩
      · rcases Procedure.runOn_bind_eq hclose with ⟨_, after, hwrite, rfl⟩ |
          ⟨failure, after, hwrite, rfl⟩
        · exact .extracted hdocument hyes hmerge hwrite
        · exact .unwritten hdocument hyes hmerge hwrite
      · exact .unmerged hdocument hyes hmerge
    · next hno =>
      obtain rfl := hask
      exact .declined hdocument (by simpa using hno)
  · obtain rfl : after = before := hlooks.ran hread
    refine .unread ?_
    cases ht : after.text? source with
    | none => rfl
    | some document =>
      rw [TextFile.read_eq_ok.mpr ⟨rfl, ht⟩] at hread
      cases hread

/-- What input and output have no say in stays while the questions are asked. -/
theorem view_asked (view : World → γ) (hview : World.OffDialogue view) (setup : Setup)
    (document : Text) (world : World) : view (asked setup document world).2 = view world := by
  have hmay : Program.Keeps view (mayReindex setup.agreed document) := by
    unfold mayReindex
    split
    · exact .pure _
    · exact keeps_confirm hview _ _
  exact (keeps_confirm hview _ _ _).trans (hmay world)

theorem view_copied (view : World → γ) (hview : World.OffDialogue view)
    (hfiles : World.Spared view (backups setup source)) (document : Text) (world : World) :
    view (copied setup source document world) = view world :=
  (Backup.keeps_save _ _ hfiles _).trans (view_asked view hview setup document world)

theorem kept_copied (setup : Setup) (source : Path) (document : Text) (world : World) :
    World.Kept ((backups setup source).map (Path.place world.working)) world
      (copied setup source document world) := by
  have hasking : World.Kept [] world (asked setup document world).2 :=
    (kept_mayReindex setup.agreed document world).trans (kept_confirm setup.agreed modifyQuestion _)
  have hsaving := hasking.trans
    (Backup.kept_save setup.backupFolder [source, setup.destination source] _)
  rwa [hasking.working] at hsaving

/-- The copies leave all other contents. -/
theorem content?_copied {location : Location} {world : World}
    (hl : location ∉ (backups setup source).map (Path.place world.working)) (document : Text) :
    (copied setup source document world).tree.content? location = world.tree.content? location :=
  World.content?_of_aside (view_copied (World.aside (backups setup source) location)
    (fun _ _ _ => rfl) (World.spared_aside _ _) document world) hl

theorem refusals_copied (setup : Setup) (source : Path) (document : Text) (world : World) :
    (copied setup source document world).tree.refusals = world.tree.refusals :=
  view_copied (fun world => world.tree.refusals) (fun _ _ _ => rfl)
    (fun _ _ _ => Program.keeps_refusals _) document world

theorem refusal?_copied (setup : Setup) (source : Path) (document : Text) (world : World)
    (path : Path) :
    (copied setup source document world).tree.refusal?
        (path.place (copied setup source document world).working) =
      world.tree.refusal? (path.place world.working) := by
  rw [Tree.refusal?_congr (refusals_copied setup source document world),
    (kept_copied setup source document world).working]

section merged

variable {messages : Messages} {stats : KeyFile.Stats} {merged : World}
  (hmerge : (mergeKeys setup source messages).runOn (copied setup source document before) =
    (.ok stats, merged))
include hmerge

theorem working_merged : merged.working = before.working := by
  obtain ⟨_, -, hkept, -, -⟩ := KeyFile.entriesAt?_of_write_eq_ok hmerge
  exact hkept.working.trans (kept_copied setup source document before).working

theorem refusals_merged : merged.tree.refusals = before.tree.refusals :=
  ((mergeKeys setup source messages).run.keeps_refusals.ran hmerge).trans
    (refusals_copied setup source document before)

theorem refusal?_merged (path : Path) : merged.tree.refusal? (path.place merged.working) =
    before.tree.refusal? (path.place before.working) := by
  rw [Tree.refusal?_congr (refusals_merged hmerge), working_merged hmerge]

/-- Where the key file was written, none is refused. -/
theorem allowed_destination :
    before.tree.refusal? ((setup.destination source).place before.working) = none := by
  have hallowed := KeyFile.allowed_of_write hmerge
  rwa [refusal?_copied] at hallowed

/-- The source can still be read when the key file is written. -/
theorem exists_text?_merged (hdocument : before.text? source = some document)
    (hcopies : source.place before.working ∉ (backups setup source).map (Path.place before.working)) :
    ∃ text, merged.text? source = some text := by
  have hcopied := kept_copied setup source document before
  have hsource := hcopied.text? hdocument hcopies
  obtain ⟨earlier, -, hkept, htext, -⟩ := KeyFile.entriesAt?_of_write_eq_ok hmerge
  by_cases hp : source.place (copied setup source document before).working =
      (setup.destination source).place (copied setup source document before).working
  · exact ⟨_, hkept.text?_of_place hsource htext hp⟩
  · exact ⟨_, hkept.text? hsource (by simpa using hp)⟩

/-- What the key file then holds, told by the pairs that were at its place in the beginning. -/
theorem text?_destination_merged
    (hcopies : (setup.destination source).place before.working ∉
      (backups setup source).map (Path.place before.working)) :
    ∃ earlier, before.entriesAt? ((setup.destination source).place before.working) = some earlier ∧
      merged.text? (setup.destination source) = some (mergedText setup source earlier messages) := by
  obtain ⟨earlier, hearlier, -, htext, -⟩ := KeyFile.entriesAt?_of_write_eq_ok hmerge
  rw [World.entriesAt?, (kept_copied setup source document before).working,
    content?_copied hcopies] at hearlier
  exact ⟨earlier, hearlier, htext⟩

/-- No other file but the copies has changed by then. -/
theorem content?_merged {location : Location}
    (hcopies : location ∉ (backups setup source).map (Path.place before.working))
    (hl : location ≠ (setup.destination source).place before.working) :
    merged.tree.content? location = before.tree.content? location := by
  have hwrites : Program.WritesOnly [setup.destination source] (mergeKeys setup source messages).run :=
    fun location => KeyFile.keeps_write (World.spared_aside _ location) _ _ _ _
  have hcopied := (hwrites.ran hmerge).2 location
  rw [(kept_copied setup source document before).working] at hcopied
  exact (hcopied (by simpa using hl)).trans (content?_copied hcopies document)

end merged

/-- The source is the last to be written. It could be read, so it is unwritten only if it is refused,
and that is another place than that of the key file. -/
theorem refused_of_unwritten {stats : KeyFile.Stats} {merged : World} {messages : Messages}
    {content : Text} {failure : Failure} (hdocument : before.text? source = some document)
    (hcopies : source.place before.working ∉ (backups setup source).map (Path.place before.working))
    (hmerge : (mergeKeys setup source messages).runOn (copied setup source document before) =
      (.ok stats, merged))
    (hwrite : (rewriteSource source content).runOn merged = (.error failure, after))
    (hclean : before.tree.FailsCleanly) :
    after = merged ∧ (setup.destination source).place before.working ≠ source.place before.working ∧
      ∃ refusal, before.tree.refusal? (source.place before.working) = some refusal ∧
        failure = ⟨["Failed to write file: ".toList ++ source.text], .file refusal.fault⟩ := by
  obtain ⟨text, htext⟩ := exists_text?_merged hmerge hdocument hcopies
  obtain ⟨refusal, hr, rfl, rfl⟩ := TextFile.refused_of_write_eq_error htext hwrite
  rw [Tree.spoil_of_failsCleanly (hclean.congr (refusals_merged hmerge))]
  rw [refusal?_merged hmerge] at hr
  refine ⟨rfl, fun hsame => ?_, refusal, hr, rfl⟩
  rw [← hsame, allowed_destination hmerge] at hr
  cases hr

/-- Work on a source is all or nothing for it, if no copy is made over the source or its key file. A
user who declines leaves the whole tree. A failure leaves the source and its key file, if failing
writes leave the files; but where the source is refused, the key file holds the merged entries
already. After a success the source holds the references. The key file then holds the merged entries,
unless it is the source itself: the references are written last. -/
theorem extractFile_all_or_nothing (setup : Setup) (source : Path) (before : World)
    (hcopies : ∀ path ∈ [source, setup.destination source],
      path.place before.working ∉ (backups setup source).map (Path.place before.working)) :
    let destination := setup.destination source
    let ran := (extractFile setup source).runOn before
    (ran.1 = .ok none → ran.2.tree = before.tree) ∧
    (∀ failure, ran.1 = .error failure → before.tree.FailsCleanly →
      ran.2.tree.content? (source.place before.working) =
          before.tree.content? (source.place before.working) ∧
        (ran.2.tree.content? (destination.place before.working) =
            before.tree.content? (destination.place before.working) ∨
          ∃ refusal document earlier,
            before.tree.refusal? (source.place before.working) = some refusal ∧
            failure = ⟨["Failed to write file: ".toList ++ source.text], .file refusal.fault⟩ ∧
            before.text? source = some document ∧
            before.entriesAt? (destination.place before.working) = some earlier ∧
            ran.2.text? destination =
              some (mergedText setup source earlier (preparation setup document before).messages))) ∧
    ∀ extracted, ran.1 = .ok (some extracted) →
      ∃ document earlier, before.text? source = some document ∧
        before.entriesAt? (destination.place before.working) = some earlier ∧
        let prepared := preparation setup document before
        let merged := mergedText setup source earlier prepared.messages
        ran.2.text? source = some prepared.materialized ∧
        (ran.2.text? destination = some merged ↔
          destination.place before.working ≠ source.place before.working ∨
            merged = prepared.materialized) := by
  intro destination ran
  have hends := extractFile_ends setup source before
  change Ends setup source before ran.1 ran.2 at hends
  generalize ran.1 = result at hends ⊢
  generalize ran.2 = after at hends ⊢
  have hsource := hcopies source (by simp)
  have hdestination := hcopies destination (by simp [destination])
  refine ⟨?_, ?_, ?_⟩
  · rintro rfl
    cases hends with
    | declined hdocument hno => exact view_asked World.tree (fun _ _ _ => rfl) setup _ before
  · rintro failure rfl hclean
    cases hends with
    | unread hnone => exact ⟨rfl, .inl rfl⟩
    | @unmerged document _ _ hdocument hyes hmerge =>
      have hcontents := KeyFile.content?_of_write_eq_error hmerge
        (hclean.congr (refusals_copied setup source document before))
      exact ⟨(hcontents _).trans (content?_copied hsource document),
        .inl ((hcontents _).trans (content?_copied hdestination document))⟩
    | unwritten hdocument hyes hmerge hwrite =>
      obtain ⟨rfl, hother, refusal, hrefusal, hfailure⟩ :=
        refused_of_unwritten hdocument hsource hmerge hwrite hclean
      obtain ⟨earlier, hearlier, htext⟩ := text?_destination_merged hmerge hdestination
      exact ⟨content?_merged hmerge hsource hother.symm,
        .inr ⟨refusal, _, earlier, hrefusal, hfailure, hdocument, hearlier, htext⟩⟩
  · rintro extracted rfl
    cases hends with
    | @extracted document stats merged _ hdocument hyes hmerge hwrite =>
      obtain ⟨earlier, hearlier, htext⟩ := text?_destination_merged hmerge hdestination
      obtain ⟨hclosing, hrewritten⟩ := TextFile.write_eq_ok hwrite
      have hworking : merged.working = before.working := working_merged hmerge
      refine ⟨document, earlier, hdocument, hearlier, hrewritten, ?_⟩
      rw [hworking] at hclosing
      by_cases hp : destination.place before.working = source.place before.working
      · have hsame := hclosing.text?_of_place htext hrewritten (by rwa [hworking])
        change after.text? destination = _ at hsame
        rw [hsame]
        simp [hp, eq_comm]
      · have hmerged := hclosing.text? htext (by rw [hworking]; simpa using hp)
        exact iff_of_true hmerged (.inl hp)

/-- A page whose messages are extracted, one whose user declines, one whose key file would stand in a
file, and one that may only be read. -/
theorem extractFile_all_or_nothing_page :
    let setup := sampleSetup english
    let before := pageWorld "[msg:k]x[/msg]".toList "old=v\n".toList
    let extracted := ((extractFile setup page).runOn before).2
    let refusing := { before with input := "no\n".toUTF8.toList }
    let declined := ((extractFile { setup with agreed := false } page).runOn refusing).2
    let blocked := { setup with keysFolder := ⟨"/p.md".toList⟩ }
    let failed := ((extractFile blocked page).runOn before).2
    let guarded := before.readOnly ["p.md".toList]
    let unwritten := ((extractFile setup page).runOn guarded).2
    (∃ merged, extracted.text? (setup.destination page) = some merged) ∧
      declined.tree = before.tree ∧
      failed.tree.content? ["p.md".toList] = before.tree.content? ["p.md".toList] ∧
      unwritten.tree.content? ["p.md".toList] = guarded.tree.content? ["p.md".toList] := by
  intro setup before extracted refusing declined blocked failed guarded unwritten
  refine ⟨?_, ?_, ?_, ?_⟩
  · obtain ⟨document, earlier, -, -, -, hkeys⟩ :=
      (extractFile_all_or_nothing setup page before (by decide +kernel)).2.2
        ⟨setup.destination page, ⟨2, 1, 1⟩⟩ (by decide +kernel)
    exact ⟨_, hkeys.mpr (.inl (by decide +kernel))⟩
  · exact (extractFile_all_or_nothing { setup with agreed := false } page refusing
      (by decide +kernel)).1 (by decide +kernel)
  · exact ((extractFile_all_or_nothing blocked page before (by decide +kernel)).2.1
      ⟨["Failed to create directory: /p.md".toList], .file .alreadyThere⟩ (by decide +kernel)
      (Tree.failsCleanly_of_allowed fun _ => rfl)).1
  · exact ((extractFile_all_or_nothing setup page guarded (by decide +kernel)).2.1
      ⟨["Failed to write file: /p.md".toList], .file (.refused 13 "Permission denied".toList)⟩
      (by decide +kernel) (before.failsCleanly_readOnly _)).1

/-- A key file that is its own source: the run succeeds, and the merged entries are gone. A source that
may only be read: the run fails, and the key file is another one. -/
theorem extractFile_part_done :
    let setup := sampleSetup ⟨"a/../p".toList, "q".toList⟩
    let own : Path := ⟨"/keys/p_q.properties".toList⟩
    let document := "[msg:k]t[/msg]\nold=v\n".toList
    let before := sampleWorld ["p_q.properties".toList, "keys".toList] document ["z".toList] []
    let ran := (extractFile setup own).runOn before
    let guarded := (pageWorld "[msg:k]x[/msg]".toList "old=v\n".toList).readOnly ["p.md".toList]
    let failed := (extractFile (sampleSetup english) page).runOn guarded
    ((∀ path ∈ [own, setup.destination own],
        path.place before.working ∉ (backups setup own).map (Path.place before.working)) ∧
      ran.1 = .ok (some ⟨setup.destination own, ⟨2, 1, 1⟩⟩) ∧
      ran.2.text? own = some "~[text:k]\nold=v\n".toList ∧
      ran.2.text? (setup.destination own) = some "~[text:k]\nold=v\n".toList ∧
      ((before.entriesAt? ["p_q.properties".toList, "keys".toList]).map fun earlier =>
        mergedText setup own earlier (preparation setup document before).messages) =
          some "# P - Version: 1\n# MessageKeys for: p_q (a/../p_q)\n\nold=v\nk=t\n".toList) ∧
    guarded.tree.FailsCleanly ∧
      (∀ path ∈ [page, (sampleSetup english).destination page], path.place guarded.working ∉
        (backups (sampleSetup english) page).map (Path.place guarded.working)) ∧
      failed.1 = .error ⟨["Failed to write file: /p.md".toList],
        .file (.refused 13 "Permission denied".toList)⟩ ∧
      failed.2.text? page = some "[msg:k]x[/msg]".toList ∧
      guarded.text? ((sampleSetup english).destination page) = some "old=v\n".toList ∧
      failed.2.text? ((sampleSetup english).destination page) =
        some "# P - Version: 1\n# MessageKeys for: p (US_en)\n\nold=v\nk=x\n".toList :=
  ⟨by decide +kernel, World.failsCleanly_readOnly _ _, by decide +kernel⟩

end KeyExtraction
end MessageKeys
