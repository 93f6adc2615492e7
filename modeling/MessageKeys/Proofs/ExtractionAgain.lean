import MessageKeys.Proofs.ExtractionDialogue
import MessageKeys.Proofs.Markup.Reference

/-!
# Extracting from a source once more

The first run leaves references, which are no markers, and a key file whose entries are all read
back. So a second run finds no messages in the source and lays none over the entries: it writes both
files as it found them.
-/
namespace MessageKeys.KeyExtraction

open Markup (Span prepare spans)
open Properties (IsKey Writable entries parse)

variable {setup : Setup} {source : Path} {before after world : World} {document : Text}

/-- A document whose keys and texts fit the lines of a key file and hold no beginning of a marker. -/
structure Fitting (document : Text) : Prop where
  key : ∀ span ∈ spans document, IsKey span.key
  bracket : ∀ span ∈ spans document, '[' ∉ span.key
  line : ∀ span ∈ spans document, '\n' ∉ span.text
  openMark : ∀ span ∈ spans document, ¬ Markup.openMark <:+: span.text

instance (document : Text) : Decidable (Fitting document) :=
  decidable_of_iff ((∀ span ∈ spans document, IsKey span.key) ∧
      (∀ span ∈ spans document, '[' ∉ span.key) ∧ (∀ span ∈ spans document, '\n' ∉ span.text) ∧
      ∀ span ∈ spans document, ¬ Markup.openMark <:+: span.text)
    ⟨fun ⟨hk, hb, hl, ho⟩ => ⟨hk, hb, hl, ho⟩, fun h => ⟨h.key, h.bracket, h.line, h.openMark⟩⟩

namespace Fitting

variable (h : Fitting document)
include h

theorem apart (reindexing : Bool) : Markup.Apart document reindexing :=
  Markup.apart_of_spans h.bracket h.openMark

/-- What holds of the keys of all spans, as the name of a new key keeps it, holds of all messages. -/
theorem forall_keys {P : Text → Prop}
    (hnumbered : ∀ name index, P name → P (Markup.numbered name index))
    (hmulti : ∀ name index, P name → P (Markup.numberedMulti name index))
    (hp : ∀ span ∈ spans document, P span.key) (reindexing : Bool) :
    ∀ key ∈ (prepare document reindexing).messages.keys, P key := by
  refine (h.apart reindexing).forall_keys hnumbered hmulti fun part hpart => ?_
  have hm : part.key ∈ (spans document).map Span.key := by
    rw [Markup.map_key_spans]
    exact List.mem_map_of_mem hpart
  obtain ⟨span, hs, he⟩ := List.mem_map.mp hm
  exact he ▸ hp span hs

/-- All messages fit the lines of a key file, under whatever keys they are prepared. -/
theorem writable_prepare (reindexing : Bool) : Writable (prepare document reindexing).messages := by
  have hmessages := (h.apart reindexing).messages_prepare
  have hkeys : ∀ key ∈ (prepare document reindexing).messages.keys, IsKey key :=
    h.forall_keys (fun _ index hn => isKey_numbered (.inr hn) index)
      (fun _ index hn => isKey_numberedMulti (.inr hn) index) h.key reindexing
  rw [writable_messages_iff hmessages]
  intro entry he
  have hg := OrderedMap.get?_eq_some_iff.mpr he
  refine ⟨hkeys entry.1 (OrderedMap.mem_keys_of_get? hg), ?_⟩
  rw [hmessages, Markup.get?_messages_scan, ← Markup.map_entry_spans] at hg
  obtain ⟨new, hnew, hentry⟩ := List.mem_map.mp (OrderedMap.mem_of_last? hg)
  obtain ⟨old, hold, htext, -⟩ :=
    Markup.exists_of_forall₂ (h.apart reindexing).forall₂_spans hnew
  rw [← (Prod.mk.inj hentry).2, htext]
  exact h.line old hold

/-- The references of the prepared document make no markers. -/
theorem parts_materialized (reindexing : Bool) :
    (Markup.Layout.ofText (prepare document reindexing).materialized).parts = [] := by
  have hplain : ∀ key ∈ (prepare document reindexing).messages.keys, Markup.Plain key :=
    h.forall_keys (fun _ index hn => (Markup.plain_numbered index).mpr hn)
      (fun name index hn => (Markup.derived_numberedMulti name index).openMark hn)
      (fun span hs hi => h.bracket span hs (hi.subset (by decide))) reindexing
  refine Markup.parts_materialize fun part hp => hplain part.key ?_
  rw [(h.apart reindexing).messages_prepare]
  exact Markup.mem_keys_messages_scan.mpr ⟨part, hp, rfl⟩

end Fitting

/-- What a successful run leaves: the references, and in the key file its entries, unless that is the
source itself. -/
theorem Ends.texts {extracted : Extracted}
    (h : Ends setup source before (.ok (some extracted)) after) :
    ∃ document earlier, before.text? source = some document ∧ Writable earlier ∧
      after.working = before.working ∧
      after.text? source = some (preparation setup document before).materialized ∧
      after.text? (setup.destination source) = some
        (if (setup.destination source).place before.working = source.place before.working then
          (preparation setup document before).materialized
        else mergedText setup source earlier (preparation setup document before).messages) := by
  cases h with
  | @extracted document stats merged _ hdocument hyes hmerge hwrite =>
    have hcopied := kept_copied setup source document before
    obtain ⟨earlier, -, hwritable, hkept, htext⟩ := KeyFile.write_eq_ok hmerge
    obtain ⟨hclosing, hsource⟩ := TextFile.write_eq_ok hwrite
    have hworking : merged.working = before.working := hkept.working.trans hcopied.working
    refine ⟨document, earlier, hdocument, hwritable, hclosing.working.trans hworking, hsource, ?_⟩
    rw [hworking] at hclosing
    split
    · next hp => exact hclosing.text?_of_place htext hsource (by rwa [hworking])
    · next hp => exact hclosing.text? htext (by rw [hworking]; simpa using hp)

/-- What a run has written over is not refused. -/
theorem Ends.allowed {extracted : Extracted}
    (h : Ends setup source before (.ok (some extracted)) after) :
    ∀ path ∈ [source, setup.destination source],
      before.tree.refusal? (path.place before.working) = none := by
  cases h with
  | @extracted document stats merged _ hdocument hyes hmerge hwrite =>
    have hsource := TextFile.allowed_of_write hwrite
    rw [refusal?_merged hmerge] at hsource
    intro path hp
    rcases List.mem_pair.mp hp with rfl | rfl
    · exact hsource
    · exact allowed_destination hmerge

/-- A key file that can be read can be written, if that is not refused. -/
theorem exists_mergeKeys (setup : Setup) (source : Path) {content : Text}
    (h : world.text? (setup.destination source) = some content)
    (ha : world.tree.refusal? ((setup.destination source).place world.working) = none)
    (messages : Messages) :
    ∃ stats after, (mergeKeys setup source messages).runOn world = (.ok stats, after) := by
  have hthere := World.canWrite_of_text? h ha
  obtain ⟨after, hwrote⟩ := TextFile.exists_write_of_canWrite hthere
    ("Failed to write file: ".toList ++ (setup.destination source).text)
    (mergedText setup source (entries (parse content)) messages)
  refine ⟨KeyFile.stats (entries (parse content)) messages, after, ?_⟩
  refine Procedure.runOn_bind_eq_ok.mpr ⟨(), world, TextFile.makeParent_of_canWrite hthere, ?_⟩
  refine Procedure.runOn_bind_eq_ok.mpr ⟨entries (parse content), world,
    PropertyFile.readEntries_eq_ok.mpr ⟨rfl, .inr ⟨content, h, rfl⟩⟩, ?_⟩
  exact Procedure.runOn_bind_eq_ok.mpr ⟨(), after, hwrote, rfl⟩

/-- Where source and key file can be read and are not refused and the modification is agreed to, nothing
keeps the messages from being extracted. -/
theorem Ends.extracted_of_texts {result : Except Failure (Option Extracted)} {content : Text}
    (h : Ends setup source before result after) (hsource : before.text? source = some document)
    (hkeys : before.text? (setup.destination source) = some content)
    (hallowed : ∀ path ∈ [source, setup.destination source],
      before.tree.refusal? (path.place before.working) = none)
    (hcopies : ∀ path ∈ [source, setup.destination source],
      path.place before.working ∉ (backups setup source).map (Path.place before.working))
    (hyes : confirmed setup source before = true) : ∃ extracted, result = .ok (some extracted) := by
  have hmerging (document : Text) : ∀ messages, ∃ stats after,
      (mergeKeys setup source messages).runOn (copied setup source document before) =
        (.ok stats, after) := by
    have hcopied := kept_copied setup source document before
    refine exists_mergeKeys setup source (hcopied.text? hkeys (hcopies _ (by simp))) ?_
    rw [refusal?_copied]
    exact hallowed _ (by simp)
  cases h with
  | unread hnone => simp [hnone] at hsource
  | declined hdocument hno => simp [confirmed_eq hdocument, hno] at hyes
  | unmerged hdocument _ hmerge =>
    obtain ⟨stats, merged, hok⟩ := hmerging _ _
    cases hok.symm.trans hmerge
  | unwritten hdocument _ hmerge hwrite =>
    obtain ⟨text, htext⟩ := exists_text?_merged hmerge hdocument (hcopies source (by simp))
    have hsource := hallowed source (by simp)
    rw [← refusal?_merged hmerge] at hsource
    obtain ⟨refusal, hrefused, -⟩ := TextFile.refused_of_write_eq_error htext hwrite
    cases hrefused.symm.trans hsource
  | extracted _ _ _ _ => exact ⟨_, rfl⟩

/-- A run on what the run before it left: it lays no messages over the entries, and the source has no
marker to replace. -/
theorem Ends.again {extracted : Extracted} {earlier : Messages}
    (h : Ends setup source before (.ok (some extracted)) after)
    (hsource : before.text? source = some document)
    (hparts : (Markup.Layout.ofText document).parts = []) (hwritable : Writable earlier)
    (hhead : ∀ line ∈ KeyFile.header setup.plugin (KeyFile.baseName source) setup.locale, '\n' ∉ line)
    (hcopies : ∀ path ∈ [source, setup.destination source],
      path.place before.working ∉ (backups setup source).map (Path.place before.working))
    (hkeys : before.text? (setup.destination source) = some
      (if (setup.destination source).place before.working = source.place before.working then document
        else mergedText setup source earlier .empty)) :
    after.text? source = before.text? source ∧
      after.text? (setup.destination source) = before.text? (setup.destination source) := by
  cases h with
  | @extracted found stats merged _ hdocument hyes hmerge hwrite =>
    obtain rfl := Option.some.inj (hdocument.symm.trans hsource)
    obtain ⟨hmessages, hmaterialized⟩ := Markup.prepare_of_no_parts hparts
      ((mayReindex setup.agreed found).run before).1
    have hcopied := kept_copied setup source found before
    obtain ⟨kept, hkept, hmerging, htext, -⟩ := KeyFile.entriesAt?_of_write_eq_ok hmerge
    obtain ⟨hclosing, hrewritten⟩ := TextFile.write_eq_ok hwrite
    have hworking : merged.working = before.working := hmerging.working.trans hcopied.working
    rw [hworking] at hclosing
    rw [preparation, hmessages] at htext
    rw [preparation, hmaterialized] at hrewritten
    refine ⟨hrewritten.trans hdocument.symm, ?_⟩
    rw [hkeys]
    split
    · next hp => exact hclosing.text?_of_place htext hrewritten (by rwa [hworking])
    · next hp =>
      rw [if_neg hp] at hkeys
      have hthere := hcopied.text? hkeys (hcopies _ (by simp))
      rw [World.entriesAt?_of_text? hthere, mergedText, KeyFile.entries_render hhead] at hkept
      · obtain rfl := Option.some.inj hkept
        exact hclosing.text? htext (by rw [hworking]; simpa using hp)
      · exact hwritable.merge Properties.writable_empty

/-- Extracting the messages of a fitting document and then once more, whatever the first run was told
about duplicate keys: if the modification is agreed to again, the second run succeeds and leaves the
source and the key file byte by byte as the first one left them. Plugin, document name and locale
stand on one line each; the second run may have other answers and another backup folder, as long as
no copy is made over the source or its key file. -/
theorem extractFile_again (setup : Setup) (source : Path) (before : World) (agreed : Bool)
    (backupFolder : Path) {extracted : Extracted}
    (hdocument : before.text? source = some document) (hfit : Fitting document)
    (hhead : ∀ line ∈ KeyFile.header setup.plugin (KeyFile.baseName source) setup.locale, '\n' ∉ line)
    (hcopies : ∀ path ∈ [source, setup.destination source], path.place before.working ∉
      (backups { setup with agreed, backupFolder } source).map (Path.place before.working))
    (hrun : ((extractFile setup source).runOn before).1 = .ok (some extracted)) :
    let once := ((extractFile setup source).runOn before).2
    ∀ again : World, again.tree = once.tree → again.working = once.working →
      confirmed { setup with agreed, backupFolder } source again = true →
      let twice := (extractFile { setup with agreed, backupFolder } source).runOn again
      (∃ extracted, twice.1 = .ok (some extracted)) ∧
        ∀ path ∈ [source, setup.destination source], ∃ bytes,
          once.tree.content? (path.place before.working) = some bytes ∧
            twice.2.tree.content? (path.place before.working) = some bytes := by
  intro once again htree hplace hyes twice
  have hends := extractFile_ends setup source before
  rw [hrun] at hends
  obtain ⟨found, earlier, hfound, hwritable, hworking, hsource, hkeys⟩ := hends.texts
  obtain rfl := Option.some.inj (hfound.symm.trans hdocument)
  change once.working = before.working at hworking
  change once.text? source = _ at hsource
  change once.text? (setup.destination source) = _ at hkeys
  have htext (path : Path) : again.text? path = once.text? path := by
    rw [World.text?, World.text?, htree, hplace]
  have hagain : again.working = before.working := hplace.trans hworking
  rw [← hagain] at hcopies
  rw [← htext] at hsource hkeys
  have hallowed : ∀ path ∈ [source, setup.destination source],
      again.tree.refusal? (path.place again.working) = none := by
    have hrefusals : again.tree.refusals = before.tree.refusals := by
      rw [htree]
      exact (extractFile setup source).run.keeps_refusals before
    rw [hagain]
    simpa only [Tree.refusal?_congr hrefusals] using hends.allowed
  have hsecond := extractFile_ends { setup with agreed, backupFolder } source again
  obtain ⟨shown, hshown⟩ := hsecond.extracted_of_texts hsource hkeys hallowed hcopies hyes
  rw [hshown] at hsecond
  have hmessages := hfit.writable_prepare ((mayReindex setup.agreed found).run before).1
  rw [← hagain] at hkeys
  obtain ⟨hsame, hsameKeys⟩ := hsecond.again hsource (hfit.parts_materialized _)
    (hwritable.merge hmessages) hhead hcopies hkeys
  refine ⟨⟨shown, hshown⟩, fun path hpath => ?_⟩
  obtain ⟨text, hthere⟩ : ∃ text, again.text? path = some text := by
    rcases List.mem_pair.mp hpath with rfl | rfl
    · exact ⟨_, hsource⟩
    · exact ⟨_, hkeys⟩
  have hafter : twice.2.text? path = some text := by
    rcases List.mem_pair.mp hpath with rfl | rfl
    · exact hsame.trans hthere
    · exact hsameKeys.trans hthere
  have honce := World.content?_of_text? ((htext path).symm.trans hthere)
  have htwice := World.content?_of_text? hafter
  rw [hworking] at honce
  rw [hsecond.working.trans hagain] at htwice
  exact ⟨_, honce, htwice⟩

/-- A page with a repeated key and text and an unfinished marker, and an earlier message. -/
theorem extractFile_again_page :
    let setup := sampleSetup english
    let other := { setup with agreed := true, backupFolder := ⟨"/copies".toList⟩ }
    let document := "[msg:k]x[/msg][msg:k]x[/msg][msg:".toList
    let before := pageWorld document "o=v\n".toList
    let once := (extractFile setup page).runOn before
    let twice := (extractFile other page).runOn once.2
    ∀ path ∈ [page, setup.destination page], ∃ bytes,
      once.2.tree.content? (path.place before.working) = some bytes ∧
        twice.2.tree.content? (path.place before.working) = some bytes := by
  intro setup other document before once twice
  have hdocument : before.text? page = some document := by decide +kernel
  have hfit : Fitting document := by decide +kernel
  have hcopies : ∀ path ∈ [page, setup.destination page],
      path.place before.working ∉ (backups other page).map (Path.place before.working) := by
    decide +kernel
  have hrun : ((extractFile setup page).runOn before).1 =
      .ok (some ⟨setup.destination page, ⟨2, 1, 1⟩⟩) := by decide +kernel
  have hyes : confirmed other page once.2 = true := by decide +kernel
  have hhead : ∀ line ∈ KeyFile.header setup.plugin (KeyFile.baseName page) setup.locale,
      '\n' ∉ line := by decide +kernel
  clear_value setup document before
  exact (extractFile_again setup page before true ⟨"/copies".toList⟩ hdocument hfit hhead hcopies hrun
    once.2 rfl rfl hyes).2

end MessageKeys.KeyExtraction
