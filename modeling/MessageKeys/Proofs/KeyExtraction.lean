import MessageKeys.KeyExtraction
import MessageKeys.Proofs.Backup
import MessageKeys.Proofs.KeyFile
import MessageKeys.Proofs.Markup.Preparation

/-!
# What an extraction keeps

The texts of a source are in its key file afterwards, each under the key of the reference that took
its place, as far as the lines of a key file can carry them. Earlier messages stay as well, unless a
new message has their key; the names that are made for new messages are not held against the
earlier ones, so such a name can be the key of one of them.
-/
namespace MessageKeys.KeyExtraction

open Markup (prepare scan spans)
open OrderedMap (last?)
open Properties (IsKey Writable entries parse spelled)

variable {setup : Setup} {source : Path} {before after : World}

theorem kept_confirm (agreed : Bool) (prompt : Text) (world : World) :
    World.Kept [] world ((confirm agreed prompt).run world).2 := by
  unfold confirm
  split
  · exact .refl world
  · exact ⟨rfl, .refl world.tree⟩

theorem kept_mayReindex (agreed : Bool) (document : Text) (world : World) :
    World.Kept [] world ((mayReindex agreed document).run world).2 := by
  unfold mayReindex
  split
  · exact .refl world
  · exact kept_confirm agreed _ world

/-- The files that the copies of a source and of its key file are written to. -/
def backups (setup : Setup) (source : Path) : List Path :=
  [source, setup.destination source].flatMap (Backup.copyOf setup.backupFolder)

/-- The files that a run which extracts the messages of a source writes to. -/
def written (setup : Setup) (source : Path) : List Path :=
  backups setup source ++ [setup.destination source, source]

/-- What a run that extracts the messages of a source did: it prepared the source as the user
wanted, laid the messages over the pairs of the key file, and then wrote the references. All other
files are as they were. -/
theorem extractFile_ran {extracted : Extracted}
    (h : (extractFile setup source).runOn before = (.ok (some extracted), after)) :
    ∃ document earlier, before.text? source = some document ∧ Writable earlier ∧
      ((setup.destination source).place before.working ∉
          (backups setup source).map (Path.place before.working) →
        ∀ other content,
          (setup.destination source).place before.working = other.place before.working →
          before.text? other = some content → earlier = entries (parse content)) ∧
      after.text? source =
        some (prepare document ((mayReindex setup.agreed document).run before).1).materialized ∧
      ((setup.destination source).place before.working ≠ source.place before.working →
        after.text? (setup.destination source) = some (KeyFile.render setup.plugin
          (KeyFile.baseName source) setup.locale (earlier.merge
            (prepare document ((mayReindex setup.agreed document).run before).1).messages))) ∧
      World.Kept ((written setup source).map (Path.place before.working)) before after := by
  unfold extractFile at h
  obtain ⟨document, opened, hopened, h₁⟩ := Procedure.runOn_bind_eq_ok.mp h
  obtain ⟨rfl, hdocument⟩ := TextFile.read_eq_ok.mp hopened
  rw [Procedure.runOn_liftM_bind, Procedure.runOn_liftM_bind] at h₁
  split at h₁
  · rw [Procedure.runOn_liftM_bind] at h₁
    obtain ⟨stats, wrote, hwrote, h₂⟩ := Procedure.runOn_bind_eq_ok.mp h₁
    obtain ⟨_, done, hdone, h₃⟩ := Procedure.runOn_bind_eq_ok.mp h₂
    obtain ⟨rfl, -⟩ := Procedure.runOn_pure_eq_ok.mp h₃
    -- the questions change no file, the backups only the copies
    have hasking := (kept_mayReindex setup.agreed document opened).trans
      (kept_confirm setup.agreed modifyQuestion _)
    have hsaving := hasking.trans
      (Backup.kept_save setup.backupFolder [source, setup.destination source] _)
    rw [hasking.working] at hsaving
    obtain ⟨earlier, hearlier, hwritable, hwriting, hmerged⟩ := KeyFile.write_eq_ok hwrote
    obtain ⟨hclosing, hmaterialized⟩ := TextFile.write_eq_ok hdone
    refine ⟨document, earlier, hdocument, hwritable, ?_, hmaterialized, ?_, ?_⟩
    · intro hp other content ho hc
      exact hearlier other content (by rwa [hsaving.working]) (hsaving.text? hc (ho ▸ hp))
    · intro hp
      refine hclosing.text? hmerged ?_
      rw [hwriting.working, hsaving.working]
      simpa using hp
    · have hall := (hsaving.trans hwriting).trans hclosing
      rw [hwriting.working, hsaving.working] at hall
      simpa [written, backups] using hall
  · cases h₁

theorem extractFile_eq_some {extracted : Extracted}
    (h : (extractFile setup source).runOn before = (.ok (some extracted), after)) :
    ∃ document earlier, before.text? source = some document ∧ Writable earlier ∧
      ((setup.destination source).place before.working ∉
          (backups setup source).map (Path.place before.working) →
        ∀ content, before.text? (setup.destination source) = some content →
          earlier = entries (parse content)) ∧
      after.text? source =
        some (prepare document ((mayReindex setup.agreed document).run before).1).materialized ∧
      ((setup.destination source).place before.working ≠ source.place before.working →
        after.text? (setup.destination source) = some (KeyFile.render setup.plugin
          (KeyFile.baseName source) setup.locale (earlier.merge
            (prepare document ((mayReindex setup.agreed document).run before).1).messages))) := by
  obtain ⟨document, earlier, hdocument, hwritable, hearlier, hsource, hmerged, -⟩ := extractFile_ran h
  refine ⟨document, earlier, hdocument, hwritable, fun hp content hc => ?_, hsource, hmerged⟩
  exact hearlier hp _ content rfl hc

/-- Texts are trimmed, so only line breaks keep them from being values. -/
theorem writable_messages_iff {messages : Messages} {document : Text}
    (h : messages = (scan document).messages) :
    Writable messages ↔ ∀ entry ∈ messages.entries, IsKey entry.1 ∧ '\n' ∉ entry.2 := by
  constructor
  · exact fun hw entry he => ⟨(hw entry he).1, (hw entry he).2.line⟩
  · intro hl entry he
    refine ⟨(hl entry he).1, ?_, (hl entry he).2⟩
    rw [h, ← OrderedMap.get?_eq_some_iff, Markup.get?_messages_scan] at he
    obtain ⟨part, -, hp⟩ := List.mem_map.mp (OrderedMap.mem_of_last? he)
    rw [← (Prod.mk.inj hp).2]
    exact Text.trim_trim part.body

section sample

/-- A project at the root of the tree, whose user agrees to everything. -/
def sampleSetup (locale : Locale) : Setup where
  plugin := ⟨"P".toList, "1".toList⟩
  locale
  keysFolder := ⟨"/keys".toList⟩
  backupFolder := ⟨"/backup".toList⟩
  agreed := true

/-- A machine with one source and one key file. -/
def sampleWorld (source : Location) (document : Text) (keyFile : Location) (earlier : Text) :
    World where
  tree := ⟨.ofList [(["keys".toList], .folder), (source, .file document.toBytes),
    (keyFile, .file earlier.toBytes)]⟩
  working := []
  input := []
  output := []
  errors := []
  service := fun _ text _ => .ok text
  calls := []
  time := ⟨0⟩

def english : Locale := ⟨"US".toList, "en".toList⟩

def page : Path := ⟨"/p.md".toList⟩

/-- The machine with a page and the earlier messages of that page. -/
def pageWorld (document earlier : Text) : World :=
  sampleWorld ["p.md".toList] document ["p.US_en.properties".toList, "keys".toList] earlier

/-- What a key file says about a key. -/
def entryAt? (setup : Setup) (source : Path) (world : World) (key : Text) : Option Text :=
  (world.text? (setup.destination source)).bind fun content => (entries (parse content)).get? key

end sample

/-- A run without a refusal keeps every text: the source then holds the references, and each of
them finds its text in the key file exactly if keys and texts fit the lines of a key file. The
source is another file than its key file, and the tags of the keys that are re-indexed or
consolidated stand apart from all other keys and messages. -/
theorem extractFile_keeps_texts {extracted : Extracted} {document : Text}
    (hrun : (extractFile setup source).runOn before = (.ok (some extracted), after))
    (hdocument : before.text? source = some document)
    (hyes : (scan document).duplicates = [] ∨
      ((mayReindex setup.agreed document).run before).1 = true)
    (hplace : (setup.destination source).place before.working ≠ source.place before.working)
    (hapart : Markup.Apart document true) :
    let prepared := prepare document true
    ∃ kept, (PropertyFile.readEntries (setup.destination source)).runOn after = (.ok kept, after) ∧
      after.text? source = some prepared.materialized ∧
      (List.Forall₂ (fun new old => kept.get? new.key = some old.text)
          (spans prepared.document) (spans document) ↔
        ∀ entry ∈ prepared.messages.entries, IsKey entry.1 ∧ '\n' ∉ entry.2) := by
  intro prepared
  obtain ⟨found, earlier, hfound, hearlier, -, hsource, hmerged⟩ := extractFile_eq_some hrun
  obtain rfl := Option.some.inj (hfound.symm.trans hdocument)
  have hanswer : prepare found ((mayReindex setup.agreed found).run before).1 = prepared := by
    rcases hyes with hnone | hyes
    · exact Markup.prepare_of_no_duplicates hnone _
    · rw [hyes]
  rw [hanswer] at hsource hmerged
  refine ⟨_, PropertyFile.readEntries_eq_ok.mpr ⟨rfl, .inr ⟨_, hmerged hplace, rfl⟩⟩, hsource, ?_⟩
  rw [← writable_messages_iff hapart.messages_prepare]
  have hspans := hapart.forall₂_spans
  constructor
  · intro hkept entry he
    -- each entry stands under the key of a span, and what is read back under it can be written
    have hm : entry ∈ (spans prepared.document).map fun span => (span.key, span.text) := by
      have hg := OrderedMap.get?_eq_some_iff.mpr he
      rw [hapart.messages_prepare, Markup.get?_messages_scan, ← Markup.map_entry_spans] at hg
      exact OrderedMap.mem_of_last? hg
    obtain ⟨new, hnew, rfl⟩ := List.mem_map.mp hm
    have hboth := List.Forall₂.mp (fun a b ha hb => And.intro ha hb) hkept hspans
    obtain ⟨old, -, hget, htext, -⟩ := Markup.exists_of_forall₂ hboth hnew
    rw [← htext] at hget
    exact Properties.writable_entries _ _ (OrderedMap.get?_eq_some_iff.mp hget)
  · intro hw
    refine hspans.imp fun new old hr => ?_
    refine KeyFile.get?_entries_render_of_writable (hearlier.merge hw) ?_
    rw [OrderedMap.get?_merge, hr.2, if_pos (.inl rfl)]
    rfl

theorem extractFile_keeps_texts_page :
    let document := "[msg:A]x[/msg] [msg:A]y[/msg] [msg:B]x[/msg]".toList
    let before := pageWorld document "A_0=z\n".toList
    let after := ((extractFile (sampleSetup english) page).runOn before).2
    ∃ kept, (PropertyFile.readEntries ((sampleSetup english).destination page)).runOn after =
        (.ok kept, after) ∧
      List.Forall₂ (fun new old => kept.get? new.key = some old.text)
        (spans (prepare document true).document) (spans document) := by
  intro document before after
  have hok : ((extractFile (sampleSetup english) page).runOn before).1 =
      .ok (some ⟨(sampleSetup english).destination page, ⟨3, 1, 2⟩⟩) := by decide +kernel
  have hrun : (extractFile (sampleSetup english) page).runOn before =
      (.ok (some ⟨(sampleSetup english).destination page, ⟨3, 1, 2⟩⟩), after) := Prod.ext hok rfl
  have hapart : Markup.Apart document true := by constructor <;> decide +kernel
  obtain ⟨kept, hread, -, hiff⟩ := extractFile_keeps_texts hrun (by decide +kernel)
    (.inr (by decide +kernel)) (by decide +kernel) hapart
  exact ⟨kept, hread, hiff.mpr (by decide +kernel)⟩

/-- A text with a line break, a message with the tag of a duplicate key, a key with an opening mark
and a key file that is the source itself: none of these texts is found under its reference. -/
theorem extractFile_loses_texts :
    let setup := sampleSetup english
    let after := fun document => ((extractFile setup page).runOn (pageWorld document [])).2
    let broken := after "[msg:k]a\nb[/msg]".toList
    let nested := after "[msg:a]x[/msg][msg:a][msg:a][/msg]".toList
    let opened := after "[msg:x[msg:a]t[/msg][msg:a]u[/msg][msg:b]u[/msg]".toList
    let climbing := sampleSetup ⟨"a/../p".toList, "q".toList⟩
    let own : Path := ⟨"/keys/p_q.properties".toList⟩
    let same := ((extractFile climbing own).runOn
      (sampleWorld ["p_q.properties".toList, "keys".toList] "[msg:k]t[/msg]".toList ["z".toList] [])).2
    (broken.text? page = some "~[text:k]".toList ∧
      entryAt? setup page broken "k".toList = some "a".toList) ∧
    (nested.text? page = some "~[text:a_0]~[text:a_1]".toList ∧
      entryAt? setup page nested "a_1".toList = some "[msg:a_2]".toList) ∧
    (opened.text? page = some "~[text:x[msg:a_multi]~[text:a_multi]~[text:a_multi]".toList ∧
      entryAt? setup page opened "x[msg:a_multi".toList = none) ∧
    (same.text? own = some "~[text:k]".toList ∧ entryAt? climbing own same "k".toList = none) := by
  decide +kernel

/-- A run leaves an earlier key with what the lines of the earlier entries and of the prepared
messages that are laid over them spell last for it. So its entry is kept unless one of the messages
spells the key. Where keys and texts fit the lines of a key file, it is kept exactly if no message
gives another text to its key; a new name counts as a key here, though no mark in the source has
it. -/
theorem extractFile_retains {extracted : Extracted} {document : Text} {earlier : Messages}
    (hrun : (extractFile setup source).runOn before = (.ok (some extracted), after))
    (hdocument : before.text? source = some document)
    (hearlier : (PropertyFile.readEntries (setup.destination source)).runOn before =
      (.ok earlier, before))
    (hplace : (setup.destination source).place before.working ≠ source.place before.working)
    (hbackups : (setup.destination source).place before.working ∉
      (backups setup source).map (Path.place before.working)) :
    let messages := (prepare document ((mayReindex setup.agreed document).run before).1).messages
    ∃ kept, (PropertyFile.readEntries (setup.destination source)).runOn after = (.ok kept, after) ∧
      ∀ key value, earlier.get? key = some value →
        kept.get? key = last? key ((earlier.merge messages).entries.flatMap spelled) ∧
        (key ∉ (messages.entries.flatMap spelled).map Prod.fst → kept.get? key = some value) ∧
        (Writable messages →
          (kept.get? key = some value ↔ ∀ new, messages.get? key = some new → new = value)) := by
  intro messages
  obtain ⟨found, read, hfound, hread, hsame, -, hmerged⟩ := extractFile_eq_some hrun
  obtain rfl := Option.some.inj (hfound.symm.trans hdocument)
  refine ⟨_, PropertyFile.readEntries_eq_ok.mpr ⟨rfl, .inr ⟨_, hmerged hplace, rfl⟩⟩, ?_⟩
  intro key value hget
  have hread_eq : read = earlier := by
    rcases (PropertyFile.readEntries_eq_ok.mp hearlier).2 with ⟨-, rfl⟩ | ⟨content, hc, rfl⟩
    · simp at hget
    · exact hsame hbackups content hc
  subst hread_eq
  refine ⟨KeyFile.get?_entries_render_merge hread hget,
    KeyFile.get?_entries_render_of_not_spelled hread hget, fun hw => ?_⟩
  have hkept {new : Text} (h : (read.merge messages).get? key = some new) :=
    @KeyFile.get?_entries_render_of_writable setup.plugin (KeyFile.baseName source) setup.locale
      key new _ (hread.merge hw) h
  rw [OrderedMap.get?_merge] at hkept
  cases hm : messages.get? key with
  | none =>
    rw [hkept (by rw [hm, hget]; rfl)]
    simp
  | some new =>
    rw [hkept (by rw [hm]; rfl)]
    simp

theorem extractFile_retains_page :
    let before := pageWorld "[msg:A]x[/msg][msg:A]y[/msg]".toList "A=z\n".toList
    let after := ((extractFile (sampleSetup english) page).runOn before).2
    ∃ kept, (PropertyFile.readEntries ((sampleSetup english).destination page)).runOn after =
        (.ok kept, after) ∧ kept.get? "A".toList = some "z".toList := by
  intro before after
  have hok : ((extractFile (sampleSetup english) page).runOn before).1 =
      .ok (some ⟨(sampleSetup english).destination page, ⟨3, 1, 2⟩⟩) := by decide +kernel
  have hrun : (extractFile (sampleSetup english) page).runOn before =
      (.ok (some ⟨(sampleSetup english).destination page, ⟨3, 1, 2⟩⟩), after) := Prod.ext hok rfl
  have hdocument : before.text? page = some "[msg:A]x[/msg][msg:A]y[/msg]".toList := by
    decide +kernel
  have htext : before.text? ((sampleSetup english).destination page) = some "A=z\n".toList := by
    decide +kernel
  obtain ⟨kept, hread, hkept⟩ := extractFile_retains hrun hdocument
    (PropertyFile.readEntries_eq_ok.mpr ⟨rfl, .inr ⟨_, htext, rfl⟩⟩) (by decide +kernel)
    (by decide +kernel)
  exact ⟨kept, hread, (hkept "A".toList "z".toList (by decide +kernel)).2.1 (by decide +kernel)⟩

/-- A re-indexed key takes the name of an earlier entry that no mark in the source has. -/
theorem extractFile_takes_over :
    let document := "[msg:A]x[/msg][msg:A]y[/msg]".toList
    let before := pageWorld document "A_0=z\n".toList
    let after := ((extractFile (sampleSetup english) page).runOn before).2
    after.text? page = some "~[text:A_0]~[text:A_1]".toList ∧
      "A_0".toList ∉ (spans document).map Markup.Span.key ∧
      entryAt? (sampleSetup english) page before "A_0".toList = some "z".toList ∧
      entryAt? (sampleSetup english) page after "A_0".toList = some "x".toList := by
  decide +kernel

end MessageKeys.KeyExtraction
