import MessageKeys.Proofs.FileWork
import MessageKeys.Proofs.KeyExtraction

/-!
# Several sources in one run

Each source goes into the key file that its name gives, so sources of one name share a key file. A
later source leaves the earlier ones alone and lays its messages over those of the shared file. So
every reference finds its text in the end exactly if no two sources that share a key file give one
key two texts.
-/
namespace MessageKeys.KeyExtraction

open Confirmation (accepts nextLine)
open Markup (Span prepare scan spans)
open OrderedMap (last?)
open Properties (IsKey Writable entries parse)

variable {setup : Setup} {source : Path} {sources : List Path} {before between after : World}
  {document : Path → Text}

section questions

/-- The input that is left when one question was put. -/
def afterQuestion (agreed : Bool) (input : List UInt8) : List UInt8 :=
  if agreed then input else (nextLine input).2

/-- Whether a question is answered with yes. -/
def saysYes (agreed : Bool) (input : List UInt8) : Bool :=
  agreed || accepts (nextLine input).1

/-- Whether so many questions are all answered with yes. -/
def alwaysYes (agreed : Bool) : Nat → List UInt8 → Bool
  | 0, _ => true
  | count + 1, input => saysYes agreed input && alwaysYes agreed count (afterQuestion agreed input)

theorem confirm_run (agreed : Bool) (prompt : Text) (world : World) :
    ((confirm agreed prompt).run world).1 = saysYes agreed world.input ∧
      ((confirm agreed prompt).run world).2.input = afterQuestion agreed world.input := by
  cases agreed <;> exact ⟨rfl, rfl⟩

/-- A source without duplicate keys raises one question; a yes to it lets its messages be
extracted. -/
theorem extractFile_agreed {text : Text} {result : Option Extracted}
    (h : (extractFile setup source).runOn before = (.ok result, after))
    (hsource : before.text? source = some text) (hunique : (scan text).duplicates = [])
    (hyes : saysYes setup.agreed before.input = true) :
    (∃ extracted, result = some extracted) ∧
      after.input = afterQuestion setup.agreed before.input := by
  unfold extractFile at h
  obtain ⟨found, opened, hopened, h₁⟩ := Procedure.runOn_bind_eq_ok.mp h
  obtain ⟨rfl, hfound⟩ := TextFile.read_eq_ok.mp hopened
  obtain rfl := Option.some.inj (hfound.symm.trans hsource)
  have hask : (mayReindex setup.agreed found).run opened = (false, opened) := by
    rw [mayReindex, hunique]
    rfl
  obtain ⟨hconfirm, hinput⟩ := confirm_run setup.agreed modifyQuestion opened
  rw [Procedure.runOn_liftM_bind, hask, Procedure.runOn_liftM_bind, hconfirm, if_pos hyes,
    Procedure.runOn_liftM_bind] at h₁
  obtain ⟨stats, wrote, hwrote, h₂⟩ := Procedure.runOn_bind_eq_ok.mp h₁
  obtain ⟨_, done, hdone, h₃⟩ := Procedure.runOn_bind_eq_ok.mp h₂
  obtain ⟨rfl, hresult⟩ := Procedure.runOn_pure_eq_ok.mp h₃
  refine ⟨⟨_, hresult⟩, ?_⟩
  have hoff : World.OffTree World.input := fun _ _ => rfl
  have hsaving := Backup.keeps_save setup.backupFolder [source, setup.destination source]
    (hoff.spared _) ((confirm setup.agreed modifyQuestion).run opened).2
  have hwriting := KeyFile.keeps_write (hoff.spared [setup.destination source]) setup.plugin
    (KeyFile.baseName source) setup.locale (prepare found false).messages
    ((Backup.save setup.backupFolder [source, setup.destination source]).run
      ((confirm setup.agreed modifyQuestion).run opened).2).2
  have hclosing := TextFile.keeps_write (hoff.spared [source])
    ("Failed to write file: ".toList ++ source.text)
    (prepare found false).materialized wrote
  rw [← hinput, ← hsaving, ← hwriting]
  rw [Procedure.runOn] at hwrote hdone
  rw [hwrote]
  rw [hdone] at hclosing
  exact hclosing

end questions

/-- A run through the sources in which none was declined. What was shown in between is left open. -/
inductive Extracts (setup : Setup) : List Path → World → World → Prop where
  | nil (world : World) : Extracts setup [] world world
  | cons {source : Path} {sources : List Path} {before between after : World} {extracted : Extracted}
      (shown : Text)
      (first : (extractFile setup source).runOn before = (.ok (some extracted), between))
      (rest : Extracts setup sources { between with output := between.output ++ shown } after) :
      Extracts setup (source :: sources) before after

/-- A document that raises no question about its keys and whose messages fit the lines of a key file,
if only their keys are not empty. -/
structure Simple (document : Text) : Prop where
  unique : (scan document).duplicates = []
  key : ∀ span ∈ spans document, span.key = [] ∨ IsKey span.key
  bracket : ∀ span ∈ spans document, '[' ∉ span.key
  line : ∀ span ∈ spans document, '\n' ∉ span.text
  openMark : ∀ span ∈ spans document, ¬ Markup.openMark <:+: span.text

instance (document : Text) : Decidable (Simple document) :=
  decidable_of_iff ((scan document).duplicates = [] ∧
      (∀ span ∈ spans document, span.key = [] ∨ IsKey span.key) ∧
      (∀ span ∈ spans document, '[' ∉ span.key) ∧ (∀ span ∈ spans document, '\n' ∉ span.text) ∧
      ∀ span ∈ spans document, ¬ Markup.openMark <:+: span.text)
    ⟨fun ⟨hu, hk, hb, hl, ho⟩ => ⟨hu, hk, hb, hl, ho⟩,
      fun h => ⟨h.unique, h.key, h.bracket, h.line, h.openMark⟩⟩

/-- A digit can stand in a key. -/
theorem not_blank_of_isDigit {c : Char} (h : c.isDigit = true) :
    isBlank c = false ∧ c ≠ '=' ∧ c ≠ '#' := by
  have hlow : 48 ≤ c.toNat ∧ c.toNat ≤ 57 := by simpa [Char.isDigit, UInt32.le_iff_toNat_le] using h
  refine ⟨?_, ?_, ?_⟩
  · simp only [isBlank, Bool.or_eq_false_iff, Bool.and_eq_false_iff, decide_eq_false_iff_not,
      beq_eq_false_iff_ne]
    omega
  · rintro rfl
    exact absurd hlow (by decide)
  · rintro rfl
    exact absurd hlow (by decide)

theorem isKey_numbered {key : Text} (hk : key = [] ∨ IsKey key) (index : Nat) :
    IsKey (Markup.numbered key index) := by
  refine Properties.isKey_append hk (by simp) (List.forall_mem_cons.mpr ⟨by decide, ?_⟩)
  exact fun c hc => not_blank_of_isDigit (Text.isDigit_of_mem_ofNat hc)

theorem isKey_numberedMulti {key : Text} (hk : key = [] ∨ IsKey key) (index : Nat) :
    IsKey (Markup.numberedMulti key index) := by
  have hmulti : IsKey (key ++ "_multi".toList) :=
    Properties.isKey_append hk (by decide) (by simp [isBlank])
  cases index with
  | zero => exact hmulti
  | succ index => exact isKey_numbered (.inr hmulti) (index + 1)

namespace Simple

variable {text : Text}

theorem apart (h : Simple text) : Markup.Apart text true :=
  Markup.apart_of_spans h.bracket h.openMark

/-- Each reference finds the text of its span in the messages. -/
theorem forall₂_spans (h : Simple text) :
    List.Forall₂ (fun new old => new.text = old.text ∧
        (prepare text true).messages.get? new.key = some old.text)
      (spans (prepare text true).document) (spans text) :=
  h.apart.forall₂_spans.imp fun _ _ hr => ⟨hr.1, by rw [hr.2, if_pos (.inl rfl)]⟩

/-- Each message stands under the key of a reference. -/
theorem mem_spans (h : Simple text) {key value : Text}
    (hg : (prepare text true).messages.get? key = some value) :
    ∃ new ∈ spans (prepare text true).document, new.key = key ∧ new.text = value := by
  rw [h.apart.messages_prepare, Markup.get?_messages_scan, ← Markup.map_entry_spans] at hg
  obtain ⟨new, hnew, he⟩ := List.mem_map.mp (OrderedMap.mem_of_last? hg)
  exact ⟨new, hnew, Prod.mk.inj he⟩

/-- A new name is a key, and an old one may only be empty. -/
theorem isKey (h : Simple text) {key : Text} (hk : key ∈ (prepare text true).messages.keys) :
    key = [] ∨ IsKey key := by
  have hnumbered (name : Text) (index : Nat) (hn : name = [] ∨ IsKey name) :
      Markup.numbered name index = [] ∨ IsKey (Markup.numbered name index) :=
    .inr (isKey_numbered hn index)
  refine h.apart.forall_keys hnumbered (fun name index hn => .inr (isKey_numberedMulti hn index))
    (fun part hp => ?_) key hk
  have hm : part.key ∈ (spans text).map Span.key := by
    rw [Markup.map_key_spans]
    exact List.mem_map_of_mem hp
  obtain ⟨span, hs, he⟩ := List.mem_map.mp hm
  exact he ▸ h.key span hs

theorem writable_iff (h : Simple text) :
    Writable (prepare text true).messages ↔ [] ∉ (prepare text true).messages.keys := by
  rw [writable_messages_iff h.apart.messages_prepare]
  constructor
  · intro hw hn
    obtain ⟨value, hv⟩ := OrderedMap.get?_of_mem_keys hn
    exact (hw _ (OrderedMap.get?_eq_some_iff.mp hv)).1.ne_nil rfl
  · intro hn entry he
    have hg := OrderedMap.get?_eq_some_iff.mpr he
    have hk := OrderedMap.mem_keys_of_get? hg
    refine ⟨(h.isKey hk).resolve_left fun he => hn (he ▸ hk), ?_⟩
    obtain ⟨new, hnew, -, ht⟩ := h.mem_spans hg
    obtain ⟨old, hold, hr⟩ := Markup.exists_of_forall₂ h.forall₂_spans hnew
    rw [← ht, hr.1]
    exact h.line old hold

end Simple

/-- The earlier of two sources does not write over the later one, nor the later one, as a source or
with its backups, over the key file of the earlier one. -/
structure Undisturbed (setup : Setup) (working : Location) (earlier later : Path) : Prop where
  source : later.place working ∉ (written setup earlier).map (Path.place working)
  keyFile : (setup.destination earlier).place working ∉
    (later :: backups setup later).map (Path.place working)

instance (setup : Setup) (working : Location) (earlier later : Path) :
    Decidable (Undisturbed setup working earlier later) :=
  decidable_of_iff (later.place working ∉ (written setup earlier).map (Path.place working) ∧
      (setup.destination earlier).place working ∉
        (later :: backups setup later).map (Path.place working))
    ⟨fun h => ⟨h.1, h.2⟩, fun h => ⟨h.source, h.keyFile⟩⟩

/-- The sources of a run are there, with simple documents, and are undisturbed. -/
structure Ready (setup : Setup) (document : Path → Text) (sources : List Path) (world : World) :
    Prop where
  text : ∀ source ∈ sources, world.text? source = some (document source)
  simple : ∀ source ∈ sources, Simple (document source)
  keyFile : ∀ source ∈ sources,
    (setup.destination source).place world.working ≠ source.place world.working
  undisturbed : sources.Pairwise (Undisturbed setup world.working)

/-- What a run makes of a source. -/
abbrev prepared (document : Path → Text) (source : Path) : Markup.Prepared :=
  prepare (document source) true

namespace Ready

theorem ran {extracted : Extracted} (h : Ready setup document (source :: sources) before)
    (hrun : (extractFile setup source).runOn before = (.ok (some extracted), between)) :
    ∃ earlier, Writable earlier ∧
      ((setup.destination source).place before.working ∉
          (backups setup source).map (Path.place before.working) →
        ∀ other content,
          (setup.destination source).place before.working = other.place before.working →
          before.text? other = some content → earlier = entries (parse content)) ∧
      between.text? source = some (prepared document source).materialized ∧
      between.text? (setup.destination source) = some (KeyFile.render setup.plugin
        (KeyFile.baseName source) setup.locale
        (earlier.merge (prepared document source).messages)) ∧
      World.Kept ((written setup source).map (Path.place before.working)) before between := by
  obtain ⟨found, earlier, hfound, hwritable, hearlier, hsource, hmerged, hkept⟩ :=
    extractFile_ran hrun
  obtain rfl := Option.some.inj (hfound.symm.trans (h.text source (by simp)))
  rw [Markup.prepare_of_no_duplicates (h.simple source (by simp)).unique] at hsource hmerged
  exact ⟨earlier, hwritable, hearlier, hsource, hmerged (h.keyFile source (by simp)), hkept⟩

/-- The sources that are left stay ready. -/
theorem rest {extracted : Extracted} (h : Ready setup document (source :: sources) before)
    (hrun : (extractFile setup source).runOn before = (.ok (some extracted), between))
    (shown : Text) :
    Ready setup document sources { between with output := between.output ++ shown } := by
  obtain ⟨-, -, -, -, -, hkept⟩ := h.ran hrun
  obtain ⟨hfirst, hrest⟩ := List.pairwise_cons.mp h.undisturbed
  refine ⟨fun other ho => ?_, fun other ho => h.simple other (List.mem_cons_of_mem _ ho), ?_, ?_⟩
  · exact hkept.text? (h.text other (List.mem_cons_of_mem _ ho)) (hfirst other ho).source
  · intro other ho
    rw [show ({ between with output := between.output ++ shown } : World).working = before.working
      from hkept.working]
    exact h.keyFile other (List.mem_cons_of_mem _ ho)
  · rw [show ({ between with output := between.output ++ shown } : World).working = before.working
      from hkept.working]
    exact hrest

end Ready

/-- A successful run in which every question is answered with yes goes through all sources. -/
theorem extracts_of_extractFiles {colors : Bool} (h : Ready setup document sources before)
    (hrun : (extractFiles colors setup sources).runOn before = (.ok .success, after))
    (hyes : alwaysYes setup.agreed sources.length before.input = true) :
    Extracts setup sources before after := by
  induction sources generalizing before with
  | nil =>
    obtain ⟨rfl, -⟩ := Procedure.runOn_pure_eq_ok.mp hrun
    exact .nil after
  | cons source sources ih =>
    obtain ⟨hfirst, hlater⟩ := Bool.and_eq_true_iff.mp hyes
    obtain ⟨result, between, hran, hrest⟩ := Procedure.runOn_bind_eq_ok.mp hrun
    obtain ⟨⟨extracted, rfl⟩, hinput⟩ := extractFile_agreed hran (h.text source (by simp))
      (h.simple source (by simp)).unique hfirst
    obtain ⟨_, printed, hprint, hrest⟩ := Procedure.runOn_bind_eq_ok.mp hrest
    obtain ⟨-, rfl⟩ := Prod.mk.inj hprint
    exact .cons _ hran (ih (h.rest hran _) hrest (hinput ▸ hlater))

/-- The messages of all sources whose key file is at a place. -/
def added (setup : Setup) (document : Path → Text) (working place : Location)
    (sources : List Path) : List (Text × Text) :=
  sources.flatMap fun source =>
    if (setup.destination source).place working = place then
      (prepared document source).messages.entries
    else []

theorem added_cons (setup : Setup) (document : Path → Text) (working place : Location)
    (source : Path) (sources : List Path) :
    added setup document working place (source :: sources) =
      (if (setup.destination source).place working = place then
        (prepared document source).messages.entries else []) ++
      added setup document working place sources :=
  List.flatMap_cons

namespace Extracts

/-- The messages of the sources are laid over what a key file says before. -/
theorem keyFile_grows (h : Extracts setup sources before after)
    (hready : Ready setup document sources before) {path : Path} {content : Text}
    (ht : before.text? path = some content)
    (hpath : ∀ later ∈ sources,
      path.place before.working ∉ (later :: backups setup later).map (Path.place before.working)) :
    ∃ grown, after.text? path = some grown ∧
      ((∀ source ∈ sources, Writable (prepared document source).messages) → ∀ key value,
        (last? key (added setup document before.working (path.place before.working) sources)).or
          ((entries (parse content)).get? key) = some value →
        (entries (parse grown)).get? key = some value) := by
  induction h generalizing content with
  | nil world => exact ⟨content, ht, fun _ _ _ hv => hv⟩
  | @cons source sources before between after extracted shown first rest ih =>
    obtain ⟨earlier, hwritable, hearlier, -, hkeyFile, hkept⟩ := hready.ran first
    have hworking : ({ between with output := between.output ++ shown } : World).working =
      before.working := hkept.working
    have hlater := fun later hl => hpath later (List.mem_cons_of_mem source hl)
    have hsource := hpath source (by simp)
    rw [List.map_cons, List.mem_cons, not_or] at hsource
    by_cases hp : (setup.destination source).place before.working = path.place before.working
    · have hcontent := hkept.text?_of_place ht hkeyFile hp.symm
      obtain rfl := hearlier (hp ▸ hsource.2) path content hp ht
      obtain ⟨grown, hgrown, hvalues⟩ := ih (hready.rest first shown) hcontent
        (by rwa [hworking])
      refine ⟨grown, hgrown, fun hw key value hv => ?_⟩
      obtain ⟨hfirst, hrest⟩ := List.forall_mem_cons.mp hw
      rw [hworking] at hvalues
      refine hvalues hrest key value ?_
      rw [added_cons, if_pos hp, OrderedMap.last?_append, OrderedMap.last?_entries,
        Option.or_assoc, ← OrderedMap.get?_merge] at hv
      rcases Option.or_eq_some_iff.mp hv with hv | ⟨hn, hv⟩
      · exact Option.or_eq_some_iff.mpr (.inl hv)
      · refine Option.or_eq_some_iff.mpr (.inr ⟨hn, ?_⟩)
        exact KeyFile.get?_entries_render_of_writable (hwritable.merge hfirst) hv
    · have hcontent : between.text? path = some content := by
        refine hkept.text? ht ?_
        simp only [written, List.map_append, List.mem_append, List.map_cons, List.map_nil,
          List.mem_cons, List.not_mem_nil, or_false, not_or]
        exact ⟨hsource.2, Ne.symm hp, hsource.1⟩
      obtain ⟨grown, hgrown, hvalues⟩ := ih (hready.rest first shown) hcontent
        (by rwa [hworking])
      refine ⟨grown, hgrown, fun hw key value hv => ?_⟩
      rw [hworking] at hvalues
      refine hvalues (fun other ho => hw other (List.mem_cons_of_mem _ ho)) key value ?_
      rwa [added_cons, if_neg hp, List.nil_append] at hv

/-- In the end the key file of a source says of each of its keys what the last source that has the
key and the same key file says. -/
theorem keyFile (h : Extracts setup sources before after)
    (hready : Ready setup document sources before) (hs : source ∈ sources) :
    ∃ content, after.text? (setup.destination source) = some content ∧
      ((∀ source ∈ sources, Writable (prepared document source).messages) →
        ∀ key ∈ (prepared document source).messages.keys,
          (entries (parse content)).get? key = last? key (added setup document before.working
            ((setup.destination source).place before.working) sources)) := by
  induction h with
  | nil world => simp at hs
  | @cons first sources before between after extracted shown hran rest ih =>
    obtain ⟨earlier, hwritable, -, -, hkeyFile, hkept⟩ := hready.ran hran
    have hworking : ({ between with output := between.output ++ shown } : World).working =
      before.working := hkept.working
    have hrest := hready.rest hran shown
    rcases List.mem_cons.mp hs with rfl | hs
    · obtain ⟨hfirst, -⟩ := List.pairwise_cons.mp hready.undisturbed
      obtain ⟨grown, hgrown, hvalues⟩ := rest.keyFile_grows hrest hkeyFile
        (by rw [hworking]; exact fun later hl => (hfirst later hl).keyFile)
      refine ⟨grown, hgrown, fun hw key hk => ?_⟩
      obtain ⟨hwfirst, hwrest⟩ := List.forall_mem_cons.mp hw
      obtain ⟨value, hv⟩ := OrderedMap.get?_of_mem_keys hk
      rw [added_cons, if_pos rfl, OrderedMap.last?_append, OrderedMap.last?_entries, hv]
      have hmerged : (earlier.merge (prepared document source).messages).get? key = some value := by
        rw [OrderedMap.get?_merge, hv]
        rfl
      have hread := @KeyFile.get?_entries_render_of_writable setup.plugin (KeyFile.baseName source)
        setup.locale key value _ (hwritable.merge hwfirst) hmerged
      rw [hworking] at hvalues
      cases hl : last? key (added setup document before.working
          ((setup.destination source).place before.working) sources) with
      | none => rw [hvalues hwrest key value (by rw [hl, hread]; rfl)]; rfl
      | some last => rw [hvalues hwrest key last (by rw [hl]; rfl)]; rfl
    · obtain ⟨content, hcontent, hvalues⟩ := ih hrest hs
      refine ⟨content, hcontent, fun hw key hk => ?_⟩
      rw [hvalues (fun other ho => hw other (List.mem_cons_of_mem _ ho)) key hk, hworking,
        added_cons, OrderedMap.last?_append]
      -- the source itself has the key, so the sources in front of it have no say in it
      cases hl : last? key (added setup document before.working
          ((setup.destination source).place before.working) sources) with
      | none =>
        refine absurd ?_ (OrderedMap.last?_eq_none_iff.mp hl)
        rw [added, List.map_flatMap]
        refine List.mem_flatMap.mpr ⟨source, hs, ?_⟩
        rwa [if_pos rfl]
      | some last => rfl

theorem kept (h : Extracts setup sources before after)
    (hready : Ready setup document sources before) :
    World.Kept ((sources.flatMap (written setup)).map (Path.place before.working)) before after := by
  induction h with
  | nil world => exact .refl world
  | @cons source sources before between after extracted shown first rest ih =>
    obtain ⟨-, -, -, -, -, hkept⟩ := hready.ran first
    obtain ⟨hworking, htree⟩ := ih (hready.rest first shown)
    have hrest : World.Kept ((sources.flatMap (written setup)).map (Path.place between.working))
        between after := ⟨hworking, htree⟩
    rw [hkept.working] at hrest
    rw [List.flatMap_cons, List.map_append]
    exact hkept.trans hrest

/-- A source that no later source writes over holds its references in the end. -/
theorem text_source (h : Extracts setup sources before after)
    (hready : Ready setup document sources before) (hs : source ∈ sources)
    (hlater : sources.Pairwise fun earlier later =>
      earlier.place before.working ∉ (written setup later).map (Path.place before.working)) :
    after.text? source = some (prepared document source).materialized := by
  induction h with
  | nil world => simp at hs
  | @cons first sources before between after extracted shown hran rest ih =>
    obtain ⟨earlier, -, -, hsource, -, hkept⟩ := hready.ran hran
    have hworking : ({ between with output := between.output ++ shown } : World).working =
      before.working := hkept.working
    have hrest := hready.rest hran shown
    obtain ⟨hfirst, hlater⟩ := List.pairwise_cons.mp hlater
    rcases List.mem_cons.mp hs with rfl | hs
    · refine (rest.kept hrest).text? hsource ?_
      rw [hworking]
      intro hm
      obtain ⟨path, hp, hplace⟩ := List.mem_map.mp hm
      obtain ⟨other, ho, hw⟩ := List.mem_flatMap.mp hp
      exact hfirst other ho (hplace ▸ List.mem_map_of_mem hw)
    · exact ih hrest hs (by rwa [hworking])

end Extracts

theorem entryAt?_eq_some_iff {key value : Text} :
    entryAt? setup source after key = some value ↔ ∃ content,
      after.text? (setup.destination source) = some content ∧
        (entries (parse content)).get? key = some value :=
  Option.bind_eq_some_iff

/-- The references of a source find the texts of their spans if the messages are in the key file. -/
theorem Simple.resolves_iff {text : Text} (h : Simple text) {find : Text → Option Text} :
    List.Forall₂ (fun new old => find new.key = some old.text)
        (spans (prepare text true).document) (spans text) ↔
      ∀ key value, (prepare text true).messages.get? key = some value → find key = some value := by
  constructor
  · intro hr key value hg
    obtain ⟨new, hnew, rfl, rfl⟩ := h.mem_spans hg
    have hboth := List.Forall₂.mp (fun a b ha hb => And.intro ha hb) hr h.forall₂_spans
    obtain ⟨old, -, hfind, ht, -⟩ := Markup.exists_of_forall₂ hboth hnew
    rw [hfind, ht]
  · exact fun hf => h.forall₂_spans.imp fun new old hr => hf _ _ hr.2

/-- A run over several sources whose questions are all answered with yes: each source that no later
one writes over holds its references, and all of them find the texts of their spans, each in the key
file of its source, exactly if no key is empty and no two sources that share a key file have
different texts for one key. -/
theorem extractFiles_keep_texts {colors : Bool} (hready : Ready setup document sources before)
    (hrun : (extractFiles colors setup sources).runOn before = (.ok .success, after))
    (hyes : alwaysYes setup.agreed sources.length before.input = true) :
    ((sources.Pairwise fun earlier later =>
        earlier.place before.working ∉ (written setup later).map (Path.place before.working)) →
      ∀ source ∈ sources, after.text? source = some (prepared document source).materialized) ∧
    ((∀ source ∈ sources, List.Forall₂
        (fun new old => entryAt? setup source after new.key = some old.text)
        (spans (prepared document source).document) (spans (document source))) ↔
      (∀ source ∈ sources, [] ∉ (prepared document source).messages.keys) ∧
      ∀ a ∈ sources, ∀ b ∈ sources,
        (setup.destination a).place before.working = (setup.destination b).place before.working →
        ∀ key x y, (prepared document a).messages.get? key = some x →
          (prepared document b).messages.get? key = some y → x = y) := by
  have hran := extracts_of_extractFiles hready hrun hyes
  have hworking := (hran.kept hready).working
  have hresolves : (∀ source ∈ sources, List.Forall₂
        (fun new old => entryAt? setup source after new.key = some old.text)
        (spans (prepared document source).document) (spans (document source))) ↔
      ∀ source ∈ sources, ∀ key value, (prepared document source).messages.get? key = some value →
        entryAt? setup source after key = some value :=
    forall₂_congr fun source hs => (hready.simple source hs).resolves_iff
  refine ⟨fun hlater source hs => hran.text_source hready hs hlater, ?_⟩
  rw [hresolves]
  constructor
  · refine fun hfound => ⟨fun source hs hn => ?_, fun a ha b hb hp key x y hx hy => ?_⟩
    · obtain ⟨value, hv⟩ := OrderedMap.get?_of_mem_keys hn
      obtain ⟨content, -, hg⟩ := entryAt?_eq_some_iff.mp (hfound source hs [] value hv)
      have he := Properties.writable_entries content _ (OrderedMap.get?_eq_some_iff.mp hg)
      exact he.1.ne_nil rfl
    · obtain ⟨content, hc, hgx⟩ := entryAt?_eq_some_iff.mp (hfound a ha key x hx)
      obtain ⟨other, ho, hgy⟩ := entryAt?_eq_some_iff.mp (hfound b hb key y hy)
      obtain ⟨location, -, hl, -⟩ := World.text?_eq_some_iff.mp ho
      have hsame := World.text?_of_place hc hl (by rw [hworking, hp])
      obtain rfl := Option.some.inj (hsame.symm.trans ho)
      exact Option.some.inj (hgx.symm.trans hgy)
  · rintro ⟨hkeys, hagree⟩ source hs key value hv
    have hwritable : ∀ source ∈ sources, Writable (prepared document source).messages :=
      fun source hs => (hready.simple source hs).writable_iff.mpr (hkeys source hs)
    obtain ⟨content, hc, hvalues⟩ := hran.keyFile hready hs
    have hg := hvalues hwritable key (OrderedMap.mem_keys_of_get? hv)
    refine entryAt?_eq_some_iff.mpr ⟨content, hc, ?_⟩
    rw [hg]
    refine OrderedMap.last?_eq_some ?_ fun other ho => ?_
    · refine List.mem_flatMap.mpr ⟨source, hs, ?_⟩
      rw [if_pos rfl]
      exact OrderedMap.get?_eq_some_iff.mp hv
    · obtain ⟨owner, hm, ho⟩ := List.mem_flatMap.mp ho
      split at ho
      · next hp =>
        exact hagree owner hm source hs hp key other value (OrderedMap.get?_eq_some_iff.mpr ho) hv
      · simp at ho

section sample

/-- A machine with these folders and files, besides the folder of the key files. -/
def siteWorld (folders : List Location) (files : List (Location × Text)) : World :=
  { pageWorld [] [] with
    tree := ⟨.ofList ((["keys".toList] :: folders).map (·, .folder) ++
      files.map fun (place, content) => (place, .file content.toBytes))⟩ }

/-- Two sources of one name in different folders. -/
def pages : List Path := [⟨"/a/p.md".toList⟩, ⟨"/b/p.md".toList⟩]

def pagesWorld (first second : Text) : World :=
  siteWorld [["a".toList], ["b".toList]]
    [(["p.md".toList, "a".toList], first), (["p.md".toList, "b".toList], second)]

end sample

theorem extractFiles_keep_texts_pages :
    let first := "[msg:k]x[/msg]".toList
    let second := "[msg:k]x[/msg][msg:m]y[/msg]".toList
    let document : Path → Text := fun source => if source.text = "/a/p.md".toList then first else second
    let after := ((extractFiles false (sampleSetup english) pages).runOn (pagesWorld first second)).2
    ∀ source ∈ pages, List.Forall₂
      (fun new old => entryAt? (sampleSetup english) source after new.key = some old.text)
      (spans (prepared document source).document) (spans (document source)) := by
  intro first second document after
  have hready : Ready (sampleSetup english) document pages (pagesWorld first second) :=
    ⟨by decide +kernel, by decide +kernel, by decide +kernel, by decide +kernel⟩
  have hok : ((extractFiles false (sampleSetup english) pages).runOn
      (pagesWorld first second)).1 = .ok .success := by decide +kernel
  have hagree : ∀ a ∈ pages, ∀ b ∈ pages, ∀ x ∈ (prepared document a).messages.entries,
      ∀ y ∈ (prepared document b).messages.entries, x.1 = y.1 → x.2 = y.2 := by decide +kernel
  refine (extractFiles_keep_texts hready (Prod.ext hok rfl) (by decide +kernel)).2.mpr
    ⟨by decide +kernel, fun a ha b hb _ key x y hx hy => ?_⟩
  exact hagree a ha b hb (key, x) (OrderedMap.get?_eq_some_iff.mp hx) (key, y)
    (OrderedMap.get?_eq_some_iff.mp hy) rfl

/-- Two sources of one name with different texts for a key, an empty key, a key file that is a later
source, a backup that is written over a key file or over a later source, and a key file that is its
source itself: in each case a reference does not find the text of its span. -/
theorem extractFiles_lose_texts :
    let setup := sampleSetup english
    let page := "[msg:k]x[/msg]".toList
    let run := fun setup sources world => (extractFiles false setup sources).runOn world
    let source : Path := ⟨"/p.md".toList⟩
    let keyFile : Location := ["p.US_en.properties".toList, "keys".toList]
    let shared := run setup pages (pagesWorld page "[msg:k]y[/msg]".toList)
    let nameless := run setup [source] (siteWorld [] [(["p.md".toList], "[msg:]x[/msg]".toList)])
    let later := run setup [source, ⟨"/keys/p.US_en.properties".toList⟩]
      (siteWorld [] [(["p.md".toList], page),
        (keyFile, "e=q\nk=z\ng=[msg:c]v[/msg]\ne=[msg:b]u\n".toList)])
    let besides := { setup with backupFolder := ⟨"/keys".toList⟩ }
    let saved := run besides [source, ⟨"/x/p.US_en.properties".toList⟩]
      (siteWorld [["x".toList]] [(["p.md".toList], page),
        (["p.US_en.properties".toList, "x".toList], [])])
    let copied : Path := ⟨"/backup/p.US_en.properties".toList⟩
    let copying := run setup [source, copied] (siteWorld [["backup".toList]]
      [(["p.md".toList], page), (keyFile, "[msg:a]u\nv[/msg]\n".toList),
        (["p.US_en.properties".toList, "backup".toList], [])])
    let climbing := sampleSetup ⟨"a/../p".toList, "q".toList⟩
    let own : Path := ⟨"/keys/p_q.properties".toList⟩
    let same := run climbing [own] (siteWorld [] [(["p_q.properties".toList, "keys".toList], page)])
    (shared.1 = .ok .success ∧
      shared.2.text? ⟨"/a/p.md".toList⟩ = some "~[text:k]".toList ∧
      entryAt? setup ⟨"/a/p.md".toList⟩ shared.2 "k".toList = some "y".toList) ∧
    (nameless.1 = .ok .success ∧ nameless.2.text? source = some "~[text:]".toList ∧
      entryAt? setup source nameless.2 [] = none) ∧
    (later.1 = .ok .success ∧ later.2.text? source = some "~[text:k]".toList ∧
      entryAt? setup source later.2 "k".toList = none) ∧
    (saved.1 = .ok .success ∧ saved.2.text? source = some "~[text:k]".toList ∧
      entryAt? besides source saved.2 "k".toList = none) ∧
    (copying.1 = .ok .success ∧ copying.2.text? copied = some "~[text:a]\n".toList ∧
      entryAt? setup copied copying.2 "a".toList = some "u".toList) ∧
    (same.1 = .ok .success ∧ same.2.text? own = some "~[text:k]".toList ∧
      entryAt? climbing own same.2 "k".toList = none) := by
  decide +kernel

end MessageKeys.KeyExtraction
