import MessageKeys.Proofs.Files.Writing
import MessageKeys.Proofs.Localization.Reread

/-!
# Localizing a file again

A localization reads what the one before it wrote. If the service keeps to its answers, every value
comes about as it did before: a translated value from the same answer, and an untranslated one from
the target, where it stands by now. So the second run writes what it read.
-/
namespace MessageKeys.Localization

open Properties (Line Writable entries parse render)

variable {translator : Translator} {service : Service} {clock : Nat → Moment}
  {text language value content : Text} {retries : Nat} {source target : Path} {locale : Locale}

/-- A service that answers a text in a language always the same way, however often it was asked. -/
def Service.Steady (service : Service) : Prop :=
  ∀ asked later text language, service asked text language = service later text language

/-- The last reply is one that the service gave. -/
theorem Asked.replied {calls more : List (Text × Text)} {reply : Reply}
    (h : Asked service text language retries calls reply more) :
    ∃ asked, service asked text language = reply := by
  induction h with
  | answered h => exact ⟨_, h⟩
  | failed h hlast => exact ⟨_, h⟩
  | again h hpasses rest ih => exact ih

/-- Without a time behind it, a translated value is an answer of the service without the white space
around it. -/
theorem TreatedAll.answered {start stop : Requests} {values : List (Text × Text)}
    {outcomes : List (Text × Outcome)} {key found : Text}
    (h : TreatedAll translator service clock language start values outcomes stop)
    (hplain : translator.options.timestamps = false) (hm : (key, .translated found) ∈ outcomes) :
    ∃ asked text answer, service asked text language = .ok answer ∧ found = answer.trim := by
  obtain ⟨value, before, after, htreated⟩ := h.treated hm
  cases htreated with
  | translated hask hasked =>
    obtain ⟨asked, hanswer⟩ := hasked.replied
    exact ⟨asked, value, _, hanswer, stamped_of_plain hplain _ _⟩

/-- Answers and phrases on one line make values on one line. -/
theorem TreatedAll.line_newValue {start stop : Requests} {earlier : OrderedMap Text Text}
    {outcomes : OrderedMap Text Outcome}
    (h : TreatedAll translator service clock language start (entries (parse content)).entries
      outcomes.entries stop) (hw : Writable earlier)
    (hplain : translator.options.timestamps = false)
    (hphrases : ∀ text phrase, translator.phrasebook.lookup? text language = some phrase →
      '\n' ∉ phrase)
    (hanswers : ∀ asked text answer, service asked text language = .ok answer →
      '\n' ∉ answer.trim) (key : Text) :
    '\n' ∉ newValue (entries (parse content)) earlier outcomes key := by
  refine not_mem_newValue h hw hplain hphrases fun key answer ho => ?_
  obtain ⟨asked, text, whole, hwhole, rfl⟩ := h.answered hplain (OrderedMap.get?_eq_some_iff.mp ho)
  exact hanswers asked text whole hwhole

section steady

variable (hs : service.Steady)
include hs

/-- Calls made before do not change the last reply. -/
theorem Asked.elsewhere {calls more : List (Text × Text)} {reply : Reply}
    (h : Asked service text language retries calls reply more) (others : List (Text × Text)) :
    ∃ after, Asked service text language retries others reply after := by
  induction h generalizing others with
  | answered h => exact ⟨_, .answered ((hs _ _ _ _).trans h)⟩
  | failed h hlast => exact ⟨_, .failed ((hs _ _ _ _).trans h) hlast⟩
  | again h hpasses rest ih =>
    obtain ⟨after, hafter⟩ := ih (others ++ [(text, language)])
    exact ⟨after, .again ((hs _ _ _ _).trans h) hpasses hafter⟩

/-- Nor does the clock have a say where no times are written. -/
theorem Treated.elsewhere {before after : Requests} {outcome : Outcome}
    (h : Treated translator service clock language before value outcome after)
    (hplain : translator.options.timestamps = false) (others : List (Text × Text))
    (other : Nat → Moment) :
    ∃ more, Treated translator service other language ⟨before.asked, others⟩ value outcome
      ⟨after.asked, more⟩ := by
  have hstamped (time later : Moment) (text : Text) :
      stamped translator.options time text = stamped translator.options later text := by
    rw [stamped_of_plain hplain, stamped_of_plain hplain]
  cases h with
  | unasked h => exact ⟨others, .unasked h⟩
  | translated hask h =>
    obtain ⟨more, hmore⟩ := h.elsewhere hs others
    rw [hstamped _ (other more.length)]
    exact ⟨more, .translated hask hmore⟩
  | fallback hask h hphrase =>
    obtain ⟨more, hmore⟩ := h.elsewhere hs others
    rw [hstamped _ (other more.length)]
    exact ⟨more, .fallback hask hmore hphrase⟩
  | failed hask h hphrase =>
    obtain ⟨more, hmore⟩ := h.elsewhere hs others
    exact ⟨more, .failed hask hmore hphrase⟩

theorem TreatedAll.elsewhere {before after : Requests} {values : List (Text × Text)}
    {outcomes : List (Text × Outcome)}
    (h : TreatedAll translator service clock language before values outcomes after)
    (hplain : translator.options.timestamps = false) (others : List (Text × Text))
    (other : Nat → Moment) :
    ∃ more, TreatedAll translator service other language ⟨before.asked, others⟩ values outcomes
      ⟨after.asked, more⟩ := by
  induction h generalizing others with
  | nil requests => exact ⟨others, .nil _⟩
  | cons first rest ih =>
    obtain ⟨between, hfirst⟩ := first.elsewhere hs hplain others other
    obtain ⟨more, hrest⟩ := ih between
    exact ⟨more, .cons hfirst hrest⟩

end steady

section kept

variable {lines : List Line} {earlier kept : OrderedMap Text Text}
  {outcomes : OrderedMap Text Outcome} {key : Text}

/-- What is written for a key that was not translated has no white space around it. -/
theorem trim_newValue (hw : Writable earlier) (ho : outcomes.get? key = some .untranslated) :
    (newValue (entries (parse content)) earlier outcomes key).trim =
      newValue (entries (parse content)) earlier outcomes key := by
  rw [newValue, ho]
  cases he : earlier.get? key with
  | some old => exact (hw _ (OrderedMap.get?_eq_some_iff.mp he)).2.trimmed
  | none =>
    cases hsource : (entries (parse content)).get? key with
    | some value =>
      exact (Properties.writable_entries content _
        (OrderedMap.get?_eq_some_iff.mp hsource)).2.trimmed
    | none => rfl

variable (hread : kept.entries =
  (targetPairs (parse content) earlier outcomes).map fun entry => (entry.1, entry.2.trim))
include hread

/-- Each key gets the value that it has got. -/
theorem newValue_of_reread (hk : outcomes.keys = (entries (parse content)).keys)
    (hw : Writable earlier) (hm : key ∈ (entries (parse content)).keys) :
    newValue (entries (parse content)) kept outcomes key =
      newValue (entries (parse content)) earlier outcomes key := by
  obtain ⟨outcome, ho⟩ := OrderedMap.get?_of_mem_keys (hk ▸ hm)
  cases outcome with
  | translated answer => rw [newValue, newValue, ho]
  | fallback phrase => rw [newValue, newValue, ho]
  | untranslated =>
    rw [← trim_newValue hw ho]
    conv => lhs; rw [newValue, ho, get?_reread_source hread hm]

/-- The pairs that the source lacks are retained once more. -/
theorem retained_of_reread (hw : Writable earlier) :
    retained (parse content) kept = retained (parse content) earlier := by
  have hsource : ((entries (parse content)).keys.map fun key =>
      (key, (newValue (entries (parse content)) earlier outcomes key).trim)).filter
        (fun entry => !(pairKeys (parse content)).contains entry.1) = [] := by
    refine List.filter_eq_nil_iff.mpr fun entry he => ?_
    obtain ⟨key, hm, rfl⟩ := List.mem_map.mp he
    rw [keys_entries, OrderedMap.mem_firsts] at hm
    simpa using hm
  have htrimmed : ((retained (parse content) earlier).map fun entry => (entry.1, entry.2.trim)) =
      retained (parse content) earlier := by
    refine (List.map_congr_left fun entry he => ?_).trans (List.map_id _)
    rw [(hw entry (List.mem_of_mem_filter he)).2.trimmed]
    rfl
  rw [retained, hread, targetPairs, List.map_append, List.filter_append, htrimmed, List.map_map]
  refine (congrArg (· ++ _) hsource).trans ?_
  rw [List.nil_append, retained, List.filter_filter]
  simp only [Bool.and_self]

theorem targetLines_of_reread (hk : outcomes.keys = (entries (parse content)).keys)
    (hw : Writable earlier) :
    targetLines (parse content) kept outcomes.entries =
      targetLines (parse content) earlier outcomes.entries := by
  rw [targetLines_eq _ _ hk, targetLines_eq _ _ hk, linesFor, linesFor,
    retained_of_reread hread hw]
  refine congrArg (· ++ _) (withValues_congr fun key hm => newValue_of_reread hread hk hw ?_)
  rwa [keys_entries, OrderedMap.mem_firsts]

theorem report_of_reread (hw : Writable earlier) (target : Path) (found : List (Text × Outcome)) :
    report target (entries (parse content)) kept found =
      report target (entries (parse content)) earlier found := by
  simp only [report, retainedEntries_eq, retained_of_reread hread hw]

end kept

/-- What work on the target leaves, and the calls made have no say in, stays as it is. -/
theorem Translator.keeps_translateFile {γ : Type} {view : World → γ} {target : Path}
    (translator : Translator) (hview : World.Spared view [target])
    (hcalls : ∀ world calls, view { world with calls } = view world) (source : Path)
    (locale : Locale) :
    Program.Keeps view (translator.translateFile source locale target) := by
  refine .bind (.bindRun (PropertyFile.keeps_read source) fun _ =>
    .bindRun (PropertyFile.keeps_readEntries target) fun _ => .pure _) fun result => ?_
  cases result with
  | error failure => exact .pure _
  | ok found =>
    refine .bind (fun world => ?_) fun outcomes =>
      .bind (PropertyFile.keeps_write hview _) fun _ => .pure _
    obtain ⟨requests, -, hworld⟩ := translateEntries_run translator locale.language false
      (entries found.1).entries world
    rw [hworld]
    exact hcalls world _

/-- What the file tree and the calls made have no say in stays as it is. -/
theorem keeps_translateFile {γ : Type} {view : World → γ} (htree : World.OffTree view)
    (hcalls : ∀ world calls, view { world with calls } = view world) (translator : Translator)
    (source : Path) (locale : Locale) (target : Path) :
    Program.Keeps view (translator.translateFile source locale target) :=
  translator.keeps_translateFile (htree.spared [target]) hcalls source locale

/-- A localization succeeds if its inputs can be read and the target can be written. -/
theorem exists_report {before : World} {earlier : OrderedMap Text Text}
    (hs : before.text? source = some content)
    (ht : (PropertyFile.readEntries target).runOn before = (.ok earlier, before))
    (hw : before.CanWrite target) :
    ∃ report, ((translator.translateFile source locale target).run before).1.result =
      .ok report := by
  obtain ⟨outcomes, requests, written, -, hwrote, hattempt⟩ :=
    translateFile_of_inputs hs ht (Prod.eta ((translator.translateFile source locale target).run
      before)).symm
  have hthere : World.CanWrite { before with calls := requests.calls } target :=
    ⟨hw.leads, hw.no_folder, hw.no_slash, hw.allowed⟩
  obtain ⟨after, hdone⟩ := PropertyFile.exists_write_of_canWrite hthere
    (targetLines (parse content) earlier outcomes)
  obtain ⟨rfl, -⟩ := Prod.mk.inj (hwrote.symm.trans hdone)
  exact ⟨_, congrArg Attempt.result hattempt⟩

/-- Where a localization has written its target, it may do so again. -/
theorem allowed_of_ok {before after : World} {attempt : Attempt} {report : Report}
    (hran : (translator.translateFile source locale target).run before = (attempt, after))
    (hok : attempt.result = .ok report) :
    after.tree.refusal? (target.place before.working) = none := by
  rw [Tree.refusal?_congr (Program.keeps_refusals _ |>.after_run hran)]
  rcases translateFile_ends hran with ⟨failure, rfl, -⟩ |
    ⟨content, earlier, outcomes, requests, written, -, -, -, hwrote, rfl⟩
  · cases hok
  · cases written with
    | error failure => cases hok
    | ok _ =>
      have hallowed := PropertyFile.allowed_of_write hwrote
      exact hallowed

/-- Localizing a file into another one, and once more: the second run leaves the target byte by byte
as the first one left it and reports the same. This needs a service that keeps to its answers, and
answers and phrases that stay on one line; no times are written. The first run succeeds if the
source can be read, the target can be read or is not there, and the target can be written. -/
theorem translateFile_again (translator : Translator) (source : Path) (locale : Locale)
    (target : Path) (before : World)
    (hother : source.place before.working ≠ target.place before.working)
    (hplain : translator.options.timestamps = false)
    (hphrases : ∀ text phrase, translator.phrasebook.lookup? text locale.language = some phrase →
      '\n' ∉ phrase)
    (hsteady : before.service.Steady)
    (hanswers : ∀ asked text answer, before.service asked text locale.language = .ok answer →
      '\n' ∉ answer.trim) :
    let once := (translator.translateFile source locale target).run before
    let twice := (translator.translateFile source locale target).run once.2
    ((before.text? source).isSome → before.CanWrite target →
        (∃ earlier, (PropertyFile.readEntries target).runOn before = (.ok earlier, before)) →
          ∃ report, once.1.result = .ok report) ∧
      ∀ report, once.1.result = .ok report →
        twice.1.result = .ok report ∧
          ∃ bytes, once.2.tree.read once.2.working target = .ok bytes ∧
            twice.2.tree.read twice.2.working target = .ok bytes := by
  intro once twice
  refine ⟨fun hs hw ⟨earlier, ht⟩ => ?_, fun report hok => ?_⟩
  · obtain ⟨content, hs⟩ := Option.isSome_iff_exists.mp hs
    exact exists_report hs ht hw
  obtain ⟨content, earlier, found, requests, hcontent, hearlier, htreated, -, hkept, hbytes, -, rfl⟩ :=
    translateFile_eq_ok (Prod.eta _).symm hok
  obtain ⟨outcomes, rfl, hkeys⟩ := htreated.exists_map
  have hw := PropertyFile.writable_of_readEntries hearlier
  -- The second run finds the source as it was and the lines of the first run in the target.
  have hsource : once.2.text? source = some content := hkept.text? hcontent (by simpa using hother)
  have htarget : once.2.text? target =
      some (render (targetLines (parse content) earlier outcomes.entries)) :=
    World.text?_of_read hbytes
  have hservice : Program.Keeps World.service (translator.translateFile source locale target) :=
    keeps_translateFile (fun _ _ => rfl) (fun _ _ => rfl) translator source locale target
  have hread : (PropertyFile.readEntries target).runOn once.2 = (.ok _, once.2) :=
    PropertyFile.readEntries_eq_ok.mpr ⟨rfl, .inr ⟨_, htarget, rfl⟩⟩
  have hallowed : once.2.tree.refusal? (target.place once.2.working) = none := by
    rw [hkept.working]
    exact allowed_of_ok (Prod.eta _).symm hok
  obtain ⟨again, hagain⟩ := exists_report hsource hread (World.canWrite_of_text? htarget hallowed)
  obtain ⟨content', kept, found, _, hcontent', hkept', htreated', -, -, hbytes', -, rfl⟩ :=
    translateFile_eq_ok (Prod.eta _).symm hagain
  obtain rfl : content = content' := Option.some.inj (hsource.symm.trans hcontent')
  obtain rfl := Except.ok.inj (Prod.mk.inj (hread.symm.trans hkept')).1
  obtain ⟨more, hsame⟩ := htreated.elsewhere hsteady hplain once.2.calls once.2.clock
  rw [hservice before] at htreated'
  obtain rfl : outcomes.entries = found := (hsame.unique htreated').1
  have hpairs := entries_target_of_lines hkeys hw fun key _ =>
    htreated.line_newValue hw hplain hphrases hanswers key
  refine ⟨?_, _, hbytes, ?_⟩
  · rw [hagain, report_of_reread hpairs hw]
  · rw [hbytes', targetLines_of_reread hpairs hkeys hw]

/-- A service that knows one text. -/
def knowing (known answer : Text) : Service := fun _ text _ =>
  if text = known then .ok answer else .error (.status 404)

theorem steady_knowing (known answer : Text) : (knowing known answer).Steady :=
  fun _ _ _ _ => rfl

/-- A translator with one phrase. -/
def phrasedTranslator : Translator where
  phrasebook := Phrasebook.empty.insert "es".toList "Bye".toList " Hasta ".toList
  options := { Options.defaults with retries := 1 }

theorem translateFile_again_page :
    let before := sampleWorld "# c\nk=x\nm=Thanks\n\nk=Hello\nb=Bye\ne=\nz\n".toList
      "x=y\nm=Gracias\n".toList (knowing "Hello".toList " Hola ".toList)
    let once := (phrasedTranslator.translateFile sampleSource spanish sampleTarget).run before
    let twice := (phrasedTranslator.translateFile sampleSource spanish sampleTarget).run once.2
    once.2.text? sampleTarget =
        some "# c\nk=Hola\nm=Gracias\n\nb= Hasta \ne=\nz\nx=y\n".toList ∧
      twice.1.result = .ok ⟨sampleTarget, 4, 1, 1, 2, 1⟩ ∧
      ∃ bytes, once.2.tree.read once.2.working sampleTarget = .ok bytes ∧
        twice.2.tree.read twice.2.working sampleTarget = .ok bytes := by
  intro before once twice
  have hok : once.1.result = .ok ⟨sampleTarget, 4, 1, 1, 2, 1⟩ := by decide +kernel
  have htext : once.2.text? sampleTarget =
      some "# c\nk=Hola\nm=Gracias\n\nb= Hasta \ne=\nz\nx=y\n".toList := by decide +kernel
  have hother : sampleSource.place before.working ≠ sampleTarget.place before.working := by
    decide +kernel
  have hphrases (text phrase : Text)
      (h : phrasedTranslator.phrasebook.lookup? text spanish.language = some phrase) :
      '\n' ∉ phrase := by
    have hm := OrderedMap.get?_eq_some_iff.mp h
    obtain ⟨-, rfl⟩ := Prod.mk.inj (List.mem_singleton.mp hm)
    decide
  have hanswers (asked : Nat) (text answer : Text)
      (h : knowing "Hello".toList " Hola ".toList asked text spanish.language = .ok answer) :
      '\n' ∉ answer.trim := by
    unfold knowing at h
    split at h
    · obtain rfl := Except.ok.inj h
      decide
    · cases h
  obtain ⟨-, hagain⟩ := translateFile_again phrasedTranslator sampleSource spanish sampleTarget
    before hother rfl hphrases (steady_knowing _ _) hanswers
  refine ⟨htext, ?_⟩
  -- Nothing is to be unfolded here: the runs would be carried out.
  with_reducible exact hagain _ hok

end MessageKeys.Localization
