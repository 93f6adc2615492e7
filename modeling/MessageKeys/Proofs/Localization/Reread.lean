import MessageKeys.Proofs.Localization.File

/-!
# What is read of a target file

The lines that are no pairs say nothing when the target is read, and every pair is spelled by its
line. So the target says what was translated, unless a value holds a line feed: its line then ends
too early, and what follows may say anything.
-/
namespace MessageKeys.Localization

open OrderedMap (firsts)
open Properties (IsKey IsValue Line Writable entries pairs parse render spelled)

variable {lines : List Line} {earlier : OrderedMap Text Text} {key content : Text}

theorem pairs_of_mem_parse {line : Line} (hm : line ∈ parse content) (hp : line.pair? = none) :
    pairs line.toText = [] := by
  obtain ⟨raw, hr, rfl⟩ : ∃ raw ∈ content.pieces '\n', Line.parse raw = line := by
    obtain ⟨raw, hr, he⟩ := List.mem_map.mp hm
    split at hr
    · exact ⟨raw, List.dropLast_subset _ hr, he⟩
    · exact ⟨raw, hr, he⟩
  have htext : (Line.parse raw).toText = raw := by
    unfold Line.parse at hp ⊢
    split
    · rfl
    · rfl
    · next hn hc =>
      split
      · next h => simp [h, Line.pair?] at hp
      · rfl
  rw [htext, Properties.pairs_line raw (Text.separator_not_mem hr), Properties.pairOn?, hp]
  rfl

theorem pairs_render_of_pairs {lines : List Line}
    (h : ∀ line ∈ lines, line.pair? = none → pairs line.toText = []) :
    pairs (render lines) = (lines.filterMap Line.pair?).flatMap spelled := by
  rw [Properties.pairs_render]
  induction lines with
  | nil => rfl
  | cons line lines ih =>
    obtain ⟨hline, hlines⟩ := List.forall_mem_cons.mp h
    rw [List.flatMap_cons, ih hlines, List.filterMap_cons]
    cases line with
    | pair key value => rfl
    | blank raw => rw [hline rfl]; rfl
    | comment raw => rw [hline rfl]; rfl
    | other raw => rw [hline rfl]; rfl

theorem mem_of_mem_replaceValues {values : OrderedMap Text Text} {seen : List Text} {line : Line}
    (hm : line ∈ replaceValues values seen lines) (hp : line.pair? = none) : line ∈ lines := by
  fun_induction replaceValues values seen lines with
  | case1 => simp at hm
  | case2 seen key value rest hs ih => exact List.mem_cons_of_mem _ (ih hm)
  | case3 seen key value rest hs ih =>
    rcases List.mem_cons.mp hm with rfl | hm
    · cases hp
    · exact List.mem_cons_of_mem _ (ih hm)
  | case4 seen line rest hl ih =>
    rcases List.mem_cons.mp hm with rfl | hm
    · exact List.mem_cons_self
    · exact List.mem_cons_of_mem _ (ih hm)

/-- Each key that was not seen gets one pair. -/
theorem filterMap_replaceValues (values : OrderedMap Text Text) (seen : List Text)
    (lines : List Line) :
    (replaceValues values seen lines).filterMap Line.pair? =
      ((firsts (pairKeys lines)).filter (· ∉ seen)).map fun key =>
        (key, (values.get? key).getD []) := by
  fun_induction replaceValues values seen lines with
  | case1 => rfl
  | case2 seen key value rest hs ih =>
    rw [ih, pairKeys_pair, firsts, List.filter_cons_of_neg (by simpa using hs), List.filter_filter]
    refine congrArg _ (List.filter_congr fun other _ => ?_)
    by_cases ho : other = key
    · simp [ho, hs]
    · simp [ho]
  | case3 seen key value rest hs ih =>
    rw [filterMap_pair, ih, pairKeys_pair, firsts,
      List.filter_cons_of_pos (by simpa using hs), List.filter_filter, List.map_cons]
    refine congrArg _ (congrArg _ (List.filter_congr fun other _ => ?_))
    by_cases ho : other = key <;> simp [ho]
  | case4 seen line rest hl ih =>
    have hp : line.pair? = none := by
      cases line with
      | pair key value => exact absurd rfl (hl key value)
      | _ => rfl
    rw [List.filterMap_cons_none hp, ih, pairKeys_of_none hp]

/-- The pairs of a target: one for each key of the source, and those of the earlier target that the
source lacks. -/
def targetPairs (lines : List Line) (earlier : OrderedMap Text Text)
    (outcomes : OrderedMap Text Outcome) : List (Text × Text) :=
  (entries lines).keys.map (fun key => (key, newValue (entries lines) earlier outcomes key)) ++
    retained lines earlier

variable {outcomes : OrderedMap Text Outcome}

theorem filterMap_targetLines (hk : outcomes.keys = (entries lines).keys) :
    (targetLines lines earlier outcomes.entries).filterMap Line.pair? =
      targetPairs lines earlier outcomes := by
  rw [targetLines, List.filterMap_append, filterMap_replaceValues, List.filterMap_map, targetPairs,
    keys_entries, List.filter_eq_self.mpr (by simp)]
  refine congrArg₂ (· ++ ·) (List.map_congr_left fun key hm => ?_)
    (List.filterMap_some.trans (retainedEntries_eq lines earlier))
  rw [get?_newValues]
  rwa [hk, keys_entries]

theorem map_fst_targetPairs (lines : List Line) (earlier : OrderedMap Text Text)
    (outcomes : OrderedMap Text Outcome) :
    (targetPairs lines earlier outcomes).map Prod.fst =
      (entries lines).keys ++ (retained lines earlier).map Prod.fst := by
  rw [targetPairs, List.map_append, List.map_map]
  exact congrArg (· ++ _) (List.map_id _)

theorem nodup_targetPairs (lines : List Line) (earlier : OrderedMap Text Text)
    (outcomes : OrderedMap Text Outcome) :
    ((targetPairs lines earlier outcomes).map Prod.fst).Nodup := by
  rw [map_fst_targetPairs]
  refine List.nodup_append'.mpr ⟨(entries lines).nodup, ?_, fun key hk hm => ?_⟩
  · exact (List.filter_sublist.map Prod.fst).nodup earlier.nodup
  · obtain ⟨entry, he, rfl⟩ := List.mem_map.mp hm
    rw [keys_entries, OrderedMap.mem_firsts] at hk
    simpa [hk] using (List.mem_filter.mp he).2

/-- Reading a target gives what the lines of its pairs spell. -/
theorem entries_target (hk : outcomes.keys = (entries (parse content)).keys) :
    entries (parse (render (targetLines (parse content) earlier outcomes.entries))) =
      .ofList ((targetPairs (parse content) earlier outcomes).flatMap spelled) := by
  rw [Properties.entries_parse, pairs_render_of_pairs, filterMap_targetLines hk]
  intro line hm hp
  rcases List.mem_append.mp hm with hm | hm
  · exact pairs_of_mem_parse (mem_of_mem_replaceValues hm hp) hp
  · obtain ⟨entry, -, rfl⟩ := List.mem_map.mp hm
    cases hp

/-- If all values stay on their lines, they are read back but for the white space around them. -/
theorem entries_target_of_lines (hk : outcomes.keys = (entries (parse content)).keys)
    (hw : Writable earlier)
    (hl : ∀ key ∈ (entries (parse content)).keys,
      '\n' ∉ newValue (entries (parse content)) earlier outcomes key) :
    (entries (parse (render (targetLines (parse content) earlier outcomes.entries)))).entries =
      (targetPairs (parse content) earlier outcomes).map fun entry => (entry.1, entry.2.trim) := by
  have hspelled : ∀ entry ∈ targetPairs (parse content) earlier outcomes,
      spelled entry = [(entry.1, entry.2.trim)] := by
    intro entry he
    rcases List.mem_append.mp he with he | he
    · obtain ⟨key, hm, rfl⟩ := List.mem_map.mp he
      exact Properties.spelled_of_line (Properties.isKey_of_mem_keys hm) (hl key hm)
    · obtain ⟨hkey, hvalue⟩ := hw entry (List.mem_of_mem_filter he)
      exact Properties.spelled_of_line hkey hvalue.line
  have hflat : (targetPairs (parse content) earlier outcomes).flatMap spelled =
      (targetPairs (parse content) earlier outcomes).map fun entry => (entry.1, entry.2.trim) := by
    rw [List.flatMap_def, List.map_congr_left hspelled, ← List.flatMap_def, ← List.map_eq_flatMap]
  rw [entries_target hk, hflat, OrderedMap.entries_ofList_of_nodup]
  rw [List.map_map]
  exact nodup_targetPairs _ _ _

section kept

variable {kept : OrderedMap Text Text}
  (hread : kept.entries =
    (targetPairs lines earlier outcomes).map fun entry => (entry.1, entry.2.trim))
include hread

theorem keys_of_reread :
    kept.keys = (entries lines).keys ++ (retained lines earlier).map Prod.fst := by
  rw [OrderedMap.keys, hread, List.map_map]
  exact map_fst_targetPairs lines earlier outcomes

theorem get?_reread_source (hm : key ∈ (entries lines).keys) :
    kept.get? key = some (newValue (entries lines) earlier outcomes key).trim := by
  rw [OrderedMap.get?_eq_some_iff, hread]
  exact List.mem_map.mpr ⟨_, List.mem_append_left _ (List.mem_map.mpr ⟨key, hm, rfl⟩), rfl⟩

theorem get?_reread_retained {entry : Text × Text} (he : entry ∈ retained lines earlier) :
    kept.get? entry.1 = some entry.2.trim := by
  rw [OrderedMap.get?_eq_some_iff, hread]
  exact List.mem_map.mpr ⟨entry, List.mem_append_right _ he, rfl⟩

end kept

theorem newValue_translated {source : OrderedMap Text Text} {answer : Text}
    (h : outcomes.get? key = some (.translated answer)) :
    newValue source earlier outcomes key = answer := by
  rw [newValue, h]

/-- Without a time behind it, a translated text has no white space around it. -/
theorem TreatedAll.trim_translated {translator : Translator} {service : Service} {clock : Nat → Moment}
    {language answer : Text} {start stop : Requests} {values : List (Text × Text)}
    {found : List (Text × Outcome)}
    (h : TreatedAll translator service clock language start values found stop)
    (hplain : translator.options.timestamps = false) (hm : (key, .translated answer) ∈ found) :
    answer.trim = answer := by
  obtain ⟨value, before, after, htreated⟩ := h.treated hm
  cases htreated with
  | translated hask hasked =>
    rw [stamped_of_plain hplain]
    exact Text.trim_trim _

/-- Without times behind them, no value holds a line feed but an answer of the service, if the
phrasebook has phrases of one line only. -/
theorem not_mem_newValue {translator : Translator} {service : Service} {clock : Nat → Moment}
    {language : Text} {start stop : Requests}
    (h : TreatedAll translator service clock language start (entries (parse content)).entries
      outcomes.entries stop)
    (hw : Writable earlier) (hplain : translator.options.timestamps = false)
    (hphrases : ∀ text phrase, translator.phrasebook.lookup? text language = some phrase →
      '\n' ∉ phrase)
    (hanswers : ∀ key answer, outcomes.get? key = some (.translated answer) → '\n' ∉ answer) :
    '\n' ∉ newValue (entries (parse content)) earlier outcomes key := by
  have hearlier (kept : Text) (he : earlier.get? key = some kept) : '\n' ∉ kept :=
    (hw _ (OrderedMap.get?_eq_some_iff.mp he)).2.line
  have hsource : '\n' ∉ ((entries (parse content)).get? key).getD [] := by
    cases hs : (entries (parse content)).get? key with
    | some value =>
      exact (Properties.writable_entries content _ (OrderedMap.get?_eq_some_iff.mp hs)).2.line
    | none => exact List.not_mem_nil
  rw [newValue]
  split
  · next answer ho => exact hanswers key answer ho
  · next text ho =>
    obtain ⟨value, before, after, htreated⟩ := h.treated (OrderedMap.get?_eq_some_iff.mp ho)
    cases htreated with
    | fallback hask hasked hphrase =>
      rw [stamped_of_plain hplain]
      exact hphrases value _ hphrase
  · next kept he _ _ => exact hearlier kept he
  · exact hsource

/-- What is read of a target is what was translated, exactly if no answer holds a line feed. -/
theorem entries_target_iff {translator : Translator} {service : Service} {clock : Nat → Moment}
    {language : Text} {start stop : Requests}
    (h : TreatedAll translator service clock language start (entries (parse content)).entries
      outcomes.entries stop)
    (hw : Writable earlier) (hplain : translator.options.timestamps = false)
    (hphrases : ∀ text phrase, translator.phrasebook.lookup? text language = some phrase →
      '\n' ∉ phrase) :
    let lines := parse content
    let kept := entries (parse (render (targetLines lines earlier outcomes.entries)))
    kept.keys = (entries lines).keys ++ (retained lines earlier).map Prod.fst ∧
        (∀ key answer, outcomes.get? key = some (.translated answer) →
          kept.get? key = some answer) ∧
        (∀ entry ∈ retained lines earlier, kept.get? entry.1 = some entry.2) ↔
      ∀ key answer, outcomes.get? key = some (.translated answer) → '\n' ∉ answer := by
  have hkeys : outcomes.keys = (entries (parse content)).keys := h.map_fst
  constructor
  · rintro ⟨-, hfound, -⟩ key answer ho
    have hkept := hfound key answer ho
    exact (Properties.writable_entries _ _ (OrderedMap.get?_eq_some_iff.mp hkept)).2.line
  · intro hanswers
    have hread := entries_target_of_lines hkeys hw fun key _ =>
      not_mem_newValue h hw hplain hphrases hanswers
    refine ⟨keys_of_reread hread, fun key answer ho => ?_, fun entry he => ?_⟩
    · have hm : (key, .translated answer) ∈ outcomes.entries := OrderedMap.get?_eq_some_iff.mp ho
      rw [get?_reread_source hread (hkeys ▸ List.mem_map_of_mem hm), newValue_translated ho,
        h.trim_translated hplain hm]
    · rw [get?_reread_retained hread he, (hw entry (List.mem_of_mem_filter he)).2.trimmed]

/-- A target whose translations carry no times and whose phrases have one line each says what was
translated: the keys of the source in their order and behind them those that only the earlier target
had, every answer of the service without the white space around it, and every earlier value of a key
that the source lacks. It does so exactly if no such answer holds a line feed. -/
theorem translateFile_rereads (translator : Translator) (source : Path) (locale : Locale)
    (target : Path) (before : World) {report : Report}
    (hok : ((translator.translateFile source locale target).run before).1.result = .ok report)
    (hplain : translator.options.timestamps = false)
    (hphrases : ∀ text phrase, translator.phrasebook.lookup? text locale.language = some phrase →
      '\n' ∉ phrase) :
    let after := ((translator.translateFile source locale target).run before).2
    ∃ content earlier kept requests, ∃ outcomes : OrderedMap Text Outcome,
      before.text? source = some content ∧
      (PropertyFile.readEntries target).runOn before = (.ok earlier, before) ∧
      (PropertyFile.readEntries target).runOn after = (.ok kept, after) ∧
      let lines := parse content
      TreatedAll translator before.service before.clock locale.language ⟨false, before.calls⟩
        (entries lines).entries outcomes.entries requests ∧
      (kept.keys = (entries lines).keys ++ (retained lines earlier).map Prod.fst ∧
          (∀ key answer, outcomes.get? key = some (.translated answer) →
            kept.get? key = some answer) ∧
          (∀ entry ∈ retained lines earlier, kept.get? entry.1 = some entry.2) ↔
        ∀ key answer, outcomes.get? key = some (.translated answer) → '\n' ∉ answer) := by
  intro after
  obtain ⟨content, earlier, found, requests, hcontent, hearlier, htreated, -, -, hbytes, -, -⟩ :=
    translateFile_eq_ok (Prod.eta _).symm hok
  obtain ⟨outcomes, rfl, -⟩ := htreated.exists_map
  have htext : after.text? target =
      some (render (targetLines (parse content) earlier outcomes.entries)) :=
    World.text?_of_read hbytes
  have hwritable := PropertyFile.writable_of_readEntries hearlier
  refine ⟨content, earlier, _, requests, outcomes, hcontent, hearlier,
    PropertyFile.readEntries_eq_ok.mpr ⟨rfl, .inr ⟨_, htext, rfl⟩⟩, htreated, ?_⟩
  exact entries_target_iff htreated hwritable hplain hphrases

/-- A service that gives these answers, one for each call. -/
def answering (answers : List Text) : Service := fun asked text language =>
  match answers[asked]? with
  | some answer => .ok answer
  | none => .error (.unavailable text language)

theorem translateFile_rereads_page :
    let before := sampleWorld "k=Hello\nm=Bye\n".toList "x=old\n".toList
      (answering [" Hola".toList, "a=b".toList])
    let after := ((sampleTranslator.translateFile sampleSource spanish sampleTarget).run before).2
    ∃ kept, (PropertyFile.readEntries sampleTarget).runOn after = (.ok kept, after) ∧
      kept.keys = ["k".toList, "m".toList, "x".toList] ∧ kept.get? "k".toList = some "Hola".toList ∧
      kept.get? "m".toList = some "a=b".toList ∧ kept.get? "x".toList = some "old".toList := by
  intro before after
  have hok : ((sampleTranslator.translateFile sampleSource spanish sampleTarget).run
      before).1.result = .ok ⟨sampleTarget, 2, 2, 0, 0, 1⟩ := by decide +kernel
  obtain ⟨content, earlier, kept, requests, outcomes, hcontent, hearlier, hkept, htreated, hiff⟩ :=
    translateFile_rereads sampleTranslator sampleSource spanish sampleTarget before hok rfl
      fun _ _ hphrase => nomatch hphrase
  obtain rfl : "k=Hello\nm=Bye\n".toList = content := Option.some.inj
    ((show before.text? sampleSource = some "k=Hello\nm=Bye\n".toList by decide +kernel).symm.trans
      hcontent)
  have hold : earlier.entries = [("x".toList, "old".toList)] := by
    have hread : ((PropertyFile.readEntries sampleTarget).runOn before).1.map OrderedMap.entries =
        .ok [("x".toList, "old".toList)] := by decide +kernel
    rw [hearlier] at hread
    exact Except.ok.inj hread
  have hfound : outcomes.entries =
      [("k".toList, .translated "Hola".toList), ("m".toList, .translated "a=b".toList)] := by
    obtain ⟨_, hrun, -⟩ := translateEntries_run sampleTranslator spanish.language false
      (entries (parse "k=Hello\nm=Bye\n".toList)).entries before
    exact (htreated.unique hrun).1.trans (by decide +kernel)
  have hretained : retained (parse "k=Hello\nm=Bye\n".toList) earlier =
      [("x".toList, "old".toList)] := by
    rw [retained, hold]
    decide +kernel
  obtain ⟨hkeys, hanswers, hearlier⟩ := hiff.mpr fun key answer ho => by
    have hm := OrderedMap.get?_eq_some_iff.mp ho
    rw [hfound] at hm
    rcases List.mem_cons.mp hm with he | hm
    · obtain ⟨-, rfl⟩ : key = _ ∧ answer = "Hola".toList := by simpa using he
      decide
    · obtain ⟨-, rfl⟩ : key = _ ∧ answer = "a=b".toList := by simpa using hm
      decide
  rw [hretained] at hkeys hearlier
  refine ⟨kept, hkept, hkeys.trans (by decide +kernel), hanswers _ _ ?_, hanswers _ _ ?_,
    hearlier _ List.mem_cons_self⟩
  · rw [OrderedMap.get?_eq_some_iff, hfound]
    exact List.mem_cons_self
  · rw [OrderedMap.get?_eq_some_iff, hfound]
    exact List.mem_cons_of_mem _ List.mem_cons_self

/-- Nothing is escaped: an answer that goes on in a line of its own says what another key is. -/
theorem translateFile_misreads_lines :
    let before := sampleWorld "k=Hello\nm=Bye\n".toList []
      (answering ["x".toList, "y\nk=z".toList])
    let after := ((sampleTranslator.translateFile sampleSource spanish sampleTarget).run before).2
    ((sampleTranslator.translateEntries spanish.language false
        (entries (parse "k=Hello\nm=Bye\n".toList)).entries).run before).1 =
        [("k".toList, .translated "x".toList), ("m".toList, .translated "y\nk=z".toList)] ∧
      ((sampleTranslator.translateFile sampleSource spanish sampleTarget).run before).1.result =
        .ok ⟨sampleTarget, 2, 2, 0, 0, 0⟩ ∧
      ((PropertyFile.readEntries sampleTarget).runOn after).1.map OrderedMap.entries =
        .ok [("k".toList, "z".toList), ("m".toList, "y".toList)] := by
  decide +kernel

end MessageKeys.Localization
