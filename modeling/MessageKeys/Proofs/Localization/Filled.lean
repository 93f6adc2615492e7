import MessageKeys.Proofs.Localization.Reread

/-!
# Values that are left blank

A value of a target comes from an answer, a phrase, the earlier target or the source. The earlier
target is preferred to the source even where it has an empty value, so that value stays empty; and an
answer or phrase blanks a key if one of its lines does. No key with a value in the source is left
blank in any other way.
-/
namespace MessageKeys.Localization

open OrderedMap (last?)
open Properties (IsKey IsValue Line Writable entries pairOn? pairs parse spelled)

variable {earlier : OrderedMap Text Text} {outcomes : OrderedMap Text Outcome}
  {key text content : Text} {pair : Text × Text}

/-- The text that was found for a value. -/
def Outcome.found? : Outcome → Option Text
  | translated text | fallback text => some text
  | untranslated => none

/-- The keys that get an answer or a phrase, with what they get. -/
def translations (outcomes : OrderedMap Text Outcome) : List (Text × Text) :=
  outcomes.entries.filterMap fun entry => entry.2.found?.map (entry.1, ·)

/-- A text that leaves no key blank where it is written as a value: its first line is not blank, and
no further line is a pair without a value. -/
structure Filled (text : Text) : Prop where
  first : ∀ line ∈ (text.pieces '\n').head?, line.trim ≠ []
  further : ∀ line ∈ (text.pieces '\n').tail, ∀ pair ∈ pairOn? line, pair.2 ≠ []

instance (text : Text) : Decidable (Filled text) :=
  decidable_of_iff ((∀ line ∈ (text.pieces '\n').head?, line.trim ≠ []) ∧
      ∀ line ∈ (text.pieces '\n').tail, ∀ pair ∈ pairOn? line, pair.2 ≠ [])
    ⟨fun ⟨hfirst, hfurther⟩ => ⟨hfirst, hfurther⟩, fun h => ⟨h.first, h.further⟩⟩

theorem snd_ne_nil_of_mem_spelled (hk : IsKey key) (hf : Filled text)
    (hm : pair ∈ spelled (key, text)) : pair.2 ≠ [] := by
  obtain ⟨hfirst, hfurther⟩ := hf
  by_cases hl : '\n' ∈ text
  · obtain ⟨line, more, rfl, hline⟩ := List.eq_append_cons_of_mem hl
    rw [Text.pieces_append, Text.pieces_of_not_mem hline] at hfirst hfurther
    have hspelled : spelled (key, line ++ '\n' :: more) = spelled (key, line) ++ pairs more := by
      rw [spelled, spelled, ← Properties.pairs_append]
      simp
    rw [hspelled, Properties.spelled_of_line hk hline] at hm
    rcases List.mem_append.mp hm with hm | hm
    · obtain rfl := List.mem_singleton.mp hm
      exact hfirst line rfl
    · obtain ⟨raw, hraw, hpair⟩ := List.mem_filterMap.mp hm
      exact hfurther raw hraw pair hpair
  · rw [Properties.spelled_of_line hk hl] at hm
    obtain rfl := List.mem_singleton.mp hm
    rw [Text.pieces_of_not_mem hl] at hfirst
    exact hfirst text rfl

/-- Where a new value comes from. -/
theorem newValue_cases (source earlier : OrderedMap Text Text) (hk : key ∈ outcomes.keys) :
    (key, newValue source earlier outcomes key) ∈ translations outcomes ∨
      outcomes.get? key = some .untranslated ∧
        (earlier.get? key = some (newValue source earlier outcomes key) ∨
          earlier.get? key = none ∧
            newValue source earlier outcomes key = (source.get? key).getD []) := by
  obtain ⟨outcome, ho⟩ := OrderedMap.get?_of_mem_keys hk
  have hfound (text : Text) (ht : outcome.found? = some text) : (key, text) ∈ translations outcomes :=
    List.mem_filterMap.mpr ⟨(key, outcome), OrderedMap.get?_eq_some_iff.mp ho, by simp [ht]⟩
  rw [newValue, ho]
  cases outcome with
  | translated text => exact .inl (hfound text rfl)
  | fallback text => exact .inl (hfound text rfl)
  | untranslated =>
    refine .inr ⟨rfl, ?_⟩
    cases earlier.get? key with
    | some kept => exact .inl rfl
    | none => exact .inr ⟨rfl, rfl⟩

theorem isKey_of_mem_translations (hk : outcomes.keys = (entries (parse content)).keys)
    (hm : (key, text) ∈ translations outcomes) : IsKey key := by
  obtain ⟨⟨known, outcome⟩, ho, hfound⟩ := List.mem_filterMap.mp hm
  obtain ⟨_, -, he⟩ := Option.map_eq_some_iff.mp hfound
  obtain ⟨rfl, -⟩ := Prod.mk.inj he
  have hkey : known ∈ outcomes.keys := List.mem_map_of_mem ho
  exact Properties.isKey_of_mem_keys (hk ▸ hkey)

/-- What the lines of a target spell: answers and phrases, earlier values that were not replaced, and
values of the source that the earlier target has no value for. -/
theorem mem_spelled_targetPairs (hk : outcomes.keys = (entries (parse content)).keys)
    (hw : Writable earlier)
    (hm : pair ∈ (targetPairs (parse content) earlier outcomes).flatMap spelled) :
    pair ∈ (translations outcomes).flatMap spelled ∨
      (∀ outcome ∈ outcomes.get? pair.1, outcome = .untranslated) ∧
        (earlier.get? pair.1 = some pair.2 ∨
          earlier.get? pair.1 = none ∧ (entries (parse content)).get? pair.1 = some pair.2) := by
  obtain ⟨⟨key, value⟩, he, hs⟩ := List.mem_flatMap.mp hm
  -- values that were read stand on their lines, so they spell nothing but themselves
  have hplain (hkey : IsKey key) (hvalue : IsValue value) : pair = (key, value) := by
    rw [Properties.spelled_of_isKey hkey hvalue] at hs
    exact List.mem_singleton.mp hs
  rcases List.mem_append.mp he with he | he
  · obtain ⟨_, hkey, hpair⟩ := List.mem_map.mp he
    obtain ⟨rfl, rfl⟩ := Prod.mk.inj hpair
    obtain ⟨old, hold⟩ := OrderedMap.get?_of_mem_keys hkey
    have hform := Properties.writable_entries content _ (OrderedMap.get?_eq_some_iff.mp hold)
    rcases newValue_cases (entries (parse content)) earlier (hk ▸ hkey) with
      hfound | ⟨hno, hkept | ⟨hnone, hvalue⟩⟩
    · exact .inl (List.mem_flatMap.mpr ⟨_, hfound, hs⟩)
    · have hvalue := (hw _ (OrderedMap.get?_eq_some_iff.mp hkept)).2
      obtain rfl := hplain hform.1 hvalue
      exact .inr ⟨by simp [hno], .inl hkept⟩
    · rw [hold, Option.getD_some] at hvalue
      obtain rfl := hplain hform.1 (hvalue ▸ hform.2)
      exact .inr ⟨by simp [hno], .inr ⟨hnone, hvalue ▸ hold⟩⟩
  · obtain ⟨hold, hlacks⟩ := List.mem_filter.mp he
    obtain ⟨hkey, hvalue⟩ := hw _ hold
    obtain rfl := hplain hkey hvalue
    have hnone : outcomes.get? key = none := by
      rw [OrderedMap.get?_eq_none_iff, hk, keys_entries, OrderedMap.mem_firsts]
      simpa using hlacks
    exact .inr ⟨by simp [hnone], .inl (OrderedMap.get?_eq_some_iff.mpr hold)⟩

/-- Every key of the source or the earlier target is spelled. -/
theorem exists_last?_targetPairs (content : Text) (outcomes : OrderedMap Text Outcome)
    (hw : Writable earlier)
    (hm : key ∈ (entries (parse content)).keys ∨ key ∈ earlier.keys) :
    ∃ text, last? key ((targetPairs (parse content) earlier outcomes).flatMap spelled) =
      some text := by
  have hpair : ∃ value, (key, value) ∈ targetPairs (parse content) earlier outcomes ∧ IsKey key := by
    by_cases hs : key ∈ (entries (parse content)).keys
    · exact ⟨_, List.mem_append_left _ (List.mem_map_of_mem hs), Properties.isKey_of_mem_keys hs⟩
    · obtain ⟨old, hold⟩ := OrderedMap.get?_of_mem_keys (hm.resolve_left hs)
      have hentry := OrderedMap.get?_eq_some_iff.mp hold
      rw [keys_entries, OrderedMap.mem_firsts] at hs
      exact ⟨old, List.mem_append_right _ (List.mem_filter.mpr ⟨hentry, by simpa using hs⟩),
        (hw _ hentry).1⟩
  obtain ⟨value, hpair, hkey⟩ := hpair
  refine Option.ne_none_iff_exists'.mp fun hnone => OrderedMap.last?_eq_none_iff.mp hnone ?_
  rw [List.map_flatMap]
  exact List.mem_flatMap.mpr ⟨_, hpair, Properties.mem_spelled hkey value⟩

/-- A successful localization blanks no key by itself. An earlier value stays as it is, unless a line
of an answer or a phrase says something else for its key. And if no answer and no phrase leaves a key
blank, a key with a value in the source has one in the target also, but for a key that was not
translated and had an empty value there before. -/
theorem translateFile_fills (translator : Translator) (source : Path) (locale : Locale)
    (target : Path) (before : World) {report : Report}
    (hok : ((translator.translateFile source locale target).run before).1.result = .ok report) :
    let after := ((translator.translateFile source locale target).run before).2
    ∃ content earlier kept requests, ∃ outcomes : OrderedMap Text Outcome,
      before.text? source = some content ∧
      (PropertyFile.readEntries target).runOn before = (.ok earlier, before) ∧
      (PropertyFile.readEntries target).runOn after = (.ok kept, after) ∧
      let values := entries (parse content)
      TreatedAll translator before.service before.clock locale.language ⟨false, before.calls⟩
        values.entries outcomes.entries requests ∧
      (∀ key old, earlier.get? key = some old →
        key ∉ ((translations outcomes).flatMap spelled).map Prod.fst → kept.get? key = some old) ∧
      ((∀ entry ∈ translations outcomes, Filled entry.2) →
        ∀ key value, values.get? key = some value → value ≠ [] →
          ∃ text, kept.get? key = some text ∧
            (text = [] → earlier.get? key = some [] ∧ outcomes.get? key = some .untranslated)) := by
  intro after
  obtain ⟨content, earlier, found, requests, hcontent, hearlier, htreated, -, -, hbytes, -, -⟩ :=
    translateFile_eq_ok (Prod.eta _).symm hok
  obtain ⟨outcomes, rfl, hkeys⟩ := htreated.exists_map
  have htext := World.text?_of_read hbytes
  have hw := PropertyFile.writable_of_readEntries hearlier
  refine ⟨content, earlier, _, requests, outcomes, hcontent, hearlier,
    PropertyFile.readEntries_eq_ok.mpr ⟨rfl, .inr ⟨_, htext, rfl⟩⟩, htreated, ?_, ?_⟩
  · intro key old hold hnot
    obtain ⟨text, hlast⟩ := exists_last?_targetPairs content outcomes hw
      (.inr (OrderedMap.mem_keys_of_get? hold))
    rw [entries_target hkeys, OrderedMap.get?_ofList, hlast]
    rcases mem_spelled_targetPairs hkeys hw (OrderedMap.mem_of_last? hlast) with
      hfound | ⟨-, hsame | ⟨hnone, -⟩⟩
    · exact absurd (List.mem_map_of_mem hfound) hnot
    · exact hsame.symm.trans hold
    · cases hnone.symm.trans hold
  · intro hfilled key value hvalue hne
    have hkey := OrderedMap.mem_keys_of_get? hvalue
    obtain ⟨text, hlast⟩ := exists_last?_targetPairs content outcomes hw (.inl hkey)
    refine ⟨text, by rw [entries_target hkeys, OrderedMap.get?_ofList, hlast], ?_⟩
    rintro rfl
    rcases mem_spelled_targetPairs hkeys hw (OrderedMap.mem_of_last? hlast) with
      hfound | ⟨hno, hsame | ⟨-, hsame⟩⟩
    · obtain ⟨entry, he, hs⟩ := List.mem_flatMap.mp hfound
      exact absurd rfl
        (snd_ne_nil_of_mem_spelled (isKey_of_mem_translations hkeys he) (hfilled entry he) hs)
    · obtain ⟨outcome, ho⟩ := OrderedMap.get?_of_mem_keys (hkeys ▸ hkey)
      exact ⟨hsame, by rw [ho, hno outcome ho]⟩
    · exact absurd (Option.some.inj (hvalue.symm.trans hsame)) hne

/-- An answer that goes on in a line of its own, and a service that fails after it. -/
theorem translateFile_fills_page :
    let before := sampleWorld "k=Hello\nm=Bye\n".toList "m=old\n".toList
      (answering [" Hola\nx=y".toList])
    let after := ((sampleTranslator.translateFile sampleSource spanish sampleTarget).run before).2
    ∃ kept, (PropertyFile.readEntries sampleTarget).runOn after = (.ok kept, after) ∧
      kept.get? "m".toList = some "old".toList ∧
      ∃ text, kept.get? "k".toList = some text ∧ text ≠ [] := by
  intro before after
  have hok : ((sampleTranslator.translateFile sampleSource spanish sampleTarget).run
      before).1.result = .ok ⟨sampleTarget, 2, 1, 0, 1, 0⟩ := by decide +kernel
  obtain ⟨content, earlier, kept, requests, outcomes, hcontent, hearlier, hkept, htreated, hold,
    hfills⟩ := translateFile_fills sampleTranslator sampleSource spanish sampleTarget before hok
  obtain rfl : "k=Hello\nm=Bye\n".toList = content := Option.some.inj
    ((show before.text? sampleSource = some "k=Hello\nm=Bye\n".toList by decide +kernel).symm.trans
      hcontent)
  have hpairs : earlier.entries = [("m".toList, "old".toList)] := by
    have hread : ((PropertyFile.readEntries sampleTarget).runOn before).1.map OrderedMap.entries =
        .ok [("m".toList, "old".toList)] := by decide +kernel
    rw [hearlier] at hread
    exact Except.ok.inj hread
  have hfound : outcomes.entries =
      [("k".toList, .translated "Hola\nx=y".toList), ("m".toList, .untranslated)] := by
    obtain ⟨_, hrun, -⟩ := translateEntries_run sampleTranslator spanish.language false
      (entries (parse "k=Hello\nm=Bye\n".toList)).entries before
    exact (htreated.unique hrun).1.trans (by decide +kernel)
  have htranslations : translations outcomes = [("k".toList, "Hola\nx=y".toList)] := by
    rw [translations, hfound]
    rfl
  rw [htranslations] at hold hfills
  have hm : earlier.get? "m".toList = some "old".toList := by
    rw [OrderedMap.get?_eq_some_iff, hpairs]
    exact List.mem_cons_self
  have hk : earlier.get? "k".toList = none := by
    rw [OrderedMap.get?_eq_none_iff, OrderedMap.keys, hpairs]
    decide
  obtain ⟨text, hfilled, hblank⟩ := hfills (by decide +kernel) "k".toList "Hello".toList
    (by decide +kernel) (by decide)
  refine ⟨kept, hkept, hold _ _ hm (by decide +kernel), text, hfilled, fun he => ?_⟩
  cases hk.symm.trans (hblank he).1

/-- An empty value of the earlier target is kept where the service fails, and a line of an answer can
leave the key of another value blank. -/
theorem translateFile_blanks :
    let failing := sampleWorld "m=Bye\n".toList "m=\n".toList (answering [])
    let straying := sampleWorld "k=Hello\nm=Bye\n".toList []
      (answering ["Hola".toList, "x\nk=".toList])
    let ran := fun before => (sampleTranslator.translateFile sampleSource spanish sampleTarget).run before
    let found := fun before => ((PropertyFile.readEntries sampleTarget).runOn (ran before).2).1
    (ran failing).1.result = .ok ⟨sampleTarget, 1, 0, 0, 1, 0⟩ ∧
      (found failing).map OrderedMap.entries = .ok [("m".toList, [])] ∧
      (ran straying).1.result = .ok ⟨sampleTarget, 2, 2, 0, 0, 0⟩ ∧
      (found straying).map OrderedMap.entries = .ok [("k".toList, []), ("m".toList, "x".toList)] := by
  decide +kernel

end MessageKeys.Localization
